import TinyLanguage.Tree.Equality
import TinyLanguage.Tree.Height
import TinyLanguage.Tree.Record
import TinyLanguage.Grammar.Derivation
import TinyLanguage.Tree.Draft
import TinyLanguage.Format.Printer
import TinyLanguage.Format.Sketch
import TinyLanguage.Token.Session
import TinyLanguage.Main
import TinyLanguage.Proofs.Grammar.Unambiguous
import TinyLanguage.Proofs.Grammar.Level
import TinyLanguage.Proofs.Grammar.Yield
import TinyLanguage.Proofs.Parser.Procedures
import TinyLanguage.Proofs.Parser.Completeness
import TinyLanguage.Proofs.Parser.Soundness
import TinyLanguage.Proofs.Parser.Exactness
import TinyLanguage.Proofs.Token.Spelling
import TinyLanguage.Proofs.Format.Printed
import TinyLanguage.Proofs.Format.Source
import TinyLanguage.Proofs.Grammar.Height
import TinyLanguage.Proofs.Grammar.Tower
import TinyLanguage.Proofs.Parser.Height
import TinyLanguage.Proofs.Format.RoundTrip
import TinyLanguage.Proofs.Parser.Foresight
import TinyLanguage.Proofs.Token.Order
import TinyLanguage.Proofs.Token.Likeness
import TinyLanguage.Proofs.Token.Partition
import TinyLanguage.Proofs.Text.Translation
import TinyLanguage.Proofs.Grammar.Prefix
import TinyLanguage.Proofs.Parser.Lockstep
import TinyLanguage.Proofs.Parser.Failure
import TinyLanguage.Proofs.Grammar.Mark
import TinyLanguage.Proofs.Parser.Depth
import TinyLanguage.Proofs.Parser.Diagnosis
import TinyLanguage.Proofs.Parser.Place
import TinyLanguage.Proofs.Parser.Monotone
import TinyLanguage.Proofs.Parser.Layout
import TinyLanguage.Proofs.Tree.Recursion
import TinyLanguage.Proofs.Tree.Walk
import TinyLanguage.Proofs.Parser.Form
import TinyLanguage.Proofs.Tree.Shape
import TinyLanguage.Proofs.Format.Drawing
import TinyLanguage.Proofs.Format.Sketch
import TinyLanguage.Proofs.Format.Edges
import TinyLanguage.Proofs.Format.Recovery
import TinyLanguage.Proofs.Format.Lines
import TinyLanguage.Proofs.Format.Graph
import TinyLanguage.Proofs.Grammar.Balance
import TinyLanguage.Proofs.Grammar.Frame
import TinyLanguage.Proofs.Token.Piece
import TinyLanguage.Proofs.Parser.Occurrence
import TinyLanguage.Proofs.Parser.Slice
import TinyLanguage.Proofs.Grammar.Translation
import TinyLanguage.Proofs.Grammar.Spread
import TinyLanguage.Proofs.Parser.Excerpt
import TinyLanguage.Proofs.Parser.Nesting
import TinyLanguage.Proofs.Parser.Listing
import TinyLanguage.Proofs.Parser.Chain
import TinyLanguage.Proofs.Token.Relocation
import TinyLanguage.Proofs.Token.Continuation
import TinyLanguage.Proofs.Parser.Remainder
import TinyLanguage.Proofs.Grammar.Sequencing
import TinyLanguage.Proofs.Parser.Sequencing
import TinyLanguage.Proofs.Tree.Descent
import TinyLanguage.Proofs.Grammar.Wrapping
import TinyLanguage.Proofs.Parser.Parentheses
import TinyLanguage.Proofs.Format.Refusal
import TinyLanguage.Proofs.Token.Session
import TinyLanguage.Proofs.Token.Respelling
import TinyLanguage.Proofs.Token.Concatenation
import TinyLanguage.Proofs.Format.Forest
import TinyLanguage.Proofs.Format.Outline
import TinyLanguage.Proofs.Tree.Equality
import TinyLanguage.Proofs.Command.Table
import TinyLanguage.Parser.Reader
import TinyLanguage.Proofs.Parser.Reader
import TinyLanguage.Proofs.Parser.Routine
import TinyLanguage.Proofs.Parser.Agreement
import TinyLanguage.Proofs.Parser.Stream
import TinyLanguage.Proofs.Parser.Budget
