import TinyLanguage.Error
import TinyLanguage.Format.Graph
import TinyLanguage.Format.Source

namespace TinyLanguage

inductive Format where
  | outline | graph | source
deriving DecidableEq, Repr

namespace Format

def all : List Format :=
  [outline, graph, source]

def name : Format → String
  | outline => "tree"
  | graph => "dot"
  | source => "source"

def description : Format → String
  | outline => "Indented outline of node labels"
  | graph => "Graphviz DOT graph of the syntax tree"
  | source => "TINY source reconstructed from the tree"

def ofName? (name : String) : Option Format :=
  all.find? (fun f => f.name = name)

variable {α : Type}

/-- The lines of a tree; only statements have a source text of their own. -/
def lines (n : Node α) : Format → Except Error (List String)
  | outline => .ok (outlineLines n)
  | graph => .ok (graphLines n)
  | source =>
    match n with
    | .statement b => .ok (b.source 0)
    | .expression e => .error (.format s!"expected a statement, found '{e.kind.label}'")

def unlines (lines : List String) : String :=
  String.join (lines.map fun line => line.push '\n')

def render (f : Format) (n : Node α) : Except Error String :=
  (f.lines n).map unlines

end Format

end TinyLanguage
