import TinyLanguage.Limits
import TinyLanguage.Parser.Expression
import TinyLanguage.Token.Session
import TinyLanguage.Tree.Draft

namespace TinyLanguage

/-- A parser that asks a cursor for one token at a time. It holds the token ahead, the place of the
latest token that it has given away, and how deep it stands. -/
structure Reader where
  cursor : Cursor
  current : Option Token := none
  previous : Span := {}
  depth : Nat := 0
deriving DecidableEq, Repr

namespace Reader

def ofText (text : String) : Reader :=
  { cursor := .ofText text }

def here (r : Reader) : Span :=
  (r.current.map Token.span).getD r.cursor.here

def unexpected (expected : String) (r : Reader) : Error :=
  match r.current with
  | some t => .unexpected expected t.describe t.span
  | none => .unexpectedEnd expected r.cursor.here

def shift (r : Reader) (next : Option Token) (cursor : Cursor) : Reader :=
  { r with cursor, current := next, previous := (r.current.map Token.span).getD r.previous }

/-- Gives the token ahead away. The next one is asked for first; if there is something wrong with
it, only the cursor has moved. -/
def advance (r : Reader) : Except Error (Option Token) × Reader :=
  match r.cursor.read with
  | (.error e, c) => (.error e, { r with cursor := c })
  | (.ok none, c) => (.ok r.current, r.shift none c)
  | (.ok (some t), c) =>
    if t.kind = .invalid then (.error (.invalidToken t), { r with cursor := c })
    else (.ok r.current, r.shift (some t) c)

inductive Call where
  | advance
  | deepen
  | restore (depth : Nat)
deriving DecidableEq, Repr

def serve (r : Reader) : Call → Reader
  | .advance => r.advance.2
  | .deepen => { r with depth := r.depth + 1 }
  | .restore depth => { r with depth }

/-- What becomes of a reader by some calls, listed with the latest first. -/
def after (r : Reader) : List Call → Reader
  | [] => r
  | c :: calls => (r.after calls).serve c

/-- A reader at work, with the calls that have brought it from where it started to where it is. -/
structure Run (start : Reader) where
  now : Reader
  calls : List Call
  now_eq : now = start.after calls

namespace Run

variable {start : Reader}

def begin (start : Reader) : Run start :=
  ⟨start, [], rfl⟩

def call (run : Run start) (c : Call) : Run start :=
  ⟨run.now.serve c, c :: run.calls, congrArg (·.serve c) run.now_eq⟩

end Run

/-- What a reader does until it has found something or an error. It has no outcome if it goes on
forever, or if it has to count further than it can. -/
abbrev Routine (start : Reader) := ExceptT Error (StateT (Run start) Option)

namespace Routine

variable {start : Reader}

def outcome {α : Type} (p : Routine start α) (run : Run start) :
    Option (Except Error α × Run start) :=
  p.run.run run

def advance : Routine start (Option Token) := do
  let run ← get
  set (run.call .advance)
  ofExcept run.now.advance.1

def restore (depth : Nat) : Routine start Unit :=
  modify fun run => run.call (.restore depth)

def peekKind : Routine start (Option Token.Kind) := do
  return (← get).now.current.map Token.kind

def peekOperator (select : Token.Kind → Option Operator) : Routine start (Option Operator) := do
  return (← peekKind).bind select

def unexpected {α : Type} (expected : String) : Routine start α := do
  throw ((← get).now.unexpected expected)

def ofOption (expected : String) : Option Token → Routine start Token
  | some t => return t
  | none => unexpected expected

def expect (kind : Token.Kind) : Routine start Token := do
  if (← peekKind) = some kind then ofOption kind.describe (← advance)
  else unexpected kind.describe

def spanFrom (first : Span) : Routine start Span := do
  return first.extendTo (← get).now.previous

inductive Part where
  | expression
  | sequence

inductive Tier where
  | sum
  | product

def Tier.operator? : Tier → Token.Kind → Option Operator
  | sum => Token.Kind.additive?
  | product => Token.Kind.multiplicative?

def readStatement : Routine start Draft := do
  let first ← expect .readKw
  let target ← expect .identifier
  return .ofKind (.read target.text) (first.span.extendTo target.span)

def finish (d : Draft) : Routine start Draft := do
  match (← get).now.current with
  | some t => throw (.trailing t.describe t.span)
  | none => return d

/-- How deep a reader may stand, and how deep it can count. -/
structure Gauge where
  limit : Nat
  largest : Nat

namespace Gauge

def descend (g : Gauge) : Routine start Unit := do
  let run ← get
  if g.limit ≤ run.now.depth then throw (.tooDeep g.limit run.now.here)
  else if run.now.depth < g.largest then set (run.call .deepen)
  else fun _ => none

mutual

/-- Goes one level down for a part, and back behind it, whether it has been found or not. -/
def nested (g : Gauge) (part : Part) : Routine start Draft := (do
    let base := (← get).now.depth
    match ← g.descend.run with
    | .error e => return .error e
    | .ok () =>
      -- An error found here must not be raised before the level has been given back.
      let result ← (g |>.body part).run
      modify fun run => run.call (.restore base)
      return result : StateT (Run start) Option (Except Error Draft))
partial_fixpoint

def body (g : Gauge) (part : Part) : Routine start Draft :=
  match part with
  | .expression => do
    let left ← g |>.chain .sum
    match ← peekOperator Token.Kind.comparison? with
    | none => return left
    | some op =>
      let _ ← advance
      let right ← g |>.chain .sum
      return .join op left right
  | .sequence => do
    let first ← g |>.statement
    g |>.moreStatements first []
partial_fixpoint

def chain (g : Gauge) (tier : Tier) : Routine start Draft := do
  let base := (← get).now.depth
  let left ← g |>.operand tier
  g |>.moreOperands tier base left
partial_fixpoint

/-- Goes on with a chain that has begun with `left` at the depth `base`. Each operator takes one
level for all that follows it there. -/
def moreOperands (g : Gauge) (tier : Tier) (base : Nat) (left : Draft) :
    Routine start Draft := do
  match ← peekOperator tier.operator? with
  | none =>
    restore base
    return left
  | some op =>
    g.descend
    let _ ← advance
    let right ← g |>.operand tier
    g |>.moreOperands tier base (.join op left right)
partial_fixpoint

def operand (g : Gauge) (tier : Tier) : Routine start Draft :=
  match tier with
  | .sum => g |>.chain .product
  | .product => g |>.factor
partial_fixpoint

def factor (g : Gauge) : Routine start Draft := do
  match ← peekKind with
  | some .leftParen =>
    let _ ← advance
    let d ← g |>.nested .expression
    let _ ← expect .rightParen
    return d
  | some .number =>
    let t ← expect .number
    return .ofKind (.constant t.text) t.span
  | some .identifier =>
    let t ← expect .identifier
    return .ofKind (.identifier t.text) t.span
  | _ => unexpected "'(', number or identifier"
partial_fixpoint

def statement (g : Gauge) : Routine start Draft := do
  match ← peekKind with
  | some .ifKw => g |>.conditional
  | some .repeatKw => g |>.repetition
  | some .identifier => g |>.assignment
  | some .readKw => readStatement
  | some .writeKw => g |>.writeStatement
  | _ => unexpected "statement"
partial_fixpoint

def conditional (g : Gauge) : Routine start Draft := do
  let first ← expect .ifKw
  let mut node := Draft.ofKind .conditional first.span
  node := node.push (← g |>.nested .expression)
  let _ ← expect .thenKw
  node := node.push (← g |>.nested .sequence)
  if (← peekKind) = some .elseKw then
    let _ ← advance
    node := node.push (← g |>.nested .sequence)
  let _ ← expect .endKw
  return node.withSpan (← spanFrom first.span)
partial_fixpoint

def repetition (g : Gauge) : Routine start Draft := do
  let first ← expect .repeatKw
  let mut node := Draft.ofKind .loop first.span
  node := node.push (← g |>.nested .sequence)
  let _ ← expect .untilKw
  node := node.push (← g |>.nested .expression)
  return node.withSpan (← spanFrom first.span)
partial_fixpoint

def assignment (g : Gauge) : Routine start Draft := do
  let target ← expect .identifier
  let _ ← expect .becomes
  let mut node := Draft.ofKind (.assign target.text) target.span
  node := node.push (← g |>.nested .expression)
  return node.withSpan (← spanFrom target.span)
partial_fixpoint

def writeStatement (g : Gauge) : Routine start Draft := do
  let first ← expect .writeKw
  let mut node := Draft.ofKind .write first.span
  node := node.push (← g |>.nested .expression)
  return node.withSpan (← spanFrom first.span)
partial_fixpoint

/-- Goes on with a sequence behind its statement `first` and those of `rest`, latest first. They are
linked when the last of them has been read. -/
def moreStatements (g : Gauge) (first : Draft) (rest : List Draft) : Routine start Draft := do
  match ← peekKind with
  | some .semicolon =>
    let _ ← advance
    let next ← g |>.statement
    g |>.moreStatements first (next :: rest)
  | _ => return first.link rest
partial_fixpoint

end

def program (g : Gauge) : Routine start Draft := do
  if (← get).now.current.isNone then throw .noStatements
  let d ← g.nested .sequence
  finish d

end Gauge

end Routine

/-- Reads a program token by token, where depths can be counted up to `largest`. A reader that has
just been made has no token ahead, so it advances first. -/
def parse (largest : Nat) (text : String) (limits : Limits := {}) :
    Option (Except Error Draft × Run (ofText text)) :=
  if text.utf8ByteSize ≤ limits.maxLength then
    Routine.outcome (do
      let _ ← Routine.advance
      Routine.Gauge.program ⟨limits.maxDepth, largest⟩) (.begin (ofText text))
  else some (.error (.tooLong limits.maxLength text.utf8ByteSize), .begin (ofText text))

end Reader

end TinyLanguage
