import TinyLanguage.Token.Scan

namespace TinyLanguage

/-- The tokens of a text, split at the place that a parser has reached: those behind it, latest
first, and the scan of those ahead. What lies ahead begins with no fault. -/
structure Parser.State where
  read : List Token
  ahead : Scan
  sound : ahead.fault? = none
deriving DecidableEq, Repr

abbrev Parser := StateT Parser.State (Except Error)

namespace Parser

namespace State

def ofScan (read : List Token) (ahead : Scan) : Except Error State :=
  match h : ahead.fault? with
  | some e => .error e
  | none => .ok ⟨read, ahead, h⟩

def here (st : State) : Span :=
  match st.ahead.tokens with
  | t :: _ => t.span
  | [] => .point st.ahead.ending.finish

def previous (st : State) : Span :=
  match st.read with
  | t :: _ => t.span
  | [] => {}

def unexpected (expected : String) (st : State) : Error :=
  match st.ahead.tokens with
  | t :: _ => .unexpected expected t.describe t.span
  | [] => .unexpectedEnd expected st.here

end State

variable {α : Type}

def peek : Parser (Option Token) := do
  return (← get).ahead.tokens.head?

def peekKind : Parser (Option Token.Kind) := do
  return (← peek).map Token.kind

/-- Reads one token; it stays ahead if what follows it is at fault. -/
def advance : Parser Unit := fun st =>
  match st.ahead.tokens with
  | t :: ts => do return ((), ← State.ofScan (t :: st.read) { st.ahead with tokens := ts })
  | [] => .ok ((), st)

def unexpected (expected : String) : Parser α := fun st =>
  .error (st.unexpected expected)

def expect (kind : Token.Kind) : Parser Token := do
  match ← peek with
  | some t =>
    if t.kind = kind then
      advance
      return t
    else unexpected kind.describe
  | none => unexpected kind.describe

/-- What to do where the program may not nest any further. -/
def tooDeep (limit : Nat) : Parser α := fun st =>
  .error (.tooDeep limit st.here)

def spanFrom (start : Span) : Parser Span := do
  return start.extendTo (← get).previous

end Parser

end TinyLanguage
