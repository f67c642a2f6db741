import TinyLanguage.Token.Basic

namespace TinyLanguage

inductive Error where
  | lexical (message : String) (span : Span)
  | unexpected (expected found : String) (span : Span)
  | unexpectedEnd (expected : String) (span : Span)
  | trailing (found : String) (span : Span)
  | tooDeep (limit : Nat) (span : Span)
  | tooLong (limit length : Nat)
  | noStatements
  | format (message : String)
  | input (message : String)
deriving DecidableEq, Repr

namespace Error

def message : Error → String
  | lexical m s => s!"Lexical error at {s.describe}: {m}"
  | unexpected e f s => s!"Syntax error at {s.describe}: expected {e}, found {f}"
  | unexpectedEnd e s => s!"Syntax error at {s.describe}: expected {e}, but reached end of input"
  | trailing f s => s!"Syntax error at {s.describe}: unexpected {f} after the last statement"
  | tooDeep l s => s!"Nesting too deep at {s.describe}: limit is {l}"
  | tooLong l n => s!"Input too large: {n} bytes, limit is {l}"
  | noStatements => "Empty program: no statements found"
  | format m => s!"Emitter error: {m}"
  | input m => s!"IO error: {m}"

def span? : Error → Option Span
  | lexical _ s | unexpected _ _ s | unexpectedEnd _ s | trailing _ s | tooDeep _ s => some s
  | tooLong _ _ | noStatements | format _ | input _ => none

def isLexical : Error → Bool
  | lexical _ _ => true
  | _ => false

def placedAt (span : Span) : Error → Error
  | lexical message _ => .lexical message span
  | unexpected expected found _ => .unexpected expected found span
  | unexpectedEnd expected _ => .unexpectedEnd expected span
  | trailing found _ => .trailing found span
  | tooDeep limit _ => .tooDeep limit span
  | e => e

def mapSpan (f : Span → Span) (e : Error) : Error :=
  (e.span?.map fun s => e.placedAt (f s)).getD e

/-- Whether the tokens of the program are at fault, and not its text or its size. -/
def isGrammatical : Error → Bool
  | unexpected _ _ _ | unexpectedEnd _ _ | trailing _ _ => true
  | _ => false

def unterminatedComment (start finish : Position) : Error :=
  .lexical "unterminated comment" (.between start finish)

def invalidToken (t : Token) : Error :=
  .lexical (if t.text = ":" then "expected '=' after ':'" else s!"unrecognized character '{t.text}'")
    t.span

end Error

theorem ok_of_toOption {α : Type} {r : Except Error α} {a : α} (h : r.toOption = some a) :
    r = .ok a := by
  cases r with
  | error e => cases h
  | ok b => exact congrArg Except.ok (Option.some.inj h)

theorem eq_error_of_map {α β : Type} {f : α → β} {r : Except Error α} {e : Error}
    (h : r.map f = .error e) : r = .error e := by
  cases r with
  | error e' => exact congrArg Except.error (Except.error.inj h)
  | ok a => cases h

end TinyLanguage
