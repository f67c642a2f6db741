import TinyLanguage.Parser.Program
import TinyLanguage.Format.Catalogue
import TinyLanguage.Text.Column

namespace TinyLanguage

inductive Command where
  | parse (input format : String) (limits : Limits)
  | tokens (input : String)
  | formats
deriving DecidableEq, Repr

structure Outcome where
  exitCode : Nat
  output : String
  complaint : String
deriving DecidableEq, Repr

def Token.row (t : Token) : String :=
  s!"{alignRight 4 (toString t.span.line)}:{alignLeft 3 (toString t.span.column)} " ++
    s!"{alignLeft 12 t.kind.name} {t.text}"

def Format.row (f : Format) : String :=
  s!"  {alignLeft 8 f.name} - {f.description}"

namespace Outcome

def ofExcept : Except Error String → Outcome
  | .ok text => ⟨0, text, ""⟩
  | .error e => ⟨1, "", s!"Error: {e.message}\n"⟩

end Outcome

namespace Command

/-- The input whose contents the command asks for. A format that does not exist is refused before
anything is read. -/
def input? : Command → Option String
  | parse input format _ => (Format.ofName? format).map fun _ => input
  | tokens input => some input
  | formats => none

def decode (contents : Except String ByteArray) : Except Error String :=
  match contents with
  | .error e => .error (.input e)
  | .ok bytes =>
    match String.fromUTF8? bytes with
    | some text => .ok text
    | none => .error (.input "stream did not contain valid UTF-8")

def answer (contents : Except String ByteArray) : Command → Except Error String
  | parse _ format limits =>
    match Format.ofName? format with
    | none => .error (.format s!"unknown emitter '{format}'")
    | some f => do
      let text ← decode contents
      f.render (.statement (← TinyLanguage.parse text limits))
  | tokens _ => do
    let text ← decode contents
    return Format.unlines ((← tokenize text).map Token.row)
  | formats => .ok (Format.unlines ("Supported emitters:" :: Format.all.map Format.row))

def run (c : Command) (contents : Except String ByteArray) : Outcome :=
  .ofExcept (c.answer contents)

end Command

end TinyLanguage
