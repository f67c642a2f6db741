import TinyLanguage.Text.Span

namespace TinyLanguage

inductive Token.Kind where
  | ifKw | thenKw | elseKw | endKw | repeatKw | untilKw | readKw | writeKw
  | plus | minus | star | slash | equals | less
  | leftParen | rightParen | semicolon | becomes
  | identifier | number | invalid
deriving DecidableEq, Repr

namespace Token

namespace Kind

def keywords : List Kind :=
  [ifKw, thenKw, elseKw, endKw, repeatKw, untilKw, readKw, writeKw]

def symbols : List Kind :=
  [plus, minus, star, slash, equals, less, leftParen, rightParen, semicolon, becomes]

def spelling? : Kind → Option String
  | ifKw => some "if"
  | thenKw => some "then"
  | elseKw => some "else"
  | endKw => some "end"
  | repeatKw => some "repeat"
  | untilKw => some "until"
  | readKw => some "read"
  | writeKw => some "write"
  | plus => some "+"
  | minus => some "-"
  | star => some "*"
  | slash => some "/"
  | equals => some "="
  | less => some "<"
  | leftParen => some "("
  | rightParen => some ")"
  | semicolon => some ";"
  | becomes => some ":="
  | identifier | number | invalid => none

def keyword? (text : String) : Option Kind :=
  keywords.find? (fun k => k.spelling? = some text)

def symbol? (text : String) : Option Kind :=
  symbols.find? (fun k => k.spelling? = some text)

/-- The class of a text that is neither a keyword nor a symbol. Letters and digits are those of
ASCII. -/
def ofCharacters (cs : List Char) : Kind :=
  if cs = [] then invalid
  else if cs.all Char.isAlpha then identifier
  else if cs.all Char.isDigit then number
  else invalid

def classify (text : String) : Kind :=
  (keyword? text <|> symbol? text).getD (ofCharacters text.toList)

def describe (k : Kind) : String :=
  match k.spelling?, k with
  | some s, _ => s!"'{s}'"
  | none, identifier => "identifier"
  | none, number => "number"
  | none, _ => "invalid token"

def name : Kind → String
  | ifKw => "If"
  | thenKw => "Then"
  | elseKw => "Else"
  | endKw => "End"
  | repeatKw => "Repeat"
  | untilKw => "Until"
  | readKw => "Read"
  | writeKw => "Write"
  | plus => "Plus"
  | minus => "Minus"
  | star => "Star"
  | slash => "Slash"
  | equals => "Eq"
  | less => "Lt"
  | leftParen => "LParen"
  | rightParen => "RParen"
  | semicolon => "Semi"
  | becomes => "Assign"
  | identifier => "Identifier"
  | number => "Number"
  | invalid => "Invalid"

theorem spelling_of_keyword {s : String} {k : Kind} (h : keyword? s = some k) :
    k.spelling? = some s := by
  simpa using List.find?_some h

theorem spelling_of_symbol {s : String} {k : Kind} (h : symbol? s = some k) :
    k.spelling? = some s := by
  simpa using List.find?_some h

theorem spelling_ofCharacters (cs : List Char) : (ofCharacters cs).spelling? = none := by
  unfold ofCharacters
  split
  · rfl
  · split
    · rfl
    · split <;> rfl

theorem spelling_classify {s t : String} (h : (classify s).spelling? = some t) : t = s := by
  unfold classify at h
  cases hk : keyword? s with
  | some k =>
    have hs := spelling_of_keyword hk
    simp_all
  | none =>
    cases hy : symbol? s with
    | some k =>
      have hs := spelling_of_symbol hy
      simp_all
    | none => simp [hk, hy, spelling_ofCharacters] at h

theorem classify_spelling {s : String} {k : Kind} (h : k.spelling? = some s) :
    classify s = k := by
  cases k <;> simp [spelling?] at h <;> subst h <;> decide

end Kind

end Token

/-- A lexeme at its place. Its kind is the one that the text determines. -/
structure Token where
  kind : Token.Kind
  text : String
  span : Span
  kind_eq : kind = Token.Kind.classify text
deriving DecidableEq, Repr

namespace Token

def ofText (text : String) (span : Span) : Token :=
  ⟨Kind.classify text, text, span, rfl⟩

def describe (t : Token) : String :=
  match t.kind.spelling? with
  | some _ => t.kind.describe
  | none => s!"{t.kind.describe} '{t.text}'"

end Token

end TinyLanguage
