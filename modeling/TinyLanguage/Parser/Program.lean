import TinyLanguage.Limits
import TinyLanguage.Parser.Expression

namespace TinyLanguage

namespace Parser

section

variable (expression : Parser (Expr Span)) (sequence : Parser (Block Span))

def conditional : Parser (Statement Span) := do
  let start ← expect .ifKw
  let condition ← expression
  let _ ← expect .thenKw
  let consequent ← sequence
  match ← peekKind with
  | some .elseKw =>
    advance
    let alternative ← sequence
    let _ ← expect .endKw
    return .ifThenElse (← spanFrom start.span) condition consequent alternative
  | _ =>
    let _ ← expect .endKw
    return .ifThen (← spanFrom start.span) condition consequent

def repetition : Parser (Statement Span) := do
  let start ← expect .repeatKw
  let body ← sequence
  let _ ← expect .untilKw
  let condition ← expression
  return .repeatUntil (← spanFrom start.span) body condition

def assignment : Parser (Statement Span) := do
  let target ← expect .identifier
  let _ ← expect .becomes
  let value ← expression
  return .assign (← spanFrom target.span) target.text value

def readStatement : Parser (Statement Span) := do
  let start ← expect .readKw
  let target ← expect .identifier
  return .read (start.span.extendTo target.span) target.text

def writeStatement : Parser (Statement Span) := do
  let start ← expect .writeKw
  let value ← expression
  return .write (← spanFrom start.span) value

def statement : Parser (Statement Span) := do
  match ← peekKind with
  | some .ifKw => conditional expression sequence
  | some .repeatKw => repetition expression sequence
  | some .identifier => assignment expression
  | some .readKw => readStatement
  | some .writeKw => writeStatement expression
  | _ => unexpected "statement"

end

/-- Goes on with a block behind its statements `before`, latest first, and `s`. The last argument
lists the tokens ahead: each further statement takes one of them for its semicolon, so the list is
not used up while a semicolon is ahead. -/
def moreStatements (item : Parser (Statement Span)) (before : List (Statement Span))
    (s : Statement Span) : List Token → Parser (Block Span)
  | [] => return .ofReverse before s
  | _ :: bound => do
    match ← peekKind with
    | some .semicolon =>
      advance
      let next ← item
      moreStatements item (s :: before) next bound
    | _ => return .ofReverse before s

/-- The second argument is the depth that is left; a block takes one level of it for all that it
holds. -/
def sequence (limit : Nat) : Nat → Parser (Block Span)
  | 0 => tooDeep limit
  | depth + 1 => do
    let item := statement (expression limit depth) (sequence limit depth)
    let first ← item
    moreStatements item [] first (← get).ahead.tokens

def program (maxDepth : Nat) : Parser (Block Span) := do
  if (← peek).isNone then throw .noStatements
  let b ← sequence maxDepth maxDepth
  match ← peek with
  | some t => throw (.trailing t.describe t.span)
  | none => return b

end Parser

def parse (text : String) (limits : Limits := {}) : Except Error (Block Span) :=
  if text.utf8ByteSize ≤ limits.maxLength then do
    let st ← Parser.State.ofScan [] (.ofText text)
    (Parser.program limits.maxDepth).run' st
  else .error (.tooLong limits.maxLength text.utf8ByteSize)

end TinyLanguage
