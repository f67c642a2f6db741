import TinyLanguage.Parser.State
import TinyLanguage.Tree.Basic

namespace TinyLanguage

namespace Token.Kind

def comparison? : Kind → Option Operator
  | less => some .less
  | equals => some .equal
  | _ => none

def additive? : Kind → Option Operator
  | plus => some .add
  | minus => some .subtract
  | _ => none

def multiplicative? : Kind → Option Operator
  | star => some .multiply
  | slash => some .divide
  | _ => none

end Token.Kind

def Expr.join (op : Operator) (left right : Expr Span) : Expr Span :=
  .binary (left.note.extendTo right.note) op left right

namespace Parser

def peekOperator (select : Token.Kind → Option Operator) : Parser (Option Operator) := do
  return (← peekKind).bind select

def factor (expression : Parser (Expr Span)) : Parser (Expr Span) := do
  match ← peekKind with
  | some .leftParen =>
    advance
    let e ← expression
    let _ ← expect .rightParen
    return e
  | some .number =>
    let t ← expect .number
    return .constant t.span t.text
  | some .identifier =>
    let t ← expect .identifier
    return .identifier t.span t.text
  | _ => unexpected "'(', number or identifier"

mutual

/-- The second argument of these three is the depth that is left. An expression takes one level of
it for all that it holds; an operator of a sum or of a product takes one for all that follows it
there. -/
def expression (limit : Nat) : Nat → Parser (Expr Span)
  | 0 => tooDeep limit
  | depth + 1 => do
    let left ← factor (expression limit depth) >>= moreFactors limit depth >>= moreTerms limit depth
    match ← peekOperator Token.Kind.comparison? with
    | none => return left
    | some op =>
      advance
      let right ←
        factor (expression limit depth) >>= moreFactors limit depth >>= moreTerms limit depth
      return .join op left right
termination_by structural depth => depth

def moreFactors (limit depth : Nat) (left : Expr Span) : Parser (Expr Span) := do
  match ← peekOperator Token.Kind.multiplicative? with
  | none => return left
  | some op =>
    match depth with
    | 0 => tooDeep limit
    | depth + 1 =>
      advance
      let right ← factor (expression limit depth)
      moreFactors limit depth (.join op left right)
termination_by structural depth

def moreTerms (limit depth : Nat) (left : Expr Span) : Parser (Expr Span) := do
  match ← peekOperator Token.Kind.additive? with
  | none => return left
  | some op =>
    match depth with
    | 0 => tooDeep limit
    | depth + 1 =>
      advance
      let right ← factor (expression limit depth) >>= moreFactors limit depth
      moreTerms limit depth (.join op left right)
termination_by structural depth

end

end Parser

end TinyLanguage
