import TinyLanguage.Token.Lexeme
import TinyLanguage.Tree.Basic

namespace TinyLanguage.Grammar

inductive ProductSign where
  | star | slash
deriving DecidableEq, Repr

inductive SumSign where
  | plus | minus
deriving DecidableEq, Repr

inductive ComparisonSign where
  | less | equals
deriving DecidableEq, Repr

def ProductSign.kind : ProductSign → Token.Kind
  | star => .star
  | slash => .slash

def ProductSign.operator : ProductSign → Operator
  | star => .multiply
  | slash => .divide

def SumSign.kind : SumSign → Token.Kind
  | plus => .plus
  | minus => .minus

def SumSign.operator : SumSign → Operator
  | plus => .add
  | minus => .subtract

def ComparisonSign.kind : ComparisonSign → Token.Kind
  | less => .less
  | equals => .equals

def ComparisonSign.operator : ComparisonSign → Operator
  | less => .less
  | equals => .equal

mutual

inductive Factor where
  | number (digits : String)
  | identifier (name : String)
  | parens (e : Expression)

inductive Term where
  | factor (f : Factor)
  | more (t : Term) (sign : ProductSign) (f : Factor)

inductive Sum where
  | term (t : Term)
  | more (s : Sum) (sign : SumSign) (t : Term)

inductive Expression where
  | sum (s : Sum)
  | comparison (left : Sum) (sign : ComparisonSign) (right : Sum)

end

mutual

inductive Statement where
  | ifThen (condition : Expression) (consequent : Sequence)
  | ifThenElse (condition : Expression) (consequent alternative : Sequence)
  | repeatUntil (body : Sequence) (condition : Expression)
  | assign (target : String) (value : Expression)
  | read (target : String)
  | write (value : Expression)

/-- Statements with semicolons between them; a whole program is one sequence. -/
inductive Sequence where
  | last (s : Statement)
  | cons (s : Statement) (rest : Sequence)

end

mutual

def Factor.lexemes : Factor → List Lexeme
  | .number digits => [⟨.number, digits⟩]
  | .identifier name => [⟨.identifier, name⟩]
  | .parens e => .fixed .leftParen :: (e.lexemes ++ [.fixed .rightParen])

def Term.lexemes : Term → List Lexeme
  | .factor f => f.lexemes
  | .more t sign f => t.lexemes ++ .fixed sign.kind :: f.lexemes

def Sum.lexemes : Sum → List Lexeme
  | .term t => t.lexemes
  | .more s sign t => s.lexemes ++ .fixed sign.kind :: t.lexemes

def Expression.lexemes : Expression → List Lexeme
  | .sum s => s.lexemes
  | .comparison l sign r => l.lexemes ++ .fixed sign.kind :: r.lexemes

end

mutual

def Statement.lexemes : Statement → List Lexeme
  | .ifThen c t =>
    .fixed .ifKw :: (c.lexemes ++ .fixed .thenKw :: (t.lexemes ++ [.fixed .endKw]))
  | .ifThenElse c t e =>
    .fixed .ifKw :: (c.lexemes ++ .fixed .thenKw ::
      (t.lexemes ++ .fixed .elseKw :: (e.lexemes ++ [.fixed .endKw])))
  | .repeatUntil b c => .fixed .repeatKw :: (b.lexemes ++ .fixed .untilKw :: c.lexemes)
  | .assign x e => ⟨.identifier, x⟩ :: .fixed .becomes :: e.lexemes
  | .read x => [.fixed .readKw, ⟨.identifier, x⟩]
  | .write e => .fixed .writeKw :: e.lexemes

def Sequence.lexemes : Sequence → List Lexeme
  | .last s => s.lexemes
  | .cons s b => s.lexemes ++ .fixed .semicolon :: b.lexemes

end

mutual

def Factor.tree : Factor → Expr Unit
  | .number digits => .constant () digits
  | .identifier name => .identifier () name
  | .parens e => e.tree

def Term.tree : Term → Expr Unit
  | .factor f => f.tree
  | .more t sign f => .binary () sign.operator t.tree f.tree

def Sum.tree : Sum → Expr Unit
  | .term t => t.tree
  | .more s sign t => .binary () sign.operator s.tree t.tree

def Expression.tree : Expression → Expr Unit
  | .sum s => s.tree
  | .comparison l sign r => .binary () sign.operator l.tree r.tree

end

mutual

def Statement.tree : Statement → TinyLanguage.Statement Unit
  | .ifThen c t => .ifThen () c.tree t.tree
  | .ifThenElse c t e => .ifThenElse () c.tree t.tree e.tree
  | .repeatUntil b c => .repeatUntil () b.tree c.tree
  | .assign x e => .assign () x e.tree
  | .read x => .read () x
  | .write e => .write () e.tree

def Sequence.tree : Sequence → Block Unit
  | .last s => .last s.tree
  | .cons s b => .cons s.tree b.tree

end

end TinyLanguage.Grammar
