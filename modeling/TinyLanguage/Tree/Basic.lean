namespace TinyLanguage

inductive Operator where
  | add | subtract | multiply | divide | less | equal
deriving DecidableEq, Repr

namespace Operator

def symbol : Operator → String
  | add => "+"
  | subtract => "-"
  | multiply => "*"
  | divide => "/"
  | less => "<"
  | equal => "="

end Operator

/-- Expressions whose every part carries a note, such as its place in a text. -/
inductive Expr (α : Type) where
  | constant (note : α) (digits : String)
  | identifier (note : α) (name : String)
  | binary (note : α) (op : Operator) (left right : Expr α)
deriving DecidableEq, Repr

mutual

inductive Statement (α : Type) where
  | ifThen (note : α) (condition : Expr α) (consequent : Block α)
  | ifThenElse (note : α) (condition : Expr α) (consequent alternative : Block α)
  | repeatUntil (note : α) (body : Block α) (condition : Expr α)
  | assign (note : α) (target : String) (value : Expr α)
  | read (note : α) (target : String)
  | write (note : α) (value : Expr α)
deriving DecidableEq, Repr

inductive Block (α : Type) where
  | last (s : Statement α)
  | cons (s : Statement α) (rest : Block α)
deriving DecidableEq, Repr

end

variable {α β : Type}

namespace Expr

def note : Expr α → α
  | constant a _ | identifier a _ | binary a _ _ _ => a

def map (f : α → β) : Expr α → Expr β
  | constant a s => .constant (f a) s
  | identifier a s => .identifier (f a) s
  | binary a op l r => .binary (f a) op (l.map f) (r.map f)

def shape (e : Expr α) : Expr Unit :=
  e.map fun _ => ()

def count : Expr α → Nat
  | constant _ _ | identifier _ _ => 1
  | binary _ _ l r => 1 + l.count + r.count

end Expr

namespace Statement

def note : Statement α → α
  | ifThen a _ _ | ifThenElse a _ _ _ | repeatUntil a _ _ | assign a _ _ | read a _ | write a _ => a

end Statement

mutual

def Statement.map (f : α → β) : Statement α → Statement β
  | .ifThen a c t => .ifThen (f a) (c.map f) (t.map f)
  | .ifThenElse a c t e => .ifThenElse (f a) (c.map f) (t.map f) (e.map f)
  | .repeatUntil a b c => .repeatUntil (f a) (b.map f) (c.map f)
  | .assign a x e => .assign (f a) x (e.map f)
  | .read a x => .read (f a) x
  | .write a e => .write (f a) (e.map f)

def Block.map (f : α → β) : Block α → Block β
  | .last s => .last (s.map f)
  | .cons s b => .cons (s.map f) (b.map f)

end

mutual

def Statement.count : Statement α → Nat
  | .ifThen _ c t => 1 + c.count + t.count
  | .ifThenElse _ c t e => 1 + c.count + t.count + e.count
  | .repeatUntil _ b c => 1 + b.count + c.count
  | .assign _ _ e | .write _ e => 1 + e.count
  | .read _ _ => 1

def Block.count : Block α → Nat
  | .last s => s.count
  | .cons s b => s.count + b.count

end

def Statement.shape (s : Statement α) : Statement Unit :=
  s.map fun _ => ()

namespace Block

def shape (b : Block α) : Block Unit :=
  b.map fun _ => ()

def head : Block α → Statement α
  | last s | cons s _ => s

def tail? : Block α → Option (Block α)
  | last _ => none
  | cons _ b => some b

def ofReverse (before : List (Statement α)) (s : Statement α) : Block α :=
  before.foldl (fun b t => .cons t b) (.last s)

end Block

end TinyLanguage
