import TinyLanguage.Tree.Basic
import TinyLanguage.Text.Span

namespace TinyLanguage

/-- A place in a tree. A statement is seen together with the statements that follow it in its
block. -/
inductive Node (α : Type) where
  | expression (e : Expr α)
  | statement (b : Block α)
deriving DecidableEq, Repr

inductive Node.Category where
  | statement | expression
deriving DecidableEq, Repr

inductive Node.Kind where
  | conditional
  | loop
  | assign (target : String)
  | read (target : String)
  | write
  | operator (op : Operator)
  | constant (digits : String)
  | identifier (name : String)
deriving DecidableEq, Repr

namespace Node.Kind

def category : Kind → Category
  | conditional | loop | assign _ | read _ | write => .statement
  | operator _ | constant _ | identifier _ => .expression

def label : Kind → String
  | conditional => "if"
  | loop => "repeat"
  | assign x => s!"assign({x})"
  | read x => s!"read({x})"
  | write => "write"
  | operator op => s!"op({op.symbol})"
  | constant s => s!"const({s})"
  | identifier x => s!"id({x})"

end Node.Kind

variable {α : Type}

namespace Expr

def kind : Expr α → Node.Kind
  | constant _ s => .constant s
  | identifier _ x => .identifier x
  | binary _ op _ _ => .operator op

def children : Expr α → List (Node α)
  | constant _ _ | identifier _ _ => []
  | binary _ _ l r => [.expression l, .expression r]

end Expr

namespace Statement

def kind : Statement α → Node.Kind
  | ifThen _ _ _ | ifThenElse _ _ _ _ => .conditional
  | repeatUntil _ _ _ => .loop
  | assign _ x _ => .assign x
  | read _ x => .read x
  | write _ _ => .write

def children : Statement α → List (Node α)
  | ifThen _ c t => [.expression c, .statement t]
  | ifThenElse _ c t e => [.expression c, .statement t, .statement e]
  | repeatUntil _ b c => [.statement b, .expression c]
  | assign _ _ e | write _ e => [.expression e]
  | read _ _ => []

end Statement

def Block.tails : Block α → List (Block α)
  | .last s => [.last s]
  | .cons s b => .cons s b :: b.tails

namespace Node

def kind : Node α → Kind
  | expression e => e.kind
  | statement b => b.head.kind

def label (n : Node α) : String :=
  n.kind.label

def category (n : Node α) : Category :=
  n.kind.category

def note : Node α → α
  | expression e => e.note
  | statement b => b.head.note

def children : Node α → List (Node α)
  | expression e => e.children
  | statement b => b.head.children

def next? : Node α → Option (Node α)
  | expression _ => none
  | statement b => b.tail?.map statement

def chain : Node α → List (Node α)
  | expression e => [expression e]
  | statement b => b.tails.map statement

def shape : Node α → Node Unit
  | expression e => .expression e.shape
  | statement b => .statement b.shape

def count : Node α → Nat
  | expression e => e.count
  | statement b => b.count

def total : List (Node α) → Nat
  | [] => 0
  | c :: cs => c.count + total cs

@[simp] theorem total_nil : total ([] : List (Node α)) = 0 := rfl

@[simp] theorem total_cons (c : Node α) (cs : List (Node α)) :
    total (c :: cs) = c.count + total cs := rfl

def extent (n : Node α) : Nat :=
  1 + total n.children

theorem count_eq (n : Node α) : n.count = n.extent + total n.next?.toList := by
  cases n with
  | expression e =>
    cases e with
    | constant | identifier => simp [count, Expr.count, extent, children, Expr.children, next?]
    | binary =>
      simp [count, Expr.count, extent, children, Expr.children, next?]
      omega
  | statement b =>
    cases b with
    | last s =>
      cases s <;> simp [count, Block.count, Statement.count, extent, children, Statement.children,
        next?, Block.tail?, Block.head] <;> omega
    | cons s b =>
      cases s <;> simp [count, Block.count, Statement.count, extent, children, Statement.children,
        next?, Block.tail?, Block.head] <;> omega

theorem count_pos (n : Node α) : 0 < n.count := by
  rw [count_eq, extent]
  omega

theorem chain_eq (n : Node α) : n.chain = n :: n.next?.toList.flatMap chain := by
  cases n with
  | expression e => rfl
  | statement b => cases b <;> simp [chain, Block.tails, next?, Block.tail?]

inductive Step where
  | child (index : Nat)
  | next
deriving DecidableEq, Repr

def step? (n : Node α) : Step → Option (Node α)
  | .child i => n.children[i]?
  | .next => n.next?

def follow? (n : Node α) (path : List Step) : Option (Node α) :=
  path.foldlM step? n

end Node

end TinyLanguage
