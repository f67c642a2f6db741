import TinyLanguage.Tree.Node

namespace TinyLanguage

inductive Graph.Item where
  | node (id : Nat) (kind : Node.Kind)
  | child (parent head : Nat)
  | next (former latter : Nat)
  | sameRank (ids : List Nat)
deriving DecidableEq, Repr

def Graph.link (former : Option Nat) (id : Nat) : List Graph.Item :=
  match former with
  | none => []
  | some p => [.next p id, .sameRank [p, id]]

variable {α : Type}

/-- Draws an expression whose nodes are numbered from `id` on, parents before children and children
from left to right. -/
def Expr.graph (id : Nat) : Expr α → List Graph.Item
  | .constant _ s => [.node id (.constant s)]
  | .identifier _ x => [.node id (.identifier x)]
  | .binary _ op l r =>
    let left := id + 1
    let right := left + l.count
    .node id (.operator op) ::
      (l.graph left ++ .child id left :: (r.graph right ++ [.child id right]))

mutual

def Statement.graph (id : Nat) : Statement α → List Graph.Item
  | .ifThen _ c t =>
    let condition := id + 1
    let consequent := condition + c.count
    .node id .conditional ::
      (c.graph condition ++ .child id condition ::
        (t.graph none consequent ++ [.child id consequent]))
  | .ifThenElse _ c t e =>
    let condition := id + 1
    let consequent := condition + c.count
    let alternative := consequent + t.count
    .node id .conditional ::
      (c.graph condition ++ .child id condition ::
        (t.graph none consequent ++ .child id consequent ::
          (e.graph none alternative ++
            [.child id alternative, .sameRank [condition, consequent, alternative]])))
  | .repeatUntil _ b c =>
    let body := id + 1
    let condition := body + b.count
    .node id .loop ::
      (b.graph none body ++ .child id body ::
        (c.graph condition ++ [.child id condition]))
  | .assign _ x e => .node id (.assign x) :: (e.graph (id + 1) ++ [.child id (id + 1)])
  | .read _ x => [.node id (.read x)]
  | .write _ e => .node id .write :: (e.graph (id + 1) ++ [.child id (id + 1)])

/-- Draws a block; each statement is tied to the one before it, and both stand in one rank. -/
def Block.graph (former : Option Nat) (id : Nat) : Block α → List Graph.Item
  | .last s => s.graph id ++ Graph.link former id
  | .cons s b => s.graph id ++ Graph.link former id ++ b.graph (some id) (id + s.count)

end

def Node.graph : Node α → List Graph.Item
  | .expression e => e.graph 0
  | .statement b => b.graph none 0

namespace Graph

def escape (label : List Char) : List Char :=
  label.flatMap fun c => if c = '\\' ∨ c = '"' then ['\\', c] else [c]

def shape : Node.Category → String
  | .statement => "box"
  | .expression => "ellipse"

namespace Item

def line : Item → String
  | node id kind =>
    let label := String.ofList (escape kind.label.toList)
    s!"  n{id} [label=\"{label}\", shape={shape kind.category}];"
  | child parent head => s!"  n{parent} -- n{head};"
  | next former latter => s!"  n{former} -- n{latter} [tailport=e, headport=w, style=dashed];"
  | sameRank ids =>
    let members := " ".intercalate (ids.map fun id => s!"n{id};")
    s!"  \x7b rank=same; {members} \x7d"

end Item

end Graph

def Format.graphLines (n : Node α) : List String :=
  ["graph ast \x7b", "  splines=true;"] ++ n.graph.map Graph.Item.line ++ ["\x7d"]

end TinyLanguage
