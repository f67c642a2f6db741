import TinyLanguage.Tree.Node

namespace TinyLanguage

/-- A tree whose form is not fixed: a node may have any children, and any node may follow it. -/
structure Draft where
  kind : Node.Kind
  span : Span
  children : List Draft := []
  next? : Option Draft := none

namespace Draft

def label (d : Draft) : String :=
  d.kind.label

def category (d : Draft) : Node.Category :=
  d.kind.category

def ofKind (kind : Node.Kind) (span : Span) : Draft :=
  { kind, span }

def push (d child : Draft) : Draft :=
  { d with children := d.children ++ [child] }

def withSpan (d : Draft) (span : Span) : Draft :=
  { d with span }

def withNext (d : Draft) (next? : Option Draft) : Draft :=
  { d with next? }

def join (op : Operator) (left right : Draft) : Draft :=
  ((ofKind (.operator op) (left.span.extendTo right.span)).push left).push right

/-- Chains `first` and the nodes `rest`, which are listed with the latest first. The links are set
from the end. -/
def link (first : Draft) (rest : List Draft) : Draft :=
  first.withNext (rest.foldl (fun tail d => some (d.withNext tail)) none)

def step? (d : Draft) : Node.Step → Option Draft
  | .child i => d.children[i]?
  | .next => d.next?

def follow? (d : Draft) (path : List Node.Step) : Option Draft :=
  path.foldlM step? d

end Draft

def Expr.draft : Expr Span → Draft
  | .constant a s => ⟨.constant s, a, [], none⟩
  | .identifier a x => ⟨.identifier x, a, [], none⟩
  | .binary a op l r => ⟨.operator op, a, [l.draft, r.draft], none⟩

mutual

def Statement.draft (next? : Option Draft) : Statement Span → Draft
  | .ifThen a c t => ⟨.conditional, a, [c.draft, t.draft], next?⟩
  | .ifThenElse a c t e => ⟨.conditional, a, [c.draft, t.draft, e.draft], next?⟩
  | .repeatUntil a b c => ⟨.loop, a, [b.draft, c.draft], next?⟩
  | .assign a x e => ⟨.assign x, a, [e.draft], next?⟩
  | .read a x => ⟨.read x, a, [], next?⟩
  | .write a e => ⟨.write, a, [e.draft], next?⟩

def Block.draft : Block Span → Draft
  | .last s => s.draft none
  | .cons s b => s.draft (some b.draft)

end

def Node.draft : Node Span → Draft
  | expression e => e.draft
  | statement b => b.draft

variable {next? : Option Draft}

@[simp] theorem Expr.span_draft (e : Expr Span) : e.draft.span = e.note := by
  cases e <;> rfl

@[simp] theorem Statement.withNext_draft (s : Statement Span) (tail : Option Draft) :
    (s.draft next?).withNext tail = s.draft tail := by
  cases s <;> simp [Statement.draft, Draft.withNext]

@[simp] theorem Statement.next_draft (s : Statement Span) : (s.draft next?).next? = next? := by
  cases s <;> simp [Statement.draft]

theorem Draft.foldl_statements (ss : List (Statement Span)) (b : Block Span) :
    (ss.map (Statement.draft none)).foldl (fun tail d => some (d.withNext tail)) (some b.draft) =
      some (ss.foldl (fun b s => .cons s b) b).draft := by
  induction ss generalizing b with
  | nil => rfl
  | cons s ss ih =>
    rw [List.map_cons, List.foldl_cons, Statement.withNext_draft]
    exact ih (.cons s b)

/-- Linked, the statements of a block make up the block. -/
theorem Draft.link_eq {first : Draft} {rest : List Draft} {before : List (Statement Span)}
    {s : Statement Span} (h : rest ++ [first] = (s :: before).map (Statement.draft none)) :
    first.link rest = (Block.ofReverse before s).draft := by
  apply Option.some.inj
  -- The latest statement is the tail that all others are put in front of.
  calc some (first.link rest)
      = (rest ++ [first]).foldl (fun tail d => some (d.withNext tail)) none := by
        rw [List.foldl_append]
        rfl
    _ = (before.map (Statement.draft none)).foldl (fun tail d => some (d.withNext tail))
          (some (Block.last s).draft) := by
        rw [h, List.map_cons, List.foldl_cons, Statement.withNext_draft]
        rfl
    _ = some (Block.ofReverse before s).draft := foldl_statements before (.last s)

/-- A draft shows of a tree what the tree shows of itself. -/
theorem Node.draft_eq (n : Node Span) :
    n.draft = ⟨n.kind, n.note, n.children.map draft, n.next?.map draft⟩ := by
  cases n with
  | expression e =>
    cases e <;> simp [draft, Expr.draft, kind, Expr.kind, note, Expr.note, children, Expr.children,
      next?]
  | statement b =>
    cases b with
    | last s | cons s b =>
      cases s <;> simp [draft, Block.draft, Statement.draft, kind, Statement.kind, note,
        Statement.note, children, Statement.children, next?, Block.head, Block.tail?]

end TinyLanguage
