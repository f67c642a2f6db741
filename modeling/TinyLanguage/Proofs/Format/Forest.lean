import TinyLanguage.Proofs.Format.Lines
import TinyLanguage.Proofs.Grammar.Sequencing
import TinyLanguage.Proofs.Tree.Shape

namespace TinyLanguage

inductive Branch where
  | mk (label : String) (below : List Branch)

variable {α β : Type}

def Expr.branch : Expr α → Branch
  | .constant _ s => .mk (Node.Kind.constant s).label []
  | .identifier _ x => .mk (Node.Kind.identifier x).label []
  | .binary _ op l r => .mk (Node.Kind.operator op).label [l.branch, r.branch]

mutual

def Statement.branches : Statement α → List Branch
  | .ifThen _ c t => c.branch :: t.forest
  | .ifThenElse _ c t e => c.branch :: (t.forest ++ e.forest)
  | .repeatUntil _ b c => b.forest ++ [c.branch]
  | .assign _ _ e | .write _ e => [e.branch]
  | .read _ _ => []

def Block.forest : Block α → List Branch
  | .last s => [.mk s.kind.label s.branches]
  | .cons s b => .mk s.kind.label s.branches :: b.forest

end

namespace Node

/-- The chain of a node, where each node has the chains of its children below it, put one behind
another. -/
def forest : Node α → List Branch
  | expression e => [e.branch]
  | statement b => b.forest

theorem forest_step (n : Node α) : n.forest =
    .mk n.label (n.children.flatMap forest) :: n.next?.toList.flatMap forest := by
  cases n with
  | expression e =>
    cases e <;> simp [forest, Expr.branch, label, kind, Expr.kind, children, Expr.children, next?]
  | statement b =>
    cases b with
    | last s =>
      cases s <;> simp [forest, Block.forest, Statement.branches, label, kind, children,
        Statement.children, next?, Block.tail?, Block.head]
    | cons s b =>
      cases s <;> simp [forest, Block.forest, Statement.branches, label, kind, children,
        Statement.children, next?, Block.tail?, Block.head]

theorem forest_eq (n : Node α) :
    n.forest = n.chain.map fun m => .mk m.label (m.children.flatMap forest) := by
  induction n using Node.induction with
  | step n _ hm =>
    rw [forest_step, chain_eq, List.map_cons]
    cases h : n.next? with
    | none => rfl
    | some m => simp [hm m h]

end Node

mutual

/-- The statement with one block in each conditional: what is executed in the other case comes
behind what is executed in the first. -/
def Statement.joined : Statement α → Statement α
  | .ifThen a c t => .ifThen a c t.joined
  | .ifThenElse a c t e => .ifThen a c (t.joined.append e.joined)
  | .repeatUntil a b c => .repeatUntil a b.joined c
  | .assign a x e => .assign a x e
  | .read a x => .read a x
  | .write a e => .write a e

def Block.joined : Block α → Block α
  | .last s => .last s.joined
  | .cons s b => .cons s.joined b.joined

end

def Node.joined : Node α → Node α
  | expression e => .expression e
  | statement b => .statement b.joined

theorem Block.forest_append : (b c : Block α) → (b.append c).forest = b.forest ++ c.forest
  | .last _, _ => rfl
  | .cons s b, c => congrArg (Branch.mk s.kind.label s.branches :: ·) (b.forest_append c)

theorem Block.joined_append : (b c : Block α) → (b.append c).joined = b.joined.append c.joined
  | .last _, _ => by simp [append, joined]
  | .cons s b, c => by simp [append, joined, b.joined_append c]

theorem Statement.kind_joined (s : Statement α) : s.joined.kind = s.kind := by
  cases s <;> simp [joined, kind]

mutual

theorem Statement.branches_joined : (s : Statement α) → s.joined.branches = s.branches
  | .ifThen _ c t => by
    rw [Statement.joined, Statement.branches, Statement.branches, Block.forest_joined t]
  | .ifThenElse _ c t e => by
    rw [Statement.joined, Statement.branches, Statement.branches, Block.forest_append,
      Block.forest_joined t, Block.forest_joined e]
  | .repeatUntil _ b c => by
    rw [Statement.joined, Statement.branches, Statement.branches, Block.forest_joined b]
  | .assign _ _ _ | .read _ _ | .write _ _ => by rw [Statement.joined]

theorem Block.forest_joined : (b : Block α) → b.joined.forest = b.forest
  | .last s => by
    rw [Block.joined, Block.forest, Block.forest, s.kind_joined, Statement.branches_joined s]
  | .cons s b => by
    rw [Block.joined, Block.forest, Block.forest, s.kind_joined, Statement.branches_joined s,
      Block.forest_joined b]

end

mutual

theorem Statement.joined_joined : (s : Statement α) → s.joined.joined = s.joined
  | .ifThen _ c t => by rw [Statement.joined, Statement.joined, Block.joined_joined t]
  | .ifThenElse _ c t e => by
    rw [Statement.joined, Statement.joined, Block.joined_append, Block.joined_joined t,
      Block.joined_joined e]
  | .repeatUntil _ b c => by rw [Statement.joined, Statement.joined, Block.joined_joined b]
  | .assign _ _ _ | .read _ _ | .write _ _ => by simp only [Statement.joined]

theorem Block.joined_joined : (b : Block α) → b.joined.joined = b.joined
  | .last s => by rw [Block.joined, Block.joined, Statement.joined_joined s]
  | .cons s b => by
    rw [Block.joined, Block.joined, Statement.joined_joined s, Block.joined_joined b]

end

theorem Expr.branch_injective : Function.Injective (branch : Expr Unit → Branch) := by
  intro e
  induction e with
  | constant _ s | identifier _ s =>
    intro f h
    cases f <;> simp_all [branch, Node.Kind.label_injective.eq_iff]
  | binary _ op l r ihl ihr =>
    intro f h
    cases f with
    | constant | identifier => simp [branch] at h
    | binary _ op' l' r' =>
      simp only [branch, Branch.mk.injEq, List.cons.injEq, and_true] at h
      obtain ⟨hop, hl, hr⟩ := h
      obtain ⟨rfl⟩ := Node.Kind.operator.inj (Node.Kind.label_injective hop)
      rw [ihl hl, ihr hr]

mutual

theorem Statement.ext_branches : (s t : Statement Unit) → s.joined = s → t.joined = t →
    s.kind = t.kind → s.branches = t.branches → s = t
  | .ifThen _ c b, t, hs, ht, hkind, h => by
    cases t with
    | ifThen _ c' b' =>
      simp only [Statement.joined, Statement.ifThen.injEq, true_and] at hs ht
      simp only [Statement.branches, List.cons.injEq] at h
      rw [Expr.branch_injective h.1, Block.ext_forest b b' hs ht h.2]
    | ifThenElse => simp [Statement.joined] at ht
    | _ => cases hkind
  | .ifThenElse _ c b e, t, hs, _, _, _ => by simp [Statement.joined] at hs
  | .repeatUntil _ b c, t, hs, ht, hkind, h => by
    cases t with
    | repeatUntil _ b' c' =>
      simp only [Statement.joined, Statement.repeatUntil.injEq, true_and, and_true] at hs ht
      simp only [Statement.branches] at h
      obtain ⟨hb, hc⟩ := List.append_inj' h rfl
      rw [Expr.branch_injective (List.singleton_inj.1 hc), Block.ext_forest b b' hs ht hb]
    | _ => cases hkind
  | .assign _ x e, t, _, _, hkind, h => by
    cases t with
    | assign _ x' e' =>
      cases hkind
      simp only [Statement.branches] at h
      rw [Expr.branch_injective (List.singleton_inj.1 h)]
    | _ => cases hkind
  | .read _ x, t, _, _, hkind, _ => by
    cases t with
    | read _ x' =>
      cases hkind
      rfl
    | _ => cases hkind
  | .write _ e, t, _, _, hkind, h => by
    cases t with
    | write _ e' =>
      simp only [Statement.branches] at h
      rw [Expr.branch_injective (List.singleton_inj.1 h)]
    | _ => cases hkind

theorem Block.ext_forest : (b c : Block Unit) → b.joined = b → c.joined = c →
    b.forest = c.forest → b = c
  | .last s, .last t, hb, hc, h => by
    simp only [Block.joined, Block.last.injEq] at hb hc
    simp only [Block.forest, List.cons.injEq, Branch.mk.injEq, and_true] at h
    rw [Statement.ext_branches s t hb hc (Node.Kind.label_injective h.1) h.2]
  | .cons s b, .cons t c, hb, hc, h => by
    simp only [Block.joined, Block.cons.injEq] at hb hc
    simp only [Block.forest, List.cons.injEq, Branch.mk.injEq] at h
    rw [Statement.ext_branches s t hb.1 hc.1 (Node.Kind.label_injective h.1.1) h.1.2,
      Block.ext_forest b c hb.2 hc.2 h.2]
  | .last _, .cons _ c, _, _, h => by
    cases c <;> simp [Block.forest] at h
  | .cons _ b, .last _, _, _, h => by
    cases b <;> simp [Block.forest] at h

end

namespace Node

theorem forest_joined (n : Node α) : n.joined.forest = n.forest := by
  cases n with
  | expression e => rfl
  | statement b => exact b.forest_joined

theorem flatMap_forest_shape {ns : List (Node α)} (h : ∀ n ∈ ns, n.shape.forest = n.forest) :
    (ns.map shape).flatMap forest = ns.flatMap forest := by
  rw [List.flatMap_map]
  exact List.flatMap_congr h

theorem forest_shape (n : Node α) : n.shape.forest = n.forest := by
  induction n using Node.induction with
  | step n hc hm =>
    rw [forest_step, forest_step, label, label, kind_shape, children_shape, next_shape,
      Option.toList_map, flatMap_forest_shape hc, flatMap_forest_shape]
    simpa using hm

/-- Of a node without notes that has one block in each conditional the forest tells all. -/
theorem ext_forest {n m : Node Unit} (hn : n.joined = n) (hm : m.joined = m)
    (h : n.forest = m.forest) : n = m := by
  have hkind : n.kind = m.kind := by
    rw [forest_step, forest_step] at h
    exact Kind.label_injective (Branch.mk.inj (List.cons.inj h).1).1
  cases n with
  | expression e =>
    cases m with
    | expression f => rw [Expr.branch_injective (List.singleton_inj.1 h)]
    | statement c => exact absurd hkind (e.kind_ne c.head)
  | statement b =>
    cases m with
    | expression f => exact absurd hkind.symm (f.kind_ne b.head)
    | statement c =>
      simp only [joined, statement.injEq] at hn hm
      rw [Block.ext_forest b c hn hm h]

theorem joined_joined (n : Node α) : n.joined.joined = n.joined := by
  cases n with
  | expression e => rfl
  | statement b => exact congrArg statement b.joined_joined

/-- All that a forest does not tell of a tree is in which block of a conditional a statement stands,
and the notes. -/
theorem forest_eq_iff {n : Node α} {m : Node β} :
    n.forest = m.forest ↔ n.shape.joined = m.shape.joined := by
  rw [← n.forest_shape, ← m.forest_shape, ← n.shape.forest_joined, ← m.shape.forest_joined]
  exact ⟨ext_forest n.shape.joined_joined m.shape.joined_joined, congrArg forest⟩

end Node

end TinyLanguage
