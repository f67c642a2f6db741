import TinyLanguage.Tree.Node

namespace TinyLanguage

variable {α β : Type}

section

variable {motive : Node α → Prop}
  (step : ∀ n : Node α, (∀ c ∈ n.children, motive c) → (∀ m ∈ n.next?, motive m) → motive n)

include step

theorem Expr.node_induction (e : Expr α) : motive (.expression e) := by
  induction e with
  | constant | identifier =>
    exact step _ (by simp [Node.children, Expr.children]) (by simp [Node.next?])
  | binary _ _ l r ihl ihr =>
    exact step _ (by simpa [Node.children, Expr.children] using ⟨ihl, ihr⟩) (by simp [Node.next?])

mutual

theorem Statement.node_induction : (s : Statement α) → ∀ c ∈ s.children, motive c
  | .ifThen _ c t => by
    simpa [Statement.children] using ⟨c.node_induction step, Block.node_induction t⟩
  | .ifThenElse _ c t e => by
    simpa [Statement.children] using
      ⟨c.node_induction step, Block.node_induction t, Block.node_induction e⟩
  | .repeatUntil _ b c => by
    simpa [Statement.children] using ⟨Block.node_induction b, c.node_induction step⟩
  | .assign _ _ e | .write _ e => by simpa [Statement.children] using e.node_induction step
  | .read _ _ => by simp [Statement.children]

theorem Block.node_induction : (b : Block α) → motive (.statement b)
  | .last s => step _ (Statement.node_induction s) nofun
  | .cons s b => step _ (Statement.node_induction s) fun m hm => by
    obtain rfl := Option.some.inj hm
    exact Block.node_induction b

end

end

namespace Node

@[elab_as_elim]
theorem induction {motive : Node α → Prop}
    (step : ∀ n : Node α, (∀ c ∈ n.children, motive c) → (∀ m ∈ n.next?, motive m) → motive n)
    (n : Node α) : motive n := by
  cases n with
  | expression e => exact e.node_induction step
  | statement b => exact b.node_induction step

/-- What holds of a node, and of a node one step from where it holds, holds all over the tree. -/
theorem follow_induction {motive : Node α → Prop} {n m : Node α} {path : List Step}
    (step : ∀ {n m : Node α} {s : Step}, motive n → n.step? s = some m → motive m) (hn : motive n)
    (h : n.follow? path = some m) : motive m := by
  induction path generalizing n with
  | nil =>
    obtain rfl := Option.some.inj h
    exact hn
  | cons s path ih =>
    obtain ⟨k, hk, hm⟩ := Option.bind_eq_some_iff.1 h
    exact ih (step hn hk) hm

def Holds (n m : Node α) : Prop :=
  ∃ path, n.follow? path = some m

theorem Holds.cases {n m : Node α} (h : n.Holds m) :
    m = n ∨ (∃ c ∈ n.children, c.Holds m) ∨ ∃ c ∈ n.next?, c.Holds m := by
  obtain ⟨path, h⟩ := h
  cases path with
  | nil => exact .inl (Option.some.inj h).symm
  | cons s path =>
    obtain ⟨c, hc, hm⟩ := Option.bind_eq_some_iff.1 h
    cases s with
    | child i => exact .inr (.inl ⟨c, List.mem_of_getElem? hc, path, hm⟩)
    | next => exact .inr (.inr ⟨c, hc, path, hm⟩)

end Node

end TinyLanguage
