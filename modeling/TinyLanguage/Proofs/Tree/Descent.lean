import Mathlib.Data.List.Chain
import Mathlib.Order.Bounds.Defs
import TinyLanguage.Proofs.Grammar.Height
import TinyLanguage.Proofs.Tree.Recursion

namespace TinyLanguage

variable {α : Type}

theorem Statement.height_eq (s : Statement α) :
    s.height = 1 + (s.children.map Node.height).foldr max 0 := by
  cases s <;> simp [height, children, Node.height]

theorem Block.height_eq (b : Block α) :
    b.height = (b.tails.map fun t => t.head.height).foldr max 0 := by
  cases b with
  | last s => simp [height, tails, head]
  | cons s b => rw [height, b.height_eq, tails, List.map_cons, List.foldr_cons, head]

namespace Node

variable {n m : Node α}

theorem height_eq (n : Node α) : n.height =
    (n.chain.map fun x => 1 + (x.children.map height).foldr max 0).foldr max 0 := by
  cases n with
  | expression e => cases e <;> simp [height, Expr.height, chain, children, Expr.children]
  | statement b =>
    rw [height, b.height_eq, chain, List.map_map]
    simp only [Function.comp_def, children, Statement.height_eq]

theorem height_le_iff {k : Nat} :
    n.height ≤ k ↔ ∀ x ∈ n.chain, 0 < k ∧ ∀ m ∈ x.children, m.height < k := by
  rw [n.height_eq, Grammar.foldr_max_le_iff, List.forall_mem_map]
  refine forall₂_congr fun x _ => ?_
  have hchildren := @Grammar.foldr_max_le_iff (x.children.map height) (k - 1)
  rw [List.forall_mem_map] at hchildren
  constructor
  · intro h
    refine ⟨by omega, fun m hm => ?_⟩
    have hle := hchildren.1 (by omega) m hm
    omega
  · rintro ⟨hpos, h⟩
    have hle := hchildren.2 fun m hm => Nat.le_sub_one_of_lt (h m hm)
    omega

theorem mem_chain_self (n : Node α) : n ∈ n.chain := by
  cases n with
  | expression e => exact List.mem_singleton_self _
  | statement b => cases b <;> exact List.mem_cons_self

theorem height_pos (n : Node α) : 0 < n.height :=
  (height_le_iff.1 (Nat.le_refl _) n n.mem_chain_self).1

/-- A recursion that runs over the chain of a node, and calls itself on all children that it meets
there, comes from `n` to `m` with one call. -/
def Calls (n m : Node α) : Prop :=
  ∃ x ∈ n.chain, m ∈ x.children

theorem Calls.height_lt (h : n.Calls m) : m.height < n.height := by
  obtain ⟨x, hx, hm⟩ := h
  exact (height_le_iff.1 (Nat.le_refl _) x hx).2 m hm

/-- One of the calls from a node leaves all of its height but one. -/
theorem exists_calls (h : 1 < n.height) : ∃ m, n.Calls m ∧ n.height = m.height + 1 := by
  by_contra hnone
  have hle : n.height ≤ n.height - 1 := height_le_iff.2 fun x hx => by
    refine ⟨by omega, fun m hm => ?_⟩
    have hcall : n.Calls m := ⟨x, hx, hm⟩
    have hlt := hcall.height_lt
    have hne : n.height ≠ m.height + 1 := fun heq => hnone ⟨m, hcall, heq⟩
    omega
  omega

theorem length_le_height {ms : List (Node α)} (h : List.IsChain Calls (n :: ms)) :
    ms.length + 1 ≤ n.height := by
  induction ms generalizing n with
  | nil => exact n.height_pos
  | cons m ms ih =>
    obtain ⟨hcall, hrest⟩ := List.isChain_cons_cons.1 h
    have hle := ih hrest
    have hlt := hcall.height_lt
    simp only [List.length_cons]
    omega

theorem exists_descent (n : Node α) :
    ∃ ms, List.IsChain Calls (n :: ms) ∧ ms.length + 1 = n.height := by
  induction hk : n.height using Nat.strongRecOn generalizing n with
  | ind k ih =>
    subst hk
    by_cases h : 1 < n.height
    · obtain ⟨m, hcall, hm⟩ := exists_calls h
      obtain ⟨ms, hms, hlen⟩ := ih m.height (by omega) m rfl
      refine ⟨m :: ms, .cons_cons hcall hms, ?_⟩
      rw [List.length_cons, hlen, hm]
    · have hpos := n.height_pos
      exact ⟨[], .singleton n, by simp only [List.length_nil]; omega⟩

/-- The height of a tree is the greatest number of calls that are open at once. -/
theorem height_isGreatest (n : Node α) :
    IsGreatest {k | ∃ ms, List.IsChain Calls (n :: ms) ∧ k = ms.length + 1} n.height := by
  obtain ⟨ms, hms, hlen⟩ := n.exists_descent
  refine ⟨⟨ms, hms, hlen.symm⟩, ?_⟩
  rintro k ⟨ms, hms, rfl⟩
  exact length_le_height hms

section

variable {β : Type} {f : List (Node α × List β) → β} {g : Node α → β}

/-- Runs over the chain of a node and calls itself on all children that it meets there, where at most
so many calls may be open at once. What is found of the chain depends by `f` on its nodes, each with
what has been found of its children. -/
def foldWithin (f : List (Node α × List β) → β) : Nat → Node α → Option β
  | 0, _ => none
  | k + 1, n => do
    let xs ← n.chain.mapM fun x => return (x, ← x.children.mapM (foldWithin f k))
    return f xs

theorem mapM_of_some {γ δ : Type} {p : γ → Option δ} {q : γ → δ} {cs : List γ}
    (h : ∀ c ∈ cs, p c = some (q c)) : cs.mapM p = some (cs.map q) := by
  induction cs with
  | nil => rfl
  | cons c cs ih =>
    rw [List.forall_mem_cons] at h
    rw [List.mapM_cons, h.1, ih h.2]
    rfl

theorem mapM_of_none {γ δ : Type} {p : γ → Option δ} {c : γ} {cs : List γ} (hc : c ∈ cs)
    (h : p c = none) : cs.mapM p = none := by
  induction cs with
  | nil => cases hc
  | cons d cs ih =>
    rw [List.mapM_cons]
    rcases List.mem_cons.1 hc with rfl | hc
    · rw [h]
      rfl
    · rw [ih hc]
      cases p d <;> rfl

/-- What is found by such a recursion is found if it may go as deep as the tree is high, and not
otherwise. -/
theorem foldWithin_eq (hg : ∀ n : Node α, g n = f (n.chain.map fun x => (x, x.children.map g)))
    (k : Nat) (n : Node α) : foldWithin f k n = if n.height ≤ k then some (g n) else none := by
  induction k generalizing n with
  | zero =>
    rw [if_neg (Nat.not_le.2 n.height_pos)]
    rfl
  | succ k ih =>
    rw [foldWithin]
    split
    · next h =>
      have hchildren : ∀ x ∈ n.chain,
          (do return (x, ← x.children.mapM (foldWithin f k)) : Option (Node α × List β)) =
            some (x, x.children.map g) := by
        intro x hx
        rw [mapM_of_some fun m hm => ?_]
        · rfl
        · rw [ih, if_pos (Nat.le_of_lt_succ ((height_le_iff.1 h x hx).2 m hm))]
      rw [mapM_of_some hchildren, hg n]
      rfl
    · next h =>
      -- One call for a highest child of the chain is enough to leave nothing found.
      obtain ⟨m, ⟨x, hx, hm⟩, hheight⟩ := exists_calls (n := n) (by omega)
      have hnone : foldWithin f k m = none := by rw [ih, if_neg (by omega)]
      have hx' : (do return (x, ← x.children.mapM (foldWithin f k)) :
          Option (Node α × List β)) = none := by
        rw [mapM_of_none hm hnone]
        rfl
      rw [mapM_of_none hx hx']
      rfl

def countWithin : Nat → Node α → Option Nat :=
  foldWithin fun xs => (xs.map fun x => 1 + x.2.foldr (· + ·) 0).foldr (· + ·) 0

theorem total_eq_foldr (cs : List (Node α)) : total cs = (cs.map count).foldr (· + ·) 0 := by
  induction cs with
  | nil => rfl
  | cons c cs ih => rw [total_cons, ih, List.map_cons, List.foldr_cons]

theorem count_chain (n : Node α) : n.count = (n.chain.map extent).foldr (· + ·) 0 := by
  induction n using Node.induction with
  | step n _ hm =>
    rw [count_eq, chain_eq, List.map_cons, List.foldr_cons]
    cases h : n.next? with
    | none => rfl
    | some m => simp [hm m h]

theorem countWithin_eq (k : Nat) (n : Node α) :
    n.countWithin k = if n.height ≤ k then some n.count else none := by
  refine foldWithin_eq (fun n => ?_) k n
  rw [count_chain, List.map_map]
  exact congrArg (List.foldr (· + ·) 0)
    (List.map_congr_left fun x _ => congrArg (1 + ·) (total_eq_foldr _))

end

theorem height_le_of_step {s : Step} (h : n.step? s = some m) : m.height ≤ n.height := by
  cases s with
  | child i =>
    have hcall : n.Calls m := ⟨n, n.mem_chain_self, List.mem_of_getElem? h⟩
    exact Nat.le_of_lt hcall.height_lt
  | next =>
    cases n with
    | expression e => cases h
    | statement b =>
      cases b with
      | last s => cases h
      | cons s b =>
        obtain rfl := Option.some.inj h
        exact Nat.le_max_right _ _

theorem height_le_of_follow {path : List Step} (h : n.follow? path = some m) :
    m.height ≤ n.height :=
  follow_induction (motive := fun k => k.height ≤ n.height)
    (fun hle hs => Nat.le_trans (height_le_of_step hs) hle) (Nat.le_refl _) h

end Node

end TinyLanguage
