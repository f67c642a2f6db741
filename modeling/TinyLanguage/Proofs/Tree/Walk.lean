import Mathlib.Data.List.Nodup
import TinyLanguage.Proofs.Tree.Recursion

namespace TinyLanguage

variable {α : Type}

def Node.below (s : Node.Step) (w : List Node.Step × Node α) : List Node.Step × Node α :=
  (s :: w.1, w.2)

/-- Every node from the top on with the way that leads to it: first the node itself, then its
children in turn, each with all that belongs to it, then the node behind it. -/
def Expr.walk : Expr α → List (List Node.Step × Node α)
  | .binary a op l r =>
    ([], .expression (.binary a op l r)) ::
      (l.walk.map (Node.below (.child 0)) ++ r.walk.map (Node.below (.child 1)))
  | e => [([], .expression e)]

mutual

def Statement.walkBelow : Statement α → List (List Node.Step × Node α)
  | .ifThen _ c t => c.walk.map (Node.below (.child 0)) ++ t.walk.map (Node.below (.child 1))
  | .ifThenElse _ c t e =>
    c.walk.map (Node.below (.child 0)) ++ t.walk.map (Node.below (.child 1)) ++
      e.walk.map (Node.below (.child 2))
  | .repeatUntil _ b c => b.walk.map (Node.below (.child 0)) ++ c.walk.map (Node.below (.child 1))
  | .assign _ _ e | .write _ e => e.walk.map (Node.below (.child 0))
  | .read _ _ => []

def Block.walk : Block α → List (List Node.Step × Node α)
  | .last s => ([], .statement (.last s)) :: s.walkBelow
  | .cons s b => ([], .statement (.cons s b)) :: (s.walkBelow ++ b.walk.map (Node.below .next))

end

namespace Node

def walk : Node α → List (List Step × Node α)
  | expression e => e.walk
  | statement b => b.walk

def walkChildren (i : Nat) : List (Node α) → List (List Step × Node α)
  | [] => []
  | c :: cs => c.walk.map (below (.child i)) ++ walkChildren (i + 1) cs

def walkNext : Option (Node α) → List (List Step × Node α)
  | none => []
  | some m => m.walk.map (below .next)

theorem walk_eq (n : Node α) : n.walk =
    ([], n) :: (walkChildren 0 n.children ++ walkNext n.next?) := by
  cases n with
  | expression e =>
    cases e <;> simp [walk, Expr.walk, children, Expr.children, next?, walkChildren, walkNext]
  | statement b =>
    cases b with
    | last s =>
      cases s <;> simp [walk, Block.walk, children, Statement.children, Statement.walkBelow, next?,
        Block.tail?, Block.head, walkChildren, walkNext]
    | cons s b =>
      cases s <;> simp [walk, Block.walk, children, Statement.children, Statement.walkBelow, next?,
        Block.tail?, Block.head, walkChildren, walkNext]

theorem length_walkChildren {cs : List (Node α)} (i : Nat)
    (h : ∀ c ∈ cs, c.walk.length = c.count) :
    (walkChildren i cs).length = total cs := by
  induction cs generalizing i with
  | nil => rfl
  | cons c cs ih =>
    rw [List.forall_mem_cons] at h
    rw [walkChildren, List.length_append, List.length_map, h.1, ih _ h.2, total_cons]

theorem length_walk (n : Node α) : n.walk.length = n.count := by
  induction n using Node.induction with
  | step n hc hm =>
    rw [walk_eq, count_eq, extent, List.length_cons, List.length_append,
      length_walkChildren 0 hc]
    cases h : n.next? with
    | none => simp [walkNext, Nat.add_comm]
    | some m =>
      have hlen := hm m h
      simp [walkNext, hlen]
      omega

theorem mem_walkChildren {cs : List (Node α)} {i : Nat} {p : List Step} {m : Node α} :
    (p, m) ∈ walkChildren i cs ↔
      ∃ k c q, cs[k]? = some c ∧ (q, m) ∈ c.walk ∧ p = .child (i + k) :: q := by
  induction cs generalizing i with
  | nil => simp [walkChildren]
  | cons c cs ih =>
    rw [walkChildren, List.mem_append, List.mem_map, ih]
    constructor
    · rintro (⟨⟨q, m⟩, hq, h⟩ | ⟨k, d, q, hd, hq, rfl⟩)
      · obtain ⟨rfl, rfl⟩ := Prod.mk.inj h
        exact ⟨0, c, q, rfl, hq, rfl⟩
      · exact ⟨k + 1, d, q, hd, hq, by rw [Nat.add_right_comm, Nat.add_assoc]⟩
    · rintro ⟨k, d, q, hd, hq, rfl⟩
      cases k with
      | zero =>
        obtain rfl := Option.some.inj hd
        exact .inl ⟨(q, m), hq, rfl⟩
      | succ k => exact .inr ⟨k, d, q, hd, hq, by rw [Nat.add_right_comm, Nat.add_assoc]⟩

theorem mem_walkNext {o : Option (Node α)} {p : List Step} {m : Node α} :
    (p, m) ∈ walkNext o ↔ ∃ x q, o = some x ∧ (q, m) ∈ x.walk ∧ p = .next :: q := by
  cases o with
  | none => simp [walkNext]
  | some x =>
    rw [walkNext, List.mem_map]
    constructor
    · rintro ⟨⟨q, m⟩, hq, h⟩
      obtain ⟨rfl, rfl⟩ := Prod.mk.inj h
      exact ⟨x, q, rfl, hq, rfl⟩
    · rintro ⟨y, q, h, hq, rfl⟩
      obtain rfl := Option.some.inj h
      exact ⟨(q, m), hq, rfl⟩

theorem follow_cons (n : Node α) (s : Step) (path : List Step) :
    n.follow? (s :: path) = (n.step? s).bind fun m => m.follow? path := rfl

/-- A walk comes to the nodes that some way leads to. -/
theorem mem_walk {n m : Node α} {path : List Step} :
    (path, m) ∈ n.walk ↔ n.follow? path = some m := by
  induction n using Node.induction generalizing path with
  | step n hc hm =>
    rw [walk_eq, List.mem_cons, List.mem_append, mem_walkChildren, mem_walkNext]
    cases path with
    | nil =>
      constructor
      · rintro (h | ⟨k, c, q, -, -, h⟩ | ⟨x, q, -, -, h⟩) <;> cases h
        rfl
      · intro h
        obtain rfl := Option.some.inj h
        exact .inl rfl
    | cons s path =>
      rw [follow_cons, Option.bind_eq_some_iff]
      cases s with
      | child i =>
        constructor
        · rintro (h | ⟨k, c, q, hk, hq, h⟩ | ⟨x, q, hx, hq, h⟩)
          · cases h
          · cases h
            have hk' : n.children[0 + k]? = some c := by rwa [Nat.zero_add]
            exact ⟨c, hk', (hc c (List.mem_of_getElem? hk)).1 hq⟩
          · cases h
        · rintro ⟨c, hi, hq⟩
          have hi' : n.children[i]? = some c := hi
          exact .inr (.inl ⟨i, c, path, hi', (hc c (List.mem_of_getElem? hi')).2 hq,
            by rw [Nat.zero_add]⟩)
      | next =>
        constructor
        · rintro (h | ⟨k, c, q, hk, hq, h⟩ | ⟨x, q, hx, hq, h⟩)
          · cases h
          · cases h
          · cases h
            exact ⟨x, hx, (hm x hx).1 hq⟩
        · rintro ⟨x, hx, hq⟩
          exact .inr (.inr ⟨x, path, hx, (hm x hx).2 hq, rfl⟩)

theorem map_fst_below (s : Step) (w : List (List Step × Node α)) :
    (w.map (below s)).map Prod.fst = (w.map Prod.fst).map (s :: ·) := by
  simp [below, Function.comp_def]

theorem nodup_below {s : Step} {w : List (List Step × Node α)} (h : (w.map Prod.fst).Nodup) :
    ((w.map (below s)).map Prod.fst).Nodup := by
  rw [map_fst_below]
  exact h.map List.cons_injective

theorem nodup_walkChildren {cs : List (Node α)} (i : Nat)
    (h : ∀ c ∈ cs, (c.walk.map Prod.fst).Nodup) : ((walkChildren i cs).map Prod.fst).Nodup := by
  induction cs generalizing i with
  | nil => exact List.nodup_nil
  | cons c cs ih =>
    rw [List.forall_mem_cons] at h
    rw [walkChildren, List.map_append, List.nodup_append]
    refine ⟨nodup_below h.1, ih _ h.2, ?_⟩
    intro p hp q hq hpq
    obtain ⟨⟨p', m⟩, hp', rfl⟩ := List.mem_map.1 hp
    obtain ⟨⟨q', m'⟩, hq', rfl⟩ := List.mem_map.1 hq
    obtain ⟨⟨r, x⟩, -, hr⟩ := List.mem_map.1 hp'
    obtain ⟨k, d, t, -, -, rfl⟩ := mem_walkChildren.1 hq'
    obtain ⟨rfl, rfl⟩ := Prod.mk.inj hr
    simp at hpq
    omega

theorem nodup_walk (n : Node α) : (n.walk.map Prod.fst).Nodup := by
  induction n using Node.induction with
  | step n hc hm =>
    have hnext : ((walkNext n.next?).map Prod.fst).Nodup := by
      cases h : n.next? with
      | none => exact List.nodup_nil
      | some x => exact nodup_below (hm x h)
    rw [walk_eq, List.map_cons, List.map_append, List.nodup_cons, List.nodup_append]
    refine ⟨?_, nodup_walkChildren 0 hc, hnext, ?_⟩
    · intro h
      rcases List.mem_append.1 h with h | h
      · obtain ⟨⟨p, m⟩, hp, hnil⟩ := List.mem_map.1 h
        obtain ⟨k, c, q, -, -, rfl⟩ := mem_walkChildren.1 hp
        cases hnil
      · obtain ⟨⟨p, m⟩, hp, hnil⟩ := List.mem_map.1 h
        obtain ⟨x, q, -, -, rfl⟩ := mem_walkNext.1 hp
        cases hnil
    · intro p hp q hq hpq
      obtain ⟨⟨p', m⟩, hp', rfl⟩ := List.mem_map.1 hp
      obtain ⟨⟨q', m'⟩, hq', rfl⟩ := List.mem_map.1 hq
      obtain ⟨k, c, r, -, -, rfl⟩ := mem_walkChildren.1 hp'
      obtain ⟨x, t, -, -, rfl⟩ := mem_walkNext.1 hq'
      cases hpq

/-- In a walk, the part below and behind a node that it comes to is the walk from this node. -/
def Runs (w : List (List Step × Node α)) : Prop :=
  ∀ (i j : Nat) (p q : List Step) (m x : Node α), w[i]? = some (p, m) →
    m.walk[j]? = some (q, x) → w[i + j]? = some (p ++ q, x)

theorem runs_nil : Runs ([] : List (List Step × Node α)) := nofun

theorem Runs.append {v w : List (List Step × Node α)} (hv : Runs v) (hw : Runs w) :
    Runs (v ++ w) := by
  intro i j p q m x hi hj
  rcases Nat.lt_or_ge i v.length with hlt | hge
  · rw [List.getElem?_append_left hlt] at hi
    have h := hv _ _ _ _ _ _ hi hj
    rwa [List.getElem?_append_left (List.getElem?_eq_some_iff.1 h).1]
  · rw [List.getElem?_append_right hge] at hi
    have h := hw _ _ _ _ _ _ hi hj
    rw [List.getElem?_append_right (by omega)]
    rwa [Nat.sub_add_comm hge]

theorem Runs.below {w : List (List Step × Node α)} {s : Step} (hw : Runs w) :
    Runs (w.map (below s)) := by
  intro i j p q m x hi hj
  rw [List.getElem?_map, Option.map_eq_some_iff] at hi
  obtain ⟨⟨p', m'⟩, hi, h⟩ := hi
  obtain ⟨rfl, rfl⟩ := Prod.mk.inj h
  rw [List.getElem?_map, hw _ _ _ _ _ _ hi hj]
  rfl

theorem runs_walkChildren {cs : List (Node α)} (i : Nat) (h : ∀ c ∈ cs, Runs c.walk) :
    Runs (walkChildren i cs) := by
  induction cs generalizing i with
  | nil => exact runs_nil
  | cons c cs ih =>
    rw [List.forall_mem_cons] at h
    exact h.1.below.append (ih _ h.2)

theorem runs_walk (n : Node α) : Runs n.walk := by
  induction n using Node.induction with
  | step n hc hm =>
    have hnext : Runs (walkNext n.next?) := by
      cases h : n.next? with
      | none => exact runs_nil
      | some x => exact (hm x h).below
    have hrest := (runs_walkChildren 0 hc).append hnext
    intro i j p q m x hi hj
    cases i with
    | zero =>
      rw [walk_eq] at hi
      obtain ⟨rfl, rfl⟩ := Prod.mk.inj (Option.some.inj hi)
      rwa [Nat.zero_add]
    | succ i =>
      rw [walk_eq] at hi ⊢
      rw [Nat.add_right_comm]
      exact hrest _ _ _ _ _ _ hi hj

def heads (id : Nat) : List (Node α) → List Nat
  | [] => []
  | c :: cs => id :: heads (id + c.count) cs

@[simp] theorem length_heads (id : Nat) (cs : List (Node α)) :
    (heads id cs).length = cs.length := by
  induction cs generalizing id with
  | nil => rfl
  | cons c cs ih => rw [heads, List.length_cons, ih, List.length_cons]

theorem getElem?_walkChildren {cs : List (Node α)} {c : Node α} {k : Nat} (h : cs[k]? = some c)
    (id i : Nat) : ∃ o, (heads id cs)[k]? = some (id + o) ∧
      (walkChildren i cs)[o]? = some ([.child (i + k)], c) := by
  induction cs generalizing id i k with
  | nil => cases h
  | cons d cs ih =>
    cases k with
    | zero =>
      obtain rfl := Option.some.inj h
      refine ⟨0, rfl, ?_⟩
      rw [walkChildren, walk_eq]
      rfl
    | succ k =>
      obtain ⟨o, hhead, hwalk⟩ := ih h (id + d.count) (i + 1)
      refine ⟨d.count + o, ?_, ?_⟩
      · rw [heads, List.getElem?_cons_succ, hhead, Nat.add_assoc]
      · rw [walkChildren, List.getElem?_append_right (by simp [length_walk]), List.length_map,
          length_walk, Nat.add_sub_cancel_left, hwalk, Nat.add_right_comm, Nat.add_assoc]

section

variable {n m c : Node α} {path : List Step} {i : Nat}

/-- Where a walk comes to the children of the node that it has come to at place `i`. -/
theorem getElem?_heads {k : Nat} (h : n.walk[i]? = some (path, m)) (hk : m.children[k]? = some c) :
    ∃ j, (heads (i + 1) m.children)[k]? = some j ∧ n.walk[j]? = some (path ++ [.child k], c) := by
  obtain ⟨o, hhead, hwalk⟩ := getElem?_walkChildren hk (i + 1) 0
  refine ⟨i + 1 + o, hhead, ?_⟩
  have hm : m.walk[1 + o]? = some ([.child k], c) := by
    rw [Nat.zero_add] at hwalk
    rw [walk_eq, Nat.add_comm, List.getElem?_cons_succ,
      List.getElem?_append_left (List.getElem?_eq_some_iff.1 hwalk).1, hwalk]
  rw [Nat.add_assoc]
  exact runs_walk n _ _ _ _ _ _ h hm

theorem getElem?_extent (h : n.walk[i]? = some (path, m)) (hc : m.next? = some c) :
    n.walk[i + m.extent]? = some (path ++ [.next], c) := by
  have hm : m.walk[m.extent]? = some ([.next], c) := by
    have hlen := length_walkChildren 0 fun c (_ : c ∈ m.children) => c.length_walk
    rw [walk_eq, extent, Nat.add_comm, List.getElem?_cons_succ, ← hlen,
      List.getElem?_append_right (Nat.le_refl _), Nat.sub_self, hc, walkNext, walk_eq]
    rfl
  exact runs_walk n _ _ _ _ _ _ h hm

/-- The number of the node that a way leads to: its place in the walk. -/
def number (n : Node α) (path : List Step) : Nat :=
  (n.walk.map Prod.fst).idxOf path

theorem number_eq (h : n.walk[i]? = some (path, m)) : n.number path = i := by
  obtain ⟨hlt, hget⟩ := List.getElem?_eq_some_iff.1 h
  have hlen : i < (n.walk.map Prod.fst).length := by rwa [List.length_map]
  have hpath : (n.walk.map Prod.fst)[i] = path := by rw [List.getElem_map, hget]
  rw [number, ← hpath]
  exact n.nodup_walk.idxOf_getElem i _

theorem heads_eq (h : n.walk[i]? = some (path, m)) : heads (i + 1) m.children =
    (List.range m.children.length).map fun k => n.number (path ++ [.child k]) := by
  apply List.ext_getElem?
  intro k
  rcases Nat.lt_or_ge k m.children.length with hlt | hge
  · obtain ⟨j, hhead, hwalk⟩ := getElem?_heads h (List.getElem?_eq_getElem hlt)
    rw [hhead, List.getElem?_map, List.getElem?_range hlt, Option.map_some, number_eq hwalk]
  · rw [List.getElem?_eq_none (by simpa using hge), List.getElem?_eq_none (by simpa using hge)]

end

end Node

end TinyLanguage
