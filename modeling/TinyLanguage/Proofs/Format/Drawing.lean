import TinyLanguage.Format.Graph
import TinyLanguage.Proofs.Tree.Walk

namespace TinyLanguage

variable {α : Type}

namespace Graph

namespace Item

def declaration? : Item → Option (Nat × Node.Kind)
  | node id kind => some (id, kind)
  | _ => none

def edge? : Item → Option (Nat × Nat)
  | child i j | next i j => some (i, j)
  | _ => none

def target? (item : Item) : Option Nat :=
  item.edge?.map Prod.snd

def pair? : Item → Option (List Nat)
  | next i j => some [i, j]
  | _ => none

def group? : Item → Option (List Nat)
  | sameRank ids => some ids
  | _ => none

def leaves (i : Nat) (item : Item) : Bool :=
  item.edge?.map Prod.fst = some i

end Item

/-- Every edge leads to a greater number. If the nodes are declared in the order of their numbers,
and those below `m` above these items, then the ends of every edge are declared above it. -/
def Grounded : Nat → List Item → Prop
  | _, [] => True
  | m, .node _ _ :: items => Grounded (m + 1) items
  | m, .child i j :: items | m, .next i j :: items => i < j ∧ j < m ∧ Grounded m items
  | m, .sameRank _ :: items => Grounded m items

theorem grounded_append {m : Nat} {xs ys : List Item} : Grounded m (xs ++ ys) ↔
    Grounded m xs ∧ Grounded (m + (xs.filterMap Item.declaration?).length) ys := by
  induction xs generalizing m with
  | nil => simp [Grounded]
  | cons x xs ih =>
    cases x with
    | node => simp [Grounded, Item.declaration?, ih, Nat.add_assoc, Nat.add_comm 1]
    | child | next | sameRank =>
      simp [Grounded, List.filterMap_cons, Item.declaration?, ih, and_assoc]

theorem Grounded.edge {m i j : Nat} {item : Item} {items : List Item}
    (h : Grounded m (item :: items)) (he : item.edge? = some (i, j)) : i < j ∧ j < m := by
  cases item with
  | node | sameRank => cases he
  | child | next =>
    obtain ⟨rfl, rfl⟩ := Prod.mk.inj (Option.some.inj he)
    exact ⟨h.1, h.2.1⟩

/-- The ends of every edge to a next statement are put in one rank just behind it. -/
def Paired : List Item → Prop
  | [] => True
  | .next i j :: items => items.head? = some (.sameRank [i, j]) ∧ Paired items
  | .node _ _ :: items | .child _ _ :: items | .sameRank _ :: items => Paired items

theorem Paired.append {xs ys : List Item} (hx : Paired xs) (hy : Paired ys) :
    Paired (xs ++ ys) := by
  induction xs with
  | nil => exact hy
  | cons x xs ih =>
    cases x with
    | next i j =>
      obtain ⟨hhead, hx⟩ := hx
      have hhead' : (xs ++ ys).head? = some (.sameRank [i, j]) := by
        rw [List.head?_append, hhead, Option.some_or]
      exact ⟨hhead', ih hx⟩
    | node | child | sameRank => exact ih hx

theorem Paired.behind {xs ys : List Item} (h : Paired (xs ++ ys)) : Paired ys := by
  induction xs with
  | nil => exact h
  | cons x xs ih =>
    cases x with
    | next i j => exact ih h.2
    | node | child | sameRank => exact ih h

end Graph

namespace Node

open TinyLanguage.Graph (Item link Grounded grounded_append Paired)

/-- The items of a node whose number is `id`, and of all below it and behind it. -/
def graphFrom (former : Option Nat) (id : Nat) : Node α → List Item
  | expression e => e.graph id ++ link former id
  | statement b => b.graph former id

def branches (parent id : Nat) : List (Node α) → List Item
  | [] => []
  | c :: cs => c.graphFrom none id ++ .child parent id :: branches parent (id + c.count) cs

def group (id : Nat) (n : Node α) : List Item :=
  if 2 < n.children.length then [.sameRank (heads (id + 1) n.children)] else []

def graphNext (former id : Nat) : Option (Node α) → List Item
  | none => []
  | some m => m.graphFrom (some former) id

theorem graph_eq (n : Node α) : n.graph = n.graphFrom none 0 := by
  cases n with
  | expression e => rw [graph, graphFrom, link, List.append_nil]
  | statement b => rfl

theorem graphFrom_eq (former : Option Nat) (id : Nat) (n : Node α) : n.graphFrom former id =
    .node id n.kind :: (branches id (id + 1) n.children ++ n.group id ++ link former id ++
      graphNext id (id + n.extent) n.next?) := by
  cases n with
  | expression e =>
    cases e <;> simp [graphFrom, Expr.graph, kind, Expr.kind, branches, group, children,
      Expr.children, next?, count, link, graphNext]
  | statement b =>
    cases b with
    | last s =>
      cases s <;> simp [graphFrom, Block.graph, Statement.graph, kind, Statement.kind, branches,
        group, children, Statement.children, next?, Block.head, Block.tail?, count, link, heads,
        graphNext]
    | cons s b =>
      cases s <;> simp [graphFrom, Block.graph, Statement.graph, Statement.count, kind,
        Statement.kind, branches, group, children, Statement.children, next?, Block.head,
        Block.tail?, count, link, heads, extent, graphNext, Nat.add_assoc]

def declared (id : Nat) (w : List (List Step × Node α)) : List (Nat × Kind) :=
  (w.zipIdx id).map fun x => (x.2, x.1.2.kind)

theorem declared_append (id : Nat) (v w : List (List Step × Node α)) :
    declared id (v ++ w) = declared id v ++ declared (id + v.length) w := by
  simp [declared, List.zipIdx_append]

theorem declared_below (id : Nat) (s : Step) (w : List (List Step × Node α)) :
    declared id (w.map (below s)) = declared id w := by
  simp [declared, List.zipIdx_map, below]

theorem declaration_link (former : Option Nat) (id : Nat) :
    (link former id).filterMap Item.declaration? = [] := by
  cases former <;> rfl

theorem declaration_group (id : Nat) (n : Node α) :
    (n.group id).filterMap Item.declaration? = [] := by
  unfold group
  split <;> rfl

theorem declaration_branches {parent : Nat} {cs : List (Node α)}
    (h : ∀ c ∈ cs, ∀ former id,
      (c.graphFrom former id).filterMap Item.declaration? = declared id c.walk) (id i : Nat) :
    (branches parent id cs).filterMap Item.declaration? = declared id (walkChildren i cs) := by
  induction cs generalizing id i with
  | nil => rfl
  | cons c cs ih =>
    rw [List.forall_mem_cons] at h
    rw [branches, List.filterMap_append, h.1, List.filterMap_cons, ih h.2 _ (i + 1), walkChildren,
      declared_append, declared_below, List.length_map, length_walk]
    rfl

/-- The nodes are declared in the order of the walk, with their numbers in a row. -/
theorem declaration_graphFrom (n : Node α) (former : Option Nat) (id : Nat) :
    (n.graphFrom former id).filterMap Item.declaration? = declared id n.walk := by
  induction n using Node.induction generalizing former id with
  | step n hc hm =>
    have hlen := length_walkChildren 0 fun c (_ : c ∈ n.children) => c.length_walk
    have hnext : (graphNext id (id + n.extent) n.next?).filterMap Item.declaration? =
        declared (id + n.extent) (walkNext n.next?) := by
      cases h : n.next? with
      | none => rfl
      | some m => rw [graphNext, hm m h, walkNext, declared_below]
    rw [graphFrom_eq, walk_eq, List.filterMap_cons, List.filterMap_append, List.filterMap_append,
      List.filterMap_append, declaration_branches hc (id + 1) 0, declaration_group,
      declaration_link, hnext, extent, ← hlen, ← Nat.add_assoc]
    simp [Item.declaration?, declared, List.zipIdx_append]

theorem target_link (former : Option Nat) (id : Nat) :
    (link former id).filterMap Item.target? = former.toList.map fun _ => id := by
  cases former <;> rfl

theorem target_group (id : Nat) (n : Node α) : (n.group id).filterMap Item.target? = [] := by
  unfold group
  split <;> rfl

theorem range_count (id : Nat) (n : Node α) :
    id :: List.range' (id + 1) (n.count - 1) = List.range' id n.count := by
  obtain ⟨k, hk⟩ := Nat.exists_eq_add_one.2 n.count_pos
  rw [hk, Nat.add_sub_cancel, List.range'_succ]

theorem target_branches {parent : Nat} {cs : List (Node α)}
    (h : ∀ c ∈ cs, ∀ former id, ((c.graphFrom former id).filterMap Item.target?).Perm
      ((former.toList.map fun _ => id) ++ List.range' (id + 1) (c.count - 1))) (id : Nat) :
    ((branches parent id cs).filterMap Item.target?).Perm
      (List.range' id (total cs)) := by
  induction cs generalizing id with
  | nil => exact .nil
  | cons c cs ih =>
    rw [List.forall_mem_cons] at h
    have hc := h.1 none id
    have hcs := ih h.2 (id + c.count)
    rw [branches, List.filterMap_append, total_cons, ← List.range'_append_1,
      ← range_count id c]
    exact (hc.append (hcs.cons id)).trans List.perm_middle

theorem target_graphFrom (n : Node α) (former : Option Nat) (id : Nat) :
    ((n.graphFrom former id).filterMap Item.target?).Perm
      ((former.toList.map fun _ => id) ++ List.range' (id + 1) (n.count - 1)) := by
  induction n using Node.induction generalizing former id with
  | step n hc hm =>
    have hnext : ((graphNext id (id + n.extent) n.next?).filterMap Item.target?).Perm
        (List.range' (id + n.extent) (total n.next?.toList)) := by
      cases h : n.next? with
      | none => exact .nil
      | some m =>
        have hm := hm m h (some id) (id + n.extent)
        simpa [range_count, graphNext] using hm
    have hrange : List.range' (id + 1) (n.count - 1) =
        List.range' (id + 1) (total n.children) ++
          List.range' (id + n.extent) (total n.next?.toList) := by
      rw [count_eq, extent, Nat.add_assoc 1, Nat.add_sub_cancel_left, ← Nat.add_assoc id,
        List.range'_append_1]
    rw [graphFrom_eq, List.filterMap_cons, List.filterMap_append, List.filterMap_append,
      List.filterMap_append, target_group, target_link, List.append_nil, hrange,
      ← List.append_assoc]
    exact (((target_branches hc (id + 1)).append_right _).trans List.perm_append_comm).append hnext

theorem length_declaration_graphFrom (n : Node α) (former : Option Nat) (id : Nat) :
    ((n.graphFrom former id).filterMap Item.declaration?).length = n.count := by
  rw [declaration_graphFrom, declared, List.length_map, List.length_zipIdx, length_walk]

theorem length_declaration_branches (parent id : Nat) (cs : List (Node α)) :
    ((branches parent id cs).filterMap Item.declaration?).length = total cs := by
  rw [declaration_branches (fun c _ => c.declaration_graphFrom) id 0, declared, List.length_map,
    List.length_zipIdx, length_walkChildren 0 fun c _ => c.length_walk]

theorem grounded_branches {parent : Nat} {cs : List (Node α)}
    (h : ∀ c ∈ cs, ∀ former id, (∀ p ∈ former, p < id) → Grounded id (c.graphFrom former id))
    {id : Nat} (hid : parent < id) : Grounded id (branches parent id cs) := by
  induction cs generalizing id with
  | nil => trivial
  | cons c cs ih =>
    rw [List.forall_mem_cons] at h
    have hpos := c.count_pos
    rw [branches, grounded_append, length_declaration_graphFrom]
    exact ⟨h.1 none id nofun, hid, by omega, ih h.2 (Nat.lt_add_right _ hid)⟩

theorem grounded_group (m id : Nat) (n : Node α) : Grounded m (n.group id) := by
  unfold group
  split <;> trivial

theorem grounded_link {m id : Nat} {former : Option Nat} (h : ∀ p ∈ former, p < id)
    (hid : id < m) : Grounded m (link former id) := by
  cases former with
  | none => trivial
  | some p => exact ⟨h p rfl, hid, trivial⟩

/-- When the items of a node start to be drawn, all nodes with lesser numbers are declared. -/
theorem grounded_graphFrom (n : Node α) (former : Option Nat) (id : Nat)
    (h : ∀ p ∈ former, p < id) : Grounded id (n.graphFrom former id) := by
  induction n using Node.induction generalizing former id with
  | step n hc hm =>
    have hext : id < id + n.extent := by
      rw [extent]
      omega
    have hnext : Grounded (id + n.extent) (graphNext id (id + n.extent) n.next?) := by
      cases hx : n.next? with
      | none => trivial
      | some m => exact hm m hx (some id) _ (by simpa using hext)
    have hlen : id + 1 + total n.children = id + n.extent := Nat.add_assoc _ _ _
    rw [graphFrom_eq, Grounded, grounded_append, grounded_append, grounded_append]
    simp only [List.filterMap_append, declaration_group, declaration_link, List.append_nil,
      length_declaration_branches, hlen]
    exact ⟨⟨⟨grounded_branches hc (Nat.lt_succ_self id), grounded_group _ _ _⟩,
      grounded_link h hext⟩, hnext⟩

theorem paired_group (id : Nat) (n : Node α) : Paired (n.group id) := by
  unfold group
  split <;> trivial

theorem paired_link (former : Option Nat) (id : Nat) : Paired (link former id) := by
  cases former with
  | none => trivial
  | some p => exact ⟨rfl, trivial⟩

theorem paired_branches {parent : Nat} {cs : List (Node α)}
    (h : ∀ c ∈ cs, ∀ former id, Paired (c.graphFrom former id)) (id : Nat) :
    Paired (branches parent id cs) := by
  induction cs generalizing id with
  | nil => trivial
  | cons c cs ih =>
    rw [List.forall_mem_cons] at h
    exact (h.1 none id).append (ih h.2 _)

theorem paired_graphFrom (n : Node α) (former : Option Nat) (id : Nat) :
    Paired (n.graphFrom former id) := by
  induction n using Node.induction generalizing former id with
  | step n hc hm =>
    have hnext : Paired (graphNext id (id + n.extent) n.next?) := by
      cases hx : n.next? with
      | none => trivial
      | some m => exact hm m hx _ _
    rw [graphFrom_eq]
    exact (((paired_branches hc _).append (paired_group id n)).append
      (paired_link former id)).append hnext

def forks (id : Nat) (w : List (List Step × Node α)) : List (List Nat) :=
  (w.zipIdx id).flatMap fun x =>
    if 2 < x.1.2.children.length then [heads (x.2 + 1) x.1.2.children] else []

theorem forks_append (id : Nat) (v w : List (List Step × Node α)) :
    forks id (v ++ w) = forks id v ++ forks (id + v.length) w := by
  simp [forks, List.zipIdx_append]

theorem forks_below (id : Nat) (s : Step) (w : List (List Step × Node α)) :
    forks id (w.map (below s)) = forks id w := by
  rw [forks, List.zipIdx_map, List.flatMap_map]
  rfl

theorem group_group (id : Nat) (n : Node α) : (n.group id).filterMap Item.group? =
    if 2 < n.children.length then [heads (id + 1) n.children] else [] := by
  unfold group
  split <;> rfl

theorem pair_group (id : Nat) (n : Node α) : (n.group id).filterMap Item.pair? = [] := by
  unfold group
  split <;> rfl

theorem group_link (former : Option Nat) (id : Nat) :
    (link former id).filterMap Item.group? = (link former id).filterMap Item.pair? := by
  cases former <;> rfl

theorem group_branches {parent : Nat} {cs : List (Node α)}
    (h : ∀ c ∈ cs, ∀ former id, ((c.graphFrom former id).filterMap Item.group?).Perm
      ((c.graphFrom former id).filterMap Item.pair? ++ forks id c.walk)) (id i : Nat) :
    ((branches parent id cs).filterMap Item.group?).Perm
      ((branches parent id cs).filterMap Item.pair? ++ forks id (walkChildren i cs)) := by
  induction cs generalizing id i with
  | nil => exact .nil
  | cons c cs ih =>
    rw [List.forall_mem_cons] at h
    have hfirst := h.1 none id
    have hrest := ih h.2 (id + c.count) (i + 1)
    rw [branches, List.filterMap_append, List.filterMap_append, List.filterMap_cons_none rfl,
      List.filterMap_cons_none rfl, walkChildren, forks_append, forks_below, List.length_map,
      length_walk]
    rw [List.perm_iff_count] at hfirst hrest ⊢
    intro a
    have hfirst := hfirst a
    have hrest := hrest a
    rw [List.count_append] at hfirst hrest
    simp only [List.count_append]
    omega

/-- All groups are the pairs of the edges to a next statement and the child heads of forks. -/
theorem group_graphFrom (n : Node α) (former : Option Nat) (id : Nat) :
    ((n.graphFrom former id).filterMap Item.group?).Perm
      ((n.graphFrom former id).filterMap Item.pair? ++ forks id n.walk) := by
  induction n using Node.induction generalizing former id with
  | step n hc hm =>
    have hbelow := @group_branches _ id _ hc (id + 1) 0
    have hnext : ((graphNext id (id + n.extent) n.next?).filterMap Item.group?).Perm
        ((graphNext id (id + n.extent) n.next?).filterMap Item.pair? ++
          forks (id + n.extent) (walkNext n.next?)) := by
      cases hx : n.next? with
      | none => exact .nil
      | some m =>
        rw [walkNext, forks_below]
        exact hm m hx _ _
    have hlen := length_walkChildren 0 fun c (_ : c ∈ n.children) => c.length_walk
    have hwalk : forks id n.walk = (n.group id).filterMap Item.group? ++
        (forks (id + 1) (walkChildren 0 n.children) ++
          forks (id + n.extent) (walkNext n.next?)) := by
      rw [walk_eq, ← List.singleton_append, forks_append, forks_append, hlen, group_group, extent,
        ← Nat.add_assoc]
      simp [forks]
    rw [hwalk, graphFrom_eq, List.filterMap_cons_none rfl, List.filterMap_cons_none rfl]
    simp only [List.filterMap_append, pair_group, group_link, List.append_nil]
    rw [List.perm_iff_count] at hbelow hnext ⊢
    intro a
    have hbelow := hbelow a
    have hnext := hnext a
    rw [List.count_append] at hbelow hnext
    simp only [List.count_append]
    omega

end Node

end TinyLanguage
