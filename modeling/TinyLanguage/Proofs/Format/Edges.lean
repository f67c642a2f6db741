import TinyLanguage.Proofs.Format.Drawing

namespace TinyLanguage

variable {α : Type}

open TinyLanguage.Graph (Item link grounded_append)

namespace Node

def leaving (id : Nat) (n : Node α) : List Item :=
  (heads (id + 1) n.children).map (.child id) ++
    n.next?.toList.map fun _ => .next id (id + n.extent)

theorem leaves_child {i j : Nat} (ids : List Nat) :
    (ids.map (Item.child j)).filter (Item.leaves i) = if j = i then ids.map (.child j) else [] := by
  split
  · next h =>
    subst h
    simp [List.filter_eq_self, Item.leaves, Item.edge?]
  · next h => simp [List.filter_eq_nil_iff, Item.leaves, Item.edge?, h]

theorem leaves_link_of_ne {i id : Nat} {former : Option Nat} (h : ∀ p ∈ former, p ≠ i) :
    (link former id).filter (Item.leaves i) = [] := by
  cases former with
  | none => rfl
  | some p => simp [link, Item.leaves, Item.edge?, h p rfl]

theorem leaves_group (i id : Nat) (n : Node α) : (n.group id).filter (Item.leaves i) = [] := by
  unfold group
  split <;> rfl

theorem leaves_branches_of_notMem {parent i : Nat} {cs : List (Node α)}
    (h : ∀ c ∈ cs, ∀ former id, i < id ∨ id + c.count ≤ i →
      (c.graphFrom former id).filter (Item.leaves i) = (link former id).filter (Item.leaves i))
    {id : Nat} (hi : i < id ∨ id + total cs ≤ i) :
    (branches parent id cs).filter (Item.leaves i) =
      ((heads id cs).map (Item.child parent)).filter (Item.leaves i) := by
  induction cs generalizing id with
  | nil => rfl
  | cons c cs ih =>
    rw [List.forall_mem_cons] at h
    rw [total_cons] at hi
    rw [branches, List.filter_append, h.1 none id (by omega), List.filter_cons,
      ih h.2 (by omega), heads, List.map_cons, List.filter_cons]
    rfl

theorem leaves_graphFrom_of_notMem (n : Node α) (former : Option Nat) (id : Nat) {i : Nat}
    (hi : i < id ∨ id + n.count ≤ i) : (n.graphFrom former id).filter (Item.leaves i) =
      (link former id).filter (Item.leaves i) := by
  induction n using Node.induction generalizing former id with
  | step n hc hm =>
    have hcount := n.count_eq
    have hext : n.extent = 1 + total n.children := rfl
    have hid : id ≠ i := by omega
    have hnext : (graphNext id (id + n.extent) n.next?).filter (Item.leaves i) = [] := by
      cases hx : n.next? with
      | none => rfl
      | some m =>
        rw [hx] at hcount
        simp only [Option.toList_some, total_cons, total_nil, Nat.add_zero] at hcount
        rw [graphNext, hm m hx _ _ (by omega), leaves_link_of_ne (by simpa using hid)]
    rw [graphFrom_eq, List.filter_cons_of_neg (by simp [Item.leaves, Item.edge?]),
      List.filter_append, List.filter_append, List.filter_append,
      leaves_branches_of_notMem (fun c h f j hj => hc c h f j hj) (by omega), leaves_child,
      if_neg hid, leaves_group, hnext]
    simp

theorem leaves_branches_of_ne {parent i id : Nat} {cs : List (Node α)} (hne : parent ≠ i)
    (hi : i < id ∨ id + total cs ≤ i) :
    (branches parent id cs).filter (Item.leaves i) = [] := by
  rw [leaves_branches_of_notMem (fun c _ f j hj => c.leaves_graphFrom_of_notMem f j hj) hi,
    leaves_child, if_neg hne]

theorem leaves_graphNext_of_ne {former i id : Nat} {o : Option (Node α)} (hne : former ≠ i)
    (hi : i < id ∨ id + total o.toList ≤ i) :
    (graphNext former id o).filter (Item.leaves i) = [] := by
  cases o with
  | none => rfl
  | some m =>
    rw [graphNext, leaves_graphFrom_of_notMem m _ _ (by simpa using hi),
      leaves_link_of_ne (by simpa using hne)]

theorem leaves_branches {parent k : Nat} {cs : List (Node α)} {p : List Step} {m : Node α}
    (h : ∀ c ∈ cs, ∀ former id k p, (∀ q ∈ former, q < id) → c.walk[k]? = some (p, m) →
      (c.graphFrom former id).filter (Item.leaves (id + k)) = leaving (id + k) m)
    {id i : Nat} (hid : parent < id) (hk : (walkChildren i cs)[k]? = some (p, m)) :
    (branches parent id cs).filter (Item.leaves (id + k)) = leaving (id + k) m := by
  induction cs generalizing id i k with
  | nil => cases hk
  | cons c cs ih =>
    rw [List.forall_mem_cons] at h
    have hchild : ¬ Item.leaves (id + k) (.child parent id) := by
      simp only [Item.leaves, Item.edge?, Option.map_some, Option.some.injEq, decide_eq_true_eq]
      omega
    have hlen : (c.walk.map (below (.child i))).length = c.count := by
      rw [List.length_map, length_walk]
    rw [branches, List.filter_append, List.filter_cons_of_neg hchild]
    rw [walkChildren] at hk
    rcases Nat.lt_or_ge k c.count with hlt | hge
    · rw [List.getElem?_append_left (by rwa [hlen]), List.getElem?_map,
        Option.map_eq_some_iff] at hk
      obtain ⟨⟨p', m'⟩, hk, hm⟩ := hk
      obtain ⟨-, rfl⟩ := Prod.mk.inj hm
      rw [h.1 none id k p' (by simp) hk, leaves_branches_of_ne (by omega) (by omega),
        List.append_nil]
    · rw [List.getElem?_append_right (by rwa [hlen]), hlen] at hk
      have hrest := ih h.2 (Nat.lt_add_right c.count hid) hk
      rw [Nat.add_assoc, Nat.add_sub_cancel' hge] at hrest
      rw [leaves_graphFrom_of_notMem c none id (by omega), hrest]
      rfl

/-- The edges to the children of a node stand between and behind these, and the edge to the next
statement is drawn with that statement. -/
theorem leaves_own (n : Node α) (id : Nat) :
    (branches id (id + 1) n.children).filter (Item.leaves id) ++
      (graphNext id (id + n.extent) n.next?).filter (Item.leaves id) = leaving id n := by
  rw [leaving, leaves_branches_of_notMem (fun c _ f j hj => c.leaves_graphFrom_of_notMem f j hj)
    (by omega), leaves_child, if_pos rfl]
  congr 1
  cases n.next? with
  | none => rfl
  | some m =>
    have hext : n.extent = 1 + total n.children := rfl
    rw [graphNext, leaves_graphFrom_of_notMem m _ _ (by omega)]
    simp [link, Item.leaves, Item.edge?]

/-- The edges that leave a node of the walk are those of its own. -/
theorem leaves_graphFrom (n : Node α) (former : Option Nat) (id k : Nat) (p : List Step)
    (m : Node α) (hf : ∀ q ∈ former, q < id) (hk : n.walk[k]? = some (p, m)) :
    (n.graphFrom former id).filter (Item.leaves (id + k)) = leaving (id + k) m := by
  induction n using Node.induction generalizing former id k p with
  | step n hc hm =>
    have hlink : (link former id).filter (Item.leaves (id + k)) = [] :=
      leaves_link_of_ne fun q hq => by
        have := hf q hq
        omega
    rw [graphFrom_eq, List.filter_cons_of_neg (by simp [Item.leaves, Item.edge?]),
      List.filter_append, List.filter_append, List.filter_append, leaves_group, hlink,
      List.append_nil, List.append_nil]
    have hlen := length_walkChildren 0 fun c (_ : c ∈ n.children) => c.length_walk
    have hext : n.extent = 1 + total n.children := rfl
    rw [walk_eq] at hk
    cases k with
    | zero =>
      obtain ⟨-, rfl⟩ := Prod.mk.inj (Option.some.inj hk)
      exact n.leaves_own id
    | succ k =>
      rw [List.getElem?_cons_succ] at hk
      rcases Nat.lt_or_ge k (total n.children) with hlt | hge
      · rw [List.getElem?_append_left (by rwa [hlen])] at hk
        have hb := leaves_branches hc (Nat.lt_add_one id) hk
        rw [Nat.add_assoc, Nat.add_comm 1] at hb
        rw [hb, leaves_graphNext_of_ne (by omega) (by omega), List.append_nil]
      · rw [List.getElem?_append_right (by rwa [hlen]), hlen] at hk
        rw [leaves_branches_of_ne (by omega) (by omega)]
        cases hx : n.next? with
        | none =>
          rw [hx] at hk
          cases hk
        | some x =>
          rw [hx, walkNext, List.getElem?_map, Option.map_eq_some_iff] at hk
          obtain ⟨⟨p', m'⟩, hk, h⟩ := hk
          obtain ⟨-, rfl⟩ := Prod.mk.inj h
          have hformer : ∀ q ∈ some id, q < id + n.extent := by
            intro q hq
            obtain rfl := Option.some.inj hq
            omega
          have hlast := hm x hx (some id) (id + n.extent) _ p' hformer hk
          have hnum : id + n.extent + (k - total n.children) = id + (k + 1) := by omega
          rw [hnum] at hlast
          exact hlast

def childNumbers (n : Node α) (path : List Step) (m : Node α) : List Nat :=
  (List.range m.children.length).map fun k => n.number (path ++ [.child k])

end Node

/-- The items draw the tree from a node on. Every node goes by its number, its place in the walk. -/
structure Graph.Draws (n : Node α) (items : List Item) : Prop where
  declares : items.filterMap Item.declaration? =
    n.walk.map fun w => (n.number w.1, w.2.kind)
  /-- The numbers come once each and in order. -/
  counts : (items.filterMap Item.declaration?).map Prod.fst = List.range n.count
  /-- One edge ends at every node but the first. -/
  reaches : (items.filterMap Item.target?).Perm (List.range' 1 (n.count - 1))
  grounds : ∀ above item below i j, items = above ++ item :: below → item.edge? = some (i, j) →
    i < j ∧ ∀ k ∈ [i, j], k ∈ (above.filterMap Item.declaration?).map Prod.fst
  links : ∀ path m, n.follow? path = some m → items.filter (Item.leaves (n.number path)) =
    (n.childNumbers path m).map (.child (n.number path)) ++
      m.next?.toList.map fun _ => .next (n.number path) (n.number (path ++ [.next]))
  pairs : ∀ above i j below, items = above ++ .next i j :: below →
    below.head? = some (.sameRank [i, j])
  /-- All other groups belong to conditionals with an alternative. -/
  groups : (items.filterMap Item.group?).Perm (items.filterMap Item.pair? ++
    (n.walk.filter fun w => w.2.kind = .conditional ∧ w.2.children.length = 3).map fun w =>
      n.childNumbers w.1 w.2)

namespace Node

theorem getElem?_number {n m : Node α} {path : List Step} (h : n.follow? path = some m) :
    n.walk[n.number path]? = some (path, m) := by
  obtain ⟨i, hi⟩ := List.mem_iff_getElem?.1 (mem_walk.2 h)
  rwa [number_eq hi]

theorem declared_walk (n : Node α) :
    declared 0 n.walk = n.walk.map fun w => (n.number w.1, w.2.kind) := by
  apply List.ext_getElem?
  intro i
  rw [declared, List.getElem?_map, List.getElem?_zipIdx, List.getElem?_map]
  cases h : n.walk[i]? with
  | none => rfl
  | some w => simp [number_eq (m := w.2) h]

theorem fork_iff (n : Node α) :
    2 < n.children.length ↔ n.kind = .conditional ∧ n.children.length = 3 := by
  cases n with
  | expression e => cases e <;> simp [children, Expr.children, kind, Expr.kind]
  | statement b =>
    cases h : b.head <;>
      simp [children, Statement.children, kind, Statement.kind, h]

theorem forks_eq {n : Node α} {id : Nat} {w : List (List Step × Node α)}
    (h : ∀ i x, w[i]? = some x → heads (id + i + 1) x.2.children = n.childNumbers x.1 x.2) :
    forks id w = (w.filter fun x => x.2.kind = .conditional ∧ x.2.children.length = 3).map fun x =>
      n.childNumbers x.1 x.2 := by
  induction w generalizing id with
  | nil => rfl
  | cons x w ih =>
    have hx := h 0 x rfl
    have hw := @ih (id + 1) fun i y hy => by
      rw [← h (i + 1) y hy, Nat.add_assoc id 1, Nat.add_comm 1]
    rw [← List.singleton_append, forks_append, List.length_singleton, hw, List.filter_append,
      List.map_append]
    congr 1
    by_cases hfork : 2 < x.2.children.length
    · simp [forks, (fork_iff x.2).1 hfork, hx]
    · simp [forks, hfork, mt (fork_iff x.2).2 hfork]

theorem forks_walk (n : Node α) : forks 0 n.walk =
    (n.walk.filter fun w => w.2.kind = .conditional ∧ w.2.children.length = 3).map fun w =>
      n.childNumbers w.1 w.2 :=
  forks_eq fun i x h => by rw [Nat.zero_add, heads_eq (m := x.2) h, childNumbers]

theorem count_graph (n : Node α) :
    (n.graph.filterMap Item.declaration?).map Prod.fst = List.range n.count := by
  rw [graph_eq, declaration_graphFrom, declared, List.map_map, ← length_walk,
    List.range_eq_range', ← List.zipIdx_map_snd 0 n.walk]
  rfl

theorem eq_range_of_append {m : Nat} {xs ys : List Nat} (h : xs ++ ys = List.range m) :
    xs = List.range xs.length := by
  have hlen : xs.length ≤ m := by
    rw [← List.length_range (n := m), ← h, List.length_append]
    exact Nat.le_add_right _ _
  calc xs = (xs ++ ys).take xs.length := List.take_left.symm
    _ = List.range xs.length := by rw [h, List.take_range, Nat.min_eq_left hlen]

theorem draws_graph (n : Node α) : Graph.Draws n n.graph where
  declares := by rw [graph_eq, declaration_graphFrom, declared_walk]
  counts := n.count_graph
  reaches := by
    rw [graph_eq]
    exact n.target_graphFrom none 0
  grounds := by
    intro above item below i j h he
    have hg := n.grounded_graphFrom none 0 nofun
    rw [← graph_eq, h, grounded_append] at hg
    obtain ⟨hij, hj⟩ := hg.2.edge he
    have hall := n.count_graph
    rw [h, List.filterMap_append, List.map_append] at hall
    have habove := eq_range_of_append hall
    rw [List.length_map] at habove
    rw [habove]
    simp only [List.mem_cons, List.not_mem_nil, or_false, List.mem_range]
    refine ⟨hij, ?_⟩
    rintro k (rfl | rfl) <;> omega
  links := by
    intro path m h
    have hk := getElem?_number h
    have hleave := n.leaves_graphFrom none 0 _ path m nofun hk
    rw [Nat.zero_add] at hleave
    rw [graph_eq, hleave, leaving, heads_eq hk, childNumbers]
    cases hx : m.next? with
    | none => rfl
    | some c =>
      rw [Option.toList_some, List.map_singleton, List.map_singleton,
        number_eq (getElem?_extent hk hx)]
  pairs := by
    intro above i j below h
    have hp := n.paired_graphFrom none 0
    rw [← graph_eq, h] at hp
    exact hp.behind.1
  groups := by
    have hg := n.group_graphFrom none 0
    rwa [← graph_eq, forks_walk] at hg

end Node

end TinyLanguage
