import TinyLanguage.Proofs.Format.Edges
import TinyLanguage.Proofs.Tree.Shape

namespace TinyLanguage

variable {α β : Type}

open TinyLanguage.Graph (Item)

namespace Graph.Item

def head? : Item → Option Nat
  | child _ j => some j
  | _ => none

def latter? : Item → Option Nat
  | next _ j => some j
  | _ => none

theorem head_links {γ : Type} (i j : Nat) (ids : List Nat) (o : Option γ) :
    (ids.map (child i) ++ o.toList.map fun _ => next i j).filterMap head? = ids := by
  cases o <;> simp [List.filterMap_map, Function.comp_def, head?]

theorem latter_links {γ : Type} (i j : Nat) (ids : List Nat) (o : Option γ) :
    ((ids.map (child i) ++ o.toList.map fun _ => next i j).filterMap latter?).head? =
      o.map fun _ => j := by
  cases o <;> simp [List.filterMap_map, Function.comp_def, latter?]

end Graph.Item

namespace Node

theorem follow_concat {n m : Node α} {path : List Step} (h : n.follow? path = some m) (s : Step) :
    n.follow? (path ++ [s]) = m.step? s := by
  have hm : List.foldlM step? n path = some m := h
  rw [follow?, List.foldlM_append, hm]
  exact bind_pure (m.step? s)

theorem length_childNumbers (n : Node α) (path : List Step) (m : Node α) :
    (n.childNumbers path m).length = m.children.length := by
  rw [childNumbers, List.length_map, List.length_range]

theorem getElem?_childNumbers {n m : Node α} {path : List Step} {k : Nat}
    (h : k < m.children.length) :
    (n.childNumbers path m)[k]? = some (n.number (path ++ [.child k])) := by
  rw [childNumbers, List.getElem?_map, List.getElem?_range h, Option.map_some]

theorem number_nil (n : Node α) : n.number [] = 0 :=
  number_eq (m := n) (by rw [walk_eq]; rfl)

end Node

namespace Graph.Draws

open Node Item

variable {n m : Node α} {n' m' : Node β} {items : List Item} {path path' : List Step}

theorem declaration (h : Draws n items) (hm : n.follow? path = some m) :
    (items.filterMap Item.declaration?)[n.number path]? = some (n.number path, m.kind) := by
  rw [h.declares, List.getElem?_map, getElem?_number hm, Option.map_some]

theorem kind_eq (h : Draws n items) (h' : Draws n' items) (hm : n.follow? path = some m)
    (hm' : n'.follow? path' = some m') (hnum : n.number path = n'.number path') :
    m.kind = m'.kind := by
  have hdecl := h.declaration hm
  rw [hnum, h'.declaration hm', Option.some.injEq, Prod.mk.injEq] at hdecl
  exact hdecl.2.symm

theorem links_eq (h : Draws n items) (h' : Draws n' items) (hm : n.follow? path = some m)
    (hm' : n'.follow? path' = some m') (hnum : n.number path = n'.number path') :
    n.childNumbers path m = n'.childNumbers path' m' ∧
      (m.next?.map fun _ => n.number (path ++ [.next])) =
        m'.next?.map fun _ => n'.number (path' ++ [.next]) := by
  have hlinks := h.links path m hm
  rw [hnum, h'.links path' m' hm'] at hlinks
  have hheads := congrArg (List.filterMap Item.head?) hlinks
  have hlatter := congrArg (fun es => (List.filterMap Item.latter? es).head?) hlinks
  simp only [head_links, latter_links] at hheads hlatter
  exact ⟨hheads.symm, hlatter.symm⟩

theorem shape_eq_of_number (h : Draws n items) (h' : Draws n' items)
    (hm : n.follow? path = some m) (hm' : n'.follow? path' = some m')
    (hnum : n.number path = n'.number path') : m.shape = m'.shape := by
  induction m using Node.induction generalizing path path' m' with
  | step m hc hn =>
    obtain ⟨hheads, hlatter⟩ := h.links_eq h' hm hm' hnum
    have hlen : m.children.length = m'.children.length := by
      rw [← length_childNumbers n path, hheads, length_childNumbers]
    refine Node.shape_eq (h.kind_eq h' hm hm' hnum) (List.ext_getElem? fun k => ?_) ?_
    · rw [List.getElem?_map, List.getElem?_map]
      rcases Nat.lt_or_ge k m.children.length with hlt | hge
      · have hlt' : k < m'.children.length := hlen ▸ hlt
        have hk := List.getElem?_eq_getElem hlt
        have hk' := List.getElem?_eq_getElem hlt'
        have hchild := congrArg (fun ids => ids[k]?) hheads
        simp only [getElem?_childNumbers hlt, getElem?_childNumbers hlt', Option.some.injEq]
          at hchild
        rw [hk, hk', Option.map_some, Option.map_some]
        exact congrArg some (hc _ (List.mem_of_getElem? hk)
          ((follow_concat hm (.child k)).trans hk) ((follow_concat hm' (.child k)).trans hk')
          hchild)
      · rw [List.getElem?_eq_none hge, List.getElem?_eq_none (hlen ▸ hge)]
        rfl
    · cases hx : m.next? with
      | none =>
        cases hx' : m'.next? with
        | none => rfl
        | some y => simp [hx, hx'] at hlatter
      | some x =>
        cases hx' : m'.next? with
        | none => simp [hx, hx'] at hlatter
        | some y =>
          simp only [hx, hx', Option.map_some, Option.some.injEq] at hlatter
          exact congrArg some (hn x hx ((follow_concat hm .next).trans hx)
            ((follow_concat hm' .next).trans hx') hlatter)

/-- A drawing is that of one tree only. -/
theorem shape_eq (h : Draws n items) (h' : Draws n' items) : n.shape = n'.shape :=
  h.shape_eq_of_number h' (show n.follow? [] = some n from rfl)
    (show n'.follow? [] = some n' from rfl) (n.number_nil.trans n'.number_nil.symm)

end Graph.Draws

end TinyLanguage
