import TinyLanguage.Format.Sketch
import TinyLanguage.Proofs.Format.Drawing

namespace TinyLanguage

open TinyLanguage.Graph (Item Sketch link)

namespace Node

variable {n : Node Span} {cs : List (Node Span)}

theorem run_bind {α β : Type} (p : StateM Sketch α) (f : α → StateM Sketch β) (s : Sketch) :
    (p >>= f).run s = (f (p.run s).1).run (p.run s).2 := rfl

theorem run_put (item : Item) (s : Sketch) :
    (Sketch.put item).run s = ((), ⟨s.items ++ [item], s.nextId⟩) := rfl

theorem run_align (heads : List Nat) (s : Sketch) : (Sketch.align heads).run s =
    ((), ⟨s.items ++ if 2 < heads.length then [.sameRank heads] else [], s.nextId⟩) := by
  rw [Sketch.align]
  split
  · rfl
  · rw [List.append_nil]
    rfl

theorem run_tie (former : Option Nat) (id : Nat) (s : Sketch) :
    (Sketch.tie former id).run s = ((), ⟨s.items ++ link former id, s.nextId⟩) := by
  cases former with
  | none =>
    rw [link, List.append_nil]
    rfl
  | some previous =>
    rw [Sketch.tie, run_bind, run_put, run_put, List.append_assoc]
    rfl

theorem sketchChildren_draft (h : ∀ c ∈ cs, ∀ former s, (c.draft.sketch former).run s =
      (s.nextId, ⟨s.items ++ c.graphFrom former s.nextId, s.nextId + c.count⟩))
    (parent : Nat) (s : Sketch) :
    (Draft.sketchChildren parent (cs.map draft)).run s = (heads s.nextId cs,
      ⟨s.items ++ branches parent s.nextId cs, s.nextId + total cs⟩) := by
  induction cs generalizing s with
  | nil =>
    rw [branches, List.append_nil]
    rfl
  | cons c cs ih =>
    rw [List.forall_mem_cons] at h
    rw [List.map_cons, Draft.sketchChildren, run_bind, h.1, run_bind, run_put, run_bind, ih h.2,
      heads, branches, total_cons]
    simp only [List.append_assoc, List.singleton_append, Nat.add_assoc]
    rfl

theorem sketchNext_draft {o : Option (Node Span)} (h : ∀ m ∈ o, ∀ former s,
      (m.draft.sketch former).run s =
        (s.nextId, ⟨s.items ++ m.graphFrom former s.nextId, s.nextId + m.count⟩))
    (former : Nat) (s : Sketch) : (Draft.sketchNext former (o.map draft)).run s =
      ((), ⟨s.items ++ graphNext former s.nextId o, s.nextId + total o.toList⟩) := by
  cases o with
  | none =>
    rw [graphNext, List.append_nil]
    rfl
  | some m =>
    -- A node is not told the number of the one that stands behind it.
    have hm := congrArg (fun x : Nat × Sketch => ((), x.2)) (h m rfl (some former) s)
    exact hm

/-- A counter gives the nodes the numbers that they have in the drawing. -/
theorem sketch_draft (n : Node Span) (former : Option Nat) (s : Sketch) :
    (n.draft.sketch former).run s =
      (s.nextId, ⟨s.items ++ n.graphFrom former s.nextId, s.nextId + n.count⟩) := by
  induction n using Node.induction generalizing former s with
  | step n hc hm =>
    have hfresh : Sketch.fresh.run s = (s.nextId, ⟨s.items, s.nextId + 1⟩) := rfl
    rw [draft_eq, Draft.sketch, run_bind, hfresh, run_bind, run_put, run_bind,
      sketchChildren_draft hc, run_bind, run_align, run_bind, run_tie, run_bind,
      sketchNext_draft hm, graphFrom_eq, count_eq, extent, group, length_heads]
    simp only [List.append_assoc, List.cons_append, Nat.add_assoc]
    rfl

theorem drawing_draft (n : Node Span) : n.draft.drawing = n.graph := by
  rw [Draft.drawing, sketch_draft, graph_eq]
  rfl

end Node

end TinyLanguage
