import TinyLanguage.Proofs.Tree.Walk

namespace TinyLanguage

variable {α β : Type}

theorem Expr.kind_map (f : α → β) (e : Expr α) : (e.map f).kind = e.kind := by
  cases e <;> rfl

theorem Statement.kind_map (f : α → β) (s : Statement α) : (s.map f).kind = s.kind := by
  cases s <;> simp [Statement.map, Statement.kind]

theorem Expr.kind_ne (e : Expr α) (s : Statement β) : e.kind ≠ s.kind := by
  cases e <;> cases s <;> simp [kind, Statement.kind]

theorem Statement.children_shape (s : Statement α) :
    s.shape.children = s.children.map Node.shape := by
  cases s <;> simp [shape, Statement.map, children, Node.shape, Expr.shape, Block.shape]

theorem Block.head_shape (b : Block α) : b.shape.head = b.head.shape := by
  cases b <;> simp [shape, Block.map, head, Statement.shape]

theorem Block.tail_shape (b : Block α) : b.shape.tail? = b.tail?.map Block.shape := by
  cases b <;> simp [shape, Block.map, tail?]

namespace Node

@[simp] theorem kind_shape (n : Node α) : n.shape.kind = n.kind := by
  cases n with
  | expression e => exact e.kind_map _
  | statement b => rw [shape, kind, Block.head_shape, Statement.shape, Statement.kind_map, kind]

@[simp] theorem children_shape (n : Node α) : n.shape.children = n.children.map shape := by
  cases n with
  | expression e => cases e <;> rfl
  | statement b => rw [shape, children, Block.head_shape, Statement.children_shape, children]

@[simp] theorem next_shape (n : Node α) : n.shape.next? = n.next?.map shape := by
  cases n with
  | expression e => rfl
  | statement b => rw [shape, next?, Block.tail_shape, next?, Option.map_map, Option.map_map]; rfl

theorem total_map_shape {cs : List (Node α)} (h : ∀ c ∈ cs, c.shape.count = c.count) :
    total (cs.map shape) = total cs := by
  induction cs with
  | nil => rfl
  | cons c cs ih =>
    rw [List.forall_mem_cons] at h
    rw [List.map_cons, total_cons, total_cons, h.1, ih h.2]

@[simp] theorem count_shape (n : Node α) : n.shape.count = n.count := by
  induction n using Node.induction with
  | step n hc hm =>
    rw [count_eq, count_eq, extent, extent, children_shape, next_shape, total_map_shape hc]
    cases h : n.next? with
    | none => rfl
    | some m => simp [hm m h]

@[simp] theorem extent_shape (n : Node α) : n.shape.extent = n.extent := by
  rw [extent, extent, children_shape, total_map_shape fun c _ => c.count_shape]

end Node

section

variable {e f : Expr α} {s t : Statement α} {b c : Block α}

theorem Expr.ext_parts (hkind : e.kind = f.kind) (hnote : e.note = f.note)
    (hchildren : e.children = f.children) : e = f := by
  cases e <;> cases f <;> simp_all [kind, note, children]

theorem Statement.ext_parts (hkind : s.kind = t.kind) (hnote : s.note = t.note)
    (hchildren : s.children = t.children) : s = t := by
  cases s <;> cases t <;> simp_all [kind, note, children]

theorem Block.ext_parts (hhead : b.head = c.head) (htail : b.tail? = c.tail?) : b = c := by
  cases b <;> cases c <;> simp_all [head, tail?]

end

namespace Node

theorem ext_parts {n m : Node α} (hkind : n.kind = m.kind) (hnote : n.note = m.note)
    (hchildren : n.children = m.children) (hnext : n.next? = m.next?) : n = m := by
  cases n with
  | expression e =>
    cases m with
    | expression f => rw [Expr.ext_parts hkind hnote hchildren]
    | statement c => exact absurd hkind (e.kind_ne c.head)
  | statement b =>
    cases m with
    | expression f => exact absurd hkind.symm (f.kind_ne b.head)
    | statement c =>
      have hinj : Function.Injective (statement : Block α → Node α) := by
        intro _ _ h
        injection h
      have htail := Option.map_injective hinj hnext
      rw [Block.ext_parts (Statement.ext_parts hkind hnote hchildren) htail]

theorem shape_eq {n : Node α} {m : Node β} (hkind : n.kind = m.kind)
    (hchildren : n.children.map shape = m.children.map shape)
    (hnext : n.next?.map shape = m.next?.map shape) : n.shape = m.shape :=
  ext_parts (by simpa using hkind) rfl (by simpa using hchildren) (by simpa using hnext)

end Node

end TinyLanguage
