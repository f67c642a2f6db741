import Mathlib.Data.List.Forall2
import TinyLanguage.Format.Catalogue
import TinyLanguage.Proofs.Tree.Shape
import TinyLanguage.Tree.Equality

namespace TinyLanguage

namespace Node

variable {α : Type}

/-- The relation holds of two nodes just if they agree in kind and note, and it holds of their
children in turn and of the nodes behind them. -/
def Structural (R : Node α → Node α → Prop) : Prop :=
  ∀ n m, R n m ↔ n.kind = m.kind ∧ n.note = m.note ∧ List.Forall₂ R n.children m.children ∧
    Option.Rel R n.next? m.next?

section

variable {R : Node α → Node α → Prop}

theorem forall₂_iff_eq {cs ds : List (Node α)} (h : ∀ c ∈ cs, ∀ d, R c d ↔ c = d) :
    List.Forall₂ R cs ds ↔ cs = ds := by
  induction cs generalizing ds with
  | nil => simp [eq_comm]
  | cons c cs ih =>
    rw [List.forall_mem_cons] at h
    cases ds with
    | nil => simp
    | cons d ds => rw [List.forall₂_cons, h.1, ih h.2, List.cons.injEq]

theorem rel_iff_eq {o p : Option (Node α)} (h : ∀ c ∈ o, ∀ d, R c d ↔ c = d) :
    Option.Rel R o p ↔ o = p := by
  cases o <;> cases p <;> simp
  exact h _ rfl _

/-- Equality is the only such relation: a tree ends below and behind each of its nodes. -/
theorem Structural.iff_eq (hR : Structural R) (n m : Node α) : R n m ↔ n = m := by
  induction n using Node.induction generalizing m with
  | step n hc hn =>
    rw [hR, forall₂_iff_eq hc, rel_iff_eq hn]
    constructor
    · rintro ⟨hkind, hnote, hchildren, hnext⟩
      exact ext_parts hkind hnote hchildren hnext
    · rintro rfl
      exact ⟨rfl, rfl, rfl, rfl⟩

end

inductive Identical : Node α → Node α → Prop
  | intro {n m : Node α} (kind : n.kind = m.kind) (note : n.note = m.note)
      (children : List.Forall₂ Identical n.children m.children)
      (next : Option.Rel Identical n.next? m.next?) : Identical n m

theorem structural_identical : Structural (Identical (α := α)) := by
  intro n m
  constructor
  · rintro ⟨hkind, hnote, hchildren, hnext⟩
    exact ⟨hkind, hnote, hchildren, hnext⟩
  · rintro ⟨hkind, hnote, hchildren, hnext⟩
    exact .intro hkind hnote hchildren hnext

section

variable [BEq α]

theorem sameAll_iff {cs ds : List (Node α)} :
    sameAll cs ds = true ↔ List.Forall₂ (fun c d => c.same d = true) cs ds := by
  induction cs generalizing ds with
  | nil => cases ds <;> simp [sameAll]
  | cons c cs ih => cases ds <;> simp [sameAll, same, ih]

theorem sameFrom_iff {o p : Option (Node α)} :
    sameFrom o p = true ↔ Option.Rel (fun c d => c.same d = true) o p := by
  cases o <;> cases p <;> simp [sameFrom, same]

theorem structural_same [LawfulBEq α] : Structural fun n m : Node α => n.same m = true := by
  intro n m
  change n.same m = true ↔ _
  rw [← sameAll_iff, ← sameFrom_iff, same, sameFrom]
  simp [and_assoc]

theorem same_iff_eq [LawfulBEq α] {n m : Node α} : n.same m = true ↔ n = m :=
  structural_same.iff_eq n m

end

/-- A node is known by its shape and by the notes of the nodes that it leads to. -/
theorem ext_notes {n m : Node α} (hshape : n.shape = m.shape)
    (hnotes : ∀ path n' m', n.follow? path = some n' → m.follow? path = some m' →
      n'.note = m'.note) : n = m := by
  induction n using Node.induction generalizing m with
  | step n hc hn =>
    have hkind : n.kind = m.kind := by simpa using congrArg kind hshape
    have hchildren : n.children.map shape = m.children.map shape := by
      simpa using congrArg children hshape
    have hnext : n.next?.map shape = m.next?.map shape := by simpa using congrArg next? hshape
    have hbelow : ∀ {s c d}, n.step? s = some c → m.step? s = some d → ∀ path n' m',
        c.follow? path = some n' → d.follow? path = some m' → n'.note = m'.note := by
      intro s c d hc hd path n' m' hn' hm'
      refine hnotes (s :: path) n' m' ?_ ?_
      · rw [follow_cons, hc, Option.bind_some, hn']
      · rw [follow_cons, hd, Option.bind_some, hm']
    refine ext_parts hkind (hnotes [] n m rfl rfl) ?_ ?_
    · have hlength : n.children.length = m.children.length := by
        simpa using congrArg List.length hchildren
      refine List.ext_getElem hlength fun i hi hj => ?_
      refine hc _ (List.getElem_mem hi) ?_
        (hbelow (s := .child i) (List.getElem?_eq_getElem hi) (List.getElem?_eq_getElem hj))
      have h := List.getElem_of_eq hchildren ((List.length_map shape).symm ▸ hi)
      rwa [List.getElem_map, List.getElem_map] at h
    · cases hc' : n.next? with
      | none =>
        rw [hc', Option.map_none, eq_comm, Option.map_eq_none_iff] at hnext
        rw [hnext]
      | some c =>
        rw [hc', Option.map_some, eq_comm, Option.map_eq_some_iff] at hnext
        obtain ⟨d, hd, hcd⟩ := hnext
        rw [hd, hn c hc' hcd.symm (hbelow (s := .next) hc' hd)]

end Node

/-- The walk along two chains says of two nodes whether they agree in all their parts. To agree is
an equivalence; nodes that do are written out alike and have as many nodes in all and in their
chains; and they are the nodes of one shape whose notes are the same at the end of every way. -/
theorem same_identical :
    (∀ n m : Node Span, n.same m = true ↔ n.Identical m) ∧
      Equivalence (fun n m : Node Span => n.same m = true) ∧
      (∀ n m : Node Span, n.same m = true → (∀ f : Format, f.render n = f.render m) ∧
        n.count = m.count ∧ n.chain.length = m.chain.length) ∧
      ∀ n m : Node Span, n.same m = true ↔ n.shape = m.shape ∧
        ∀ path n' m', n.follow? path = some n' → m.follow? path = some m' → n'.note = m'.note := by
  refine ⟨?_, ?_, ?_, ?_⟩
  · intro n m
    rw [Node.same_iff_eq, Node.structural_identical.iff_eq]
  · simp only [Node.same_iff_eq]
    exact eq_equivalence
  · intro n m h
    obtain rfl := Node.same_iff_eq.1 h
    exact ⟨fun _ => rfl, rfl, rfl⟩
  · intro n m
    rw [Node.same_iff_eq]
    constructor
    · rintro rfl
      refine ⟨rfl, fun path n' m' hn' hm' => ?_⟩
      rw [Option.some.inj (hn'.symm.trans hm')]
    · rintro ⟨hshape, hnotes⟩
      exact Node.ext_notes hshape hnotes

end TinyLanguage
