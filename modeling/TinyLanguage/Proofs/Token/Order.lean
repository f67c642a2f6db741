import TinyLanguage.Token.Scan

namespace TinyLanguage

namespace Position

theorem offset_le_after (p : Position) (cs : List Char) : p.offset ≤ (p.after cs).offset := by
  induction cs generalizing p with
  | nil => exact Nat.le_refl _
  | cons c cs ih =>
    have hc := p.offset_advance c
    have hcs := ih (p.advance c)
    rw [after_cons]
    omega

theorem offset_lt_after (p : Position) {cs : List Char} (h : cs ≠ []) :
    p.offset < (p.after cs).offset := by
  cases cs with
  | nil => exact absurd rfl h
  | cons c cs =>
    have hc := p.offset_advance c
    have hcs := (p.advance c).offset_le_after cs
    have hpos := c.utf8Size_pos
    rw [after_cons]
    omega

end Position

namespace Cursor

theorem skip_eq_ok {comment : Option Position} {p : Position} {cs : List Char} {c : Cursor}
    (h : skip comment p cs = .ok c) :
    p.offset ≤ c.place.offset ∧ c.place.after c.rest = p.after cs := by
  induction cs generalizing comment p with
  | nil =>
    cases comment with
    | none =>
      obtain rfl := Except.ok.inj h
      exact ⟨Nat.le_refl _, rfl⟩
    | some start => cases h
  | cons d ds ih =>
    have hd := p.offset_advance d
    cases comment with
    | some start =>
      obtain ⟨hle, hafter⟩ := ih h
      exact ⟨by omega, hafter⟩
    | none =>
      simp only [skip] at h
      split at h
      · obtain ⟨hle, hafter⟩ := ih h
        exact ⟨by omega, hafter⟩
      · split at h
        · obtain ⟨hle, hafter⟩ := ih h
          exact ⟨by omega, hafter⟩
        · obtain rfl := Except.ok.inj h
          exact ⟨Nat.le_refl _, rfl⟩

/-- A comment without an end is the one around the first place, or it starts behind it. -/
theorem skip_eq_error {comment : Option Position} {p start finish : Position} {cs : List Char}
    (h : skip comment p cs = .error (start, finish)) :
    (comment = some start ∨ p.offset ≤ start.offset) ∧ finish = p.after cs := by
  induction cs generalizing comment p with
  | nil =>
    cases comment with
    | none => cases h
    | some s =>
      obtain ⟨rfl, rfl⟩ := Prod.mk.inj (Except.error.inj h)
      exact ⟨.inl rfl, rfl⟩
  | cons d ds ih =>
    have hd := p.offset_advance d
    cases comment with
    | some s =>
      simp only [skip] at h
      obtain ⟨hstart, hafter⟩ := ih h
      refine ⟨?_, hafter⟩
      rcases hstart with hs | hle
      · split at hs
        · cases hs
        · exact .inl hs
      · exact .inr (by omega)
    | none =>
      simp only [skip] at h
      split at h
      · obtain ⟨hstart, hafter⟩ := ih h
        refine ⟨.inr ?_, hafter⟩
        rcases hstart with hs | hle
        · obtain rfl := Option.some.inj hs
          exact Nat.le_refl _
        · omega
      · split at h
        · obtain ⟨hstart, hafter⟩ := ih h
          refine ⟨.inr ?_, hafter⟩
          rcases hstart with hs | hle
          · cases hs
          · omega
        · cases h

theorem cut_fst_ne_nil (c : Char) (cs : List Char) : (cut c cs).1 ≠ [] := by
  intro h
  have happ := congrArg List.length (cut_append c cs)
  have hlen := length_cut_snd_le c cs
  simp only [h, List.nil_append, List.length_cons] at happ
  omega

theorem next_eq_token {c d : Cursor} {t : Token} (h : c.next = .token t d) :
    c.place.offset ≤ t.span.start ∧ t.span.start < t.span.stop ∧ t.span.stop = d.place.offset ∧
      d.place.after d.rest = c.place.after c.rest := by
  unfold next at h
  split at h
  · cases h
  · cases h
  · rename_i start e es hs
    obtain ⟨hle, hafter⟩ := skip_eq_ok hs
    have hne := cut_fst_ne_nil e es
    have happ := cut_append e es
    simp only [Step.token.injEq] at h
    obtain ⟨rfl, rfl⟩ := h
    refine ⟨hle, start.offset_lt_after hne, rfl, ?_⟩
    rw [← hafter, ← Position.after_append, happ]

theorem next_eq_finished {c : Cursor} {finish : Position} (h : c.next = .finished finish) :
    finish = c.place.after c.rest := by
  unfold next at h
  split at h
  · cases h
  · rename_i q hs
    obtain rfl := Step.finished.inj h
    exact (skip_eq_ok hs).2
  · cases h

theorem next_eq_openComment {c : Cursor} {start finish : Position}
    (h : c.next = .openComment start finish) :
    c.place.offset ≤ start.offset ∧ finish = c.place.after c.rest := by
  unfold next at h
  split at h
  · rename_i s f hs
    obtain ⟨rfl, rfl⟩ := Step.openComment.inj h
    obtain ⟨hstart, hafter⟩ := skip_eq_error hs
    exact ⟨hstart.resolve_left (by simp), hafter⟩
  · cases h
  · cases h

/-- What holds at the end of a text or in front of an open comment, and in front of a token if it
holds behind it, holds everywhere. -/
theorem induction {motive : Cursor → Prop}
    (token : ∀ {c d t}, c.next = .token t d → motive d → motive c)
    (finished : ∀ {c finish}, c.next = .finished finish → motive c)
    (openComment : ∀ {c start finish}, c.next = .openComment start finish → motive c)
    (c : Cursor) : motive c := by
  induction hn : c.rest.length using Nat.strongRecOn generalizing c with
  | ind n ih =>
    subst hn
    cases hc : c.next with
    | token t d => exact token hc (ih _ (length_rest_of_next hc) d rfl)
    | finished finish => exact finished hc
    | openComment start finish => exact openComment hc

theorem finish_scan (c : Cursor) : c.scan.ending.finish = c.place.after c.rest := by
  induction c using Cursor.induction with
  | token h ih =>
    obtain ⟨-, -, -, hafter⟩ := next_eq_token h
    rw [scan_of_token h, ← hafter, ← ih]
    rfl
  | finished h =>
    rw [scan_of_finished h, ← next_eq_finished h]
    rfl
  | openComment h =>
    rw [scan_of_openComment h, ← (next_eq_openComment h).2]
    rfl

end Cursor

namespace Scan

/-- The place that is told of an ending: the empty one at the end of the text, or that of the open
comment. -/
def Ending.span : Ending → Span
  | complete finish => .point finish
  | openComment start finish => .between start finish

def places (s : Scan) : List Span :=
  s.tokens.map Token.span ++ [s.ending.span]

@[simp] theorem places_cons (t : Token) (s : Scan) : (s.cons t).places = t.span :: s.places := rfl

end Scan

theorem Cursor.places_scan (c : Cursor) :
    (∀ s ∈ c.scan.places, c.place.offset ≤ s.start) ∧
      c.scan.places.Pairwise fun s s' => s.start < s'.start := by
  induction c using Cursor.induction with
  | token h ih =>
    obtain ⟨hle, hlt, hstop, -⟩ := next_eq_token h
    obtain ⟨hall, hpairs⟩ := ih
    rw [scan_of_token h, Scan.places_cons]
    refine ⟨?_, List.pairwise_cons.2 ⟨?_, hpairs⟩⟩
    · intro s hs
      rcases List.mem_cons.1 hs with rfl | hs
      · exact hle
      · have := hall s hs
        omega
    · intro s hs
      have := hall s hs
      omega
  | finished h =>
    rename_i c finish
    rw [scan_of_finished h, next_eq_finished h]
    simpa [Scan.places, Scan.Ending.span, Span.point] using c.place.offset_le_after c.rest
  | openComment h =>
    rw [scan_of_openComment h]
    simpa [Scan.places, Scan.Ending.span] using (next_eq_openComment h).1

namespace Scan

theorem finish_ofText (text : String) :
    (ofText text).ending.finish = ({} : Position).after text.toList :=
  (Cursor.ofText text).finish_scan

/-- Each token of a text starts behind the one before it, and so does the ending. -/
theorem places_increase (text : String) :
    (ofText text).places.Pairwise fun s s' => s.start < s'.start :=
  (Cursor.ofText text).places_scan.2

theorem start_lt_start {text : String} {i j : Nat} {s s' : Span}
    (hi : (ofText text).places[i]? = some s) (hj : (ofText text).places[j]? = some s')
    (h : i < j) : s.start < s'.start := by
  obtain ⟨hlt, rfl⟩ := List.getElem?_eq_some_iff.1 hi
  obtain ⟨hlt', rfl⟩ := List.getElem?_eq_some_iff.1 hj
  exact List.pairwise_iff_getElem.1 (places_increase text) i j hlt hlt' h

end Scan

end TinyLanguage
