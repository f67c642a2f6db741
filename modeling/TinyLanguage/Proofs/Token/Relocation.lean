import TinyLanguage.Proofs.Token.Piece

namespace TinyLanguage

namespace Position

def movedTo (q p : Position) : Position :=
  ⟨p.line + (q.line - 1), if q.line = 1 then p.column + (q.column - 1) else q.column,
    p.offset + q.offset⟩

@[simp] theorem after_movedTo (p : Position) (cs : List Char) :
    (({} : Position).after cs).movedTo p = p.after cs :=
  congrArg Span.first (Span.movedTo_between p cs cs)

end Position

namespace Scan

def Ending.movedTo (p : Position) : Ending → Ending
  | complete finish => .complete (finish.movedTo p)
  | openComment start finish => .openComment (start.movedTo p) (finish.movedTo p)

@[simp] theorem Ending.span_movedTo (p : Position) (e : Ending) :
    (e.movedTo p).span = e.span.movedTo p := by
  cases e <;> rfl

def movedTo (p : Position) (s : Scan) : Scan :=
  ⟨s.tokens.map (Token.mapSpan (Span.movedTo p)), s.ending.movedTo p⟩

@[simp] theorem places_movedTo (p : Position) (s : Scan) :
    (s.movedTo p).places = s.places.map (Span.movedTo p) := by
  simp [places, movedTo, Function.comp_def]

@[simp] theorem lexemes_movedTo (p : Position) (s : Scan) :
    (s.movedTo p).tokens.map Token.lexeme = s.tokens.map Token.lexeme := by
  simp [movedTo, Function.comp_def]

end Scan

theorem Token.mapSpan_eq (f : Span → Span) (t : Token) :
    t.mapSpan f = .ofText t.text (f t.span) := by
  obtain ⟨kind, text, span, rfl⟩ := t
  rfl

namespace Cursor

def Step.movedTo (p : Position) : Step → Step
  | token t d => .token (t.mapSpan (Span.movedTo p)) ⟨d.place.movedTo p, d.rest⟩
  | finished finish => .finished (finish.movedTo p)
  | openComment start finish => .openComment (start.movedTo p) (finish.movedTo p)

theorem exists_open {comment : Option Position} {p start finish : Position} {cs : List Char}
    (h : skip comment p cs = .error (start, finish)) :
    comment = some start ∧ '}' ∉ cs ∨ ∃ g body, cs = g ++ '{' :: body ∧ Skipped comment g ∧
      '}' ∉ body ∧ start = p.after g := by
  induction cs generalizing comment p with
  | nil =>
    cases comment with
    | none => cases h
    | some s =>
      obtain ⟨rfl, -⟩ := Prod.mk.inj (Except.error.inj h)
      exact .inl ⟨rfl, by simp⟩
  | cons d ds ih =>
    cases comment with
    | none =>
      right
      simp only [skip] at h
      split at h
      · rename_i hd
        subst hd
        rcases ih h with ⟨hs, hds⟩ | ⟨g, body, rfl, ⟨b, g', hb, hg', rfl⟩, hbody, hstart⟩
        · exact ⟨[], ds, rfl, .nil, hds, (Option.some.inj hs).symm⟩
        · exact ⟨'{' :: (b ++ '}' :: g'), body, rfl, .comment hb hg', hbody, hstart⟩
      · split at h
        · rename_i hblank
          rcases ih h with ⟨hs, -⟩ | ⟨g, body, rfl, hg, hbody, hstart⟩
          · cases hs
          · exact ⟨d :: g, body, rfl, .blank (eq_of_isWhitespace hblank) hg, hbody, hstart⟩
        · cases h
    | some s =>
      simp only [skip] at h
      split at h
      · rename_i hd
        subst hd
        rcases ih h with ⟨hs, -⟩ | ⟨g, body, rfl, hg, hbody, hstart⟩
        · cases hs
        · exact .inr ⟨'}' :: g, body, rfl, ⟨[], g, by simp, hg, rfl⟩, hbody, hstart⟩
      · rename_i hd
        rcases ih h with ⟨hs, hds⟩ | ⟨g, body, rfl, ⟨b, g', hb, hg', rfl⟩, hbody, hstart⟩
        · exact .inl ⟨hs, by simpa [eq_comm] using ⟨hd, hds⟩⟩
        · refine .inr ⟨d :: (b ++ '}' :: g'), body, rfl, ⟨d :: b, g', ?_, hg', rfl⟩, hbody, hstart⟩
          simpa [eq_comm] using ⟨hd, hb⟩

theorem exists_comment {c : Cursor} {start finish : Position}
    (h : c.next = .openComment start finish) :
    ∃ g body, Gap g ∧ '}' ∉ body ∧ c.rest = g ++ '{' :: body := by
  unfold next at h
  split at h
  · rename_i hs
    rcases exists_open hs with ⟨hnone, -⟩ | ⟨g, body, hrest, hg, hbody, -⟩
    · cases hnone
    · exact ⟨g, body, hg, hbody, hrest⟩
  · cases h
  · cases h

theorem skip_open {start p : Position} {body : List Char} (hbody : '}' ∉ body) :
    skip (some start) p body = .error (start, p.after body) := by
  induction body generalizing p with
  | nil => rfl
  | cons c body ih =>
    rw [List.mem_cons, not_or] at hbody
    rw [skip, if_neg (Ne.symm hbody.1), ih hbody.2, Position.after_cons]

theorem next_open {p : Position} {body : List Char} (hbody : '}' ∉ body) :
    (Cursor.mk p ('{' :: body)).next = .openComment p (p.after ('{' :: body)) := by
  simp [next, skip, skip_open hbody]

/-- What comes next in a text does not depend on where the text stands, and its place moves along. -/
theorem next_movedTo (p : Position) (as cs : List Char) :
    (Cursor.mk (p.after as) cs).next =
      (Cursor.mk (({} : Position).after as) cs).next.movedTo p := by
  cases h : (Cursor.mk (({} : Position).after as) cs).next with
  | token t d =>
    obtain ⟨g, hg, hw, hp, hrest, hplace, hspan⟩ := exists_word h
    simp only [← Position.after_append] at hrest hplace hspan
    have hnext := @next_word (p.after (as ++ g)) _ _ hw hp
    rw [hrest, next_gap hg, ← Position.after_append, hnext, Step.movedTo, hplace,
      Position.after_movedTo, Token.mapSpan_eq, hspan, Span.movedTo_between, String.ofList_toList,
      ← Position.after_append, List.append_assoc]
  | finished finish =>
    have hfinish := next_eq_finished h
    have hnext : (Cursor.mk (p.after as) (cs ++ [])).next = _ := next_gap (exists_gap h)
    rw [List.append_nil] at hnext
    rw [hnext, hfinish, Step.movedTo, ← Position.after_append, ← Position.after_append,
      Position.after_movedTo]
    rfl
  | openComment start finish =>
    obtain ⟨g, body, hg, hbody, rfl⟩ := exists_comment h
    rw [next_gap hg, ← Position.after_append, next_open hbody] at h ⊢
    obtain ⟨rfl, rfl⟩ := Step.openComment.inj h
    simp only [Step.movedTo, ← Position.after_append, Position.after_movedTo]

theorem scan_movedTo (p : Position) (as cs : List Char) :
    (Cursor.mk (p.after as) cs).scan =
      (Cursor.mk (({} : Position).after as) cs).scan.movedTo p := by
  have hnext := next_movedTo p as cs
  generalize hc : Cursor.mk (({} : Position).after as) cs = c at hnext ⊢
  induction c using Cursor.induction generalizing as cs with
  | @token c d t h ih =>
    subst hc
    obtain ⟨g, -, -, -, -, hplace, -⟩ := exists_word h
    rw [← Position.after_append] at hplace
    have hd : Cursor.mk (({} : Position).after (as ++ (g ++ t.text.toList))) d.rest = d := by
      rw [← hplace]
    have hrest := ih _ _ hd (by rw [← hd]; exact next_movedTo p _ d.rest)
    rw [h, Step.movedTo, hplace, Position.after_movedTo] at hnext
    rw [scan_of_token h, scan_of_token hnext, hrest]
    rfl
  | finished h =>
    rw [h] at hnext
    rw [scan_of_finished h, scan_of_finished hnext]
    rfl
  | openComment h =>
    rw [h] at hnext
    rw [scan_of_openComment h, scan_of_openComment hnext]
    rfl

end Cursor

theorem Scan.ofText_movedTo (p : Position) (text : String) :
    (Cursor.mk p text.toList).scan = (Scan.ofText text).movedTo p :=
  Cursor.scan_movedTo p [] text.toList

end TinyLanguage
