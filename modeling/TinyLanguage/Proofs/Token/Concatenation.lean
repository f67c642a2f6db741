import TinyLanguage.Proofs.Token.Continuation
import TinyLanguage.Proofs.Token.Relocation

namespace TinyLanguage

namespace Span

/-- Where a span comes to stand if the text that it is in is put behind another: what stands before
the first line of the text counts for the columns of this line only. -/
def behind (front : String) (s : Span) : Span :=
  ⟨s.line + front.toList.count '\n',
    if s.line = 1 then s.column + lastLine front.toList else s.column,
    s.start + front.utf8ByteSize, s.stop + front.utf8ByteSize⟩

structure Counted (s : Span) : Prop where
  line : 0 < s.line
  column : 0 < s.column

variable {s : Span}

theorem counted_between (as bs : List Char) :
    (between (({} : Position).after as) (({} : Position).after bs)).Counted := by
  rw [between_after]
  exact ⟨Nat.add_pos_left Nat.one_pos _, Nat.add_pos_left Nat.one_pos _⟩

theorem movedTo_eq_behind (h : s.Counted) (front : String) :
    s.movedTo (({} : Position).after front.toList) = s.behind front := by
  obtain ⟨hline, hcolumn⟩ := h
  simp only [movedTo, behind, Position.line_after, Position.column_after, Position.offset_after,
    String.ofList_toList, ite_self, Span.mk.injEq]
  refine ⟨by omega, ?_, by omega, by omega⟩
  split <;> omega

end Span

namespace Cursor

variable {c : Cursor}

theorem exists_start {start finish : Position} (h : c.next = .openComment start finish) :
    ∃ g, start = c.place.after g := by
  obtain ⟨g, body, hg, hbody, hrest⟩ := exists_comment h
  rw [show c = ⟨c.place, g ++ '{' :: body⟩ from hrest ▸ rfl, next_gap hg, next_open hbody] at h
  obtain ⟨rfl, -⟩ := Step.openComment.inj h
  exact ⟨g, rfl⟩

theorem counted_places {before : List Char} (hc : c.place = ({} : Position).after before) :
    ∀ s ∈ c.scan.places, s.Counted := by
  induction c using Cursor.induction generalizing before with
  | token h ih =>
    obtain ⟨g, -, -, -, -, hplace, hspan⟩ := exists_word h
    rw [hc, ← Position.after_append] at hplace
    rw [hc, ← Position.after_append, ← Position.after_append] at hspan
    rw [scan_of_token h, Scan.places_cons, List.forall_mem_cons, hspan]
    exact ⟨Span.counted_between _ _, ih hplace⟩
  | finished h =>
    rw [scan_of_finished h, next_eq_finished h, hc, ← Position.after_append]
    exact List.forall_mem_singleton.2 (Span.counted_between _ _)
  | openComment h =>
    obtain ⟨g, hstart⟩ := exists_start h
    rw [scan_of_openComment h, hstart, (next_eq_openComment h).2, hc, ← Position.after_append,
      ← Position.after_append]
    exact List.forall_mem_singleton.2 (Span.counted_between _ _)

end Cursor

namespace Scan

theorem counted_ofText (text : String) : ∀ s ∈ (ofText text).places, s.Counted :=
  @Cursor.counted_places (.ofText text) [] rfl

/-- Behind a blank a text is scanned as by itself, with all places counted from there. -/
theorem ofText_blank {a : String} {w : Char} {ts : List Token} (ha : Partition [] a.toList ts)
    (hw : w = ' ' ∨ w = '\t' ∨ w = '\r' ∨ w = '\n') (b : String) :
    ofText (a ++ .singleton w ++ b) =
      ((ofText b).movedTo (({} : Position).after (a ++ .singleton w).toList)).prepend ts := by
  have hblank : w.isWhitespace := (isWhitespace_of_blank hw).1
  have hparted : ∀ v, Parted v (w :: b.toList) := fun _ => parted_blank hblank
  have hscan := ha.scan_append hparted
  rw [List.nil_append, Cursor.scan_congr (Cursor.next_blank hblank)] at hscan
  have hplace : (({} : Position).after a.toList).advance w =
      ({} : Position).after (a ++ .singleton w).toList := by simp
  rw [hplace, ofText_movedTo] at hscan
  have htext : (a ++ .singleton w ++ b).toList = a.toList ++ w :: b.toList := by simp
  rw [ofText, Cursor.ofText, htext]
  exact hscan

theorem toExcept_prepend (ts : List Token) (s : Scan) :
    (s.prepend ts).toExcept = s.toExcept.map (ts ++ ·) := by
  obtain ⟨us, ending⟩ := s
  cases ending <;> rfl

theorem tokens_behind (text front : String) :
    (ofText text).tokens.map (Token.mapSpan (Span.movedTo (({} : Position).after front.toList))) =
      (ofText text).tokens.map (Token.mapSpan (Span.behind front)) := by
  refine List.map_congr_left fun t ht => ?_
  have hspan : t.span ∈ (ofText text).places := List.mem_append_left _ (List.mem_map_of_mem ht)
  rw [Token.mapSpan, Token.mapSpan, Span.movedTo_eq_behind (counted_ofText text _ hspan)]

theorem toExcept_behind (text front : String) :
    ((ofText text).movedTo (({} : Position).after front.toList)).toExcept =
      match tokenize text with
      | .ok us => .ok (us.map (Token.mapSpan (Span.behind front)))
      | .error e => .error (e.mapSpan (Span.behind front)) := by
  have hcounted : (ofText text).ending.span.Counted :=
    counted_ofText text _ (by simp [places])
  rw [tokenize, toExcept, toExcept, movedTo, tokens_behind]
  cases hending : (ofText text).ending with
  | complete finish => rfl
  | openComment start finish =>
    rw [hending] at hcounted
    exact congrArg (fun s => Except.error (Error.lexical "unterminated comment" s))
      (Span.movedTo_eq_behind hcounted front)

end Scan

/-- Of two texts with a blank between them the first is cut into its tokens whatever the second is,
and what comes of the second is what comes of it by itself, put behind the first. -/
theorem tokenize_append {a : String} {w : Char} {ts : List Token} (ha : tokenize a = .ok ts)
    (hw : w = ' ' ∨ w = '\t' ∨ w = '\r' ∨ w = '\n') (b : String) :
    tokenize (a ++ .singleton w ++ b) =
      match tokenize b with
      | .ok us => .ok (ts ++ us.map (Token.mapSpan (Span.behind (a ++ .singleton w))))
      | .error e => .error (e.mapSpan (Span.behind (a ++ .singleton w))) := by
  obtain ⟨finish, hscan⟩ := tokenize_eq_ok_iff.1 ha
  have hpart : Partition [] a.toList ts := Scan.ofText_eq_complete_iff.1 ⟨finish, hscan⟩
  rw [tokenize, Scan.ofText_blank hpart hw, Scan.toExcept_prepend, Scan.toExcept_behind]
  cases tokenize b <;> rfl

theorem tokenize_append_blank :
    tokenize "x\n: é\x7b\n\x7dy" = .ok [.ofText "x" ⟨1, 1, 0, 1⟩, .ofText ":" ⟨2, 1, 2, 3⟩,
      .ofText "é" ⟨2, 3, 4, 6⟩, .ofText "y" ⟨3, 2, 9, 10⟩] ∧
    tokenize "x\n: é\x7b" = .error (.lexical "unterminated comment" ⟨2, 4, 6, 7⟩) := by
  have ha : tokenize "x\n:" = .ok [.ofText "x" ⟨1, 1, 0, 1⟩, .ofText ":" ⟨2, 1, 2, 3⟩] :=
    ok_of_toOption (by decide +kernel)
  refine ⟨?_, ?_⟩
  · have hb : tokenize "é\x7b\n\x7dy" = .ok [.ofText "é" ⟨1, 1, 0, 2⟩, .ofText "y" ⟨2, 2, 5, 6⟩] :=
      ok_of_toOption (by decide +kernel)
    have h := tokenize_append ha (.inl rfl) "é\x7b\n\x7dy"
    rw [hb] at h
    exact h
  · have hb : tokenize "é\x7b" = .error (.lexical "unterminated comment" ⟨1, 2, 2, 3⟩) :=
      eq_error_of_map (f := fun _ => ()) (by decide +kernel)
    have h := tokenize_append ha (.inl rfl) "é\x7b"
    rw [hb] at h
    exact h

end TinyLanguage
