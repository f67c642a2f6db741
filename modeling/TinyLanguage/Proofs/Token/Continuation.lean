import TinyLanguage.Proofs.Token.Likeness
import TinyLanguage.Proofs.Token.Piece

namespace TinyLanguage

theorem parted_of_blank {cs : List Char}
    (h : ∀ c ∈ cs.head?, c = ' ' ∨ c = '\t' ∨ c = '\r' ∨ c = '\n') (w : List Char) :
    Parted w cs := by
  cases cs with
  | nil => exact parted_nil w
  | cons c cs =>
    refine parted_blank ?_
    rcases h c rfl with rfl | rfl | rfl | rfl <;> rfl

/-- A text that is cut to its end is scanned by itself, if what follows it goes on with no
lexeme. -/
theorem Partition.scan_append {before cs tail : List Char} {ts : List Token}
    (h : Partition before cs ts) (hp : ∀ w, Parted w tail) :
    (Cursor.mk (({} : Position).after before) (cs ++ tail)).scan =
      (Cursor.mk (({} : Position).after (before ++ cs)) tail).scan.prepend ts := by
  induction h with
  | gap hg => rw [Cursor.scan_congr (Cursor.next_gap hg), Position.after_append, Scan.prepend_nil]
  | @token before g rest t ts hg hspan ht hts ih =>
    have hparted : Parted t.text.toList (rest ++ tail) := by
      cases rest with
      | nil => exact hp _
      | cons c rest => exact ht.parted.congr rfl
    have hnext := @Cursor.next_word (({} : Position).after (before ++ g)) _ _ ht.word hparted
    rw [← Position.after_append, ← hspan, String.ofList_toList, t.ofText_eq] at hnext
    rw [List.append_assoc, List.append_assoc, Cursor.scan_congr (Cursor.next_gap hg),
      ← Position.after_append, Cursor.scan_of_token hnext, ih]
    simp [Scan.cons, Scan.prepend]

/-- Up to the end of a token a text is scanned in the same way whatever follows, as long as this
goes on with no lexeme. -/
theorem Scan.exists_front {text : String} {ts us : List Token} {t : Token}
    (h : (ofText text).tokens = ts ++ t :: us) :
    ∃ front back, text = front ++ back ∧ front.utf8ByteSize = t.span.stop ∧
      ∀ r : String, (∀ w, Parted w r.toList) →
        ∃ rest : Scan, ofText (front ++ r) = rest.prepend (ts ++ [t]) := by
  obtain ⟨cs, tail, hcs, hpart, -⟩ := @Cursor.exists_partition (.ofText text) [] rfl (apart_nil _)
  have htokens : (Cursor.ofText text).scan.tokens = (ts ++ [t]) ++ us := by
    rw [List.append_assoc]
    exact h
  rw [htokens] at hpart
  obtain ⟨front, back, rfl, hfront, -, hstop⟩ := hpart.split
  refine ⟨.ofList front, .ofList (back ++ tail), ?_, ?_, ?_⟩
  · rw [← String.ofList_append, ← List.append_assoc, ← hcs]
    exact String.ofList_toList.symm
  · simpa [Position.offset_after] using hstop
  · intro r hr
    have hscan := hfront.scan_append hr
    rw [List.nil_append] at hscan
    refine ⟨_, Eq.trans ?_ hscan⟩
    rw [ofText, Cursor.ofText, String.toList_append, String.toList_ofList]
    rfl

end TinyLanguage
