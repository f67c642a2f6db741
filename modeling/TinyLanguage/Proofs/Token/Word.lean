import TinyLanguage.Token.Lexeme
import TinyLanguage.Token.Scan

namespace TinyLanguage

open Token (Kind)

inductive Word : List Char → Prop
  | letters {w : List Char} (hne : w ≠ []) (h : ∀ c ∈ w, c.isAlpha) : Word w
  | digits {w : List Char} (hne : w ≠ []) (h : ∀ c ∈ w, c.isDigit) : Word w
  | becomes : Word [':', '=']
  | mark {c : Char} (ha : c.isAlpha = false) (hd : c.isDigit = false)
    (hb : c.isWhitespace = false) (ho : c ≠ '{') : Word [c]

def prolongs (w : List Char) (d : Char) : Bool :=
  match w with
  | [] => false
  | c :: cs =>
    if c.isAlpha then d.isAlpha else if c.isDigit then d.isDigit else c = ':' && cs = [] && d = '='

def Parted (w rest : List Char) : Prop :=
  ∀ d ∈ rest.head?, prolongs w d = false

theorem parted_nil (w : List Char) : Parted w [] := by
  simp [Parted]

theorem parted_cons {w rest : List Char} {d : Char} (h : prolongs w d = false) :
    Parted w (d :: rest) := by
  simpa [Parted] using h

theorem parted_of_head {w rest : List Char} {d : Char} (ha : d.isAlpha = false)
    (hd : d.isDigit = false) (he : d ≠ '=') : Parted w (d :: rest) := by
  apply parted_cons
  unfold prolongs
  split
  · rfl
  · simp [ha, hd, he]

section

variable {p : Char → Bool} {w rest : List Char}

theorem takeWhile_append_of_head (hw : ∀ c ∈ w, p c) (hrest : ∀ d ∈ rest.head?, p d = false) :
    (w ++ rest).takeWhile p = w := by
  rw [List.takeWhile_append_of_pos hw]
  cases rest with
  | nil => exact List.append_nil w
  | cons d ds => simp [hrest d rfl]

theorem dropWhile_append_of_head (hw : ∀ c ∈ w, p c) (hrest : ∀ d ∈ rest.head?, p d = false) :
    (w ++ rest).dropWhile p = rest := by
  rw [List.dropWhile_append_of_pos hw]
  cases rest with
  | nil => rfl
  | cons d ds => simp [hrest d rfl]

end

theorem replicate_append_cons {α : Type} (n : Nat) (a : α) (as : List α) :
    List.replicate n a ++ a :: as = a :: (List.replicate n a ++ as) := by
  rw [List.append_cons, ← List.replicate_succ', List.replicate_succ, List.cons_append]

theorem eq_of_isWhitespace {c : Char} (h : c.isWhitespace) :
    c = ' ' ∨ c = '\t' ∨ c = '\r' ∨ c = '\n' := by
  simpa [Char.isWhitespace, or_assoc] using h

theorem isWhitespace_of_isAlpha {c : Char} (h : c.isAlpha) : c.isWhitespace = false := by
  cases hw : c.isWhitespace with
  | false => rfl
  | true => rcases eq_of_isWhitespace hw with rfl | rfl | rfl | rfl <;> simp at h

theorem isWhitespace_of_isDigit {c : Char} (h : c.isDigit) : c.isWhitespace = false := by
  cases hw : c.isWhitespace with
  | false => rfl
  | true => rcases eq_of_isWhitespace hw with rfl | rfl | rfl | rfl <;> simp at h

theorem isAlpha_of_isDigit {c : Char} (h : c.isDigit) : c.isAlpha = false := by
  rw [Char.isDigit_iff_toNat] at h
  change 48 ≤ c.val.toNat ∧ c.val.toNat ≤ 57 at h
  change (decide (c.val ≥ 65 ∧ c.val ≤ 90) || (decide (c.val ≥ 97) && decide (c.val ≤ 122))) = false
  simp only [Bool.or_eq_false_iff, Bool.and_eq_false_iff, decide_eq_false_iff_not, ge_iff_le,
    UInt32.le_iff_toNat_le, UInt32.reduceToNat]
  omega

theorem parted_blank {w rest : List Char} {d : Char} (h : d.isWhitespace) : Parted w (d :: rest) := by
  rcases eq_of_isWhitespace h with rfl | rfl | rfl | rfl <;>
    exact parted_of_head rfl rfl (by decide)

theorem Word.ne_nil {w : List Char} (h : Word w) : w ≠ [] := by
  cases h with
  | letters hne _ | digits hne _ => exact hne
  | becomes | mark => simp

theorem Word.not_blank {w : List Char} {c : Char} (h : Word w) (hc : c ∈ w) :
    c.isWhitespace = false := by
  cases h with
  | letters _ h => exact isWhitespace_of_isAlpha (h c hc)
  | digits _ h => exact isWhitespace_of_isDigit (h c hc)
  | becomes =>
    rw [List.mem_cons, List.mem_singleton] at hc
    rcases hc with rfl | rfl <;> rfl
  | mark _ _ hb _ => rwa [List.mem_singleton.1 hc]

theorem Word.not_mem_brace {w : List Char} (h : Word w) : '{' ∉ w := by
  cases h with
  | letters _ h =>
    intro ho
    simpa using h '{' ho
  | digits _ h =>
    intro ho
    simpa using h '{' ho
  | becomes => decide
  | mark _ _ _ ho => simpa using ho.symm

theorem Word.head {c : Char} {cs : List Char} (h : Word (c :: cs)) :
    c.isWhitespace = false ∧ c ≠ '{' := by
  refine ⟨h.not_blank List.mem_cons_self, ?_⟩
  rintro rfl
  exact h.not_mem_brace List.mem_cons_self

namespace Cursor

theorem cut_word {c : Char} {cs rest : List Char} (hw : Word (c :: cs))
    (hp : Parted (c :: cs) rest) : cut c (cs ++ rest) = (c :: cs, rest) := by
  unfold cut
  cases hw with
  | letters _ h =>
    have hc : c.isAlpha := h c (by simp)
    have hrest : ∀ d ∈ rest.head?, d.isAlpha = false := by simpa [Parted, prolongs, hc] using hp
    have hcs : ∀ d ∈ cs, d.isAlpha := fun d hd => h d (by simp [hd])
    rw [if_pos hc, takeWhile_append_of_head hcs hrest, dropWhile_append_of_head hcs hrest]
  | digits _ h =>
    have hc : c.isDigit := h c (by simp)
    have ha := isAlpha_of_isDigit hc
    have hrest : ∀ d ∈ rest.head?, d.isDigit = false := by
      simpa [Parted, prolongs, hc, ha] using hp
    have hcs : ∀ d ∈ cs, d.isDigit := fun d hd => h d (by simp [hd])
    rw [if_neg (by simp [ha]), if_pos hc, takeWhile_append_of_head hcs hrest,
      dropWhile_append_of_head hcs hrest]
  | becomes => rfl
  | mark ha hd _ _ =>
    have hrest : c = ':' → ∀ d ∈ rest.head?, d ≠ '=' := by
      simpa [Parted, prolongs, ha, hd, imp.swap] using hp
    rw [if_neg (by simp [ha]), if_neg (by simp [hd]), List.nil_append]
    split
    · exact absurd rfl (hrest rfl '=' rfl)
    · rfl

theorem next_word {p : Position} {w rest : List Char} (hw : Word w) (hp : Parted w rest) :
    (Cursor.mk p (w ++ rest)).next =
      .token (.ofText (String.ofList w) (.between p (p.after w))) ⟨p.after w, rest⟩ := by
  cases w with
  | nil => exact absurd rfl hw.ne_nil
  | cons c cs =>
    obtain ⟨hb, ho⟩ := hw.head
    simp [next, skip, hb, ho, cut_word hw hp]

theorem next_blank {p : Position} {c : Char} {cs : List Char} (hc : c.isWhitespace) :
    (Cursor.mk p (c :: cs)).next = (Cursor.mk (p.advance c) cs).next := by
  have ho : c ≠ '{' := by
    rintro rfl
    simp at hc
  simp [next, skip, hc, ho]

theorem scan_congr {c d : Cursor} (h : c.next = d.next) : c.scan = d.scan := by
  cases hd : d.next with
  | token t e => rw [scan_of_token hd, scan_of_token (h.trans hd)]
  | finished finish => rw [scan_of_finished hd, scan_of_finished (h.trans hd)]
  | openComment start finish => rw [scan_of_openComment hd, scan_of_openComment (h.trans hd)]

end Cursor

namespace Token.Kind

theorem classify_of_spelling {s : String} (h : (classify s).spelling? = none) :
    classify s = ofCharacters s.toList := by
  unfold classify at h ⊢
  cases hk : keyword? s with
  | some k => simp [hk, spelling_of_keyword hk] at h
  | none =>
    cases hs : symbol? s with
    | some k => simp [hk, hs, spelling_of_symbol hs] at h
    | none => rfl

theorem letters_of_identifier {s : String} (h : classify s = .identifier) :
    s.toList ≠ [] ∧ ∀ c ∈ s.toList, c.isAlpha := by
  have hs := (classify_of_spelling (by rw [h]; rfl)).symm.trans h
  unfold ofCharacters at hs
  split at hs
  · cases hs
  · rename_i hne
    split at hs
    · rename_i hall
      exact ⟨hne, List.all_eq_true.1 hall⟩
    · split at hs <;> cases hs

theorem digits_of_number {s : String} (h : classify s = .number) :
    s.toList ≠ [] ∧ ∀ c ∈ s.toList, c.isDigit := by
  have hs := (classify_of_spelling (by rw [h]; rfl)).symm.trans h
  unfold ofCharacters at hs
  split at hs
  · cases hs
  · rename_i hne
    split at hs
    · cases hs
    · split at hs
      · rename_i hall
        exact ⟨hne, List.all_eq_true.1 hall⟩
      · cases hs

theorem word_of_spelling {k : Kind} {s : String} (h : k.spelling? = some s) : Word s.toList := by
  cases k with
  | ifKw | thenKw | elseKw | endKw | repeatKw | untilKw | readKw | writeKw =>
    cases h
    exact .letters (by decide) (List.all_eq_true.1 (by decide))
  | plus | minus | star | slash | equals | less | leftParen | rightParen | semicolon =>
    cases h
    exact .mark (by decide) (by decide) (by decide) (by decide)
  | becomes =>
    cases h
    exact .becomes
  | identifier | number | invalid => cases h

theorem word_of_classify {s : String} (h : classify s ≠ .invalid) : Word s.toList := by
  cases hs : (classify s).spelling? with
  | some t =>
    obtain rfl := spelling_classify hs
    exact word_of_spelling hs
  | none =>
    cases hk : classify s with
    | identifier =>
      obtain ⟨hne, hall⟩ := letters_of_identifier hk
      exact .letters hne hall
    | number =>
      obtain ⟨hne, hall⟩ := digits_of_number hk
      exact .digits hne hall
    | invalid => exact absurd hk h
    | _ => simp [hk, spelling?] at hs

end Token.Kind

end TinyLanguage
