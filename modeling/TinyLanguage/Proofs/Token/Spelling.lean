import TinyLanguage.Proofs.Token.Word

namespace TinyLanguage

open Token (Kind)

/-- The text is scanned to its end, wherever it starts, and its tokens are these lexemes. -/
def Spells (cs : List Char) (ls : List Lexeme) : Prop :=
  ∀ p, ∃ ts finish, (Cursor.mk p cs).scan = ⟨ts, .complete finish⟩ ∧ ts.map Token.lexeme = ls

structure Lexeme.Legible (l : Lexeme) : Prop where
  kind : Kind.classify l.text = l.kind
  valid : l.kind ≠ .invalid

theorem Lexeme.legible_fixed {k : Kind} (h : k.spelling?.isSome) : (Lexeme.fixed k).Legible := by
  obtain ⟨s, hs⟩ := Option.isSome_iff_exists.1 h
  refine ⟨?_, ?_⟩
  · rw [fixed, hs, Option.getD_some, Kind.classify_spelling hs]
  · rintro rfl
    simp [Kind.spelling?] at h

structure Lexeme.Whole (l : Lexeme) : Prop where
  word : Word l.text.toList
  kind : Kind.classify l.text = l.kind

theorem Lexeme.Legible.whole {l : Lexeme} (h : l.Legible) : l.Whole :=
  ⟨Kind.word_of_classify (by rw [h.kind]; exact h.valid), h.kind⟩

theorem spells_nil : Spells [] [] := fun p =>
  ⟨[], p, Cursor.scan_of_finished rfl, rfl⟩

variable {w cs rest : List Char} {l : Lexeme} {ls : List Lexeme}

theorem Spells.blank {c : Char} (h : Spells cs ls) (hc : c.isWhitespace) : Spells (c :: cs) ls := by
  intro p
  obtain ⟨ts, finish, hscan, hts⟩ := h (p.advance c)
  exact ⟨ts, finish, (Cursor.scan_congr (Cursor.next_blank hc)).trans hscan, hts⟩

theorem Spells.blanks (h : Spells cs ls) (n : Nat) : Spells (List.replicate n ' ' ++ cs) ls := by
  induction n with
  | zero => exact h
  | succ n ih => exact ih.blank rfl

theorem Spells.word (h : Spells rest ls) (hw : Word w) (hp : Parted w rest) :
    Spells (w ++ rest) (⟨Kind.classify (String.ofList w), String.ofList w⟩ :: ls) := by
  intro p
  obtain ⟨ts, finish, hscan, hts⟩ := h (p.after w)
  refine ⟨.ofText (String.ofList w) (.between p (p.after w)) :: ts, finish, ?_, ?_⟩
  · rw [Cursor.scan_of_token (Cursor.next_word hw hp), hscan, Scan.cons]
  · rw [List.map_cons, hts]
    rfl

theorem Spells.whole (h : Spells rest ls) (hl : l.Whole) (hp : Parted l.text.toList rest) :
    Spells (l.text.toList ++ rest) (l :: ls) := by
  have hs := h.word hl.word hp
  rwa [String.ofList_toList, hl.kind] at hs

theorem Spells.lexeme (h : Spells rest ls) (hl : l.Legible) (hp : Parted l.text.toList rest) :
    Spells (l.text.toList ++ rest) (l :: ls) :=
  h.whole hl.whole hp

theorem Spells.fixed {k : Kind} {s : String} (h : Spells rest ls) (hk : k.spelling? = some s)
    (hp : Parted s.toList rest) : Spells (s.toList ++ rest) (.fixed k :: ls) := by
  have hs : (Lexeme.fixed k).text = s := by rw [Lexeme.fixed, hk, Option.getD_some]
  rw [← hs]
  exact h.lexeme (Lexeme.legible_fixed (by rw [hk]; rfl)) (by rwa [hs])

theorem Spells.eq {ms : List Lexeme} (h : Spells cs ls) (h' : Spells cs ms) : ls = ms := by
  obtain ⟨ts, finish, hscan, rfl⟩ := h {}
  obtain ⟨us, finish', hscan', rfl⟩ := h' {}
  rw [hscan] at hscan'
  rw [(Scan.mk.inj hscan').1]

theorem Spells.ofText {text : String} (h : Spells text.toList ls) :
    ∃ ts finish, Scan.ofText text = ⟨ts, .complete finish⟩ ∧ ts.map Token.lexeme = ls :=
  h {}

def spaced (ls : List Lexeme) : String :=
  " ".intercalate (ls.map Lexeme.text)

theorem toList_spaced_cons (l m : Lexeme) (ls : List Lexeme) :
    (spaced (l :: m :: ls)).toList = l.text.toList ++ ' ' :: (spaced (m :: ls)).toList := by
  simp [spaced]

theorem spells_spaced {ls : List Lexeme} (h : ∀ l ∈ ls, l.Whole) :
    Spells (spaced ls).toList ls := by
  induction ls with
  | nil => exact spells_nil
  | cons l ls ih =>
    have hl : l.Whole := h l List.mem_cons_self
    have hls := ih fun m hm => h m (List.mem_cons_of_mem l hm)
    cases ls with
    | nil => simpa [spaced] using spells_nil.whole hl (parted_nil _)
    | cons m ls =>
      rw [toList_spaced_cons]
      exact (hls.blank rfl).whole hl (parted_blank rfl)

end TinyLanguage
