import Mathlib.Data.List.TakeWhile
import TinyLanguage.Proofs.Token.Likeness
import TinyLanguage.Proofs.Token.Relocation

namespace TinyLanguage

/-- The text with a space in place of every comment that has an end. -/
def spaceComments : List Char → List Char
  | [] => []
  | c :: cs =>
    if c = '{' then
      match _h : cs.dropWhile (· ≠ '}') with
      | [] => c :: cs
      | _ :: rest => ' ' :: spaceComments rest
    else c :: spaceComments cs
termination_by cs => cs.length
decreasing_by
  · have hle := (List.dropWhile_suffix (fun c => decide (c ≠ '}')) (l := cs)).length_le
    rw [‹cs.dropWhile _ = _›] at hle
    simp only [List.length_cons] at hle ⊢
    omega
  · exact Nat.lt_succ_self _

example : String.ofList (spaceComments "a\x7bb\x7bc\x7d:\x7b\x7d=\x7d\x7bd".toList) =
    "a : =\x7d\x7bd" := by
  cbv

section

variable {w g cs body : List Char} {c : Char}

theorem spaceComments_cons (hc : c ≠ '{') : spaceComments (c :: cs) = c :: spaceComments cs := by
  rw [spaceComments, if_neg hc]

theorem spaceComments_comment (hbody : '}' ∉ body) :
    spaceComments ('{' :: (body ++ '}' :: cs)) = ' ' :: spaceComments cs := by
  have hinside : ∀ d ∈ body, decide (d ≠ '}') = true := fun d hd => by
    simpa using ne_of_mem_of_not_mem hd hbody
  have hdrop : (body ++ '}' :: cs).dropWhile (· ≠ '}') = '}' :: cs :=
    dropWhile_append_of_head hinside (by simp)
  rw [spaceComments, if_pos rfl]
  split
  · rename_i h
    cases h.symm.trans hdrop
  · rename_i h
    obtain ⟨-, rfl⟩ := List.cons.inj (h.symm.trans hdrop)
    rfl

theorem spaceComments_open (hbody : '}' ∉ body) : spaceComments ('{' :: body) = '{' :: body := by
  have hdrop : body.dropWhile (· ≠ '}') = [] :=
    List.dropWhile_eq_nil_iff.2 fun d hd => by simpa using ne_of_mem_of_not_mem hd hbody
  rw [spaceComments, if_pos rfl]
  split
  · rfl
  · rename_i h
    cases h.symm.trans hdrop

theorem spaceComments_append (hw : '{' ∉ w) :
    spaceComments (w ++ cs) = w ++ spaceComments cs := by
  induction w with
  | nil => rfl
  | cons c w ih =>
    rw [List.mem_cons, not_or] at hw
    rw [List.cons_append, spaceComments_cons (Ne.symm hw.1), ih hw.2, List.cons_append]

theorem Gap.exists_spaced (hg : Gap g) :
    ∃ g', Gap g' ∧ ∀ cs, spaceComments (g ++ cs) = g' ++ spaceComments cs := by
  induction hg with
  | nil => exact ⟨[], .nil, fun _ => rfl⟩
  | @blank c g hc hg ih =>
    obtain ⟨g', hg', hspace⟩ := ih
    refine ⟨c :: g', .blank hc hg', fun cs => ?_⟩
    rw [List.cons_append, spaceComments_cons (isWhitespace_of_blank hc).2, hspace,
      List.cons_append]
  | @comment body g hbody hg ih =>
    obtain ⟨g', hg', hspace⟩ := ih
    refine ⟨' ' :: g', .blank (.inl rfl) hg', fun cs => ?_⟩
    rw [List.cons_append, List.append_assoc, List.cons_append, spaceComments_comment hbody, hspace,
      List.cons_append]

/-- Where a comment did not prolong a lexeme, neither does the space that has come in its place. -/
theorem Parted.spaceComments (hp : Parted w cs) : Parted w (spaceComments cs) := by
  cases cs with
  | nil => rwa [TinyLanguage.spaceComments]
  | cons c cs =>
    by_cases hc : c = '{'
    · subst hc
      rw [TinyLanguage.spaceComments, if_pos rfl]
      split
      · exact hp
      · exact parted_blank rfl
    · rw [spaceComments_cons hc]
      exact hp.congr rfl

end

namespace Scan

theorem Agrees.cons {s s' : Scan} {t t' : Token} (h : s.Agrees s') (ht : t.lexeme = t'.lexeme) :
    (s.cons t).Agrees (s'.cons t') :=
  ⟨by simp [Scan.cons, h.lexemes, ht], h.ending⟩

end Scan

theorem Cursor.agrees_spaceComments (c : Cursor) (p : Position) :
    c.scan.Agrees (Cursor.mk p (spaceComments c.rest)).scan := by
  -- Behind the first comment the two texts are read at different places, so `p` is any place.
  induction c using Cursor.induction generalizing p with
  | @token c d t h ih =>
    obtain ⟨g, hg, hw, hp, hrest, -, -⟩ := exists_word h
    obtain ⟨g', hg', hspace⟩ := hg.exists_spaced
    have hnext := @next_word (p.after g') _ _ hw hp.spaceComments
    rw [hrest, hspace, spaceComments_append hw.not_mem_brace, scan_congr (next_gap hg'),
      scan_of_token hnext, scan_of_token h, String.ofList_toList]
    refine (ih _).cons ?_
    obtain ⟨kind, text, span, rfl⟩ := t
    rfl
  | @finished c finish h =>
    obtain ⟨g', hg', hspace⟩ := (exists_gap h).exists_spaced
    have hrest := hspace []
    rw [List.append_nil] at hrest
    rw [hrest, scan_congr (next_gap hg'), spaceComments, scan_of_finished h, scan_of_finished rfl]
    exact ⟨rfl, rfl⟩
  | @openComment c start finish h =>
    obtain ⟨g, body, hg, hbody, hrest⟩ := exists_comment h
    obtain ⟨g', hg', hspace⟩ := hg.exists_spaced
    rw [hrest, hspace, spaceComments_open hbody, scan_congr (next_gap hg'),
      scan_of_openComment (next_open hbody), scan_of_openComment h]
    exact ⟨rfl, rfl⟩

/-- Of the comments of a text only the one that has no end is left. -/
theorem spaceComments_ne (cs front body back : List Char) :
    spaceComments cs ≠ front ++ '{' :: (body ++ '}' :: back) := by
  fun_induction spaceComments cs generalizing front with
  | case1 => simp
  | case2 cs hdrop =>
    intro h
    have hmem : '}' ∈ '{' :: cs := by
      rw [h]
      simp
    simpa using List.dropWhile_eq_nil_iff.1 hdrop '}' (by simpa using hmem)
  | case3 cs d rest hdrop ih =>
    intro h
    cases front with
    | nil => simp at h
    | cons e front => exact ih front (List.cons.inj h).2
  | case4 c cs hc ih =>
    intro h
    cases front with
    | nil => exact hc (List.cons.inj h).1
    | cons e front => exact ih front (List.cons.inj h).2

/-- A space does what a comment does: the tokens say the same, and a comment without an end is still
one. -/
theorem scan_spaceComments (text : String) :
    (Scan.ofText text).Agrees (Scan.ofText (.ofList (spaceComments text.toList))) ∧
      ∀ front body back, spaceComments text.toList ≠ front ++ '{' :: (body ++ '}' :: back) := by
  refine ⟨?_, spaceComments_ne text.toList⟩
  have h := (Cursor.ofText text).agrees_spaceComments {}
  rwa [Scan.ofText, Scan.ofText, Cursor.ofText.eq_def (.ofList _), String.toList_ofList]

theorem Cursor.whole_of_mem_scan {c : Cursor} {t : Token} (h : t ∈ c.scan.tokens) :
    t.lexeme.Whole := by
  induction c using Cursor.induction with
  | token hc ih =>
    rw [scan_of_token hc] at h
    rcases List.mem_cons.1 h with rfl | h
    · obtain ⟨-, -, hw, -⟩ := exists_word hc
      exact ⟨hw, t.kind_eq.symm⟩
    · exact ih h
  | finished hc =>
    rw [scan_of_finished hc] at h
    cases h
  | openComment hc =>
    rw [scan_of_openComment hc] at h
    cases h

/-- The texts of all tokens, with single spaces between them, are cut into the same tokens again,
those that belong to no program included. -/
theorem tokenize_spaced {text : String} {ts : List Token} (h : tokenize text = .ok ts) :
    ∃ us, tokenize (" ".intercalate (ts.map Token.text)) = .ok us ∧
      us.map Token.lexeme = ts.map Token.lexeme := by
  obtain ⟨finish, hscan⟩ := tokenize_eq_ok_iff.1 h
  have hwhole : ∀ l ∈ ts.map Token.lexeme, l.Whole := by
    intro l hl
    obtain ⟨t, ht, rfl⟩ := List.mem_map.1 hl
    have hmem : t ∈ (Cursor.ofText text).scan.tokens := by
      rw [show (Cursor.ofText text).scan = _ from hscan]
      exact ht
    exact Cursor.whole_of_mem_scan hmem
  have htext : spaced (ts.map Token.lexeme) = " ".intercalate (ts.map Token.text) := by
    rw [spaced, List.map_map]
    rfl
  obtain ⟨us, finish', hus, hlexemes⟩ := (spells_spaced hwhole).ofText
  rw [htext] at hus
  exact ⟨us, tokenize_eq_ok_iff.2 ⟨finish', hus⟩, hlexemes⟩

theorem tokenize_spaced_invalid :
    ∃ us, tokenize "a 1 : = \x7d é" = .ok us ∧
      us.map Token.lexeme = [⟨.identifier, "a"⟩, ⟨.number, "1"⟩, ⟨.invalid, ":"⟩, ⟨.equals, "="⟩,
        ⟨.invalid, "\x7d"⟩, ⟨.invalid, "é"⟩] := by
  have h : tokenize "a1:\x7bb\x7d=\x7dé" = .ok
      [.ofText "a" ⟨1, 1, 0, 1⟩, .ofText "1" ⟨1, 2, 1, 2⟩, .ofText ":" ⟨1, 3, 2, 3⟩,
        .ofText "=" ⟨1, 7, 6, 7⟩, .ofText "\x7d" ⟨1, 8, 7, 8⟩, .ofText "é" ⟨1, 9, 8, 10⟩] :=
    ok_of_toOption (by decide +kernel)
  obtain ⟨us, hus, hlexemes⟩ := tokenize_spaced h
  have htext : " ".intercalate ["a", "1", ":", "=", "\x7d", "é"] = "a 1 : = \x7d é" := rfl
  exact ⟨us, htext ▸ hus, hlexemes⟩

end TinyLanguage
