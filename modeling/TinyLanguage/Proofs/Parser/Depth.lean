import TinyLanguage.Proofs.Grammar.Mark
import TinyLanguage.Proofs.Parser.Exactness

namespace TinyLanguage

open Grammar

/-- The token `i` is the first one of the derivation that stands deeper than the limit, and it
begins what does: a sequence, an expression or what is joined by an operator. -/
structure Grammar.Sequence.Exceeds (q : Sequence) (limit i : Nat) : Prop where
  deeper : ∃ l, (q.levels 0)[i]? = some l ∧ limit < l
  first : ∀ j l, j < i → (q.levels 0)[j]? = some l → l ≤ limit
  marked : (markFirst q.marks)[i]? = some true

theorem Grammar.Sequence.Exceeds.eq {q : Sequence} {limit i j : Nat} (hi : q.Exceeds limit i)
    (hj : q.Exceeds limit j) : i = j := by
  obtain ⟨l, hl, hlt⟩ := hi.deeper
  obtain ⟨k, hk, hkt⟩ := hj.deeper
  rcases Nat.lt_trichotomy i j with h | h | h
  · exact absurd (hj.first i l h hl) (Nat.not_le.2 hlt)
  · exact h
  · exact absurd (hi.first j k h hk) (Nat.not_le.2 hkt)

/-- The tokens of a program are read exactly if the limit is as high as their derivation reaches.
Under a lower limit it is the first token beyond it that the error is about. -/
theorem parse_depth_exact (text : String) (limits : Limits) (ts : List Token)
    (hlen : text.utf8ByteSize ≤ limits.maxLength) (htokens : tokenize text = .ok ts)
    (hprogram : ∃ p : Sequence, p.lexemes.map Lexeme.kind = ts.map Token.kind) :
    (∃! q : Sequence, q.lexemes = ts.map Token.lexeme) ∧
      ∀ q : Sequence, q.lexemes = ts.map Token.lexeme →
        ((∃ b, parse text limits = .ok b) ↔ q.need ≤ limits.maxDepth) ∧
        (limits.maxDepth < q.need → ∃ (i : Nat) (t : Token), ts[i]? = some t ∧
          q.Exceeds limits.maxDepth i ∧
            parse text limits = .error (.tooDeep limits.maxDepth t.span)) := by
  obtain ⟨finish, hscan⟩ := tokenize_eq_ok_iff.1 htokens
  obtain ⟨p, hkinds⟩ := hprogram
  obtain ⟨q₀, b, hq₀⟩ := p.exists_yields hkinds.symm
  refine ⟨⟨q₀, hq₀.lexemes, fun q hq => hq₀.eq hq⟩, ?_⟩
  intro q hq
  obtain rfl := hq₀.eq hq
  have hparse := Parser.parse_of_yields hlen hscan hq₀
  have hdeep : limits.maxDepth < q.need → ∃ (i : Nat) (t : Token), ts[i]? = some t ∧
      q.Exceeds limits.maxDepth i ∧
      parse text limits = .error (.tooDeep limits.maxDepth t.span) := by
    intro hneed
    have hlevels : ¬∀ l ∈ q.levels 0, l ≤ limits.maxDepth := by
      rw [← q.need_le_iff]
      exact Nat.not_le.2 hneed
    obtain ⟨i, t, ht, ⟨l, hl, hlt⟩, hfirst, he⟩ :=
      Parser.within_eq_tooDeep (r := .ok b) (hq₀.length_levels 0) hlevels
    have hmark := (q.announced_first 0 0).mark_eq_true (Nat.zero_le _) hl hlt hfirst
    exact ⟨i, t, ht, ⟨⟨l, hl, hlt⟩, hfirst, hmark⟩, hparse.trans he⟩
  refine ⟨⟨?_, ?_⟩, hdeep⟩
  · rintro ⟨b', hb'⟩
    apply Nat.le_of_not_lt
    intro hneed
    obtain ⟨i, t, -, -, he⟩ := hdeep hneed
    cases hb'.symm.trans he
  · intro hneed
    exact ⟨b, hparse.trans (Parser.within_of_le ((q.need_le_iff _).1 hneed))⟩

/-- The sign of a sum takes a level of its own. -/
theorem parse_depth_exact_sum :
    (∃ b, parse "write a+b" ⟨3, 9⟩ = .ok b) ∧
      parse "write a+b" ⟨2, 9⟩ = .error (.tooDeep 2 ⟨1, 8, 7, 8⟩) := by
  have htokens : tokenize "write a+b" = .ok [.ofText "write" ⟨1, 1, 0, 5⟩,
      .ofText "a" ⟨1, 7, 6, 7⟩, .ofText "+" ⟨1, 8, 7, 8⟩, .ofText "b" ⟨1, 9, 8, 9⟩] :=
    ok_of_toOption (by decide +kernel)
  let q : Sequence := .last (.write (.sum (.more (.term (.factor (.identifier "a"))) .plus
    (.factor (.identifier "b")))))
  have hexceeds : q.Exceeds 2 2 := by
    refine ⟨⟨3, rfl, by decide⟩, ?_, rfl⟩
    intro j l hj hl
    obtain rfl | rfl : j = 0 ∨ j = 1 := by omega
    · obtain rfl := Option.some.inj hl
      decide
    · obtain rfl := Option.some.inj hl
      decide
  have hexact := fun n => (parse_depth_exact "write a+b" ⟨n, 9⟩ _ (Nat.le_refl 9) htokens
    ⟨q, rfl⟩).2 q rfl
  obtain ⟨i, t, ht, hi, he⟩ := (hexact 2).2 (by decide)
  obtain rfl := hi.eq hexceeds
  obtain rfl := Option.some.inj ht
  exact ⟨(hexact 3).1.2 (by decide), he⟩

end TinyLanguage
