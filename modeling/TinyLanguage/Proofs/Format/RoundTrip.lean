import TinyLanguage.Proofs.Format.Source
import TinyLanguage.Proofs.Parser.Form
import TinyLanguage.Proofs.Parser.Height

namespace TinyLanguage

open Format (unlines)

variable {α β : Type}

theorem shape_of_source {b : Block α} {c : Block β} (hb : b.Legible) (hc : c.Legible)
    (h : unlines (b.source 0) = unlines (c.source 0)) : b.shape = c.shape := by
  have hs := Block.spells hb
  rw [h] at hs
  have hprinted := Grammar.Sequence.lexemes_injective (hs.eq (Block.spells hc))
  rw [← b.tree_printed, ← c.tree_printed, hprinted]

theorem render_source (b : Block α) :
    Format.source.render (.statement b) = .ok (unlines (b.source 0)) := rfl

theorem legible_of_parse {text : String} {limits : Limits} {b c : Block Span}
    {path : List Node.Step} (h : parse text limits = .ok b)
    (hc : (Node.statement b).follow? path = some (.statement c)) : c.Legible :=
  Node.legible_of_parse h hc

/-- What is printed of a statement and of those behind it is read as a program of their shape, if the
limits leave room for its text and for twice its height. Statements of programs are printed alike
exactly if they are of one shape. -/
theorem source_round_trip {text : String} {limits : Limits} {b c : Block Span}
    {path : List Node.Step} (h : parse text limits = .ok b)
    (hc : (Node.statement b).follow? path = some (.statement c)) :
    ∃ printed, Format.source.render (.statement c) = .ok printed ∧
      (∀ limits' : Limits, printed.utf8ByteSize ≤ limits'.maxLength →
        2 * c.height ≤ limits'.maxDepth → ∃ c', parse printed limits' = .ok c' ∧
          c'.shape = c.shape ∧ Format.source.render (.statement c') = .ok printed) ∧
      ∀ text' limits' b' path' c', parse text' limits' = .ok b' →
        (Node.statement b').follow? path' = some (.statement c') →
          (Format.source.render (.statement c') = .ok printed ↔ c'.shape = c.shape) := by
  have hlegible := legible_of_parse h hc
  refine ⟨_, render_source c, ?_, ?_⟩
  · intro limits' hlen hdepth
    have hneed : c.printed.need ≤ limits'.maxDepth := by
      have hle := c.printedDepth_le
      rw [c.need_printed]
      omega
    obtain ⟨c', hparse, hshape⟩ := parse_of_need_le (Block.spells hlegible) hlen hneed
    rw [c.tree_printed] at hshape
    refine ⟨c', hparse, hshape, ?_⟩
    rw [render_source, source_of_shape hshape]
  · intro text' limits' b' path' c' h' hc'
    have hlegible' := legible_of_parse h' hc'
    rw [render_source, Except.ok.injEq]
    constructor
    · exact shape_of_source hlegible' hlegible
    · intro hshape
      rw [source_of_shape hshape]

theorem source_round_trip_consequent :
    ∃ c, parse "write (b * c)\n" ⟨6, 14⟩ = .ok c ∧
      c.shape = .last (.write () (.binary () .multiply (.identifier () "b") (.identifier () "c"))) ∧
      Format.source.render (.statement c) = .ok "write (b * c)\n" := by
  have h : parse "if a then write b*c end" {} = .ok (.last (.ifThen ⟨1, 1, 0, 23⟩
      (.identifier ⟨1, 4, 3, 4⟩ "a") (.last (.write ⟨1, 11, 10, 19⟩ (.binary ⟨1, 17, 16, 19⟩ .multiply
        (.identifier ⟨1, 17, 16, 17⟩ "b") (.identifier ⟨1, 19, 18, 19⟩ "c")))))) :=
    ok_of_toOption (by decide +kernel)
  obtain ⟨printed, hprinted, hread, -⟩ := @source_round_trip _ _ _ _ [.child 1] h rfl
  obtain rfl : printed = "write (b * c)\n" := (Except.ok.inj hprinted).symm.trans rfl
  obtain ⟨c, hparse, hshape, hagain⟩ := hread ⟨6, 14⟩ (by decide) (by decide)
  exact ⟨c, hparse, hshape, hagain⟩

section

variable {text : String} {limits : Limits} {b : Block Span}

theorem reparse_of_printedDepth_le (h : parse text limits = .ok b)
    (hlen : (unlines (b.source 0)).utf8ByteSize ≤ limits.maxLength)
    (hdepth : b.printedDepth ≤ limits.maxDepth) :
    ∃ c, parse (unlines (b.source 0)) limits = .ok c ∧ c.shape = b.shape := by
  have hb : b.Legible := @legible_of_parse _ _ _ _ [] h rfl
  rw [← b.need_printed] at hdepth
  rw [← b.tree_printed]
  exact parse_of_need_le (Block.spells hb) hlen hdepth

theorem reparse_of_lt_printedDepth (h : parse text limits = .ok b)
    (hlen : (unlines (b.source 0)).utf8ByteSize ≤ limits.maxLength)
    (hdepth : limits.maxDepth < b.printedDepth) :
    ∃ span, parse (unlines (b.source 0)) limits = .error (.tooDeep limits.maxDepth span) := by
  have hb : b.Legible := @legible_of_parse _ _ _ _ [] h rfl
  rw [← b.need_printed] at hdepth
  exact parse_of_lt_need (Block.spells hb) hlen hdepth

theorem reparse_iff (h : parse text limits = .ok b)
    (hlen : (unlines (b.source 0)).utf8ByteSize ≤ limits.maxLength) :
    (∃ c, parse (unlines (b.source 0)) limits = .ok c) ↔ b.printedDepth ≤ limits.maxDepth := by
  constructor
  · rintro ⟨c, hc⟩
    apply Nat.le_of_not_lt
    intro hlt
    obtain ⟨span, hspan⟩ := reparse_of_lt_printedDepth h hlen hlt
    cases hc.symm.trans hspan
  · intro hdepth
    obtain ⟨c, hc, -⟩ := reparse_of_printedDepth_le h hlen hdepth
    exact ⟨c, hc⟩

end

/-- What is printed of a program is read again within the limits that the program itself has passed
exactly if they leave room for the parentheses. Only limits that leave room for no expression make
sure of that. -/
theorem reparse_exact (depth : Nat) :
    (∀ text maxLength b printed, parse text ⟨depth, maxLength⟩ = .ok b →
      Format.source.render (.statement b) = .ok printed → printed.utf8ByteSize ≤ maxLength →
        (b.printedDepth ≤ depth →
          ∃ c, parse printed ⟨depth, maxLength⟩ = .ok c ∧ c.shape = b.shape) ∧
        (depth < b.printedDepth →
          ∃ span, parse printed ⟨depth, maxLength⟩ = .error (.tooDeep depth span))) ∧
    ((∀ text maxLength b printed, parse text ⟨depth, maxLength⟩ = .ok b →
      Format.source.render (.statement b) = .ok printed → printed.utf8ByteSize ≤ maxLength →
        ∃ c, parse printed ⟨depth, maxLength⟩ = .ok c) ↔ depth < 2) := by
  refine ⟨?_, ?_, ?_⟩
  · intro text maxLength b printed h hprinted hlen
    obtain rfl := Except.ok.inj hprinted
    exact ⟨reparse_of_printedDepth_le h hlen, reparse_of_lt_printedDepth h hlen⟩
  · intro hall
    apply Nat.lt_of_not_le
    intro hdepth
    obtain ⟨n, rfl⟩ := Nat.exists_eq_add_of_le' hdepth
    obtain ⟨text, b, hb, hparse⟩ := exists_parse_tower n
    -- Printed, the tower spends at least its height, which is more than it has spent itself.
    have hlen := Nat.le_max_right text.utf8ByteSize (unlines (b.source 0)).utf8ByteSize
    have h := hparse ⟨n + 2, max text.utf8ByteSize (unlines (b.source 0)).utf8ByteSize⟩
      (Nat.le_max_left _ _) (Nat.le_refl _)
    have hle : b.printedDepth ≤ n + 2 :=
      (reparse_iff h hlen).1 (hall _ _ b _ h (render_source b) hlen)
    have hheight := b.height_le_printedDepth
    have hsq := Nat.le_mul_self (n + 1)
    omega
  · intro hdepth text maxLength b printed h hprinted hlen
    obtain rfl := Except.ok.inj hprinted
    have hheight : b.height ≤ depth := height_le_of_maxDepth_lt h hdepth
    have hle := b.printedDepth_le
    have hroom : b.printedDepth ≤ depth := by omega
    exact (reparse_iff h hlen).2 hroom

/-- The parentheses around a sum spend a level that the sum itself does not. -/
theorem reparse_exact_sum :
    ∃ b span, parse "write a+b" ⟨3, 14⟩ = .ok b ∧
      Format.source.render (.statement b) = .ok "write (a + b)\n" ∧
      parse "write (a + b)\n" ⟨3, 14⟩ = .error (.tooDeep 3 span) := by
  have h : parse "write a+b" ⟨3, 14⟩ = .ok (.last (.write ⟨1, 1, 0, 9⟩ (.binary ⟨1, 7, 6, 9⟩ .add
      (.identifier ⟨1, 7, 6, 7⟩ "a") (.identifier ⟨1, 9, 8, 9⟩ "b")))) :=
    ok_of_toOption (by decide +kernel)
  obtain ⟨span, hspan⟩ := ((reparse_exact 3).1 "write a+b" 14 _ "write (a + b)\n" h rfl
    (by decide)).2 (by decide)
  exact ⟨_, span, h, rfl, hspan⟩

end TinyLanguage
