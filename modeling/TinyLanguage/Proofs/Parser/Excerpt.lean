import TinyLanguage.Proofs.Grammar.Translation
import TinyLanguage.Proofs.Parser.Occurrence

namespace TinyLanguage

open Grammar

theorem Span.Marks.utf8ByteSize_le {s : Span} {text part : String} (h : s.Marks text part) :
    part.utf8ByteSize ≤ text.utf8ByteSize := by
  obtain ⟨before, behind, rfl, -, -⟩ := h
  simp only [String.utf8ByteSize_append]
  omega

/-- Where a statement of a text stands, the text has a part that is cut into its tokens. -/
theorem exists_excerpt {text : String} {limits : Limits} {b c : Block Span}
    {path : List Node.Step} (h : parse text limits = .ok b)
    (hc : (Node.statement b).follow? path = some (.statement c)) :
    ∃ s : Grammar.Statement, ∃ us front part, s.Yields us c.head ∧
      Sequence.need (.last s) ≤ limits.maxDepth ∧ c.head.note.Marks text part ∧
      c.head.note.first = ({} : Position).after front ∧ Partition front part.toList us := by
  obtain ⟨ts, hpart, hoccurs⟩ := exists_occurs h
  obtain ⟨s, us, base, hus, hs, hdepth⟩ := (hoccurs hc).head
  have hends := hs.ends (hpart.successive.sublist hus.sublist).rising
  obtain ⟨before, behind, rfl⟩ := hus
  rw [List.append_assoc] at hpart
  obtain ⟨front, part, hmarks, hfirst, hcut⟩ := hpart.exists_marked hends
  exact ⟨s, us, front, part, hs, Statement.need_le hdepth, hmarks, hfirst, hcut⟩

/-- The span of a statement marks its own text: by itself it is read, under the same limits, as this
statement alone, with all places counted from where the statement starts. -/
theorem statement_span {text : String} {limits : Limits} {b c : Block Span}
    {path : List Node.Step} (h : parse text limits = .ok b)
    (hc : (Node.statement b).follow? path = some (.statement c)) :
    ∃ part, (∀ p, c.head.note.Marks text p ↔ p = part) ∧
      parse part limits = .ok (.last (c.head.map (Span.relativeTo c.head.note.first))) ∧
      (c.head.map (Span.relativeTo c.head.note.first)).map (Span.movedTo c.head.note.first) =
        c.head := by
  obtain ⟨s, us, front, part, hs, hneed, hmarks, hfirst, hcut⟩ := exists_excerpt h hc
  have hcut : Partition (front ++ []) part.toList us := by rwa [List.append_nil]
  have hself := Sequence.Yields.last
    (hs.map (Span.relativeTo_extendTo (({} : Position).after front)))
  have hback := hself.map (Span.movedTo_extendTo (({} : Position).after front))
  -- Put back, the tokens are those of the text, for which the derivation yields no other tree.
  rw [hcut.map_movedTo] at hback
  obtain ⟨finish, hscan⟩ := Scan.ofText_eq_complete_iff.2 hcut.relative
  have hlen := Nat.le_trans hmarks.utf8ByteSize_le (parse_eq_ok_iff.1 h).1
  rw [hfirst]
  refine ⟨part, fun p => ⟨fun hp => hp.unique hmarks, fun hp => hp ▸ hmarks⟩,
    parse_eq_ok_iff.2 ⟨hlen, _, finish, _, hscan, hself, hneed⟩, ?_⟩
  exact Block.last.inj (hback.unique (.last hs))

theorem statement_span_assign :
    ∃ b c, parse "if a then\n  x := (b +\n    c); read y\nend" {} = .ok b ∧
      (Node.statement b).follow? [.child 1] = some (.statement c) ∧
      c.head.note = ⟨2, 3, 12, 28⟩ ∧
      c.head.note.Marks "if a then\n  x := (b +\n    c); read y\nend" "x := (b +\n    c)" ∧
      parse "x := (b +\n    c)" {} = .ok (.last (.assign ⟨1, 1, 0, 16⟩ "x"
        (.binary ⟨1, 7, 6, 15⟩ .add (.identifier ⟨1, 7, 6, 7⟩ "b")
          (.identifier ⟨2, 5, 14, 15⟩ "c")))) := by
  have h : parse "if a then\n  x := (b +\n    c); read y\nend" {} =
      .ok (.last (.ifThen ⟨1, 1, 0, 40⟩ (.identifier ⟨1, 4, 3, 4⟩ "a")
        (.cons (.assign ⟨2, 3, 12, 28⟩ "x" (.binary ⟨2, 9, 18, 27⟩ .add
            (.identifier ⟨2, 9, 18, 19⟩ "b") (.identifier ⟨3, 5, 26, 27⟩ "c")))
          (.last (.read ⟨3, 9, 30, 36⟩ "y"))))) :=
    ok_of_toOption (by decide +kernel)
  obtain ⟨part, hmarks, hparse, -⟩ := @statement_span _ _ _ _ [.child 1] h rfl
  obtain rfl : "x := (b +\n    c)" = part :=
    (hmarks _).1 ⟨"if a then\n  ", "; read y\nend", by decide, by decide, by decide⟩
  exact ⟨_, _, h, rfl, rfl, (hmarks _).2 rfl, hparse⟩

end TinyLanguage
