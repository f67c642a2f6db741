import TinyLanguage.Proofs.Grammar.Wrapping
import TinyLanguage.Proofs.Parser.Slice

namespace TinyLanguage

open Grammar

/-- What stands in front of a gap is not prolonged by it, if not by what stands behind it. -/
theorem Gap.parted {g cs : List Char} (hg : Gap g) (h : ∀ w, Parted w cs) (w : List Char) :
    Parted w (g ++ cs) := by
  cases hg with
  | nil => exact h w
  | blank hc => exact parted_blank (isWhitespace_of_blank hc).1
  | comment => exact parted_of_head rfl rfl (by decide)

/-- Of the parentheses around some tokens it makes no difference which is the innermost. -/
theorem Grammar.Framed.enclose {ts core : List Token} {i j : Nat} (h : Framed ts core i j) :
    ∃ opening closing, ts = opening ++ core ++ closing ∧ ∀ ls : List Lexeme,
      .fixed .leftParen :: (ts.map Token.lexeme ++ .fixed .rightParen :: ls) =
        opening.map Token.lexeme ++ .fixed .leftParen ::
          (core.map Token.lexeme ++ .fixed .rightParen :: (closing.map Token.lexeme ++ ls)) := by
  obtain ⟨opening, closing, rfl, ho, hc⟩ := h
  refine ⟨opening, closing, rfl, fun ls => ?_⟩
  rw [List.map_append, List.map_append, lexemes_of_kinds rfl ho, lexemes_of_kinds rfl hc,
    replicate_append_cons, List.append_assoc, List.append_assoc, replicate_append_cons]

/-- Where tokens reach over a span, parentheses at its two ends stand around these tokens. -/
theorem Partition.exists_enclosed {text : String} {before core behind : List Token} {s : Span}
    (h : Partition [] text.toList (before ++ (core ++ behind))) (hs : Ends core s) :
    ∃ front part rest : String, text = front ++ part ++ rest ∧ s.start = front.utf8ByteSize ∧
      s.stop = (front ++ part).utf8ByteSize ∧
      Spells (front ++ "(" ++ part ++ ")" ++ rest).toList (before.map Token.lexeme ++
        .fixed .leftParen :: (core.map Token.lexeme ++
          .fixed .rightParen :: behind.map Token.lexeme)) := by
  obtain ⟨front, g, part, rest, htext, rfl, hfront, hg, hpart, hrest⟩ := h.exists_setting hs
  have hclose : Spells (')' :: rest) (.fixed .rightParen :: behind.map Token.lexeme) := by
    have hrest := hrest.spells spells_nil parted_nil
    rw [List.append_nil, List.append_nil] at hrest
    exact hrest.fixed (k := .rightParen) (s := ")") rfl
      (parted_symbol (k := .rightParen) (by decide) rfl _)
  have hcore := hpart.spells hclose fun w => parted_of_head rfl rfl (by decide)
  have hopen := (hcore.fixed (k := .leftParen) (s := "(") rfl
    (parted_symbol (k := .leftParen) (by decide) rfl _)).gap hg
  have hall := hfront.spells hopen (hg.parted fun w => parted_of_head rfl rfl (by decide))
  refine ⟨.ofList (front ++ g), .ofList part, .ofList rest, ?_, ?_, ?_, by simpa using hall⟩
  · rw [← String.toList_inj, htext]
    simp
  · rw [Span.start_between, Position.offset_after, Nat.zero_add]
  · rw [Span.stop_between, Position.offset_after, Nat.zero_add, String.ofList_append]

/-- Parentheses at the two ends of the span of an expression leave the tree as it is, with room
enough for every token. -/
theorem parse_parentheses {text : String} {limits : Limits} {b : Block Span} {x : Expr Span}
    {path : List Node.Step} (h : parse text limits = .ok b)
    (hx : (Node.statement b).follow? path = some (.expression x)) :
    ∃ front part rest, text = front ++ part ++ rest ∧ x.note.start = front.utf8ByteSize ∧
      x.note.stop = (front ++ part).utf8ByteSize ∧ ∀ limits' : Limits,
        (front ++ "(" ++ part ++ ")" ++ rest).utf8ByteSize ≤ limits'.maxLength →
        (∀ ts, tokenize (front ++ "(" ++ part ++ ")" ++ rest) = .ok ts →
          ts.length < limits'.maxDepth) →
        ∃ y, parse (front ++ "(" ++ part ++ ")" ++ rest) limits' = .ok y ∧ y.shape = b.shape := by
  obtain ⟨-, ts, finish, q, hscan, hq, -⟩ := parse_eq_ok_iff.1 h
  have hpart := Scan.ofText_eq_complete_iff.1 ⟨finish, hscan⟩
  obtain ⟨q', htree, e, before, us, behind, he, rfl, hlex⟩ := hq.exists_wrapped ⟨path, hx⟩
  have hinfix : us <:+: before ++ (us ++ behind) := ⟨before, behind, List.append_assoc _ _ _⟩
  obtain ⟨core, i, j, hframed, hends⟩ :=
    he.covers (hpart.successive.sublist hinfix.sublist).rising
  obtain ⟨opening, closing, rfl, henclose⟩ := hframed.enclose
  have hpart' : Partition [] text.toList
      ((before ++ opening) ++ (core ++ (closing ++ behind))) := by simpa using hpart
  obtain ⟨front, part, rest, htext, hstart, hstop, hspells⟩ := hpart'.exists_enclosed hends
  have hq' : Spells (front ++ "(" ++ part ++ ")" ++ rest).toList q'.lexemes := by
    rw [hlex, henclose]
    simpa using hspells
  refine ⟨front, part, rest, htext, hstart, hstop, fun limits' hlen hdepth => ?_⟩
  obtain ⟨us, finish', hscan', hus⟩ := hq'.ofText
  have hneed : q'.need ≤ limits'.maxDepth := by
    have hlt := hdepth us (tokenize_eq_ok_iff.2 ⟨finish', hscan'⟩)
    have hle := q'.need_le_length
    rw [← hus, List.length_map] at hle
    omega
  obtain ⟨y, hy, hshape⟩ := parse_of_need_le hq' hlen hneed
  exact ⟨y, hy, by rw [hshape, htree, hq.shape]⟩

/-- The span of a product begins within the parentheses of its first factor. -/
theorem parse_parentheses_product :
    ∃ b y, parse "write (a+b)*c" {} = .ok b ∧
      parse ("write (" ++ "(" ++ "a+b)*c" ++ ")" ++ "") {} = .ok y ∧ y.shape = b.shape := by
  have h : parse "write (a+b)*c" {} = .ok (.last (.write ⟨1, 1, 0, 13⟩
      (.binary ⟨1, 8, 7, 13⟩ .multiply (.binary ⟨1, 8, 7, 10⟩ .add (.identifier ⟨1, 8, 7, 8⟩ "a")
        (.identifier ⟨1, 10, 9, 10⟩ "b")) (.identifier ⟨1, 13, 12, 13⟩ "c")))) :=
    ok_of_toOption (by decide +kernel)
  obtain ⟨front, part, rest, htext, hstart, hstop, hparse⟩ :=
    @parse_parentheses _ _ _ _ [.child 0] h rfl
  obtain ⟨hboth, rfl⟩ := eq_of_utf8ByteSize (a := front ++ part) (c := "write (a+b)*c") (d := "")
    (htext.symm.trans (by decide)) (hstop.symm.trans (by decide))
  obtain ⟨rfl, rfl⟩ := eq_of_utf8ByteSize (c := "write (") (d := "a+b)*c")
    (hboth.trans (by decide)) (hstart.symm.trans (by decide))
  have hlength : (tokenize ("write (" ++ "(" ++ "a+b)*c" ++ ")" ++ "")).toOption.map List.length =
      some 10 := by decide +kernel
  have hdepth : ∀ ts, tokenize ("write (" ++ "(" ++ "a+b)*c" ++ ")" ++ "") = .ok ts →
      ts.length < ({} : Limits).maxDepth := by
    intro ts hts
    rw [hts] at hlength
    rw [Option.some.inj hlength]
    decide
  obtain ⟨y, hy, hshape⟩ := hparse {} (by decide) hdepth
  exact ⟨_, y, h, hy, hshape⟩

end TinyLanguage
