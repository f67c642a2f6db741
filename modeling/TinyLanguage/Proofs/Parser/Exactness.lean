import Mathlib.Logic.ExistsUnique
import TinyLanguage.Proofs.Parser.Completeness
import TinyLanguage.Proofs.Parser.Soundness
import TinyLanguage.Proofs.Token.Spelling

namespace TinyLanguage

open Grammar

/-- A text is read as a tree exactly if its tokens have a derivation that yields this tree and that
reaches no deeper than the limit. -/
theorem parse_eq_ok_iff {text : String} {limits : Limits} {b : Block Span} :
    parse text limits = .ok b ↔ text.utf8ByteSize ≤ limits.maxLength ∧
      ∃ ts finish, ∃ q : Sequence, Scan.ofText text = ⟨ts, .complete finish⟩ ∧ q.Yields ts b ∧
        q.need ≤ limits.maxDepth := by
  constructor
  · exact Parser.parse_eq_ok
  · rintro ⟨hlen, ts, finish, q, hscan, hq, hneed⟩
    rw [Parser.parse_of_yields hlen hscan hq, Parser.within_of_le ((q.need_le_iff _).1 hneed)]

theorem exists_yields_of_parse {text : String} {limits : Limits} {b : Block Span}
    (h : parse text limits = .ok b) :
    ∃ ts, ∃ q : Sequence, tokenize text = .ok ts ∧ q.Yields ts b := by
  obtain ⟨-, ts, finish, q, hscan, hq, -⟩ := parse_eq_ok_iff.1 h
  exact ⟨ts, q, tokenize_eq_ok_iff.2 ⟨finish, hscan⟩, hq⟩

theorem exists_tokenize {text : String} {ls : List Lexeme}
    (h : (tokenize text).toOption.map (List.map Token.lexeme) = some ls) :
    ∃ ts, tokenize text = .ok ts ∧ ts.map Token.lexeme = ls := by
  obtain ⟨ts, hts, hls⟩ := Option.map_eq_some_iff.1 h
  exact ⟨ts, ok_of_toOption hts, hls⟩

theorem Grammar.Sequence.Yields.eq {q p : Sequence} {ts : List Token} {b : Block Span}
    (hq : q.Yields ts b) (hp : p.lexemes = ts.map Token.lexeme) : p = q :=
  Sequence.lexemes_injective (hp.trans hq.lexemes.symm)

/-- The tree is that of the run of the parser, so there is only one. -/
theorem Grammar.Sequence.Yields.unique {q : Sequence} {ts : List Token} {b c : Block Span}
    (hb : q.Yields ts b) (hc : q.Yields ts c) : b = c := by
  obtain ⟨st, st', -, hr, hend⟩ := Parser.exists_reads hb.ne_invalid [] {}
  have hdepth := (q.need_le_iff q.need).1 (Nat.le_refl _)
  have hrun {d : Block Span} (hd : q.Yields ts d) :
      (Parser.program q.need).run st = .ok (d, st') :=
    (Parser.program_run hd hr hend).trans (Parser.within_of_le hdepth)
  exact (Prod.mk.inj (Except.ok.inj ((hrun hb).symm.trans (hrun hc)))).1

theorem Grammar.Sequence.exists_tree {q : Sequence} {ts : List Token}
    (h : q.lexemes = ts.map Token.lexeme) : ∃ b, q.Yields ts b := by
  have hfits : Fits q.lexemes ts := by
    rw [h]
    exact fits_lexemes ts
  obtain ⟨p, b, hp⟩ := q.exists_yields hfits
  obtain rfl := hp.eq h
  exact ⟨b, hp⟩

section

variable {q : Sequence} {text : String} {limits : Limits}

theorem parse_of_spells (h : Spells text.toList q.lexemes)
    (hlen : text.utf8ByteSize ≤ limits.maxLength) :
    ∃ ts b, ts.length = (q.levels 0).length ∧ b.shape = q.tree ∧
      parse text limits = Parser.within limits.maxDepth ts (q.levels 0) (.ok b) := by
  obtain ⟨ts, finish, hscan, hts⟩ := h.ofText
  obtain ⟨b, hp⟩ := Sequence.exists_tree hts.symm
  exact ⟨ts, b, hp.length_levels 0, hp.shape, Parser.parse_of_yields hlen hscan hp⟩

theorem parse_of_need_le (h : Spells text.toList q.lexemes)
    (hlen : text.utf8ByteSize ≤ limits.maxLength) (hneed : q.need ≤ limits.maxDepth) :
    ∃ b, parse text limits = .ok b ∧ b.shape = q.tree := by
  obtain ⟨ts, b, -, hb, hparse⟩ := parse_of_spells h hlen
  exact ⟨b, hparse.trans (Parser.within_of_le ((q.need_le_iff _).1 hneed)), hb⟩

theorem parse_of_lt_need (h : Spells text.toList q.lexemes)
    (hlen : text.utf8ByteSize ≤ limits.maxLength) (hneed : limits.maxDepth < q.need) :
    ∃ span, parse text limits = .error (.tooDeep limits.maxDepth span) := by
  obtain ⟨ts, b, hts, -, hparse⟩ := parse_of_spells h hlen
  have hdeep : ¬∀ l ∈ q.levels 0, l ≤ limits.maxDepth := by
    rw [← q.need_le_iff]
    exact Nat.not_le.mpr hneed
  obtain ⟨t, -, ht⟩ := Parser.within_of_lt hts hdeep
  exact ⟨t.span, hparse.trans ht⟩

end

/-- Where the limits leave room for every token, the texts that can be read are those whose tokens
are of the kinds of some program, and the tree is that of their only derivation. -/
theorem parse_exact (text : String) (limits : Limits)
    (hlen : text.utf8ByteSize ≤ limits.maxLength)
    (hdepth : ∀ ts, tokenize text = .ok ts → ts.length < limits.maxDepth) :
    ((∃ b, parse text limits = .ok b) ↔
      ∃ ts, tokenize text = .ok ts ∧ (∀ t ∈ ts, t.kind ≠ .invalid) ∧
        ∃ q : Sequence, q.lexemes.map Lexeme.kind = ts.map Token.kind) ∧
    ∀ b, parse text limits = .ok b →
      ∃ ts, tokenize text = .ok ts ∧ (∃! q : Sequence, q.lexemes = ts.map Token.lexeme) ∧
        ∀ q : Sequence, q.lexemes = ts.map Token.lexeme → b.shape = q.tree := by
  refine ⟨⟨?_, ?_⟩, ?_⟩
  · rintro ⟨b, h⟩
    obtain ⟨-, ts, finish, q, hscan, hq, -⟩ := parse_eq_ok_iff.1 h
    refine ⟨ts, tokenize_eq_ok_iff.2 ⟨finish, hscan⟩, hq.ne_invalid, q, ?_⟩
    rw [hq.lexemes, List.map_map]
    rfl
  · rintro ⟨ts, htok, -, q, hkinds⟩
    obtain ⟨finish, hscan⟩ := tokenize_eq_ok_iff.1 htok
    obtain ⟨p, b, hp⟩ := q.exists_yields hkinds.symm
    refine ⟨b, parse_eq_ok_iff.2 ⟨hlen, ts, finish, p, hscan, hp, ?_⟩⟩
    have hneed := p.need_le_length
    have hts := hdepth ts htok
    rw [hp.lexemes, List.length_map] at hneed
    omega
  · intro b h
    obtain ⟨-, ts, finish, q, hscan, hq, -⟩ := parse_eq_ok_iff.1 h
    refine ⟨ts, tokenize_eq_ok_iff.2 ⟨finish, hscan⟩, ⟨q, hq.lexemes, fun p => hq.eq⟩, ?_⟩
    intro p hp
    rw [hq.eq hp, hq.shape]

theorem parse_exact_comparison :
    ∃ b, parse "write (a+2)*b<a" {} = .ok b ∧
      b.shape = .last (.write () (.binary () .less
        (.binary () .multiply (.binary () .add (.identifier () "a") (.constant () "2"))
          (.identifier () "b"))
        (.identifier () "a"))) := by
  obtain ⟨ts, hts, hlex⟩ : ∃ ts, tokenize "write (a+2)*b<a" = .ok ts ∧ ts.map Token.lexeme =
      [.fixed .writeKw, .fixed .leftParen, ⟨.identifier, "a"⟩, .fixed .plus, ⟨.number, "2"⟩,
        .fixed .rightParen, .fixed .star, ⟨.identifier, "b"⟩, .fixed .less, ⟨.identifier, "a"⟩] :=
    exists_tokenize (by decide +kernel)
  have hq : Sequence.lexemes (.last (.write (.comparison
      (.term (.more (.factor (.parens (.sum (.more (.term (.factor (.identifier "a"))) .plus
        (.factor (.number "2")))))) .star (.identifier "b")))
      .less (.term (.factor (.identifier "a")))))) = ts.map Token.lexeme := by
    rw [hlex]
    decide
  have hlength : ts.length = 10 := by
    rw [← List.length_map (f := Token.lexeme), hlex]
    rfl
  have hvalid : ∀ t ∈ ts, t.kind ≠ .invalid := by
    have hl : ∀ l ∈ ts.map Token.lexeme, l.kind ≠ .invalid := by
      rw [hlex]
      decide
    exact fun t ht => hl t.lexeme (List.mem_map_of_mem ht)
  have hexact := parse_exact "write (a+2)*b<a" {} (by decide) (by
    intro us hus
    obtain rfl := Except.ok.inj (hts.symm.trans hus)
    rw [hlength]
    decide)
  obtain ⟨b, hb⟩ := hexact.1.2 ⟨ts, hts, hvalid, _, by rw [hq, List.map_map]; rfl⟩
  obtain ⟨us, hus, -, htree⟩ := hexact.2 b hb
  obtain rfl := Except.ok.inj (hts.symm.trans hus)
  exact ⟨b, hb, htree _ hq⟩

end TinyLanguage
