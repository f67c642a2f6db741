import TinyLanguage.Proofs.Grammar.Tower
import TinyLanguage.Proofs.Parser.Exactness
import TinyLanguage.Proofs.Tree.Descent

namespace TinyLanguage

open Grammar

theorem Grammar.Sequence.Yields.height {q : Sequence} {ts : List Token} {b : Block Span}
    (h : q.Yields ts b) : b.height = q.tree.height := by
  rw [← b.height_shape, h.shape]

theorem height_le_of_parse {text : String} {limits : Limits} {b : Block Span}
    (h : parse text limits = .ok b) :
    b.height ≤ (limits.maxDepth - 1) * (limits.maxDepth - 1) + 2 := by
  obtain ⟨-, ts, finish, q, -, hq, hneed⟩ := parse_eq_ok_iff.1 h
  rw [hq.height]
  exact q.height_le 0 limits.maxDepth ((q.need_le_iff _).1 hneed)

/-- Every limit that leaves room for an expression lets a tree pass that reaches the bound. -/
theorem exists_parse_tower (n : Nat) :
    ∃ (text : String) (b : Block Span), b.height = (n + 1) * (n + 1) + 2 ∧
      ∀ limits : Limits, text.utf8ByteSize ≤ limits.maxLength → n + 2 ≤ limits.maxDepth →
        parse text limits = .ok b := by
  have hs := spells_spaced fun l hl => (Sequence.legible_tower n l hl).whole
  obtain ⟨ts, finish, hscan, hts⟩ := hs.ofText
  obtain ⟨b, hq⟩ := Sequence.exists_tree hts.symm
  refine ⟨spaced (Sequence.tower n).lexemes, b, ?_, ?_⟩
  · rw [hq.height, Sequence.height_tower]
  intro limits hlen hdepth
  have hneed := Nat.le_trans (Sequence.need_tower_le n) hdepth
  exact parse_eq_ok_iff.2 ⟨hlen, ts, finish, _, hscan, hq, hneed⟩

theorem height_le_of_maxDepth_lt {text : String} {limits : Limits} {b : Block Span}
    (h : parse text limits = .ok b) (hdepth : limits.maxDepth < 2) : b.height ≤ limits.maxDepth := by
  obtain ⟨-, ts, finish, q, -, hq, hneed⟩ := parse_eq_ok_iff.1 h
  have hlevels := (q.need_le_iff _).1 hneed
  have hpos := Sequence.lt_of_levels hlevels
  have hone : q.tree.height = 1 := q.height_of_levels (b := 0) fun l hl => by
    have hle := hlevels l hl
    omega
  rw [hq.height]
  omega

/-- The limit bounds the height of the trees by its square, and by itself only if it is less than
two. A given program passes the limit with a higher tree between the deepest level that it reaches
and the height of its tree. -/
theorem height_bound (depth : Nat) :
    ((∀ text maxLength b, parse text ⟨depth, maxLength⟩ = .ok b → b.height ≤ depth) ↔ depth < 2) ∧
    (∀ text maxLength b, parse text ⟨depth, maxLength⟩ = .ok b →
      b.height ≤ (depth - 1) * (depth - 1) + 2) ∧
    ∀ text maxLength ts, ∀ q : Sequence, text.utf8ByteSize ≤ maxLength → tokenize text = .ok ts →
      q.lexemes = ts.map Token.lexeme →
        ((∃ b, parse text ⟨depth, maxLength⟩ = .ok b ∧ depth < b.height) ↔
          q.need ≤ depth ∧ depth < q.tree.height) := by
  refine ⟨⟨?_, ?_⟩, fun text maxLength b h => height_le_of_parse h, ?_⟩
  · intro hall
    apply Nat.lt_of_not_le
    intro hdepth
    obtain ⟨n, rfl⟩ := Nat.exists_eq_add_of_le' hdepth
    obtain ⟨text, b, hb, hparse⟩ := exists_parse_tower n
    have hle := hall text text.utf8ByteSize b (hparse _ (Nat.le_refl _) (Nat.le_refl _))
    have hsq := Nat.le_mul_self (n + 1)
    omega
  · intro hdepth text maxLength b h
    exact height_le_of_maxDepth_lt h hdepth
  · intro text maxLength ts q hlen htok hlex
    obtain ⟨finish, hscan⟩ := tokenize_eq_ok_iff.1 htok
    constructor
    · rintro ⟨b, h, hb⟩
      obtain ⟨-, us, finish', p, hscan', hp, hneed⟩ := parse_eq_ok_iff.1 h
      obtain ⟨rfl, -⟩ := Scan.mk.inj (hscan.symm.trans hscan')
      obtain rfl := hp.eq hlex
      exact ⟨hneed, by rwa [← hp.height]⟩
    · rintro ⟨hneed, hheight⟩
      obtain ⟨b, hp⟩ := Sequence.exists_tree hlex
      exact ⟨b, parse_eq_ok_iff.2 ⟨hlen, ts, finish, _, hscan, hp, hneed⟩, by rwa [hp.height]⟩

/-- A comparison is a level of the tree that spends nothing. -/
theorem height_bound_comparison :
    ∃ b, parse "write a<b" ⟨2, 9⟩ = .ok b ∧ 2 < b.height := by
  obtain ⟨ts, htok, hlex⟩ : ∃ ts, tokenize "write a<b" = .ok ts ∧ ts.map Token.lexeme =
      [.fixed .writeKw, ⟨.identifier, "a"⟩, .fixed .less, ⟨.identifier, "b"⟩] :=
    exists_tokenize (by decide +kernel)
  have hq : Sequence.lexemes (.last (.write (.comparison (.term (.factor (.identifier "a"))) .less
      (.term (.factor (.identifier "b")))))) = ts.map Token.lexeme := by
    rw [hlex]
    decide
  exact ((height_bound 2).2.2 "write a<b" 9 ts _ (by decide) htok hq).2 (by decide)

/-- Under a limit that leaves room for an expression the highest trees are two higher than the
square of what is left below the outermost block. So many calls are open at once where a function
runs through a tree, and nowhere are there more: with room for them every tree is counted, and with
room for one less the highest is not. -/
theorem height_maximum (depth : Nat) (hdepth : 2 ≤ depth) :
    (∀ text maxLength b, parse text ⟨depth, maxLength⟩ = .ok b →
      b.height ≤ (depth - 1) * (depth - 1) + 2 ∧
        ∀ path n, (Node.statement b).follow? path = some n →
          (∀ ms, List.IsChain Node.Calls (n :: ms) →
            ms.length + 1 ≤ (depth - 1) * (depth - 1) + 2) ∧
          n.countWithin ((depth - 1) * (depth - 1) + 2) = some n.count) ∧
    ∃ text b, (∀ maxLength, text.utf8ByteSize ≤ maxLength →
        parse text ⟨depth, maxLength⟩ = .ok b) ∧
      b.height = (depth - 1) * (depth - 1) + 2 ∧
      (∃ ms, List.IsChain Node.Calls (.statement b :: ms) ∧
        ms.length + 1 = (depth - 1) * (depth - 1) + 2) ∧
      (Node.statement b).countWithin ((depth - 1) * (depth - 1) + 1) = none := by
  constructor
  · intro text maxLength b h
    have hle := height_le_of_parse h
    refine ⟨hle, fun path n hn => ?_⟩
    have hbelow : n.height ≤ (depth - 1) * (depth - 1) + 2 :=
      Nat.le_trans (Node.height_le_of_follow hn) hle
    refine ⟨fun ms hms => Nat.le_trans (n.height_isGreatest.2 ⟨ms, hms, rfl⟩) hbelow, ?_⟩
    rw [Node.countWithin_eq, if_pos hbelow]
  · obtain ⟨n, rfl⟩ := Nat.exists_eq_add_of_le' hdepth
    obtain ⟨text, b, hb, hparse⟩ := exists_parse_tower n
    obtain ⟨ms, hms, hlength⟩ := (Node.statement b).height_isGreatest.1
    have hheight : (Node.statement b).height = (n + 2 - 1) * (n + 2 - 1) + 2 := hb
    refine ⟨text, b, fun maxLength hlen => hparse _ hlen (Nat.le_refl _), hb,
      ⟨ms, hms, hlength.symm.trans hb⟩, ?_⟩
    rw [Node.countWithin_eq, if_neg (by omega)]

theorem height_maximum_default :
    (∀ text b, parse text {} = .ok b → b.height ≤ 9803) ∧
      ∃ text b, parse text ⟨100, text.utf8ByteSize⟩ = .ok b ∧ b.height = 9803 := by
  obtain ⟨hall, text, b, hparse, hb, -⟩ := height_maximum 100 (by decide)
  exact ⟨fun text b h => (hall text _ b h).1, text, b, hparse _ (Nat.le_refl _), hb⟩

end TinyLanguage
