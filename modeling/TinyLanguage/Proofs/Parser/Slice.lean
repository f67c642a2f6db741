import TinyLanguage.Proofs.Format.Source
import TinyLanguage.Proofs.Parser.Occurrence

namespace TinyLanguage

open Grammar
open Token.Kind (unpaired)

theorem lexemes_of_kinds {k : Token.Kind} {ts : List Token} {n : Nat} (hk : k.spelling?.isSome)
    (h : ts.map Token.kind = .replicate n k) : ts.map Token.lexeme = .replicate n (.fixed k) := by
  rw [List.eq_replicate_iff] at h ⊢
  obtain ⟨hlen, hall⟩ := h
  refine ⟨by simpa using hlen, ?_⟩
  intro l hl
  obtain ⟨t, ht, rfl⟩ := List.mem_map.1 hl
  exact Token.lexeme_of_kind (hall _ (List.mem_map_of_mem ht)) hk

section

variable {text : String}

theorem Partition.exists_part {before core behind : List Token} {s : Span}
    (h : Partition [] text.toList (before ++ (core ++ behind))) (hs : Ends core s) :
    ∃ part, s.Marks text part ∧ ∀ tail ls, Spells tail ls → (∀ w, Parted w tail) →
      Spells (part.toList ++ tail) (core.map Token.lexeme ++ ls) := by
  obtain ⟨front, part, hmarks, -, hpart⟩ := h.exists_marked hs
  exact ⟨part, hmarks, fun tail ls => hpart.spells⟩

/-- The tokens that the span of an expression reaches over, and a derivation that yields the
expression for them in as many parentheses as they have without a partner. -/
theorem exists_core {limits : Limits} {b : Block Span} {x : Expr Span} {path : List Node.Step}
    (h : parse text limits = .ok b) (hx : (Node.statement b).follow? path = some (.expression x)) :
    ∃ before core behind, ∃ e : Expression,
      Partition [] text.toList (before ++ (core ++ behind)) ∧ Ends core x.note ∧
      e.tree = x.shape ∧ e.lexemes =
        .replicate (unpaired (core.map Token.kind)).1 (.fixed .leftParen) ++
          (core.map Token.lexeme ++
            .replicate (unpaired (core.map Token.kind)).2 (.fixed .rightParen)) := by
  obtain ⟨ts, hpart, hoccurs⟩ := exists_occurs h
  obtain ⟨_, us, hus, he⟩ := hoccurs hx
  obtain ⟨vs, hvs, hbare⟩ := he.bare
  obtain ⟨e, he⟩ := hbare.exists_yields
  have hinfix := hvs.trans hus
  obtain ⟨core, i, j, ⟨opening, closing, rfl, ho, hc⟩, hends, hpairs⟩ :=
    hbare.framed (hpart.successive.sublist hinfix.sublist).rising
  obtain ⟨front, back, rfl⟩ := hinfix
  refine ⟨front ++ opening, core, closing ++ back, e, by simpa using hpart, hends,
    he.shape.symm, ?_⟩
  rw [hpairs, he.lexemes, List.map_append, List.map_append, lexemes_of_kinds rfl ho,
    lexemes_of_kinds rfl hc, List.append_assoc]

end

theorem Spells.leftParens {cs : List Char} {ls : List Lexeme} (h : Spells cs ls) (n : Nat) :
    Spells (.replicate n '(' ++ cs) (.replicate n (.fixed .leftParen) ++ ls) := by
  induction n with
  | zero => exact h
  | succ n ih =>
    exact ih.fixed (k := .leftParen) (s := "(") rfl
      (parted_symbol (k := .leftParen) (by decide) rfl _)

theorem parted_rightParens (n : Nat) (w : List Char) : Parted w (.replicate n ')') := by
  cases n with
  | zero => exact parted_nil w
  | succ n => exact parted_of_head rfl rfl (by decide)

theorem spells_rightParens (n : Nat) :
    Spells (.replicate n ')') (.replicate n (.fixed .rightParen)) := by
  induction n with
  | zero => exact spells_nil
  | succ n ih => exact ih.fixed (k := .rightParen) (s := ")") rfl (parted_rightParens n _)

def Expresses (text : String) (e : Expr Unit) : Prop :=
  ∃ room : Limits, ∀ limits : Limits, room.maxLength ≤ limits.maxLength →
    room.maxDepth ≤ limits.maxDepth →
      ∃ b, parse ("write " ++ text) limits = .ok b ∧ b.shape = .last (.write () e)

def enclose (p : Nat × Nat) (text : String) : String :=
  .ofList (.replicate p.1 '(') ++ text ++ .ofList (.replicate p.2 ')')

theorem Spells.write {text : String} {ls : List Lexeme} (h : Spells text.toList ls) :
    Spells ("write " ++ text).toList (.fixed .writeKw :: ls) := by
  simpa using h.keyword (k := .writeKw) (s := "write") (c := ' ') rfl rfl

theorem expresses_of_spells {text : String} {e : Expression} (h : Spells text.toList e.lexemes) :
    Expresses text e.tree := by
  have hwrite : Spells ("write " ++ text).toList (Sequence.lexemes (.last (.write e))) := h.write
  exact ⟨⟨Sequence.need (.last (.write e)), ("write " ++ text).utf8ByteSize⟩,
    fun limits hlen hdepth => parse_of_need_le hwrite hlen hdepth⟩

theorem unpaired_of_parse {text : String} {limits : Limits} {b : Block Span} {ls : List Lexeme}
    (h : parse text limits = .ok b) (hs : Spells text.toList ls) :
    unpaired (ls.map Lexeme.kind) = (0, 0) := by
  obtain ⟨-, ts, finish, q, hscan, hq, -⟩ := parse_eq_ok_iff.1 h
  obtain ⟨us, finish', hscan', rfl⟩ := hs.ofText
  rw [hscan] at hscan'
  rw [← (Scan.mk.inj hscan').1, ← hq.lexemes]
  exact q.balanced

/-- The span of an expression marks one part of the text. It lacks the parentheses whose partners it
has, and becomes a text of the expression when they are put around it; by itself it is one exactly
if none are lacking, and else no limits let it be read. -/
theorem expression_span {text : String} {limits : Limits} {b : Block Span} {x : Expr Span}
    {path : List Node.Step} (h : parse text limits = .ok b)
    (hx : (Node.statement b).follow? path = some (.expression x)) :
    ∃ part ts, (∀ p, x.note.Marks text p ↔ p = part) ∧ tokenize part = .ok ts ∧
      Expresses (enclose (unpaired (ts.map Token.kind)) part) x.shape ∧
      (Expresses part x.shape ↔ unpaired (ts.map Token.kind) = (0, 0)) ∧
      ∀ limits' c, parse ("write " ++ part) limits' = .ok c →
        unpaired (ts.map Token.kind) = (0, 0) := by
  obtain ⟨before, core, behind, e, hpart, hends, htree, hlex⟩ := exists_core h hx
  obtain ⟨part, hmarks, hspells⟩ := hpart.exists_part hends
  have hself : Spells part.toList (core.map Token.lexeme) := by
    simpa using hspells [] [] spells_nil parted_nil
  obtain ⟨ts, finish, hscan, hts⟩ := hself.ofText
  have hkinds : ts.map Token.kind = core.map Token.kind := by
    simpa [Token.lexeme, Function.comp_def] using congrArg (List.map Lexeme.kind) hts
  have hwhole : Expresses (enclose (unpaired (ts.map Token.kind)) part) x.shape := by
    rw [← htree]
    apply expresses_of_spells
    rw [hlex, hkinds, enclose]
    have hright := hspells _ _ (spells_rightParens (unpaired (core.map Token.kind)).2)
      (parted_rightParens _)
    simpa using hright.leftParens (unpaired (core.map Token.kind)).1
  have hread : ∀ limits' c, parse ("write " ++ part) limits' = .ok c →
      unpaired (ts.map Token.kind) = (0, 0) := by
    intro limits' c hc
    have hpairs := unpaired_of_parse hc hself.write
    rw [List.map_cons, Token.Kind.unpaired_cons_of_ne (by decide) (by decide), List.map_map]
      at hpairs
    rwa [hkinds]
  refine ⟨part, ts, fun p => ⟨fun hp => hp.unique hmarks, fun hp => hp ▸ hmarks⟩,
    tokenize_eq_ok_iff.2 ⟨finish, hscan⟩, hwhole, ⟨?_, ?_⟩, hread⟩
  · rintro ⟨room, hroom⟩
    obtain ⟨c, hc, -⟩ := hroom room (Nat.le_refl _) (Nat.le_refl _)
    exact hread room c hc
  · intro hzero
    rw [hzero] at hwhole
    simpa [enclose] using hwhole

theorem expression_span_product :
    ∃ b x, parse "write (a+b)*c" {} = .ok b ∧
      (Node.statement b).follow? [.child 0] = some (.expression x) ∧
      x.note = ⟨1, 8, 7, 13⟩ ∧ x.note.Marks "write (a+b)*c" "a+b)*c" ∧
      Expresses "(a+b)*c" x.shape ∧ ¬ Expresses "a+b)*c" x.shape ∧
      ∀ limits c, parse "write a+b)*c" limits ≠ .ok c := by
  have h : parse "write (a+b)*c" {} = .ok (.last (.write ⟨1, 1, 0, 13⟩
      (.binary ⟨1, 8, 7, 13⟩ .multiply (.binary ⟨1, 8, 7, 10⟩ .add (.identifier ⟨1, 8, 7, 8⟩ "a")
        (.identifier ⟨1, 10, 9, 10⟩ "b")) (.identifier ⟨1, 13, 12, 13⟩ "c")))) :=
    ok_of_toOption (by decide +kernel)
  obtain ⟨part, ts, hmarks, hts, hwhole, hiff, hread⟩ := @expression_span _ _ _ _ [.child 0] h rfl
  obtain rfl : "a+b)*c" = part := (hmarks _).1 ⟨"write (", "", by decide, by decide, by decide⟩
  have hpairs : unpaired (ts.map Token.kind) = (1, 0) := by
    have htok : (tokenize "a+b)*c").toOption.map (fun ts => unpaired (ts.map Token.kind)) =
        some (1, 0) := by decide +kernel
    rw [hts] at htok
    exact Option.some.inj htok
  rw [hpairs] at hwhole hiff hread
  refine ⟨_, _, h, rfl, rfl, (hmarks _).2 rfl, hwhole, fun hx => ?_, fun limits c hc => ?_⟩
  · exact absurd (hiff.1 hx) (by decide)
  · exact absurd (hread limits c hc) (by decide)

end TinyLanguage
