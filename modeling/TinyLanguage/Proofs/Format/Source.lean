import TinyLanguage.Proofs.Format.Printed
import TinyLanguage.Proofs.Token.Spelling
import TinyLanguage.Proofs.Tree.Legible

namespace TinyLanguage

open Format (unlines indent)
open Token (Kind)

variable {α : Type} {rest : List Char} {ls : List Lexeme}

@[simp] theorem toString_string (s : String) : toString s = s := rfl

@[simp] theorem toList_unlines_nil : (unlines []).toList = [] := rfl

@[simp] theorem toList_unlines_cons (line : String) (lines : List String) :
    (unlines (line :: lines)).toList = line.toList ++ '\n' :: (unlines lines).toList := by
  simp [unlines]

@[simp] theorem toList_unlines_append (lines more : List String) :
    (unlines (lines ++ more)).toList = (unlines lines).toList ++ (unlines more).toList := by
  induction lines with
  | nil => rfl
  | cons line lines ih => simp [ih]

@[simp] theorem toList_pushn (s : String) (c : Char) (n : Nat) :
    (s.pushn c n).toList = s.toList ++ List.replicate n c := by
  rw [String.pushn_eq_repeat_push]
  induction n with
  | zero => exact (List.append_nil _).symm
  | succ n ih => rw [Nat.repeat, String.toList_push, ih, List.replicate_succ', List.append_assoc]

@[simp] theorem toList_indent (level : Nat) :
    (indent level).toList = List.replicate (2 * level) ' ' :=
  toList_pushn "" ' ' (2 * level)

theorem parted_symbol {k : Kind} {s : String} (hk : k ∈ Kind.symbols) (hs : k.spelling? = some s)
    (rest : List Char) : Parted s.toList rest := by
  intro d _
  cases k with
  | plus | minus | star | slash | equals | less | leftParen | rightParen | semicolon | becomes =>
    cases hs
    simp [prolongs]
  | _ => exact absurd hk (by decide)

theorem Operator.spelling_kind (op : Operator) : op.kind.spelling? = some op.symbol := by
  cases op <;> rfl

theorem Operator.kind_mem_symbols (op : Operator) : op.kind ∈ Kind.symbols := by
  cases op <;> decide

/-- In front of a text that goes on with no lexeme, an expression is read as it was printed. -/
theorem Expr.spells_source {e : Expr α} (he : e.Legible) (h : Spells rest ls)
    (hp : ∀ w, Parted w rest) : Spells (e.source.toList ++ rest) (e.printed.lexemes ++ ls) := by
  induction e generalizing rest ls with
  | constant _ s => exact h.lexeme (l := ⟨.number, s⟩) ⟨he, nofun⟩ (hp _)
  | identifier _ x => exact h.lexeme (l := ⟨.identifier, x⟩) ⟨he, nofun⟩ (hp _)
  | binary _ op l r ihl ihr =>
    have hclose : Spells (')' :: rest) (.fixed .rightParen :: ls) := h.fixed (s := ")") rfl (hp _)
    have hr := ihr he.2 hclose fun _ => parted_of_head rfl rfl (by decide)
    have hop := (hr.blank (c := ' ') rfl).fixed op.spelling_kind
      (parted_symbol op.kind_mem_symbols op.spelling_kind _)
    have hl := ihl he.1 (hop.blank (c := ' ') rfl) fun _ => parted_blank rfl
    have hopen := hl.fixed (k := .leftParen) (s := "(") rfl
      (parted_symbol (k := .leftParen) (by decide) rfl _)
    simpa [source, printed, Grammar.Factor.lexemes] using hopen

theorem Spells.keyword {k : Kind} {s : String} {c : Char} (h : Spells rest ls)
    (hk : k.spelling? = some s) (hc : c.isWhitespace) :
    Spells (s.toList ++ c :: rest) (.fixed k :: ls) :=
  (h.blank hc).fixed hk (parted_blank hc)

mutual

/-- The text in front of which a statement stands starts with `stop`, and so closes it. -/
theorem Statement.spells_source : (s : Statement α) → s.Legible → (level : Nat) →
    {stop : String} → {rest : List Char} → {ls : List Lexeme} →
    Spells (stop.toList ++ '\n' :: rest) ls → (∀ w, Parted w (stop.toList ++ '\n' :: rest)) →
    Spells ((unlines (s.source level stop)).toList ++ rest) (s.printed.lexemes ++ ls)
  | .ifThen _ c t, hs, level, stop, rest, ls, h, hp => by
    -- Each step puts one more piece of the text in front, from its last line to its first.
    have hend := (h.fixed (k := .endKw) rfl (hp _)).blanks (2 * level)
    have ht := Block.spells_source t hs.2 (level + 1) hend
    have hthen := ht.keyword (k := .thenKw) (c := '\n') rfl rfl
    have hc := Expr.spells_source hs.1 (hthen.blank (c := ' ') rfl) fun _ => parted_blank rfl
    have hif := (hc.keyword (k := .ifKw) (c := ' ') rfl rfl).blanks (2 * level)
    simpa [Statement.source, Statement.printed, Grammar.Statement.lexemes] using hif
  | .ifThenElse _ c t e, hs, level, stop, rest, ls, h, hp => by
    have hend := (h.fixed (k := .endKw) rfl (hp _)).blanks (2 * level)
    have he := Block.spells_source e hs.2.2 (level + 1) hend
    have helse := (he.keyword (k := .elseKw) (c := '\n') rfl rfl).blanks (2 * level)
    have ht := Block.spells_source t hs.2.1 (level + 1) helse
    have hthen := ht.keyword (k := .thenKw) (c := '\n') rfl rfl
    have hc := Expr.spells_source hs.1 (hthen.blank (c := ' ') rfl) fun _ => parted_blank rfl
    have hif := (hc.keyword (k := .ifKw) (c := ' ') rfl rfl).blanks (2 * level)
    simpa [Statement.source, Statement.printed, Grammar.Statement.lexemes] using hif
  | .repeatUntil _ b c, hs, level, stop, rest, ls, h, hp => by
    have hc := Expr.spells_source hs.2 h hp
    have huntil := (hc.keyword (k := .untilKw) (c := ' ') rfl rfl).blanks (2 * level)
    have hb := Block.spells_source b hs.1 (level + 1) huntil
    have hrepeat := (hb.keyword (k := .repeatKw) (c := '\n') rfl rfl).blanks (2 * level)
    simpa [Statement.source, Statement.printed, Grammar.Statement.lexemes] using hrepeat
  | .assign _ x e, hs, level, stop, rest, ls, h, hp => by
    have he := Expr.spells_source hs.2 h hp
    have hbecomes := he.keyword (k := .becomes) (c := ' ') rfl rfl
    have hx := (hbecomes.blank (c := ' ') rfl).lexeme (l := ⟨.identifier, x⟩) ⟨hs.1, nofun⟩
      (parted_blank rfl)
    simpa [Statement.source, Statement.printed, Grammar.Statement.lexemes] using
      hx.blanks (2 * level)
  | .read _ x, hs, level, stop, rest, ls, h, hp => by
    have hx := h.lexeme (l := ⟨.identifier, x⟩) ⟨hs, nofun⟩ (hp _)
    have hread := (hx.keyword (k := .readKw) (c := ' ') rfl rfl).blanks (2 * level)
    simpa [Statement.source, Statement.printed, Grammar.Statement.lexemes] using hread
  | .write _ e, hs, level, stop, rest, ls, h, hp => by
    have he := Expr.spells_source hs h hp
    have hwrite := (he.keyword (k := .writeKw) (c := ' ') rfl rfl).blanks (2 * level)
    simpa [Statement.source, Statement.printed, Grammar.Statement.lexemes] using hwrite

theorem Block.spells_source : (b : Block α) → b.Legible → (level : Nat) →
    {rest : List Char} → {ls : List Lexeme} → Spells rest ls →
    Spells ((unlines (b.source level)).toList ++ rest) (b.printed.lexemes ++ ls)
  | .last s, hb, level, rest, ls, h => by
    have hstop : Spells ("".toList ++ '\n' :: rest) ls := h.blank rfl
    exact Statement.spells_source s hb level hstop fun _ => parted_blank rfl
  | .cons s b, hb, level, rest, ls, h => by
    have hrest := Block.spells_source b hb.2 level h
    have hstop := hrest.keyword (k := .semicolon) (s := ";") (c := '\n') rfl rfl
    have hs := Statement.spells_source s hb.1 level hstop fun _ => parted_of_head rfl rfl (by decide)
    simpa [Block.source, Block.printed, Grammar.Sequence.lexemes] using hs

end

theorem Block.spells {b : Block α} (hb : b.Legible) :
    Spells (unlines (b.source 0)).toList b.printed.lexemes := by
  have h := Block.spells_source b hb 0 spells_nil
  rwa [List.append_nil, List.append_nil] at h

variable {β : Type}

theorem Expr.source_map (f : α → β) (e : Expr α) : (e.map f).source = e.source := by
  induction e with
  | constant | identifier => rfl
  | binary _ _ l r ihl ihr => rw [map, source, ihl, ihr, source]

mutual

theorem Statement.source_map (f : α → β) : (s : Statement α) → (level : Nat) → (stop : String) →
    (s.map f).source level stop = s.source level stop
  | .ifThen _ c t, level, stop => by
    rw [Statement.map, Statement.source, c.source_map f, Block.source_map f t, Statement.source]
  | .ifThenElse _ c t e, level, stop => by
    rw [Statement.map, Statement.source, c.source_map f, Block.source_map f t,
      Block.source_map f e, Statement.source]
  | .repeatUntil _ b c, level, stop => by
    rw [Statement.map, Statement.source, Block.source_map f b, c.source_map f, Statement.source]
  | .assign _ _ e, level, stop | .write _ e, level, stop => by
    rw [Statement.map, Statement.source, e.source_map f, Statement.source]
  | .read _ _, _, _ => rfl

theorem Block.source_map (f : α → β) : (b : Block α) → (level : Nat) →
    (b.map f).source level = b.source level
  | .last s, level => Statement.source_map f s level ""
  | .cons s b, level => by
    rw [Block.map, Block.source, Statement.source_map f s, Block.source_map f b, Block.source]

end

theorem source_of_shape {b : Block α} {c : Block β} (h : b.shape = c.shape) :
    b.source 0 = c.source 0 := by
  rw [← b.source_map fun _ => (), ← c.source_map fun _ => ()]
  exact congrArg (Block.source 0) h

end TinyLanguage
