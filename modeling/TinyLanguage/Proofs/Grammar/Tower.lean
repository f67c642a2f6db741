import TinyLanguage.Proofs.Grammar.Height
import TinyLanguage.Proofs.Token.Spelling

namespace TinyLanguage.Grammar

def Term.chain (t : Term) : Nat → Term
  | 0 => t
  | n + 1 => .more (t.chain n) .star (.identifier "a")

def Sum.chain (s : Sum) : Nat → Sum
  | 0 => s
  | n + 1 => .more (s.chain n) .plus (.factor (.identifier "a"))

def Expression.stack (f : Factor) (n : Nat) : Expression :=
  .comparison ((Sum.term ((Term.factor f).chain n)).chain n) .less
    (.term (.factor (.identifier "a")))

def Factor.tower : Nat → Factor
  | 0 => .identifier "a"
  | n + 1 => .parens (.stack (tower n) n)

/-- A program whose tree is as high as any that reaches the level `n + 2`. -/
def Sequence.tower (n : Nat) : Sequence :=
  .last (.write (.stack (.tower n) n))

@[simp] theorem Term.signs_chain (f : Factor) (n : Nat) : ((Term.factor f).chain n).signs = n := by
  induction n with
  | zero => rfl
  | succ n ih => rw [chain, signs, ih]

@[simp] theorem Sum.signs_chain (t : Term) (n : Nat) : ((Sum.term t).chain n).signs = n := by
  induction n with
  | zero => rfl
  | succ n ih => rw [chain, signs, ih]

theorem Term.height_chain (t : Term) (n : Nat) : (t.chain n).tree.height = t.tree.height + n := by
  induction n with
  | zero => rfl
  | succ n ih =>
    have hpos := t.tree.height_pos
    simp only [chain, tree, Expr.height, ih, Factor.tree]
    omega

theorem Sum.height_chain (s : Sum) (n : Nat) : (s.chain n).tree.height = s.tree.height + n := by
  induction n with
  | zero => rfl
  | succ n ih =>
    have hpos := s.tree.height_pos
    simp only [chain, tree, Expr.height, ih, Term.tree, Factor.tree]
    omega

theorem Expression.height_stack (f : Factor) (n : Nat) :
    (stack f n).tree.height = f.tree.height + 2 * n + 1 := by
  have hpos := f.tree.height_pos
  simp only [stack, tree, Expr.height, Sum.height_chain, Sum.tree, Term.height_chain, Term.tree,
    Factor.tree]
  omega

theorem Factor.height_tower (n : Nat) : (tower n).tree.height = n * n + 1 := by
  induction n with
  | zero => rfl
  | succ n ih =>
    rw [tower, tree, Expression.height_stack, ih]
    grind

theorem Sequence.height_tower (n : Nat) : (tower n).tree.height = (n + 1) * (n + 1) + 2 := by
  simp only [tower, tree, Block.height, Statement.tree, TinyLanguage.Statement.height,
    Expression.height_stack, Factor.height_tower]
  grind

variable {b m n : Nat}

theorem Term.levels_chain_le {f : Factor} (h : ∀ l ∈ f.levels b, l ≤ b + n) (hm : m ≤ n) :
    ∀ l ∈ ((Term.factor f).chain m).levels b, l ≤ b + n := by
  induction m with
  | zero => exact h
  | succ m ih =>
    intro l hl
    simp only [chain, levels, signs_chain, Factor.levels, List.mem_append, List.mem_cons,
      List.not_mem_nil, or_false, or_self] at hl
    rcases hl with hl | rfl
    · exact ih (by omega) l hl
    · omega

theorem Sum.levels_chain_le {t : Term} (h : ∀ l ∈ t.levels b, l ≤ b + n) (hm : m ≤ n) :
    ∀ l ∈ ((Sum.term t).chain m).levels b, l ≤ b + n := by
  induction m with
  | zero => exact h
  | succ m ih =>
    intro l hl
    simp only [chain, levels, signs_chain, Term.levels, Factor.levels, List.mem_append,
      List.mem_cons, List.not_mem_nil, or_false, or_self] at hl
    rcases hl with hl | rfl
    · exact ih (by omega) l hl
    · omega

theorem Expression.levels_stack_le {f : Factor} (h : ∀ l ∈ f.levels (b + 1), l ≤ b + 1 + n) :
    ∀ l ∈ (stack f n).levels b, l ≤ b + 1 + n := by
  intro l hl
  have hs := Sum.levels_chain_le (Term.levels_chain_le h (Nat.le_refl n)) (Nat.le_refl n)
  simp only [stack, levels, Sum.levels, Term.levels, Factor.levels, List.mem_append, List.mem_cons,
    List.not_mem_nil, or_false, or_self] at hl
  rcases hl with hl | rfl
  · exact hs l hl
  · omega

theorem Factor.levels_tower_le (n b : Nat) : ∀ l ∈ (tower n).levels b, l ≤ b + n := by
  induction n generalizing b with
  | zero => simp [tower, levels]
  | succ n ih =>
    intro l hl
    have hs := Expression.levels_stack_le (ih (b + 1))
    simp only [tower, levels, List.mem_cons, List.mem_append, List.not_mem_nil, or_false] at hl
    rcases hl with rfl | hl | rfl
    · omega
    · have := hs l hl
      omega
    · omega

theorem Sequence.need_tower_le (n : Nat) : (tower n).need ≤ n + 2 := by
  rw [need_le_iff]
  intro l hl
  have hs := Expression.levels_stack_le (Factor.levels_tower_le n 2)
  simp only [tower, levels, Statement.levels, List.mem_cons] at hl
  rcases hl with rfl | hl
  · omega
  · have := hs l hl
    omega

theorem legible_a : (Lexeme.mk .identifier "a").Legible :=
  ⟨by decide, nofun⟩

theorem Term.legible_chain {t : Term} (h : ∀ l ∈ t.lexemes, l.Legible) (n : Nat) :
    ∀ l ∈ (t.chain n).lexemes, l.Legible := by
  induction n with
  | zero => exact h
  | succ n ih =>
    have hstar : (Lexeme.fixed .star).Legible := Lexeme.legible_fixed rfl
    simpa [chain, lexemes, Factor.lexemes, ProductSign.kind, or_imp, forall_and] using
      ⟨ih, hstar, legible_a⟩

theorem Sum.legible_chain {s : Sum} (h : ∀ l ∈ s.lexemes, l.Legible) (n : Nat) :
    ∀ l ∈ (s.chain n).lexemes, l.Legible := by
  induction n with
  | zero => exact h
  | succ n ih =>
    have hplus : (Lexeme.fixed .plus).Legible := Lexeme.legible_fixed rfl
    simpa [chain, lexemes, Term.lexemes, Factor.lexemes, SumSign.kind, or_imp, forall_and] using
      ⟨ih, hplus, legible_a⟩

theorem Expression.legible_stack {f : Factor} (h : ∀ l ∈ f.lexemes, l.Legible) (n : Nat) :
    ∀ l ∈ (stack f n).lexemes, l.Legible := by
  have hs := Sum.legible_chain (s := .term _) (Term.legible_chain (t := .factor f) h n) n
  have hless : (Lexeme.fixed .less).Legible := Lexeme.legible_fixed rfl
  simpa [stack, lexemes, Sum.lexemes, Term.lexemes, Factor.lexemes, ComparisonSign.kind, or_imp,
    forall_and] using ⟨hs, hless, legible_a⟩

theorem Factor.legible_tower (n : Nat) : ∀ l ∈ (tower n).lexemes, l.Legible := by
  induction n with
  | zero => simpa [tower, lexemes] using legible_a
  | succ n ih =>
    have hs := Expression.legible_stack ih n
    have hl : (Lexeme.fixed .leftParen).Legible := Lexeme.legible_fixed rfl
    have hr : (Lexeme.fixed .rightParen).Legible := Lexeme.legible_fixed rfl
    simpa [tower, lexemes, or_imp, forall_and] using ⟨hl, hs, hr⟩

theorem Sequence.legible_tower (n : Nat) : ∀ l ∈ (tower n).lexemes, l.Legible := by
  have hs := Expression.legible_stack (Factor.legible_tower n) n
  have hw : (Lexeme.fixed .writeKw).Legible := Lexeme.legible_fixed rfl
  simpa [tower, lexemes, Statement.lexemes, or_imp, forall_and] using ⟨hw, hs⟩

end TinyLanguage.Grammar
