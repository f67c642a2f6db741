import TinyLanguage.Proofs.Grammar.Level
import TinyLanguage.Tree.Height

namespace TinyLanguage

variable {α : Type}

theorem Expr.height_pos (e : Expr α) : 1 ≤ e.height := by
  cases e with
  | constant | identifier => exact Nat.le_refl 1
  | binary => exact Nat.le_add_right 1 _

theorem Expr.height_shape (e : Expr α) : e.shape.height = e.height := by
  induction e with
  | constant | identifier => rfl
  | binary _ _ l r ihl ihr =>
    rw [height, ← ihl, ← ihr]
    rfl

mutual

theorem Statement.height_shape : (s : Statement α) → s.shape.height = s.height
  | .ifThen _ c t => by
    rw [Statement.height, ← c.height_shape, ← Block.height_shape t]
    rfl
  | .ifThenElse _ c t e => by
    rw [Statement.height, ← c.height_shape, ← Block.height_shape t, ← Block.height_shape e]
    rfl
  | .repeatUntil _ b c => by
    rw [Statement.height, ← Block.height_shape b, ← c.height_shape]
    rfl
  | .assign _ _ e | .write _ e => by
    rw [Statement.height, ← e.height_shape]
    rfl
  | .read _ _ => rfl

theorem Block.height_shape : (b : Block α) → b.shape.height = b.height
  | .last s => Statement.height_shape s
  | .cons s b => by
    rw [Block.height, ← Statement.height_shape s, ← Block.height_shape b]
    rfl

end

namespace Grammar

theorem Term.signs_le {t : Term} {b d : Nat} (h : ∀ l ∈ t.levels b, l ≤ d) : b + t.signs ≤ d := by
  cases t with
  | factor f =>
    obtain ⟨ls, hl⟩ := Term.exists_levels (.factor f) b
    exact h b (by rw [hl]; exact List.mem_cons_self)
  | more t _ f => exact h (b + t.signs + 1) (by simp [Term.levels])

theorem Sum.signs_le {s : Sum} {b d : Nat} (h : ∀ l ∈ s.levels b, l ≤ d) : b + s.signs ≤ d := by
  cases s with
  | term t =>
    obtain ⟨ls, hl⟩ := Sum.exists_levels (.term t) b
    exact h b (by rw [hl]; exact List.mem_cons_self)
  | more s _ t => exact h (b + s.signs + 1) (by simp [Sum.levels])

theorem Expression.lt_of_levels {e : Expression} {b d : Nat} (h : ∀ l ∈ e.levels b, l ≤ d) :
    b < d := by
  obtain ⟨ls, hl⟩ := e.exists_levels b
  exact h (b + 1) (by rw [hl]; exact List.mem_cons_self)

theorem Sequence.lt_of_levels {q : Sequence} {b d : Nat} (h : ∀ l ∈ q.levels b, l ≤ d) :
    b < d := by
  obtain ⟨ls, hl⟩ := q.exists_levels b
  exact h (b + 1) (by rw [hl]; exact List.mem_cons_self)

theorem mul_self_sub_le {d b c : Nat} (h : b ≤ c) : (d - c) * (d - c) ≤ (d - b) * (d - b) :=
  Nat.mul_self_le_mul_self (Nat.sub_le_sub_left h d)

theorem mul_self_sub_succ {d b : Nat} (h : b < d) :
    (d - b) * (d - b) = (d - (b + 1)) * (d - (b + 1)) + 2 * (d - (b + 1)) + 1 := by
  obtain ⟨k, rfl⟩ := Nat.exists_eq_add_of_lt h
  have hk : b + k + 1 - b = k + 1 := by omega
  have hk' : b + k + 1 - (b + 1) = k := by omega
  rw [hk, hk']
  grind

mutual

/-- What is left of the limit `d` at level `b` bounds the tree by its square: the products, the sum
and the comparison of an expression build on one another, but spend the same levels. -/
theorem Factor.height_le : (f : Factor) → (b d : Nat) → (∀ l ∈ f.levels b, l ≤ d) →
    f.tree.height ≤ (d - b) * (d - b) + 1
  | .number _, b, d, _ | .identifier _, b, d, _ => Nat.le_add_left 1 _
  | .parens e, b, d, h => by
    have he : ∀ l ∈ e.levels b, l ≤ d := fun l hl => h l (by simp [Factor.levels, hl])
    exact Expression.height_le e b d he

theorem Term.height_le : (t : Term) → (b d : Nat) → (∀ l ∈ t.levels b, l ≤ d) →
    t.tree.height ≤ (d - b) * (d - b) + 1 + t.signs
  | .factor f, b, d, h => Factor.height_le f b d h
  | .more t _ f, b, d, h => by
    have ht := Term.height_le t b d fun l hl => h l (by simp [Term.levels, hl])
    have hf := Factor.height_le f (b + t.signs + 1) d fun l hl => h l (by simp [Term.levels, hl])
    -- The factors behind have less left than the first one, so only the signs add up.
    have hsq := mul_self_sub_le (d := d) (b := b) (c := b + t.signs + 1) (by omega)
    simp only [Term.tree, Expr.height, Term.signs]
    omega

theorem Sum.height_le : (s : Sum) → (b d : Nat) → (∀ l ∈ s.levels b, l ≤ d) →
    s.tree.height ≤ (d - b) * (d - b) + 1 + (d - b) + s.signs
  | .term t, b, d, h => by
    have ht := Term.height_le t b d h
    have hn := Term.signs_le h
    simp only [Sum.tree]
    omega
  | .more s _ t, b, d, h => by
    have hs := Sum.height_le s b d fun l hl => h l (by simp [Sum.levels, hl])
    have hlt : ∀ l ∈ t.levels (b + s.signs + 1), l ≤ d := fun l hl => h l (by simp [Sum.levels, hl])
    have ht := Term.height_le t (b + s.signs + 1) d hlt
    have hn := Term.signs_le hlt
    have hsq := mul_self_sub_le (d := d) (b := b) (c := b + s.signs + 1) (by omega)
    simp only [Sum.tree, Expr.height, Sum.signs]
    omega

theorem Expression.height_le : (e : Expression) → (b d : Nat) → (∀ l ∈ e.levels b, l ≤ d) →
    e.tree.height ≤ (d - b) * (d - b) + 1
  | .sum s, b, d, h => by
    have hs := Sum.height_le s (b + 1) d h
    have hn := Sum.signs_le h
    -- One level for the expression pays for the signs of its first product and of its sum.
    have hsq := mul_self_sub_succ (Expression.lt_of_levels h)
    simp only [Expression.tree]
    omega
  | .comparison l _ r, b, d, h => by
    have hlevels : ∀ n ∈ l.levels (b + 1), n ≤ d := fun n hn =>
      h n (by simp [Expression.levels, hn])
    have hlevels' : ∀ n ∈ r.levels (b + 1), n ≤ d := fun n hn =>
      h n (by simp [Expression.levels, hn])
    have hl := Sum.height_le l (b + 1) d hlevels
    have hr := Sum.height_le r (b + 1) d hlevels'
    have hln := Sum.signs_le hlevels
    have hrn := Sum.signs_le hlevels'
    have hsq := mul_self_sub_succ (Expression.lt_of_levels h)
    simp only [Expression.tree, Expr.height]
    omega

end

mutual

theorem Statement.height_le : (s : Statement) → (b d : Nat) → (∀ l ∈ s.levels b, l ≤ d) →
    s.tree.height ≤ (d - b) * (d - b) + 2
  | .ifThen c t, b, d, h => by
    have hc := c.height_le b d fun l hl => h l (by simp [Statement.levels, hl])
    have hlevels : ∀ l ∈ t.levels b, l ≤ d := fun l hl => h l (by simp [Statement.levels, hl])
    have ht := Sequence.height_le t b d hlevels
    have hsq := mul_self_sub_succ (Sequence.lt_of_levels hlevels)
    simp only [Statement.tree, TinyLanguage.Statement.height]
    omega
  | .ifThenElse c t e, b, d, h => by
    have hc := c.height_le b d fun l hl => h l (by simp [Statement.levels, hl])
    have hlevels : ∀ l ∈ t.levels b, l ≤ d := fun l hl => h l (by simp [Statement.levels, hl])
    have ht := Sequence.height_le t b d hlevels
    have he := Sequence.height_le e b d fun l hl => h l (by simp [Statement.levels, hl])
    have hsq := mul_self_sub_succ (Sequence.lt_of_levels hlevels)
    simp only [Statement.tree, TinyLanguage.Statement.height]
    omega
  | .repeatUntil q c, b, d, h => by
    have hlevels : ∀ l ∈ q.levels b, l ≤ d := fun l hl => h l (by simp [Statement.levels, hl])
    have hq := Sequence.height_le q b d hlevels
    have hc := c.height_le b d fun l hl => h l (by simp [Statement.levels, hl])
    have hsq := mul_self_sub_succ (Sequence.lt_of_levels hlevels)
    simp only [Statement.tree, TinyLanguage.Statement.height]
    omega
  | .assign _ e, b, d, h | .write e, b, d, h => by
    have he := e.height_le b d fun l hl => h l (by simp [Statement.levels, hl])
    simp only [Statement.tree, TinyLanguage.Statement.height]
    omega
  | .read _, b, d, _ => by
    simp only [Statement.tree, TinyLanguage.Statement.height]
    omega

theorem Sequence.height_le : (q : Sequence) → (b d : Nat) → (∀ l ∈ q.levels b, l ≤ d) →
    q.tree.height ≤ (d - (b + 1)) * (d - (b + 1)) + 2
  | .last s, b, d, h => Statement.height_le s (b + 1) d h
  | .cons s q, b, d, h => by
    have hs := Statement.height_le s (b + 1) d fun l hl => h l (by simp [Sequence.levels, hl])
    have hq := Sequence.height_le q b d fun l hl => h l (by simp [Sequence.levels, hl])
    simp only [Sequence.tree, Block.height]
    omega

end

/-- Where no expression has room, there are no statements but those that read a variable. -/
theorem Statement.height_of_levels {s : Statement} {b : Nat} (h : ∀ l ∈ s.levels b, l ≤ b) :
    s.tree.height = 1 := by
  have hroom : ∀ e : Expression, ¬∀ l ∈ e.levels b, l ∈ s.levels b := fun e he =>
    Nat.lt_irrefl b (Expression.lt_of_levels fun l hl => h l (he l hl))
  cases s with
  | ifThen c | ifThenElse c => exact absurd (fun l hl => by simp [levels, hl]) (hroom c)
  | repeatUntil _ c => exact absurd (fun l hl => by simp [levels, hl]) (hroom c)
  | assign _ e | write e => exact absurd (fun l hl => by simp [levels, hl]) (hroom e)
  | read => rfl

theorem Sequence.height_of_levels : (q : Sequence) → {b : Nat} →
    (∀ l ∈ q.levels b, l ≤ b + 1) → q.tree.height = 1
  | .last s, b, h => Statement.height_of_levels h
  | .cons s q, b, h => by
    have hs := Statement.height_of_levels (s := s) fun l hl => h l (by simp [Sequence.levels, hl])
    have hq := Sequence.height_of_levels q fun l hl => h l (by simp [Sequence.levels, hl])
    rw [Sequence.tree, Block.height, hs, hq, Nat.max_self]

end Grammar

end TinyLanguage
