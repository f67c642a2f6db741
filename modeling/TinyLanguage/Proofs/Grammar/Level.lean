import TinyLanguage.Grammar.Derivation

namespace TinyLanguage.Grammar

def Term.signs : Term → Nat
  | .factor _ => 0
  | .more t _ _ => t.signs + 1

def Sum.signs : Sum → Nat
  | .term _ => 0
  | .more s _ _ => s.signs + 1

mutual

/-- The levels at which the tokens of a part stand, in order, where the part itself stands at level
`b`. What an expression holds is one level deeper, and each operator of a sum or of a product puts
itself and the operand behind it one level deeper than the operator before it. -/
def Factor.levels : Factor → Nat → List Nat
  | .number _, b | .identifier _, b => [b]
  | .parens e, b => b :: (e.levels b ++ [b])

def Term.levels : Term → Nat → List Nat
  | .factor f, b => f.levels b
  | .more t _ f, b => t.levels b ++ (b + t.signs + 1) :: f.levels (b + t.signs + 1)

def Sum.levels : Sum → Nat → List Nat
  | .term t, b => t.levels b
  | .more s _ t, b => s.levels b ++ (b + s.signs + 1) :: t.levels (b + s.signs + 1)

def Expression.levels : Expression → Nat → List Nat
  | .sum s, b => s.levels (b + 1)
  | .comparison l _ r, b => l.levels (b + 1) ++ (b + 1) :: r.levels (b + 1)

end

mutual

def Statement.levels : Statement → Nat → List Nat
  | .ifThen c t, b => b :: (c.levels b ++ b :: (t.levels b ++ [b]))
  | .ifThenElse c t e, b => b :: (c.levels b ++ b :: (t.levels b ++ b :: (e.levels b ++ [b])))
  | .repeatUntil q c, b => b :: (q.levels b ++ b :: c.levels b)
  | .assign _ e, b => b :: b :: e.levels b
  | .read _, b => [b, b]
  | .write e, b => b :: e.levels b

def Sequence.levels : Sequence → Nat → List Nat
  | .last s, b => s.levels (b + 1)
  | .cons s q, b => s.levels (b + 1) ++ (b + 1) :: q.levels b

end

/-- The deepest level that a program reaches. -/
def Sequence.need (q : Sequence) : Nat :=
  (q.levels 0).foldr max 0

theorem foldr_max_le_iff {ls : List Nat} {n : Nat} : ls.foldr max 0 ≤ n ↔ ∀ l ∈ ls, l ≤ n := by
  induction ls with
  | nil => simp
  | cons l ls ih => rw [List.foldr_cons, Nat.max_le, ih, List.forall_mem_cons]

theorem Sequence.need_le_iff (q : Sequence) (n : Nat) : q.need ≤ n ↔ ∀ l ∈ q.levels 0, l ≤ n :=
  foldr_max_le_iff

mutual

@[simp] theorem Factor.length_levels : (f : Factor) → (b : Nat) →
    (f.levels b).length = f.lexemes.length
  | .number _, _ | .identifier _, _ => rfl
  | .parens e, b => by simp [Factor.levels, Factor.lexemes, Expression.length_levels e]

@[simp] theorem Term.length_levels : (t : Term) → (b : Nat) →
    (t.levels b).length = t.lexemes.length
  | .factor f, b => Factor.length_levels f b
  | .more t _ f, b => by
    simp [Term.levels, Term.lexemes, Term.length_levels t, Factor.length_levels f]

@[simp] theorem Sum.length_levels : (s : Sum) → (b : Nat) →
    (s.levels b).length = s.lexemes.length
  | .term t, b => Term.length_levels t b
  | .more s _ t, b => by
    simp [Sum.levels, Sum.lexemes, Sum.length_levels s, Term.length_levels t]

@[simp] theorem Expression.length_levels : (e : Expression) → (b : Nat) →
    (e.levels b).length = e.lexemes.length
  | .sum s, b => Sum.length_levels s (b + 1)
  | .comparison l _ r, b => by
    simp [Expression.levels, Expression.lexemes, Sum.length_levels l, Sum.length_levels r]

end

mutual

@[simp] theorem Statement.length_levels : (s : Statement) → (b : Nat) →
    (s.levels b).length = s.lexemes.length
  | .ifThen c t, b => by simp [Statement.levels, Statement.lexemes, Sequence.length_levels t]
  | .ifThenElse c t e, b => by
    simp [Statement.levels, Statement.lexemes, Sequence.length_levels t, Sequence.length_levels e]
  | .repeatUntil q c, b => by
    simp [Statement.levels, Statement.lexemes, Sequence.length_levels q]
  | .assign _ e, b => by simp [Statement.levels, Statement.lexemes]
  | .read _, b => rfl
  | .write e, b => by simp [Statement.levels, Statement.lexemes]

@[simp] theorem Sequence.length_levels : (q : Sequence) → (b : Nat) →
    (q.levels b).length = q.lexemes.length
  | .last s, b => Statement.length_levels s (b + 1)
  | .cons s q, b => by
    simp [Sequence.levels, Sequence.lexemes, Statement.length_levels s, Sequence.length_levels q]

end

mutual

/-- Where a part stands shifts the levels of all its tokens. -/
theorem Factor.levels_add : (f : Factor) → (b k : Nat) →
    f.levels (b + k) = (f.levels b).map (· + k)
  | .number _, _, _ | .identifier _, _, _ => rfl
  | .parens e, b, k => by simp [Factor.levels, Expression.levels_add e b k]

theorem Term.levels_add : (t : Term) → (b k : Nat) → t.levels (b + k) = (t.levels b).map (· + k)
  | .factor f, b, k => Factor.levels_add f b k
  | .more t _ f, b, k => by
    have hb : b + k + t.signs + 1 = b + t.signs + 1 + k := by omega
    simp [Term.levels, hb, Term.levels_add t b k, Factor.levels_add f (b + t.signs + 1) k]

theorem Sum.levels_add : (s : Sum) → (b k : Nat) → s.levels (b + k) = (s.levels b).map (· + k)
  | .term t, b, k => Term.levels_add t b k
  | .more s _ t, b, k => by
    have hb : b + k + s.signs + 1 = b + s.signs + 1 + k := by omega
    simp [Sum.levels, hb, Sum.levels_add s b k, Term.levels_add t (b + s.signs + 1) k]

theorem Expression.levels_add : (e : Expression) → (b k : Nat) →
    e.levels (b + k) = (e.levels b).map (· + k)
  | .sum s, b, k => by
    rw [Expression.levels, Nat.add_right_comm, Sum.levels_add s (b + 1) k, Expression.levels]
  | .comparison l _ r, b, k => by
    simp [Expression.levels, Nat.add_right_comm b k 1, Sum.levels_add l (b + 1) k,
      Sum.levels_add r (b + 1) k]

end

mutual

theorem Statement.levels_add : (s : Statement) → (b k : Nat) →
    s.levels (b + k) = (s.levels b).map (· + k)
  | .ifThen c t, b, k => by
    simp [Statement.levels, c.levels_add b k, Sequence.levels_add t b k]
  | .ifThenElse c t e, b, k => by
    simp [Statement.levels, c.levels_add b k, Sequence.levels_add t b k,
      Sequence.levels_add e b k]
  | .repeatUntil q c, b, k => by
    simp [Statement.levels, Sequence.levels_add q b k, c.levels_add b k]
  | .assign _ e, b, k | .write e, b, k => by simp [Statement.levels, e.levels_add b k]
  | .read _, _, _ => rfl

theorem Sequence.levels_add : (q : Sequence) → (b k : Nat) →
    q.levels (b + k) = (q.levels b).map (· + k)
  | .last s, b, k => by
    rw [Sequence.levels, Nat.add_right_comm, Statement.levels_add s (b + 1) k, Sequence.levels]
  | .cons s q, b, k => by
    simp [Sequence.levels, Nat.add_right_comm b k 1, Statement.levels_add s (b + 1) k,
      Sequence.levels_add q b k]

end

theorem Statement.need_le {s : Statement} {base limit : Nat}
    (h : ∀ l ∈ s.levels (base + 1), l ≤ limit) : Sequence.need (.last s) ≤ limit := by
  rw [Sequence.need_le_iff]
  intro l hl
  rw [Nat.add_comm, s.levels_add, List.forall_mem_map] at h
  exact Nat.le_trans (Nat.le_add_right l base) (h l hl)

theorem Factor.exists_levels (f : Factor) (b : Nat) : ∃ ls, f.levels b = b :: ls := by
  cases f <;> exact ⟨_, rfl⟩

theorem Term.exists_levels : (t : Term) → (b : Nat) → ∃ ls, t.levels b = b :: ls
  | .factor f, b => Factor.exists_levels f b
  | .more t _ f, b => by
    obtain ⟨ls, hl⟩ := Term.exists_levels t b
    exact ⟨_, by rw [Term.levels, hl, List.cons_append]⟩

theorem Sum.exists_levels : (s : Sum) → (b : Nat) → ∃ ls, s.levels b = b :: ls
  | .term t, b => Term.exists_levels t b
  | .more s _ t, b => by
    obtain ⟨ls, hl⟩ := Sum.exists_levels s b
    exact ⟨_, by rw [Sum.levels, hl, List.cons_append]⟩

theorem Expression.exists_levels : (e : Expression) → (b : Nat) →
    ∃ ls, e.levels b = (b + 1) :: ls
  | .sum s, b => Sum.exists_levels s (b + 1)
  | .comparison l _ r, b => by
    obtain ⟨ls, hl⟩ := Sum.exists_levels l (b + 1)
    exact ⟨_, by rw [Expression.levels, hl, List.cons_append]⟩

theorem Statement.exists_levels (s : Statement) (b : Nat) : ∃ ls, s.levels b = b :: ls := by
  cases s <;> exact ⟨_, rfl⟩

theorem Sequence.exists_levels : (q : Sequence) → (b : Nat) → ∃ ls, q.levels b = (b + 1) :: ls
  | .last s, b => s.exists_levels (b + 1)
  | .cons s _, b => by
    obtain ⟨ls, hl⟩ := s.exists_levels (b + 1)
    exact ⟨_, by rw [Sequence.levels, hl, List.cons_append]⟩

theorem Term.signs_lt_length : (t : Term) → t.signs < t.lexemes.length
  | .factor f => by cases f <;> simp [Term.signs, Term.lexemes, Factor.lexemes]
  | .more t _ f => by
    have ht := Term.signs_lt_length t
    simp only [Term.signs, Term.lexemes, List.length_append, List.length_cons]
    omega

theorem Sum.signs_lt_length : (s : Sum) → s.signs < s.lexemes.length
  | .term t => Nat.zero_lt_of_lt t.signs_lt_length
  | .more s _ t => by
    have hs := Sum.signs_lt_length s
    simp only [Sum.signs, Sum.lexemes, List.length_append, List.length_cons]
    omega

mutual

/-- Each token takes the parts around it down by less than one level. -/
theorem Factor.levels_lt : (f : Factor) → (b : Nat) → ∀ l ∈ f.levels b, l < b + f.lexemes.length
  | .number _, b | .identifier _, b => by simp [Factor.levels, Factor.lexemes]
  | .parens e, b => by
    intro l hl
    have he := Expression.levels_le e b
    simp only [Factor.levels, List.mem_cons, List.mem_append, List.not_mem_nil, or_false] at hl
    simp only [Factor.lexemes, List.length_cons, List.length_append, List.length_nil]
    rcases hl with rfl | hl | rfl
    · omega
    · have := he l hl
      omega
    · omega

theorem Term.levels_lt : (t : Term) → (b : Nat) → ∀ l ∈ t.levels b, l < b + t.lexemes.length
  | .factor f, b => Factor.levels_lt f b
  | .more t _ f, b => by
    intro l hl
    have ht := Term.levels_lt t b
    have hf := Factor.levels_lt f (b + t.signs + 1)
    have hs := t.signs_lt_length
    simp only [Term.levels, List.mem_append, List.mem_cons] at hl
    simp only [Term.lexemes, List.length_append, List.length_cons]
    rcases hl with hl | rfl | hl
    · have := ht l hl
      omega
    · omega
    · have := hf l hl
      omega

theorem Sum.levels_lt : (s : Sum) → (b : Nat) → ∀ l ∈ s.levels b, l < b + s.lexemes.length
  | .term t, b => Term.levels_lt t b
  | .more s _ t, b => by
    intro l hl
    have hs := Sum.levels_lt s b
    have ht := Term.levels_lt t (b + s.signs + 1)
    have hn := s.signs_lt_length
    simp only [Sum.levels, List.mem_append, List.mem_cons] at hl
    simp only [Sum.lexemes, List.length_append, List.length_cons]
    rcases hl with hl | rfl | hl
    · have := hs l hl
      omega
    · omega
    · have := ht l hl
      omega

theorem Expression.levels_le : (e : Expression) → (b : Nat) →
    ∀ l ∈ e.levels b, l ≤ b + e.lexemes.length
  | .sum s, b => by
    intro l hl
    have hs := Sum.levels_lt s (b + 1) l hl
    simp only [Expression.lexemes]
    omega
  | .comparison l _ r, b => by
    intro n hn
    have hl := Sum.levels_lt l (b + 1)
    have hr := Sum.levels_lt r (b + 1)
    simp only [Expression.levels, List.mem_append, List.mem_cons] at hn
    simp only [Expression.lexemes, List.length_append, List.length_cons]
    rcases hn with hn | rfl | hn
    · have := hl n hn
      omega
    · omega
    · have := hr n hn
      omega

end

mutual

theorem Statement.levels_lt : (s : Statement) → (b : Nat) →
    ∀ l ∈ s.levels b, l < b + s.lexemes.length
  | .ifThen c t, b => by
    intro l hl
    have hc := c.levels_le b l
    have ht := Sequence.levels_le t b l
    simp only [Statement.levels, List.mem_cons, List.mem_append, List.not_mem_nil, or_false] at hl
    simp only [Statement.lexemes, List.length_cons, List.length_append, List.length_nil]
    grind
  | .ifThenElse c t e, b => by
    intro l hl
    have hc := c.levels_le b l
    have ht := Sequence.levels_le t b l
    have he := Sequence.levels_le e b l
    simp only [Statement.levels, List.mem_cons, List.mem_append, List.not_mem_nil, or_false] at hl
    simp only [Statement.lexemes, List.length_cons, List.length_append, List.length_nil]
    grind
  | .repeatUntil q c, b => by
    intro l hl
    have hq := Sequence.levels_le q b l
    have hc := c.levels_le b l
    simp only [Statement.levels, List.mem_cons, List.mem_append] at hl
    simp only [Statement.lexemes, List.length_cons, List.length_append]
    grind
  | .assign x e, b => by
    intro l hl
    have he := e.levels_le b l
    simp only [Statement.levels, List.mem_cons] at hl
    simp only [Statement.lexemes, List.length_cons]
    grind
  | .read x, b => by simp [Statement.levels, Statement.lexemes]
  | .write e, b => by
    intro l hl
    have he := e.levels_le b l
    simp only [Statement.levels, List.mem_cons] at hl
    simp only [Statement.lexemes, List.length_cons]
    grind

theorem Sequence.levels_le : (q : Sequence) → (b : Nat) →
    ∀ l ∈ q.levels b, l ≤ b + q.lexemes.length
  | .last s, b => by
    intro l hl
    have hs := Statement.levels_lt s (b + 1) l hl
    simp only [Sequence.lexemes]
    omega
  | .cons s q, b => by
    intro l hl
    have hs := Statement.levels_lt s (b + 1) l
    have hq := Sequence.levels_le q b l
    simp only [Sequence.levels, List.mem_append, List.mem_cons] at hl
    simp only [Sequence.lexemes, List.length_append, List.length_cons]
    grind

end

/-- No program reaches deeper than it has tokens. -/
theorem Sequence.need_le_length (q : Sequence) : q.need ≤ q.lexemes.length := by
  rw [Sequence.need_le_iff]
  intro l hl
  simpa using Sequence.levels_le q 0 l hl

end TinyLanguage.Grammar
