import TinyLanguage.Proofs.Grammar.Level

namespace TinyLanguage.Grammar

def markFirst : List Bool → List Bool
  | [] => []
  | _ :: ms => true :: ms

mutual

/-- Which tokens of a part take a level for what they begin: the first of an expression or of a
sequence, and each operator of a sum or of a product. The part itself is not asked whether it begins
one. -/
def Factor.marks : Factor → List Bool
  | .number _ | .identifier _ => [false]
  | .parens e => false :: (markFirst e.marks ++ [false])

def Term.marks : Term → List Bool
  | .factor f => f.marks
  | .more t _ f => t.marks ++ true :: f.marks

def Sum.marks : Sum → List Bool
  | .term t => t.marks
  | .more s _ t => s.marks ++ true :: t.marks

def Expression.marks : Expression → List Bool
  | .sum s => s.marks
  | .comparison l _ r => l.marks ++ false :: r.marks

end

mutual

def Statement.marks : Statement → List Bool
  | .ifThen c t => false :: (markFirst c.marks ++ false :: (markFirst t.marks ++ [false]))
  | .ifThenElse c t e =>
    false :: (markFirst c.marks ++ false ::
      (markFirst t.marks ++ false :: (markFirst e.marks ++ [false])))
  | .repeatUntil q c => false :: (markFirst q.marks ++ false :: markFirst c.marks)
  | .assign _ e => false :: false :: markFirst e.marks
  | .read _ => [false, false]
  | .write e => false :: markFirst e.marks

def Sequence.marks : Sequence → List Bool
  | .last s => s.marks
  | .cons s q => s.marks ++ false :: q.marks

end

/-- Each token that is not marked stands no deeper than `c` or some token in front of it. -/
def Announced : Nat → List Nat → List Bool → Prop
  | c, l :: ls, m :: ms => (m = false → l ≤ c) ∧ Announced (max c l) ls ms
  | _, [], [] => True
  | _, _, _ => False

section

variable {c d l limit : Nat} {ls ls' : List Nat} {ms ms' : List Bool}

theorem Announced.mono (h : Announced c ls ms) (hcd : c ≤ d) : Announced d ls ms := by
  induction ls generalizing c d ms with
  | nil =>
    cases ms with
    | nil => trivial
    | cons m ms => exact h.elim
  | cons l ls ih =>
    cases ms with
    | nil => exact h.elim
    | cons m ms =>
      have hmax : max c l ≤ max d l := by omega
      exact ⟨fun hm => Nat.le_trans (h.1 hm) hcd, ih h.2 hmax⟩

theorem announced_nil : Announced c [] [] := trivial

theorem Announced.cons (h : l ≤ c) (hls : Announced c ls ms) :
    Announced c (l :: ls) (false :: ms) :=
  ⟨fun _ => h, hls.mono (Nat.le_max_left c l)⟩

theorem Announced.sign (h : Announced l ls ms) : Announced c (l :: ls) (true :: ms) :=
  ⟨nofun, h.mono (Nat.le_max_right c l)⟩

theorem Announced.append (h : Announced c ls ms) (h' : Announced c ls' ms') :
    Announced c (ls ++ ls') (ms ++ ms') := by
  induction ls generalizing c ms with
  | nil =>
    cases ms with
    | nil => exact h'
    | cons m ms => exact h.elim
  | cons l ls ih =>
    cases ms with
    | nil => exact h.elim
    | cons m ms => exact ⟨h.1, ih h.2 (h'.mono (Nat.le_max_left c l))⟩

/-- What is announced where its first token is, is announced anywhere once that one is marked. -/
theorem Announced.first (h : Announced l (l :: ls) ms) :
    Announced c (l :: ls) (markFirst ms) := by
  cases ms with
  | nil => exact h.elim
  | cons m ms =>
    have hrest : Announced l ls ms := by simpa using h.2
    exact hrest.sign

/-- So the first token that is deeper than a limit is marked. -/
theorem Announced.mark_eq_true (h : Announced c ls ms) (hc : c ≤ limit) {i : Nat}
    (hl : ls[i]? = some l) (hlt : limit < l)
    (hfirst : ∀ j k, j < i → ls[j]? = some k → k ≤ limit) : ms[i]? = some true := by
  induction i generalizing c ls ms with
  | zero =>
    cases ls with
    | nil => simp at hl
    | cons k ls =>
      cases ms with
      | nil => exact h.elim
      | cons m ms =>
        obtain rfl : k = l := by simpa using hl
        cases m with
        | true => rfl
        | false =>
          have hle := h.1 rfl
          omega
  | succ i ih =>
    cases ls with
    | nil => simp at hl
    | cons k ls =>
      cases ms with
      | nil => exact h.elim
      | cons m ms =>
        have hk : k ≤ limit := hfirst 0 k (Nat.succ_pos i) rfl
        exact ih h.2 (Nat.max_le.2 ⟨hc, hk⟩) hl fun j k' hj hk' =>
          hfirst (j + 1) k' (Nat.succ_lt_succ hj) hk'

end

mutual

theorem Factor.announced : (f : Factor) → (b : Nat) → Announced b (f.levels b) f.marks
  | .number _, b | .identifier _, b => announced_nil.cons (Nat.le_refl b)
  | .parens e, b =>
    .cons (Nat.le_refl b)
      (.append (Expression.announced_first e b b) (announced_nil.cons (Nat.le_refl b)))

theorem Term.announced : (t : Term) → (b : Nat) → Announced b (t.levels b) t.marks
  | .factor f, b => Factor.announced f b
  | .more t _ f, b => .append (Term.announced t b) (.sign (Factor.announced f (b + t.signs + 1)))

theorem Sum.announced : (s : Sum) → (b : Nat) → Announced b (s.levels b) s.marks
  | .term t, b => Term.announced t b
  | .more s _ t, b => .append (Sum.announced s b) (.sign (Term.announced t (b + s.signs + 1)))

theorem Expression.announced : (e : Expression) → (b : Nat) →
    Announced (b + 1) (e.levels b) e.marks
  | .sum s, b => Sum.announced s (b + 1)
  | .comparison l _ r, b =>
    .append (Sum.announced l (b + 1)) (.cons (Nat.le_refl _) (Sum.announced r (b + 1)))

theorem Expression.announced_first : (e : Expression) → (b c : Nat) →
    Announced c (e.levels b) (markFirst e.marks)
  | e, b, c => by
    obtain ⟨ls, hls⟩ := e.exists_levels b
    have h := Expression.announced e b
    rw [hls] at h ⊢
    exact h.first

end

mutual

theorem Statement.announced : (s : Statement) → (b : Nat) → Announced b (s.levels b) s.marks
  | .ifThen c t, b => by
    have hb : b ≤ b := Nat.le_refl b
    exact .cons hb (.append (c.announced_first b b)
      (.cons hb (.append (Sequence.announced_first t b b) (announced_nil.cons hb))))
  | .ifThenElse c t e, b => by
    have hb : b ≤ b := Nat.le_refl b
    exact .cons hb (.append (c.announced_first b b)
      (.cons hb (.append (Sequence.announced_first t b b)
        (.cons hb (.append (Sequence.announced_first e b b) (announced_nil.cons hb))))))
  | .repeatUntil q c, b => by
    have hb : b ≤ b := Nat.le_refl b
    exact .cons hb (.append (Sequence.announced_first q b b) (.cons hb (c.announced_first b b)))
  | .assign _ e, b => .cons (Nat.le_refl b) (.cons (Nat.le_refl b) (e.announced_first b b))
  | .read _, b => .cons (Nat.le_refl b) (announced_nil.cons (Nat.le_refl b))
  | .write e, b => .cons (Nat.le_refl b) (e.announced_first b b)

theorem Sequence.announced : (q : Sequence) → (b : Nat) →
    Announced (b + 1) (q.levels b) q.marks
  | .last s, b => Statement.announced s (b + 1)
  | .cons s q, b =>
    .append (Statement.announced s (b + 1)) (.cons (Nat.le_refl _) (Sequence.announced q b))

theorem Sequence.announced_first : (q : Sequence) → (b c : Nat) →
    Announced c (q.levels b) (markFirst q.marks)
  | q, b, c => by
    obtain ⟨ls, hls⟩ := q.exists_levels b
    have h := Sequence.announced q b
    rw [hls] at h ⊢
    exact h.first

end

end TinyLanguage.Grammar
