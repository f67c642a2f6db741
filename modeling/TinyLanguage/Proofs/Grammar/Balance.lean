import TinyLanguage.Proofs.Grammar.Level

namespace TinyLanguage

namespace Token.Kind

/-- Counts a further lexeme in: a closing parenthesis is the partner of the last opening one that
has none yet. -/
def pair (p : Nat × Nat) : Kind → Nat × Nat
  | .leftParen => (p.1, p.2 + 1)
  | .rightParen => if p.2 = 0 then (p.1 + 1, 0) else (p.1, p.2 - 1)
  | _ => p

/-- The numbers of closing and of opening parentheses without a partner. -/
def unpaired (ks : List Kind) : Nat × Nat :=
  ks.foldl pair (0, 0)

def behind (p q : Nat × Nat) : Nat × Nat :=
  (p.1 + (q.1 - p.2), q.2 + (p.2 - q.1))

theorem pair_of_ne {k : Kind} (hl : k ≠ .leftParen) (hr : k ≠ .rightParen) (p : Nat × Nat) :
    pair p k = p := by
  cases k <;> simp_all [pair]

theorem pair_behind (p q : Nat × Nat) (k : Kind) : pair (behind p q) k = behind p (pair q k) := by
  obtain ⟨a, b⟩ := p
  obtain ⟨c, d⟩ := q
  by_cases hl : k = .leftParen
  · subst hl
    simp only [pair, behind]
    rw [Nat.add_right_comm]
  by_cases hr : k = .rightParen
  · subst hr
    rcases Nat.eq_zero_or_pos d with rfl | hd
    · rcases Nat.lt_or_ge c b with h | h
      · have hne : b - c ≠ 0 := by omega
        simp [pair, behind, hne]
        omega
      · have hzero : b - c = 0 := by omega
        simp [pair, behind, hzero]
        omega
    · have hne : d + (b - c) ≠ 0 := by omega
      have hne' : d ≠ 0 := by omega
      simp only [pair, behind, hne, hne', ↓reduceIte, Prod.mk.injEq, true_and]
      omega
  rw [pair_of_ne hl hr, pair_of_ne hl hr]

theorem foldl_behind (p q : Nat × Nat) (ks : List Kind) :
    ks.foldl pair (behind p q) = behind p (ks.foldl pair q) := by
  induction ks generalizing q with
  | nil => rfl
  | cons k ks ih => rw [List.foldl_cons, pair_behind, ih, List.foldl_cons]

theorem unpaired_append (ks ls : List Kind) :
    unpaired (ks ++ ls) = behind (unpaired ks) (unpaired ls) := by
  have h := foldl_behind (unpaired ks) (0, 0) ls
  rw [unpaired, List.foldl_append]
  simpa [behind, unpaired] using h

@[simp] theorem unpaired_nil : unpaired [] = (0, 0) := rfl

theorem unpaired_cons (k : Kind) (ks : List Kind) :
    unpaired (k :: ks) = behind (pair (0, 0) k) (unpaired ks) :=
  unpaired_append [k] ks

theorem unpaired_cons_of_ne {k : Kind} (hl : k ≠ .leftParen) (hr : k ≠ .rightParen)
    (ks : List Kind) : unpaired (k :: ks) = unpaired ks := by
  rw [unpaired_cons, pair_of_ne hl hr]
  simp [behind]

theorem unpaired_leftParens (n : Nat) : unpaired (List.replicate n .leftParen) = (0, n) := by
  induction n with
  | zero => rfl
  | succ n ih =>
    rw [List.replicate_succ', unpaired_append, ih]
    simp [behind, unpaired, pair, Nat.add_comm]

theorem unpaired_rightParens (n : Nat) : unpaired (List.replicate n .rightParen) = (n, 0) := by
  induction n with
  | zero => rfl
  | succ n ih =>
    rw [List.replicate_succ', unpaired_append, ih]
    simp [behind, unpaired, pair]

/-- Where nothing is without a partner in the whole, what stands in front are partners. -/
theorem unpaired_of_leftParens {n : Nat} {ks : List Kind}
    (h : unpaired (List.replicate n .leftParen ++ ks) = (0, 0)) : unpaired ks = (n, 0) := by
  rw [unpaired_append, unpaired_leftParens, behind, Prod.mk.injEq] at h
  ext <;> simp only <;> omega

theorem unpaired_of_rightParens {n : Nat} {ks : List Kind}
    (h : unpaired (ks ++ List.replicate n .rightParen) = (0, 0)) : unpaired ks = (0, n) := by
  rw [unpaired_append, unpaired_rightParens, behind, Prod.mk.injEq] at h
  ext <;> simp only <;> omega

end Token.Kind

namespace Grammar

open Token.Kind

def Balanced (ls : List Lexeme) : Prop :=
  unpaired (ls.map Lexeme.kind) = (0, 0)

theorem balanced_nil : Balanced [] := rfl

theorem Balanced.append {ls ms : List Lexeme} (hl : Balanced ls) (hm : Balanced ms) :
    Balanced (ls ++ ms) := by
  rw [Balanced] at hl hm ⊢
  rw [List.map_append, unpaired_append, hl, hm]
  rfl

theorem Balanced.cons {l : Lexeme} {ls : List Lexeme} (hls : Balanced ls)
    (hl : l.kind ≠ .leftParen) (hr : l.kind ≠ .rightParen) : Balanced (l :: ls) := by
  rw [Balanced, List.map_cons, unpaired_cons_of_ne hl hr]
  exact hls

theorem Balanced.parens {ls : List Lexeme} (h : Balanced ls) :
    Balanced (.fixed .leftParen :: (ls ++ [.fixed .rightParen])) := by
  rw [Balanced] at h ⊢
  rw [List.map_cons, List.map_append, unpaired_cons, unpaired_append, h]
  rfl

mutual

theorem Factor.balanced : (f : Factor) → Balanced f.lexemes
  | .number _ | .identifier _ => rfl
  | .parens e => (Expression.balanced e).parens

theorem Term.balanced : (t : Term) → Balanced t.lexemes
  | .factor f => Factor.balanced f
  | .more t sign f => (Term.balanced t).append ((Factor.balanced f).cons
    (by cases sign <;> decide) (by cases sign <;> decide))

theorem Sum.balanced : (s : Sum) → Balanced s.lexemes
  | .term t => Term.balanced t
  | .more s sign t => (Sum.balanced s).append ((Term.balanced t).cons
    (by cases sign <;> decide) (by cases sign <;> decide))

theorem Expression.balanced : (e : Expression) → Balanced e.lexemes
  | .sum s => Sum.balanced s
  | .comparison l sign r => (Sum.balanced l).append ((Sum.balanced r).cons
    (by cases sign <;> decide) (by cases sign <;> decide))

end

mutual

theorem Statement.balanced : (s : Statement) → Balanced s.lexemes
  | .ifThen c t =>
    .cons (c.balanced.append (.cons ((Sequence.balanced t).append (.cons balanced_nil nofun nofun))
      nofun nofun)) nofun nofun
  | .ifThenElse c t e =>
    .cons (c.balanced.append (.cons ((Sequence.balanced t).append (.cons
      ((Sequence.balanced e).append (.cons balanced_nil nofun nofun)) nofun nofun)) nofun nofun))
      nofun nofun
  | .repeatUntil b c =>
    .cons ((Sequence.balanced b).append (.cons c.balanced nofun nofun)) nofun nofun
  | .assign _ e => .cons (.cons e.balanced nofun nofun) nofun nofun
  | .read _ => rfl
  | .write e => .cons e.balanced nofun nofun

theorem Sequence.balanced : (q : Sequence) → Balanced q.lexemes
  | .last s => Statement.balanced s
  | .cons s q => (Statement.balanced s).append (.cons (Sequence.balanced q) nofun nofun)

end

end Grammar

end TinyLanguage
