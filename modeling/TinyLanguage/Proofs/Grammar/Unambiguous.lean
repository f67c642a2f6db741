import TinyLanguage.Grammar.Derivation

namespace TinyLanguage.Grammar

/-- How loosely an operator binds; what is no operator binds nothing. -/
def looseness : Token.Kind → Nat
  | .star | .slash => 1
  | .plus | .minus => 2
  | .less | .equals => 3
  | _ => 4

def edge (ls : List Lexeme) : Nat :=
  (ls.getLast?.map fun l => looseness l.kind).getD 4

@[simp] theorem edge_nil : edge [] = 4 := rfl

@[simp] theorem edge_concat (ls : List Lexeme) (l : Lexeme) :
    edge (ls ++ [l]) = looseness l.kind := by
  simp [edge]

@[simp] theorem edge_append_concat (hs ls : List Lexeme) (l : Lexeme) :
    edge (hs ++ (ls ++ [l])) = looseness l.kind := by
  rw [← List.append_assoc, edge_concat]

@[simp] theorem looseness_product (sign : ProductSign) : looseness sign.kind = 1 := by
  cases sign <;> rfl

@[simp] theorem looseness_sum (sign : SumSign) : looseness sign.kind = 2 := by
  cases sign <;> rfl

@[simp] theorem looseness_comparison (sign : ComparisonSign) : looseness sign.kind = 3 := by
  cases sign <;> rfl

theorem ProductSign.kind_injective : Function.Injective ProductSign.kind := by
  rintro (_ | _) (_ | _) h <;> cases h <;> rfl

theorem SumSign.kind_injective : Function.Injective SumSign.kind := by
  rintro (_ | _) (_ | _) h <;> cases h <;> rfl

theorem ComparisonSign.kind_injective : Function.Injective ComparisonSign.kind := by
  rintro (_ | _) (_ | _) h <;> cases h <;> rfl

theorem append_cons_operand (hs ls rs : List Lexeme) (l : Lexeme) :
    hs ++ (ls ++ l :: rs) = (hs ++ ls ++ [l]) ++ rs := by
  simp

mutual

/-- Read from its end, a text that ends with a factor shows where that factor begins. -/
theorem Factor.append_inj : (f g : Factor) → {hs is : List Lexeme} →
    hs ++ f.lexemes = is ++ g.lexemes → hs = is ∧ f = g
  | .number d, g, hs, is, h => by
    cases g with
    | number d' => simpa [Factor.lexemes] using List.append_inj' h rfl
    | identifier x => simpa [Factor.lexemes] using (List.append_inj' h rfl).2
    | parens e =>
      simp only [Factor.lexemes, ← List.cons_append, ← List.append_assoc] at h
      cases (List.append_inj' h rfl).2
  | .identifier x, g, hs, is, h => by
    cases g with
    | number d => simpa [Factor.lexemes] using (List.append_inj' h rfl).2
    | identifier x' => simpa [Factor.lexemes] using List.append_inj' h rfl
    | parens e =>
      simp only [Factor.lexemes, ← List.cons_append, ← List.append_assoc] at h
      cases (List.append_inj' h rfl).2
  | .parens e, g, hs, is, h => by
    cases g with
    | number d =>
      simp only [Factor.lexemes, ← List.cons_append, ← List.append_assoc] at h
      cases (List.append_inj' h rfl).2
    | identifier x =>
      simp only [Factor.lexemes, ← List.cons_append, ← List.append_assoc] at h
      cases (List.append_inj' h rfl).2
    | parens e' =>
      simp only [Factor.lexemes, ← List.cons_append, ← List.append_assoc] at h
      have hi := (List.append_inj' h rfl).1
      rw [List.append_cons hs, List.append_cons is] at hi
      obtain ⟨hp, rfl⟩ := Expression.append_inj e e' (by simp [looseness]) (by simp [looseness]) hi
      exact ⟨(List.append_inj' hp rfl).1, rfl⟩

theorem Term.append_inj : (t u : Term) → {hs is : List Lexeme} → 1 < edge hs → 1 < edge is →
    hs ++ t.lexemes = is ++ u.lexemes → hs = is ∧ t = u
  | .factor f, .factor g, hs, is, hhs, his, h => by
    obtain ⟨hp, rfl⟩ := Factor.append_inj f g h
    exact ⟨hp, rfl⟩
  | .factor f, .more u sign g, hs, is, hhs, his, h => by
    simp only [Term.lexemes, append_cons_operand] at h
    obtain ⟨rfl, -⟩ := Factor.append_inj f g h
    simp at hhs
  | .more t sign f, .factor g, hs, is, hhs, his, h => by
    simp only [Term.lexemes, append_cons_operand] at h
    obtain ⟨rfl, -⟩ := Factor.append_inj f g h
    simp at his
  | .more t sign f, .more u sign' g, hs, is, hhs, his, h => by
    simp only [Term.lexemes, append_cons_operand] at h
    obtain ⟨hp, rfl⟩ := Factor.append_inj f g h
    obtain ⟨hq, hs⟩ := List.append_inj' hp rfl
    obtain ⟨rfl, rfl⟩ := Term.append_inj t u hhs his hq
    rw [ProductSign.kind_injective (Lexeme.fixed_inj.1 (List.head_eq_of_cons_eq hs))]
    exact ⟨rfl, rfl⟩

theorem Sum.append_inj : (s u : Sum) → {hs is : List Lexeme} → 2 < edge hs → 2 < edge is →
    hs ++ s.lexemes = is ++ u.lexemes → hs = is ∧ s = u
  | .term t, .term t', hs, is, hhs, his, h => by
    obtain ⟨hp, rfl⟩ := Term.append_inj t t' (by omega) (by omega) h
    exact ⟨hp, rfl⟩
  | .term t, .more u sign t', hs, is, hhs, his, h => by
    simp only [Sum.lexemes, append_cons_operand] at h
    obtain ⟨rfl, -⟩ := Term.append_inj t t' (by omega) (by simp) h
    simp at hhs
  | .more s sign t, .term t', hs, is, hhs, his, h => by
    simp only [Sum.lexemes, append_cons_operand] at h
    obtain ⟨rfl, -⟩ := Term.append_inj t t' (by simp) (by omega) h
    simp at his
  | .more s sign t, .more u sign' t', hs, is, hhs, his, h => by
    simp only [Sum.lexemes, append_cons_operand] at h
    obtain ⟨hp, rfl⟩ := Term.append_inj t t' (by simp) (by simp) h
    obtain ⟨hq, hs⟩ := List.append_inj' hp rfl
    obtain ⟨rfl, rfl⟩ := Sum.append_inj s u hhs his hq
    rw [SumSign.kind_injective (Lexeme.fixed_inj.1 (List.head_eq_of_cons_eq hs))]
    exact ⟨rfl, rfl⟩

theorem Expression.append_inj : (e f : Expression) → {hs is : List Lexeme} →
    3 < edge hs → 3 < edge is → hs ++ e.lexemes = is ++ f.lexemes → hs = is ∧ e = f
  | .sum s, .sum u, hs, is, hhs, his, h => by
    obtain ⟨hp, rfl⟩ := Sum.append_inj s u (by omega) (by omega) h
    exact ⟨hp, rfl⟩
  | .sum s, .comparison l sign r, hs, is, hhs, his, h => by
    simp only [Expression.lexemes, append_cons_operand] at h
    obtain ⟨rfl, -⟩ := Sum.append_inj s r (by omega) (by simp) h
    simp at hhs
  | .comparison l sign r, .sum u, hs, is, hhs, his, h => by
    simp only [Expression.lexemes, append_cons_operand] at h
    obtain ⟨rfl, -⟩ := Sum.append_inj r u (by simp) (by omega) h
    simp at his
  | .comparison l sign r, .comparison l' sign' r', hs, is, hhs, his, h => by
    simp only [Expression.lexemes, append_cons_operand] at h
    obtain ⟨hp, rfl⟩ := Sum.append_inj r r' (by simp) (by simp) h
    obtain ⟨hq, hs⟩ := List.append_inj' hp rfl
    obtain ⟨rfl, rfl⟩ := Sum.append_inj l l' (by omega) (by omega) hq
    rw [ComparisonSign.kind_injective (Lexeme.fixed_inj.1 (List.head_eq_of_cons_eq hs))]
    exact ⟨rfl, rfl⟩

end

def inExpression : Token.Kind → Bool
  | .number | .identifier | .leftParen | .rightParen => true
  | .plus | .minus | .star | .slash | .less | .equals => true
  | _ => false

mutual

theorem Factor.inExpression_lexemes : (f : Factor) → ∀ l ∈ f.lexemes, inExpression l.kind
  | .number d => by simp [Factor.lexemes, inExpression]
  | .identifier x => by simp [Factor.lexemes, inExpression]
  | .parens e => by
    have he := Expression.inExpression_lexemes e
    simpa [Factor.lexemes, or_imp, forall_and, inExpression] using he

theorem Term.inExpression_lexemes : (t : Term) → ∀ l ∈ t.lexemes, inExpression l.kind
  | .factor f => Factor.inExpression_lexemes f
  | .more t sign f => by
    have ht := Term.inExpression_lexemes t
    have hf := Factor.inExpression_lexemes f
    have hs : inExpression sign.kind := by cases sign <;> rfl
    simpa [Term.lexemes, or_imp, forall_and, hs] using ⟨ht, hf⟩

theorem Sum.inExpression_lexemes : (s : Sum) → ∀ l ∈ s.lexemes, inExpression l.kind
  | .term t => Term.inExpression_lexemes t
  | .more s sign t => by
    have hs := Sum.inExpression_lexemes s
    have ht := Term.inExpression_lexemes t
    have hk : inExpression sign.kind := by cases sign <;> rfl
    simpa [Sum.lexemes, or_imp, forall_and, hk] using ⟨hs, ht⟩

theorem Expression.inExpression_lexemes : (e : Expression) → ∀ l ∈ e.lexemes, inExpression l.kind
  | .sum s => Sum.inExpression_lexemes s
  | .comparison l sign r => by
    have hl := Sum.inExpression_lexemes l
    have hr := Sum.inExpression_lexemes r
    have hk : inExpression sign.kind := by cases sign <;> rfl
    simpa [Expression.lexemes, or_imp, forall_and, hk] using ⟨hl, hr⟩

end

def Closes (rs : List Lexeme) : Prop :=
  ∀ l ∈ rs.head?, inExpression l.kind = false

@[simp] theorem closes_nil : Closes [] := by
  simp [Closes]

@[simp] theorem closes_cons (l : Lexeme) (rs : List Lexeme) :
    Closes (l :: rs) ↔ inExpression l.kind = false := by
  simp [Closes]

theorem takeWhile_of_closes {ls rs : List Lexeme} (hl : ∀ l ∈ ls, inExpression l.kind)
    (hr : Closes rs) : (ls ++ rs).takeWhile (fun l => inExpression l.kind) = ls := by
  rw [List.takeWhile_append_of_pos hl]
  cases rs with
  | nil => simp
  | cons r rs => simp [(closes_cons r rs).1 hr]

theorem Expression.append_inj_of_closes {e f : Expression} {rs rs' : List Lexeme}
    (hr : Closes rs) (hr' : Closes rs') (h : e.lexemes ++ rs = f.lexemes ++ rs') :
    e = f ∧ rs = rs' := by
  have he : e.lexemes = f.lexemes := by
    rw [← takeWhile_of_closes e.inExpression_lexemes hr, h,
      takeWhile_of_closes f.inExpression_lexemes hr']
  have hi : ([] : List Lexeme) = [] ∧ e = f :=
    Expression.append_inj e f (by simp) (by simp) he
  exact ⟨hi.2, (List.append_inj h (congrArg List.length he)).2⟩

mutual

/-- What follows a statement cannot be taken for a part of it. -/
theorem Statement.append_inj : (s u : Statement) → {rs rs' : List Lexeme} →
    Closes rs → Closes rs' → s.lexemes ++ rs = u.lexemes ++ rs' → s = u ∧ rs = rs'
  | .ifThen c t, u, rs, rs', hr, hr', h => by
    cases u with
    | ifThen c' t' =>
      simp only [Statement.lexemes, List.cons_append, List.append_assoc, List.nil_append,
        List.cons.injEq, true_and] at h
      obtain ⟨rfl, ht⟩ := Expression.append_inj_of_closes (by simp [inExpression])
        (by simp [inExpression]) h
      obtain ⟨rfl, he⟩ := Sequence.append_inj t t' (by simp [inExpression])
        (by simp [inExpression]) (by simp) (by simp) (List.tail_eq_of_cons_eq ht)
      exact ⟨rfl, List.tail_eq_of_cons_eq he⟩
    | ifThenElse c' t' e' =>
      simp only [Statement.lexemes, List.cons_append, List.append_assoc, List.nil_append,
        List.cons.injEq, true_and] at h
      obtain ⟨rfl, ht⟩ := Expression.append_inj_of_closes (by simp [inExpression])
        (by simp [inExpression]) h
      obtain ⟨rfl, he⟩ := Sequence.append_inj t t' (by simp [inExpression])
        (by simp [inExpression]) (by simp) (by simp) (List.tail_eq_of_cons_eq ht)
      simp at he
    | _ => simp [Statement.lexemes] at h
  | .ifThenElse c t e, u, rs, rs', hr, hr', h => by
    cases u with
    | ifThen c' t' =>
      simp only [Statement.lexemes, List.cons_append, List.append_assoc, List.nil_append,
        List.cons.injEq, true_and] at h
      obtain ⟨rfl, ht⟩ := Expression.append_inj_of_closes (by simp [inExpression])
        (by simp [inExpression]) h
      obtain ⟨rfl, he⟩ := Sequence.append_inj t t' (by simp [inExpression])
        (by simp [inExpression]) (by simp) (by simp) (List.tail_eq_of_cons_eq ht)
      simp at he
    | ifThenElse c' t' e' =>
      simp only [Statement.lexemes, List.cons_append, List.append_assoc, List.nil_append,
        List.cons.injEq, true_and] at h
      obtain ⟨rfl, ht⟩ := Expression.append_inj_of_closes (by simp [inExpression])
        (by simp [inExpression]) h
      obtain ⟨rfl, he⟩ := Sequence.append_inj t t' (by simp [inExpression])
        (by simp [inExpression]) (by simp) (by simp) (List.tail_eq_of_cons_eq ht)
      obtain ⟨rfl, hs⟩ := Sequence.append_inj e e' (by simp [inExpression])
        (by simp [inExpression]) (by simp) (by simp) (List.tail_eq_of_cons_eq he)
      exact ⟨rfl, List.tail_eq_of_cons_eq hs⟩
    | _ => simp [Statement.lexemes] at h
  | .repeatUntil b c, u, rs, rs', hr, hr', h => by
    cases u with
    | repeatUntil b' c' =>
      simp only [Statement.lexemes, List.cons_append, List.append_assoc, List.cons.injEq,
        true_and] at h
      obtain ⟨rfl, hc⟩ := Sequence.append_inj b b' (by simp [inExpression])
        (by simp [inExpression]) (by simp) (by simp) h
      obtain ⟨rfl, rfl⟩ := Expression.append_inj_of_closes hr hr' (List.tail_eq_of_cons_eq hc)
      exact ⟨rfl, rfl⟩
    | _ => simp [Statement.lexemes] at h
  | .assign x e, u, rs, rs', hr, hr', h => by
    cases u with
    | assign x' e' =>
      simp only [Statement.lexemes, List.cons_append, List.cons.injEq, Lexeme.mk.injEq,
        true_and] at h
      obtain ⟨rfl, he⟩ := h
      obtain ⟨rfl, rfl⟩ := Expression.append_inj_of_closes hr hr' he
      exact ⟨rfl, rfl⟩
    | _ => simp [Statement.lexemes] at h
  | .read x, u, rs, rs', hr, hr', h => by
    cases u with
    | read x' => simpa [Statement.lexemes] using h
    | _ => simp [Statement.lexemes] at h
  | .write e, u, rs, rs', hr, hr', h => by
    cases u with
    | write e' =>
      simp only [Statement.lexemes, List.cons_append, List.cons.injEq, true_and] at h
      obtain ⟨rfl, rfl⟩ := Expression.append_inj_of_closes hr hr' h
      exact ⟨rfl, rfl⟩
    | _ => simp [Statement.lexemes] at h

theorem Sequence.append_inj : (q u : Sequence) → {rs rs' : List Lexeme} →
    Closes rs → Closes rs' → rs.head? ≠ some (.fixed .semicolon) →
    rs'.head? ≠ some (.fixed .semicolon) → q.lexemes ++ rs = u.lexemes ++ rs' → q = u ∧ rs = rs'
  | .last s, .last s', rs, rs', hr, hr', hn, hn', h => by
    obtain ⟨rfl, rfl⟩ := Statement.append_inj s s' hr hr' h
    exact ⟨rfl, rfl⟩
  | .last s, .cons s' q, rs, rs', hr, hr', hn, hn', h => by
    simp only [Sequence.lexemes, List.append_assoc, List.cons_append] at h
    obtain ⟨-, rfl⟩ := Statement.append_inj s s' hr (by simp [inExpression]) h
    simp at hn
  | .cons s q, .last s', rs, rs', hr, hr', hn, hn', h => by
    simp only [Sequence.lexemes, List.append_assoc, List.cons_append] at h
    obtain ⟨-, rfl⟩ := Statement.append_inj s s' (by simp [inExpression]) hr' h
    simp at hn'
  | .cons s q, .cons s' q', rs, rs', hr, hr', hn, hn', h => by
    simp only [Sequence.lexemes, List.append_assoc, List.cons_append] at h
    obtain ⟨rfl, hq⟩ := Statement.append_inj s s' (by simp [inExpression])
      (by simp [inExpression]) h
    obtain ⟨rfl, rfl⟩ := Sequence.append_inj q q' hr hr' hn hn' (List.tail_eq_of_cons_eq hq)
    exact ⟨rfl, rfl⟩

end

/-- The grammar is unambiguous: a program has one derivation. -/
theorem Sequence.lexemes_injective : Function.Injective Sequence.lexemes := by
  intro q u h
  have hi : q = u ∧ ([] : List Lexeme) = [] :=
    Sequence.append_inj q u (by simp) (by simp) (by simp) (by simp) (by simpa using h)
  exact hi.1

end TinyLanguage.Grammar
