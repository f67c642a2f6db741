import TinyLanguage.Proofs.Grammar.Yield

namespace TinyLanguage.Grammar

open Token (Kind)

/-- Some derivation begins with tokens of these kinds, where `w` tells the lexemes of each. -/
def Opens {ι : Type} (w : ι → List Lexeme) (ks : List Kind) : Prop :=
  ∃ i, ks <+: (w i).map Lexeme.kind

abbrev Viable (ks : List Kind) : Prop :=
  Opens Sequence.lexemes ks

section

variable {ι : Type} {w : ι → List Lexeme} {ks ls : List Kind}

theorem Opens.of_append (h : Opens w (ks ++ ls)) : Opens w ks := by
  obtain ⟨i, h⟩ := h
  exact ⟨i, (List.prefix_append ks ls).trans h⟩

theorem opens_nil (i : ι) : Opens w [] :=
  ⟨i, List.nil_prefix⟩

theorem opens_self (i : ι) : Opens w ((w i).map Lexeme.kind) :=
  ⟨i, List.prefix_rfl⟩

end

theorem opens_expression_nil : Opens Expression.lexemes [] :=
  opens_nil (.sum (.term (.factor (.number "0"))))

theorem viable_nil : Viable [] :=
  opens_nil (.last (.read "x"))

section

variable {ks : List Kind}

theorem Opens.parens (h : Opens Expression.lexemes ks) :
    Opens Factor.lexemes (.leftParen :: ks) := by
  obtain ⟨e, rest, h⟩ := h
  exact ⟨.parens e, rest ++ [.rightParen], by simp [Factor.lexemes, ← h]⟩

theorem Opens.factor (h : Opens Factor.lexemes ks) : Opens Term.lexemes ks := by
  obtain ⟨f, h⟩ := h
  exact ⟨.factor f, h⟩

theorem Opens.operand (t : Term) (sign : ProductSign) (h : Opens Factor.lexemes ks) :
    Opens Term.lexemes (t.lexemes.map Lexeme.kind ++ sign.kind :: ks) := by
  obtain ⟨f, rest, h⟩ := h
  exact ⟨.more t sign f, rest, by simp [Term.lexemes, ← h]⟩

theorem Opens.term (h : Opens Term.lexemes ks) : Opens Sum.lexemes ks := by
  obtain ⟨t, h⟩ := h
  exact ⟨.term t, h⟩

theorem Opens.summand (s : Sum) (sign : SumSign) (h : Opens Term.lexemes ks) :
    Opens Sum.lexemes (s.lexemes.map Lexeme.kind ++ sign.kind :: ks) := by
  obtain ⟨t, rest, h⟩ := h
  exact ⟨.more s sign t, rest, by simp [Sum.lexemes, ← h]⟩

theorem Opens.sum (h : Opens Sum.lexemes ks) : Opens Expression.lexemes ks := by
  obtain ⟨s, h⟩ := h
  exact ⟨.sum s, h⟩

theorem Opens.comparand (l : Sum) (sign : ComparisonSign) (h : Opens Sum.lexemes ks) :
    Opens Expression.lexemes (l.lexemes.map Lexeme.kind ++ sign.kind :: ks) := by
  obtain ⟨r, rest, h⟩ := h
  exact ⟨.comparison l sign r, rest, by simp [Expression.lexemes, ← h]⟩

theorem Opens.condition (h : Opens Expression.lexemes ks) :
    Opens Statement.lexemes (.ifKw :: ks) := by
  obtain ⟨c, rest, h⟩ := h
  refine ⟨.ifThen c (.last (.read "x")), rest ++ [.thenKw, .readKw, .identifier, .endKw], ?_⟩
  simp [Statement.lexemes, Sequence.lexemes, ← h]

theorem Opens.consequent (c : Expression) (h : Viable ks) :
    Opens Statement.lexemes (.ifKw :: (c.lexemes.map Lexeme.kind ++ .thenKw :: ks)) := by
  obtain ⟨t, rest, h⟩ := h
  exact ⟨.ifThen c t, rest ++ [.endKw], by simp [Statement.lexemes, ← h]⟩

theorem Opens.alternative (c : Expression) (t : Sequence) (h : Viable ks) :
    Opens Statement.lexemes (.ifKw :: (c.lexemes.map Lexeme.kind ++
      .thenKw :: (t.lexemes.map Lexeme.kind ++ .elseKw :: ks))) := by
  obtain ⟨e, rest, h⟩ := h
  exact ⟨.ifThenElse c t e, rest ++ [.endKw], by simp [Statement.lexemes, ← h]⟩

theorem Opens.body (h : Viable ks) : Opens Statement.lexemes (.repeatKw :: ks) := by
  obtain ⟨q, rest, h⟩ := h
  refine ⟨.repeatUntil q (.sum (.term (.factor (.number "0")))), rest ++ [.untilKw, .number], ?_⟩
  simp [Statement.lexemes, Expression.lexemes, Sum.lexemes, Term.lexemes, Factor.lexemes, ← h]

theorem Opens.until (q : Sequence) (h : Opens Expression.lexemes ks) :
    Opens Statement.lexemes (.repeatKw :: (q.lexemes.map Lexeme.kind ++ .untilKw :: ks)) := by
  obtain ⟨c, rest, h⟩ := h
  exact ⟨.repeatUntil q c, rest, by simp [Statement.lexemes, ← h]⟩

theorem Opens.assigned (h : Opens Expression.lexemes ks) :
    Opens Statement.lexemes (.identifier :: .becomes :: ks) := by
  obtain ⟨e, rest, h⟩ := h
  exact ⟨.assign "x" e, rest, by simp [Statement.lexemes, ← h]⟩

theorem Opens.written (h : Opens Expression.lexemes ks) :
    Opens Statement.lexemes (.writeKw :: ks) := by
  obtain ⟨e, rest, h⟩ := h
  exact ⟨.write e, rest, by simp [Statement.lexemes, ← h]⟩

theorem Opens.statement (h : Opens Statement.lexemes ks) : Viable ks := by
  obtain ⟨s, h⟩ := h
  exact ⟨.last s, h⟩

theorem Opens.next (s : Statement) (h : Viable ks) :
    Viable (s.lexemes.map Lexeme.kind ++ .semicolon :: ks) := by
  obtain ⟨q, rest, h⟩ := h
  exact ⟨.cons s q, rest, by simp [Sequence.lexemes, ← h]⟩

end

theorem Viable.ne_invalid {ks : List Kind} (h : Viable ks) : ∀ k ∈ ks, k ≠ .invalid := by
  obtain ⟨q, h⟩ := h
  intro k hk
  obtain ⟨l, hl, rfl⟩ := List.mem_map.1 (h.subset hk)
  exact q.lexemes_ne_invalid l hl

end TinyLanguage.Grammar
