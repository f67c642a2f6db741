import TinyLanguage.Proofs.Grammar.Yield
import TinyLanguage.Proofs.Tree.Recursion

namespace TinyLanguage.Grammar

/-- The lexemes are those of the tokens, with parentheses around tokens for which the expression is
yielded. -/
def Wraps (z : Expr Span) (ts : List Token) (ls : List Lexeme) : Prop :=
  ∃ (e : Expression) (before us behind : List Token), e.Yields us z ∧
    ts = before ++ (us ++ behind) ∧ ls = before.map Token.lexeme ++ .fixed .leftParen ::
      (us.map Token.lexeme ++ .fixed .rightParen :: behind.map Token.lexeme)

section

variable {z : Expr Span} {ts us : List Token} {ls ms : List Lexeme} {o : Token} {l : Lexeme}

theorem wraps_self {e : Expression} (he : e.Yields ts z) :
    Wraps z ts (Factor.lexemes (.parens e)) :=
  ⟨e, [], ts, [], he, by simp, by simp [Factor.lexemes, he.lexemes]⟩

theorem Wraps.left (h : Wraps z ts ls) (ho : l = o.lexeme) (hus : ms = us.map Token.lexeme) :
    Wraps z (ts ++ o :: us) (ls ++ l :: ms) := by
  obtain ⟨e, before, vs, behind, he, rfl, rfl⟩ := h
  subst ho hus
  exact ⟨e, before, vs, behind ++ o :: us, he, by simp, by simp⟩

theorem Wraps.right (h : Wraps z us ms) (ho : l = o.lexeme) (hts : ls = ts.map Token.lexeme) :
    Wraps z (ts ++ o :: us) (ls ++ l :: ms) := by
  obtain ⟨e, before, vs, behind, he, rfl, rfl⟩ := h
  subst ho hts
  exact ⟨e, ts ++ o :: before, vs, behind, he, by simp, by simp⟩

theorem Wraps.cons (h : Wraps z us ms) (ho : l = o.lexeme) : Wraps z (o :: us) (l :: ms) :=
  @Wraps.right z [] us [] ms o l h ho rfl

theorem Wraps.close (h : Wraps z ts ls) (ho : l = o.lexeme) : Wraps z (ts ++ [o]) (ls ++ [l]) :=
  h.left ho rfl

theorem holds_leaf {x z : Expr Span} (hx : x.children = [])
    (h : (Node.expression x).Holds (.expression z)) : z = x := by
  simpa [Node.children, hx, Node.next?] using h.cases

theorem holds_join {op : Operator} {x y z : Expr Span}
    (h : (Node.expression (.join op x y)).Holds (.expression z)) :
    z = .join op x y ∨ (Node.expression x).Holds (.expression z) ∨
      (Node.expression y).Holds (.expression z) := by
  rcases h.cases with h | ⟨c, hc, h⟩ | ⟨c, hc, -⟩
  · exact .inl (Node.expression.inj h)
  · simp only [Expr.join, Node.children, Expr.children, List.mem_cons, List.not_mem_nil,
      or_false] at hc
    rcases hc with rfl | rfl
    · exact .inr (.inl h)
    · exact .inr (.inr h)
  · cases hc

end

mutual

/-- Parentheses around an expression within a derivation leave its tree as it is. -/
theorem Factor.Yields.exists_wrapped : {f : Factor} → {ts : List Token} → {x z : Expr Span} →
    f.Yields ts x → (Node.expression x).Holds (.expression z) →
      ∃ g : Factor, g.tree = f.tree ∧ Wraps z ts g.lexemes
  | _, _, _, _, .number ht, h => by
    obtain rfl := holds_leaf rfl h
    exact ⟨.parens (.sum (.term (.factor _))), rfl, wraps_self (.sum (.term (.factor (.number ht))))⟩
  | _, _, _, _, .identifier ht, h => by
    obtain rfl := holds_leaf rfl h
    exact ⟨.parens (.sum (.term (.factor _))), rfl,
      wraps_self (.sum (.term (.factor (.identifier ht))))⟩
  | _, _, _, _, .parens hl he hr, h => by
    obtain ⟨e', htree, hwraps⟩ := Expression.Yields.exists_wrapped he h
    refine ⟨.parens e', htree, ?_⟩
    have hl := Token.lexeme_of_kind hl rfl
    have hr := Token.lexeme_of_kind hr rfl
    exact (hwraps.close hr.symm).cons hl.symm

theorem Term.Yields.exists_wrapped : {t : Term} → {ts : List Token} → {x z : Expr Span} →
    t.Yields ts x → (Node.expression x).Holds (.expression z) →
      ∃ u : Term, u.tree = t.tree ∧ Wraps z ts u.lexemes
  | _, _, _, _, .factor hf, h => by
    obtain ⟨g, htree, hwraps⟩ := Factor.Yields.exists_wrapped hf h
    exact ⟨.factor g, htree, hwraps⟩
  | _, _, _, _, @Term.Yields.more t sign f _ _ _ _ _ ht ho hf, h => by
    rcases holds_join h with rfl | h | h
    · exact ⟨.factor (.parens (.sum (.term (.more t sign f)))), rfl,
        wraps_self (.sum (.term (.more ht ho hf)))⟩
    · obtain ⟨u, htree, hwraps⟩ := Term.Yields.exists_wrapped ht h
      exact ⟨.more u sign f, by simp only [Term.tree, htree],
        hwraps.left (lexeme_of_product ho).symm hf.lexemes⟩
    · obtain ⟨g, htree, hwraps⟩ := Factor.Yields.exists_wrapped hf h
      exact ⟨.more t sign g, by simp only [Term.tree, htree],
        hwraps.right (lexeme_of_product ho).symm ht.lexemes⟩

theorem Sum.Yields.exists_wrapped : {s : Sum} → {ts : List Token} → {x z : Expr Span} →
    s.Yields ts x → (Node.expression x).Holds (.expression z) →
      ∃ u : Sum, u.tree = s.tree ∧ Wraps z ts u.lexemes
  | _, _, _, _, .term ht, h => by
    obtain ⟨u, htree, hwraps⟩ := Term.Yields.exists_wrapped ht h
    exact ⟨.term u, htree, hwraps⟩
  | _, _, _, _, @Sum.Yields.more s sign t _ _ _ _ _ hs ho ht, h => by
    rcases holds_join h with rfl | h | h
    · exact ⟨.term (.factor (.parens (.sum (.more s sign t)))), rfl,
        wraps_self (.sum (.more hs ho ht))⟩
    · obtain ⟨u, htree, hwraps⟩ := Sum.Yields.exists_wrapped hs h
      exact ⟨.more u sign t, by simp only [Sum.tree, htree],
        hwraps.left (lexeme_of_sum ho).symm ht.lexemes⟩
    · obtain ⟨u, htree, hwraps⟩ := Term.Yields.exists_wrapped ht h
      exact ⟨.more s sign u, by simp only [Sum.tree, htree],
        hwraps.right (lexeme_of_sum ho).symm hs.lexemes⟩

theorem Expression.Yields.exists_wrapped : {e : Expression} → {ts : List Token} →
    {x z : Expr Span} → e.Yields ts x → (Node.expression x).Holds (.expression z) →
      ∃ e' : Expression, e'.tree = e.tree ∧ Wraps z ts e'.lexemes
  | _, _, _, _, .sum hs, h => by
    obtain ⟨u, htree, hwraps⟩ := Sum.Yields.exists_wrapped hs h
    exact ⟨.sum u, htree, hwraps⟩
  | _, _, _, _, @Expression.Yields.comparison l sign r _ _ _ _ _ hl ho hr, h => by
    rcases holds_join h with rfl | h | h
    · exact ⟨.sum (.term (.factor (.parens (.comparison l sign r)))), rfl,
        wraps_self (.comparison hl ho hr)⟩
    · obtain ⟨u, htree, hwraps⟩ := Sum.Yields.exists_wrapped hl h
      exact ⟨.comparison u sign r, by simp only [Expression.tree, htree],
        hwraps.left (lexeme_of_comparison ho).symm hr.lexemes⟩
    · obtain ⟨u, htree, hwraps⟩ := Sum.Yields.exists_wrapped hr h
      exact ⟨.comparison l sign u, by simp only [Expression.tree, htree],
        hwraps.right (lexeme_of_comparison ho).symm hl.lexemes⟩

end

mutual

theorem Statement.Yields.exists_wrapped : {s : Statement} → {ts : List Token} →
    {x : TinyLanguage.Statement Span} → {z : Expr Span} → s.Yields ts x →
    (∃ c ∈ x.children, c.Holds (.expression z)) →
      ∃ s' : Statement, s'.tree = s.tree ∧ Wraps z ts s'.lexemes
  | _, _, _, _, @Statement.Yields.ifThen c t k k₁ k₂ ts us x b hk hc hk₁ ht hk₂, h => by
    have hk := Token.lexeme_of_kind hk rfl
    have hk₁ := Token.lexeme_of_kind hk₁ rfl
    have hk₂ := Token.lexeme_of_kind hk₂ rfl
    simp only [TinyLanguage.Statement.children, List.mem_cons, List.not_mem_nil, or_false] at h
    obtain ⟨_, rfl | rfl, h⟩ := h
    · obtain ⟨c', htree, hwraps⟩ := hc.exists_wrapped h
      have hrest : t.lexemes ++ [.fixed .endKw] = (us ++ [k₂]).map Token.lexeme := by
        simp [ht.lexemes, hk₂]
      exact ⟨.ifThen c' t, by simp only [Statement.tree, htree],
        (hwraps.left hk₁.symm hrest).cons hk.symm⟩
    · obtain ⟨t', htree, hwraps⟩ := Sequence.Yields.exists_wrapped ht h
      exact ⟨.ifThen c t', by simp only [Statement.tree, htree],
        ((hwraps.close hk₂.symm).right hk₁.symm hc.lexemes).cons hk.symm⟩
  | _, _, _, _, @Statement.Yields.ifThenElse c t e k k₁ k₂ k₃ ts us vs x b b' hk hc hk₁ ht hk₂ he
      hk₃, h => by
    have hk := Token.lexeme_of_kind hk rfl
    have hk₁ := Token.lexeme_of_kind hk₁ rfl
    have hk₂ := Token.lexeme_of_kind hk₂ rfl
    have hk₃ := Token.lexeme_of_kind hk₃ rfl
    simp only [TinyLanguage.Statement.children, List.mem_cons, List.not_mem_nil, or_false] at h
    obtain ⟨_, rfl | rfl | rfl, h⟩ := h
    · obtain ⟨c', htree, hwraps⟩ := hc.exists_wrapped h
      have hrest : t.lexemes ++ .fixed .elseKw :: (e.lexemes ++ [.fixed .endKw]) =
          (us ++ k₂ :: (vs ++ [k₃])).map Token.lexeme := by
        simp [ht.lexemes, he.lexemes, hk₂, hk₃]
      exact ⟨.ifThenElse c' t e, by simp only [Statement.tree, htree],
        (hwraps.left hk₁.symm hrest).cons hk.symm⟩
    · obtain ⟨t', htree, hwraps⟩ := Sequence.Yields.exists_wrapped ht h
      have hrest : e.lexemes ++ [.fixed .endKw] = (vs ++ [k₃]).map Token.lexeme := by
        simp [he.lexemes, hk₃]
      exact ⟨.ifThenElse c t' e, by simp only [Statement.tree, htree],
        ((hwraps.left hk₂.symm hrest).right hk₁.symm hc.lexemes).cons hk.symm⟩
    · obtain ⟨e', htree, hwraps⟩ := Sequence.Yields.exists_wrapped he h
      exact ⟨.ifThenElse c t e', by simp only [Statement.tree, htree],
        (((hwraps.close hk₃.symm).right hk₂.symm ht.lexemes).right hk₁.symm hc.lexemes).cons hk.symm⟩
  | _, _, _, _, @Statement.Yields.repeatUntil q c k k₁ ts us b x hk hq hk₁ hc, h => by
    have hk := Token.lexeme_of_kind hk rfl
    have hk₁ := Token.lexeme_of_kind hk₁ rfl
    simp only [TinyLanguage.Statement.children, List.mem_cons, List.not_mem_nil, or_false] at h
    obtain ⟨_, rfl | rfl, h⟩ := h
    · obtain ⟨q', htree, hwraps⟩ := Sequence.Yields.exists_wrapped hq h
      exact ⟨.repeatUntil q' c, by simp only [Statement.tree, htree],
        (hwraps.left hk₁.symm hc.lexemes).cons hk.symm⟩
    · obtain ⟨c', htree, hwraps⟩ := hc.exists_wrapped h
      exact ⟨.repeatUntil q c', by simp only [Statement.tree, htree],
        (hwraps.right hk₁.symm hq.lexemes).cons hk.symm⟩
  | _, _, _, _, @Statement.Yields.assign e t k ts x ht hk he, h => by
    have hk := Token.lexeme_of_kind hk rfl
    simp only [TinyLanguage.Statement.children, List.mem_singleton, exists_eq_left] at h
    obtain ⟨e', htree, hwraps⟩ := he.exists_wrapped h
    exact ⟨.assign t.text e', by simp only [Statement.tree, htree],
      (hwraps.cons hk.symm).cons (lexeme_of_identifier ht).symm⟩
  | _, _, _, _, .read hk ht, h => by
    obtain ⟨_, hc, -⟩ := h
    cases hc
  | _, _, _, _, .write hk he, h => by
    have hk := Token.lexeme_of_kind hk rfl
    simp only [TinyLanguage.Statement.children, List.mem_singleton, exists_eq_left] at h
    obtain ⟨e', htree, hwraps⟩ := he.exists_wrapped h
    exact ⟨.write e', by simp only [Statement.tree, htree], hwraps.cons hk.symm⟩

theorem Sequence.Yields.exists_wrapped : {q : Sequence} → {ts : List Token} → {b : Block Span} →
    {z : Expr Span} → q.Yields ts b → (Node.statement b).Holds (.expression z) →
      ∃ q' : Sequence, q'.tree = q.tree ∧ Wraps z ts q'.lexemes
  | _, _, _, _, .last hs, h => by
    rcases h.cases with h | h | ⟨c, hc, -⟩
    · cases h
    · obtain ⟨s', htree, hwraps⟩ := Statement.Yields.exists_wrapped hs h
      exact ⟨.last s', by simp only [Sequence.tree, htree], hwraps⟩
    · cases hc
  | _, _, _, _, @Sequence.Yields.cons s q k ts us x b hs hk hq, h => by
    have hk := Token.lexeme_of_kind hk rfl
    rcases h.cases with h | h | ⟨c, hc, h⟩
    · cases h
    · obtain ⟨s', htree, hwraps⟩ := Statement.Yields.exists_wrapped hs h
      exact ⟨.cons s' q, by simp only [Sequence.tree, htree], hwraps.left hk.symm hq.lexemes⟩
    · obtain rfl := Option.some.inj hc
      obtain ⟨q', htree, hwraps⟩ := Sequence.Yields.exists_wrapped hq h
      exact ⟨.cons s q', by simp only [Sequence.tree, htree], hwraps.right hk.symm hs.lexemes⟩

end

end TinyLanguage.Grammar
