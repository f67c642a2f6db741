import TinyLanguage.Proofs.Grammar.Yield
import TinyLanguage.Proofs.Token.Piece

namespace TinyLanguage.Grammar

theorem lastSpan_map (f : Span → Span) {ts : List Token} (h : ts ≠ []) :
    lastSpan (ts.map (Token.mapSpan f)) = f (lastSpan ts) := by
  obtain ⟨us, t, rfl⟩ := (List.eq_nil_or_concat ts).resolve_left h
  simp [lastSpan]

section

-- The calls within a mutual block pass the hypothesis on without naming it.
set_option linter.unusedSectionVars false

variable {f : Span → Span} (hf : ∀ s t : Span, f (s.extendTo t) = (f s).extendTo (f t))

include hf

theorem map_join (op : Operator) (x y : Expr Span) :
    (Expr.join op x y).map f = .join op (x.map f) (y.map f) := by
  have hnote (z : Expr Span) : (z.map f).note = f z.note := by cases z <;> rfl
  rw [Expr.join, Expr.join, Expr.map, hf, hnote, hnote]

mutual

/-- If the tokens are put elsewhere, what a derivation yields for them goes along. -/
theorem Factor.Yields.map : {g : Factor} → {ts : List Token} → {x : Expr Span} →
    g.Yields ts x → g.Yields (ts.map (Token.mapSpan f)) (x.map f)
  | _, _, _, @Factor.Yields.number t ht => @Factor.Yields.number (t.mapSpan f) ht
  | _, _, _, @Factor.Yields.identifier t ht => @Factor.Yields.identifier (t.mapSpan f) ht
  | _, _, _, @Factor.Yields.parens e l r ts x hl he hr => by
    have h := @Factor.Yields.parens _ (l.mapSpan f) (r.mapSpan f) _ _ hl
      (Expression.Yields.map he) hr
    simpa using h

theorem Term.Yields.map : {t : Term} → {ts : List Token} → {x : Expr Span} →
    t.Yields ts x → t.Yields (ts.map (Token.mapSpan f)) (x.map f)
  | _, _, _, .factor hg => .factor (Factor.Yields.map hg)
  | _, _, _, @Term.Yields.more t sign g o ts us x y ht ho hg => by
    rw [map_join hf, List.map_append, List.map_cons]
    exact @Term.Yields.more _ sign _ (o.mapSpan f) _ _ _ _ (Term.Yields.map ht) ho
      (Factor.Yields.map hg)

theorem Sum.Yields.map : {s : Sum} → {ts : List Token} → {x : Expr Span} →
    s.Yields ts x → s.Yields (ts.map (Token.mapSpan f)) (x.map f)
  | _, _, _, .term ht => .term (Term.Yields.map ht)
  | _, _, _, @Sum.Yields.more s sign t o ts us x y hs ho ht => by
    rw [map_join hf, List.map_append, List.map_cons]
    exact @Sum.Yields.more _ sign _ (o.mapSpan f) _ _ _ _ (Sum.Yields.map hs) ho
      (Term.Yields.map ht)

theorem Expression.Yields.map : {e : Expression} → {ts : List Token} → {x : Expr Span} →
    e.Yields ts x → e.Yields (ts.map (Token.mapSpan f)) (x.map f)
  | _, _, _, .sum hs => .sum (Sum.Yields.map hs)
  | _, _, _, @Expression.Yields.comparison l sign r o ts us x y hl ho hr => by
    rw [map_join hf, List.map_append, List.map_cons]
    exact @Expression.Yields.comparison _ sign _ (o.mapSpan f) _ _ _ _ (Sum.Yields.map hl) ho
      (Sum.Yields.map hr)

end

mutual

theorem Statement.Yields.map : {s : Statement} → {ts : List Token} →
    {x : TinyLanguage.Statement Span} → s.Yields ts x →
      s.Yields (ts.map (Token.mapSpan f)) (x.map f)
  | _, _, _, @Statement.Yields.ifThen c t k k₁ k₂ ts us x b hk hc hk₁ ht hk₂ => by
    have h := @Statement.Yields.ifThen _ _ (k.mapSpan f) (k₁.mapSpan f) (k₂.mapSpan f) _ _ _ _ hk
      (hc.map hf) hk₁ (Sequence.Yields.map ht) hk₂
    simpa [TinyLanguage.Statement.map, hf] using h
  | _, _, _, @Statement.Yields.ifThenElse c t e k k₁ k₂ k₃ ts us vs x b b' hk hc hk₁ ht hk₂ he
      hk₃ => by
    have h := @Statement.Yields.ifThenElse _ _ _ (k.mapSpan f) (k₁.mapSpan f) (k₂.mapSpan f)
      (k₃.mapSpan f) _ _ _ _ _ _ hk (hc.map hf) hk₁ (Sequence.Yields.map ht) hk₂
      (Sequence.Yields.map he) hk₃
    simpa [TinyLanguage.Statement.map, hf] using h
  | _, _, _, @Statement.Yields.repeatUntil q c k k₁ ts us b x hk hq hk₁ hc => by
    have h := @Statement.Yields.repeatUntil _ _ (k.mapSpan f) (k₁.mapSpan f) _ _ _ _ hk
      (Sequence.Yields.map hq) hk₁ (hc.map hf)
    simpa [TinyLanguage.Statement.map, hf, lastSpan_map f hc.ne_nil] using h
  | _, _, _, @Statement.Yields.assign e t k ts x ht hk he => by
    have h := @Statement.Yields.assign _ (t.mapSpan f) (k.mapSpan f) _ _ ht hk (he.map hf)
    simpa [TinyLanguage.Statement.map, hf, lastSpan_map f he.ne_nil] using h
  | _, _, _, @Statement.Yields.read k t hk ht => by
    have h := @Statement.Yields.read (k.mapSpan f) (t.mapSpan f) hk ht
    simpa [TinyLanguage.Statement.map, hf] using h
  | _, _, _, @Statement.Yields.write e k ts x hk he => by
    have h := @Statement.Yields.write _ (k.mapSpan f) _ _ hk (he.map hf)
    simpa [TinyLanguage.Statement.map, hf, lastSpan_map f he.ne_nil] using h

theorem Sequence.Yields.map : {q : Sequence} → {ts : List Token} → {b : Block Span} →
    q.Yields ts b → q.Yields (ts.map (Token.mapSpan f)) (b.map f)
  | _, _, _, .last hs => .last (Statement.Yields.map hs)
  | _, _, _, @Sequence.Yields.cons s q k ts us x b hs hk hq => by
    rw [List.map_append, List.map_cons]
    exact @Sequence.Yields.cons _ _ (k.mapSpan f) _ _ _ _ (Statement.Yields.map hs) hk
      (Sequence.Yields.map hq)

end

end

end TinyLanguage.Grammar
