import TinyLanguage.Parser.Expression
import TinyLanguage.Proofs.Grammar.Level
import TinyLanguage.Proofs.Grammar.Unambiguous

namespace TinyLanguage.Grammar

def lastSpan (ts : List Token) : Span :=
  (ts.getLast?.map Token.span).getD {}

mutual

/-- The tokens that a derivation may stand for, and the tree that shows them at their places. -/
inductive Factor.Yields : Factor → List Token → Expr Span → Prop
  | number {t : Token} (ht : t.kind = .number) :
    Factor.Yields (.number t.text) [t] (.constant t.span t.text)
  | identifier {t : Token} (ht : t.kind = .identifier) :
    Factor.Yields (.identifier t.text) [t] (.identifier t.span t.text)
  | parens {e : Expression} {l r : Token} {ts : List Token} {x : Expr Span}
    (hl : l.kind = .leftParen) (he : e.Yields ts x) (hr : r.kind = .rightParen) :
    Factor.Yields (.parens e) (l :: (ts ++ [r])) x

inductive Term.Yields : Term → List Token → Expr Span → Prop
  | factor {f : Factor} {ts : List Token} {x : Expr Span} (hf : f.Yields ts x) :
    Term.Yields (.factor f) ts x
  | more {t : Term} {sign : ProductSign} {f : Factor} {o : Token} {ts us : List Token}
    {x y : Expr Span} (ht : t.Yields ts x) (ho : o.kind = sign.kind) (hf : f.Yields us y) :
    Term.Yields (.more t sign f) (ts ++ o :: us) (.join sign.operator x y)

inductive Sum.Yields : Sum → List Token → Expr Span → Prop
  | term {t : Term} {ts : List Token} {x : Expr Span} (ht : t.Yields ts x) :
    Sum.Yields (.term t) ts x
  | more {s : Sum} {sign : SumSign} {t : Term} {o : Token} {ts us : List Token}
    {x y : Expr Span} (hs : s.Yields ts x) (ho : o.kind = sign.kind) (ht : t.Yields us y) :
    Sum.Yields (.more s sign t) (ts ++ o :: us) (.join sign.operator x y)

inductive Expression.Yields : Expression → List Token → Expr Span → Prop
  | sum {s : Sum} {ts : List Token} {x : Expr Span} (hs : s.Yields ts x) :
    Expression.Yields (.sum s) ts x
  | comparison {l : Sum} {sign : ComparisonSign} {r : Sum} {o : Token} {ts us : List Token}
    {x y : Expr Span} (hl : l.Yields ts x) (ho : o.kind = sign.kind) (hr : r.Yields us y) :
    Expression.Yields (.comparison l sign r) (ts ++ o :: us) (.join sign.operator x y)

end

mutual

inductive Statement.Yields : Statement → List Token → TinyLanguage.Statement Span → Prop
  | ifThen {c : Expression} {t : Sequence} {k k₁ k₂ : Token} {ts us : List Token}
    {x : Expr Span} {b : Block Span} (hk : k.kind = .ifKw) (hc : c.Yields ts x)
    (hk₁ : k₁.kind = .thenKw) (ht : t.Yields us b) (hk₂ : k₂.kind = .endKw) :
    Statement.Yields (.ifThen c t) (k :: (ts ++ k₁ :: (us ++ [k₂])))
      (.ifThen (k.span.extendTo k₂.span) x b)
  | ifThenElse {c : Expression} {t e : Sequence} {k k₁ k₂ k₃ : Token} {ts us vs : List Token}
    {x : Expr Span} {b b' : Block Span} (hk : k.kind = .ifKw) (hc : c.Yields ts x)
    (hk₁ : k₁.kind = .thenKw) (ht : t.Yields us b) (hk₂ : k₂.kind = .elseKw)
    (he : e.Yields vs b') (hk₃ : k₃.kind = .endKw) :
    Statement.Yields (.ifThenElse c t e) (k :: (ts ++ k₁ :: (us ++ k₂ :: (vs ++ [k₃]))))
      (.ifThenElse (k.span.extendTo k₃.span) x b b')
  | repeatUntil {q : Sequence} {c : Expression} {k k₁ : Token} {ts us : List Token}
    {b : Block Span} {x : Expr Span} (hk : k.kind = .repeatKw) (hq : q.Yields ts b)
    (hk₁ : k₁.kind = .untilKw) (hc : c.Yields us x) :
    Statement.Yields (.repeatUntil q c) (k :: (ts ++ k₁ :: us))
      (.repeatUntil (k.span.extendTo (lastSpan us)) b x)
  | assign {e : Expression} {t k : Token} {ts : List Token} {x : Expr Span}
    (ht : t.kind = .identifier) (hk : k.kind = .becomes) (he : e.Yields ts x) :
    Statement.Yields (.assign t.text e) (t :: k :: ts)
      (.assign (t.span.extendTo (lastSpan ts)) t.text x)
  | read {k t : Token} (hk : k.kind = .readKw) (ht : t.kind = .identifier) :
    Statement.Yields (.read t.text) [k, t] (.read (k.span.extendTo t.span) t.text)
  | write {e : Expression} {k : Token} {ts : List Token} {x : Expr Span}
    (hk : k.kind = .writeKw) (he : e.Yields ts x) :
    Statement.Yields (.write e) (k :: ts) (.write (k.span.extendTo (lastSpan ts)) x)

inductive Sequence.Yields : Sequence → List Token → Block Span → Prop
  | last {s : Statement} {ts : List Token} {x : TinyLanguage.Statement Span}
    (hs : s.Yields ts x) : Sequence.Yields (.last s) ts (.last x)
  | cons {s : Statement} {q : Sequence} {k : Token} {ts us : List Token}
    {x : TinyLanguage.Statement Span} {b : Block Span} (hs : s.Yields ts x)
    (hk : k.kind = .semicolon) (hq : q.Yields us b) :
    Sequence.Yields (.cons s q) (ts ++ k :: us) (.cons x b)

end

theorem lexeme_of_identifier {t : Token} (h : t.kind = .identifier) :
    t.lexeme = ⟨.identifier, t.text⟩ := by
  rw [Token.lexeme, h]

theorem lexeme_of_number {t : Token} (h : t.kind = .number) : t.lexeme = ⟨.number, t.text⟩ := by
  rw [Token.lexeme, h]

theorem lexeme_of_product {t : Token} {sign : ProductSign} (h : t.kind = sign.kind) :
    t.lexeme = .fixed sign.kind :=
  Token.lexeme_of_kind h (by cases sign <;> rfl)

theorem lexeme_of_sum {t : Token} {sign : SumSign} (h : t.kind = sign.kind) :
    t.lexeme = .fixed sign.kind :=
  Token.lexeme_of_kind h (by cases sign <;> rfl)

theorem lexeme_of_comparison {t : Token} {sign : ComparisonSign} (h : t.kind = sign.kind) :
    t.lexeme = .fixed sign.kind :=
  Token.lexeme_of_kind h (by cases sign <;> rfl)

mutual

theorem Factor.Yields.lexemes : {f : Factor} → {ts : List Token} → {x : Expr Span} →
    f.Yields ts x → f.lexemes = ts.map Token.lexeme
  | _, _, _, .number ht => by simp [Factor.lexemes, lexeme_of_number ht]
  | _, _, _, .identifier ht => by simp [Factor.lexemes, lexeme_of_identifier ht]
  | _, _, _, .parens hl he hr => by
    simp [Factor.lexemes, Expression.Yields.lexemes he, Token.lexeme_of_kind hl rfl,
      Token.lexeme_of_kind hr rfl]

theorem Term.Yields.lexemes : {t : Term} → {ts : List Token} → {x : Expr Span} →
    t.Yields ts x → t.lexemes = ts.map Token.lexeme
  | _, _, _, .factor hf => Factor.Yields.lexemes hf
  | _, _, _, .more ht ho hf => by
    simp [Term.lexemes, Term.Yields.lexemes ht, lexeme_of_product ho, Factor.Yields.lexemes hf]

theorem Sum.Yields.lexemes : {s : Sum} → {ts : List Token} → {x : Expr Span} →
    s.Yields ts x → s.lexemes = ts.map Token.lexeme
  | _, _, _, .term ht => Term.Yields.lexemes ht
  | _, _, _, .more hs ho ht => by
    simp [Sum.lexemes, Sum.Yields.lexemes hs, lexeme_of_sum ho, Term.Yields.lexemes ht]

theorem Expression.Yields.lexemes : {e : Expression} → {ts : List Token} → {x : Expr Span} →
    e.Yields ts x → e.lexemes = ts.map Token.lexeme
  | _, _, _, .sum hs => Sum.Yields.lexemes hs
  | _, _, _, .comparison hl ho hr => by
    simp [Expression.lexemes, Sum.Yields.lexemes hl, lexeme_of_comparison ho,
      Sum.Yields.lexemes hr]

end

mutual

theorem Statement.Yields.lexemes : {s : Statement} → {ts : List Token} →
    {x : TinyLanguage.Statement Span} → s.Yields ts x → s.lexemes = ts.map Token.lexeme
  | _, _, _, .ifThen hk hc hk₁ ht hk₂ => by
    simp [Statement.lexemes, hc.lexemes, Sequence.Yields.lexemes ht, Token.lexeme_of_kind hk rfl,
      Token.lexeme_of_kind hk₁ rfl, Token.lexeme_of_kind hk₂ rfl]
  | _, _, _, .ifThenElse hk hc hk₁ ht hk₂ he hk₃ => by
    simp [Statement.lexemes, hc.lexemes, Sequence.Yields.lexemes ht, Sequence.Yields.lexemes he,
      Token.lexeme_of_kind hk rfl, Token.lexeme_of_kind hk₁ rfl, Token.lexeme_of_kind hk₂ rfl,
      Token.lexeme_of_kind hk₃ rfl]
  | _, _, _, .repeatUntil hk hq hk₁ hc => by
    simp [Statement.lexemes, hc.lexemes, Sequence.Yields.lexemes hq, Token.lexeme_of_kind hk rfl,
      Token.lexeme_of_kind hk₁ rfl]
  | _, _, _, .assign ht hk he => by
    simp [Statement.lexemes, he.lexemes, lexeme_of_identifier ht, Token.lexeme_of_kind hk rfl]
  | _, _, _, .read hk ht => by
    simp [Statement.lexemes, lexeme_of_identifier ht, Token.lexeme_of_kind hk rfl]
  | _, _, _, .write hk he => by
    simp [Statement.lexemes, he.lexemes, Token.lexeme_of_kind hk rfl]

theorem Sequence.Yields.lexemes : {q : Sequence} → {ts : List Token} → {b : Block Span} →
    q.Yields ts b → q.lexemes = ts.map Token.lexeme
  | _, _, _, .last hs => Statement.Yields.lexemes hs
  | _, _, _, .cons hs hk hq => by
    simp [Sequence.lexemes, Statement.Yields.lexemes hs, Sequence.Yields.lexemes hq,
      Token.lexeme_of_kind hk rfl]

end

theorem Term.Yields.length_levels {t : Term} {ts : List Token} {x : Expr Span} (h : t.Yields ts x)
    (b : Nat) : ts.length = (t.levels b).length := by
  rw [t.length_levels, h.lexemes, List.length_map]

theorem Sum.Yields.length_levels {s : Sum} {ts : List Token} {x : Expr Span} (h : s.Yields ts x)
    (b : Nat) : ts.length = (s.levels b).length := by
  rw [s.length_levels, h.lexemes, List.length_map]

theorem Expression.Yields.length_levels {e : Expression} {ts : List Token} {x : Expr Span}
    (h : e.Yields ts x) (b : Nat) : ts.length = (e.levels b).length := by
  rw [e.length_levels, h.lexemes, List.length_map]

theorem Statement.Yields.length_levels {s : Statement} {ts : List Token}
    {x : TinyLanguage.Statement Span} (h : s.Yields ts x) (b : Nat) :
    ts.length = (s.levels b).length := by
  rw [s.length_levels, h.lexemes, List.length_map]

theorem Sequence.Yields.length_levels {q : Sequence} {ts : List Token} {x : Block Span}
    (h : q.Yields ts x) (b : Nat) : ts.length = (q.levels b).length := by
  rw [q.length_levels, h.lexemes, List.length_map]

theorem Expression.Yields.ne_nil {e : Expression} {ts : List Token} {x : Expr Span}
    (h : e.Yields ts x) : ts ≠ [] := by
  rintro rfl
  obtain ⟨ls, hl⟩ := e.exists_levels 0
  have hlen := h.length_levels 0
  simp [hl] at hlen

theorem Sequence.Yields.ne_nil {q : Sequence} {ts : List Token} {b : Block Span}
    (h : q.Yields ts b) : ts ≠ [] := by
  rintro rfl
  obtain ⟨ls, hl⟩ := q.exists_levels 0
  have hlen := h.length_levels 0
  simp [hl] at hlen

theorem inExpression_ne_invalid {k : Token.Kind} (h : inExpression k) : k ≠ .invalid := by
  rintro rfl
  cases h

mutual

theorem Statement.lexemes_ne_invalid : (s : Statement) → ∀ l ∈ s.lexemes, l.kind ≠ .invalid
  | .ifThen c t => by
    have hc := fun l hl => inExpression_ne_invalid (c.inExpression_lexemes l hl)
    have ht := Sequence.lexemes_ne_invalid t
    simpa [Statement.lexemes, or_imp, forall_and] using ⟨hc, ht⟩
  | .ifThenElse c t e => by
    have hc := fun l hl => inExpression_ne_invalid (c.inExpression_lexemes l hl)
    have ht := Sequence.lexemes_ne_invalid t
    have he := Sequence.lexemes_ne_invalid e
    simpa [Statement.lexemes, or_imp, forall_and] using ⟨hc, ht, he⟩
  | .repeatUntil q c => by
    have hq := Sequence.lexemes_ne_invalid q
    have hc := fun l hl => inExpression_ne_invalid (c.inExpression_lexemes l hl)
    simpa [Statement.lexemes, or_imp, forall_and] using ⟨hq, hc⟩
  | .assign _ e | .write e => by
    have he := fun l hl => inExpression_ne_invalid (e.inExpression_lexemes l hl)
    simpa [Statement.lexemes] using he
  | .read _ => by simp [Statement.lexemes]

theorem Sequence.lexemes_ne_invalid : (q : Sequence) → ∀ l ∈ q.lexemes, l.kind ≠ .invalid
  | .last s => Statement.lexemes_ne_invalid s
  | .cons s q => by
    have hs := Statement.lexemes_ne_invalid s
    have hq := Sequence.lexemes_ne_invalid q
    simpa [Sequence.lexemes, or_imp, forall_and] using ⟨hs, hq⟩

end

theorem Sequence.Yields.ne_invalid {q : Sequence} {ts : List Token} {b : Block Span}
    (h : q.Yields ts b) : ∀ t ∈ ts, t.kind ≠ .invalid := by
  intro t ht
  refine q.lexemes_ne_invalid t.lexeme ?_
  rw [h.lexemes]
  exact List.mem_map_of_mem ht

@[simp] theorem shape_join (op : Operator) (x y : Expr Span) :
    (Expr.join op x y).shape = .binary () op x.shape y.shape := rfl

mutual

theorem Factor.Yields.shape : {f : Factor} → {ts : List Token} → {x : Expr Span} →
    f.Yields ts x → x.shape = f.tree
  | _, _, _, .number _ | _, _, _, .identifier _ => rfl
  | _, _, _, .parens _ he _ => Expression.Yields.shape he

theorem Term.Yields.shape : {t : Term} → {ts : List Token} → {x : Expr Span} →
    t.Yields ts x → x.shape = t.tree
  | _, _, _, .factor hf => Factor.Yields.shape hf
  | _, _, _, .more ht _ hf => by
    rw [shape_join, Term.Yields.shape ht, Factor.Yields.shape hf, Term.tree]

theorem Sum.Yields.shape : {s : Sum} → {ts : List Token} → {x : Expr Span} →
    s.Yields ts x → x.shape = s.tree
  | _, _, _, .term ht => Term.Yields.shape ht
  | _, _, _, .more hs _ ht => by
    rw [shape_join, Sum.Yields.shape hs, Term.Yields.shape ht, Sum.tree]

theorem Expression.Yields.shape : {e : Expression} → {ts : List Token} → {x : Expr Span} →
    e.Yields ts x → x.shape = e.tree
  | _, _, _, .sum hs => Sum.Yields.shape hs
  | _, _, _, .comparison hl _ hr => by
    rw [shape_join, Sum.Yields.shape hl, Sum.Yields.shape hr, Expression.tree]

end

mutual

theorem Statement.Yields.shape : {s : Statement} → {ts : List Token} →
    {x : TinyLanguage.Statement Span} → s.Yields ts x → x.shape = s.tree
  | _, _, _, .ifThen _ hc _ ht _ => by
    rw [Statement.tree, ← hc.shape, ← Sequence.Yields.shape ht]
    rfl
  | _, _, _, .ifThenElse _ hc _ ht _ he _ => by
    rw [Statement.tree, ← hc.shape, ← Sequence.Yields.shape ht, ← Sequence.Yields.shape he]
    rfl
  | _, _, _, .repeatUntil _ hq _ hc => by
    rw [Statement.tree, ← hc.shape, ← Sequence.Yields.shape hq]
    rfl
  | _, _, _, .assign _ _ he => by
    rw [Statement.tree, ← he.shape]
    rfl
  | _, _, _, .read _ _ => rfl
  | _, _, _, .write _ he => by
    rw [Statement.tree, ← he.shape]
    rfl

theorem Sequence.Yields.shape : {q : Sequence} → {ts : List Token} → {b : Block Span} →
    q.Yields ts b → b.shape = q.tree
  | _, _, _, .last hs => by
    rw [Sequence.tree, ← Statement.Yields.shape hs]
    rfl
  | _, _, _, .cons hs _ hq => by
    rw [Sequence.tree, ← Statement.Yields.shape hs, ← Sequence.Yields.shape hq]
    rfl

end

def Fits (ls : List Lexeme) (ts : List Token) : Prop :=
  ts.map Token.kind = ls.map Lexeme.kind

theorem fits_lexemes (ts : List Token) : Fits (ts.map Token.lexeme) ts := by
  simp [Fits, Function.comp_def, Token.lexeme]

theorem fits_nil {ts : List Token} (h : Fits [] ts) : ts = [] := by
  simpa [Fits] using h

theorem fits_cons {l : Lexeme} {ls : List Lexeme} {ts : List Token} (h : Fits (l :: ls) ts) :
    ∃ t us, ts = t :: us ∧ t.kind = l.kind ∧ Fits ls us := by
  simpa [Fits, List.map_eq_cons_iff] using h

theorem fits_append {ls ms : List Lexeme} {ts : List Token} (h : Fits (ls ++ ms) ts) :
    ∃ us vs, ts = us ++ vs ∧ Fits ls us ∧ Fits ms vs := by
  simpa [Fits, List.map_eq_append_iff] using h

mutual

/-- Tokens of the right kinds are what some derivation stands for; it takes its texts from them. -/
theorem Factor.exists_yields : (f : Factor) → {ts : List Token} → Fits f.lexemes ts →
    ∃ (g : Factor) (x : Expr Span), g.Yields ts x
  | .number _, ts, h => by
    obtain ⟨t, us, rfl, ht, hu⟩ := fits_cons h
    obtain rfl := fits_nil hu
    exact ⟨_, _, .number ht⟩
  | .identifier _, ts, h => by
    obtain ⟨t, us, rfl, ht, hu⟩ := fits_cons h
    obtain rfl := fits_nil hu
    exact ⟨_, _, .identifier ht⟩
  | .parens e, ts, h => by
    obtain ⟨l, us, rfl, hl, hu⟩ := fits_cons h
    obtain ⟨vs, ws, rfl, hv, hw⟩ := fits_append hu
    obtain ⟨r, rs, rfl, hr, hn⟩ := fits_cons hw
    obtain rfl := fits_nil hn
    obtain ⟨g, x, he⟩ := Expression.exists_yields e hv
    exact ⟨_, _, .parens hl he hr⟩

theorem Term.exists_yields : (t : Term) → {ts : List Token} → Fits t.lexemes ts →
    ∃ (u : Term) (x : Expr Span), u.Yields ts x
  | .factor f, ts, h => by
    obtain ⟨g, x, hf⟩ := Factor.exists_yields f h
    exact ⟨_, _, .factor hf⟩
  | .more t sign f, ts, h => by
    obtain ⟨us, vs, rfl, hu, hv⟩ := fits_append h
    obtain ⟨o, ws, rfl, ho, hw⟩ := fits_cons hv
    obtain ⟨u, x, ht⟩ := Term.exists_yields t hu
    obtain ⟨g, y, hf⟩ := Factor.exists_yields f hw
    exact ⟨_, _, .more ht ho hf⟩

theorem Sum.exists_yields : (s : Sum) → {ts : List Token} → Fits s.lexemes ts →
    ∃ (u : Sum) (x : Expr Span), u.Yields ts x
  | .term t, ts, h => by
    obtain ⟨u, x, ht⟩ := Term.exists_yields t h
    exact ⟨_, _, .term ht⟩
  | .more s sign t, ts, h => by
    obtain ⟨us, vs, rfl, hu, hv⟩ := fits_append h
    obtain ⟨o, ws, rfl, ho, hw⟩ := fits_cons hv
    obtain ⟨u, x, hs⟩ := Sum.exists_yields s hu
    obtain ⟨g, y, ht⟩ := Term.exists_yields t hw
    exact ⟨_, _, .more hs ho ht⟩

theorem Expression.exists_yields : (e : Expression) → {ts : List Token} → Fits e.lexemes ts →
    ∃ (f : Expression) (x : Expr Span), f.Yields ts x
  | .sum s, ts, h => by
    obtain ⟨u, x, hs⟩ := Sum.exists_yields s h
    exact ⟨_, _, .sum hs⟩
  | .comparison l sign r, ts, h => by
    obtain ⟨us, vs, rfl, hu, hv⟩ := fits_append h
    obtain ⟨o, ws, rfl, ho, hw⟩ := fits_cons hv
    obtain ⟨u, x, hl⟩ := Sum.exists_yields l hu
    obtain ⟨g, y, hr⟩ := Sum.exists_yields r hw
    exact ⟨_, _, .comparison hl ho hr⟩

end

mutual

theorem Statement.exists_yields : (s : Statement) → {ts : List Token} → Fits s.lexemes ts →
    ∃ (u : Statement) (x : TinyLanguage.Statement Span), u.Yields ts x
  | .ifThen c t, ts, h => by
    obtain ⟨k, us, rfl, hk, hu⟩ := fits_cons h
    obtain ⟨vs, ws, rfl, hv, hw⟩ := fits_append hu
    obtain ⟨k₁, rs, rfl, hk₁, hr⟩ := fits_cons hw
    obtain ⟨us, ws, rfl, hb, hw⟩ := fits_append hr
    obtain ⟨k₂, rs, rfl, hk₂, hn⟩ := fits_cons hw
    obtain rfl := fits_nil hn
    obtain ⟨e, x, hc⟩ := Expression.exists_yields c hv
    obtain ⟨q, b, ht⟩ := Sequence.exists_yields t hb
    exact ⟨_, _, .ifThen hk hc hk₁ ht hk₂⟩
  | .ifThenElse c t e, ts, h => by
    obtain ⟨k, us, rfl, hk, hu⟩ := fits_cons h
    obtain ⟨vs, ws, rfl, hv, hw⟩ := fits_append hu
    obtain ⟨k₁, rs, rfl, hk₁, hr⟩ := fits_cons hw
    obtain ⟨us, ws, rfl, hb, hw⟩ := fits_append hr
    obtain ⟨k₂, rs, rfl, hk₂, hr⟩ := fits_cons hw
    obtain ⟨ps, qs, rfl, hp, hq⟩ := fits_append hr
    obtain ⟨k₃, rs, rfl, hk₃, hn⟩ := fits_cons hq
    obtain rfl := fits_nil hn
    obtain ⟨e', x, hc⟩ := Expression.exists_yields c hv
    obtain ⟨q, b, ht⟩ := Sequence.exists_yields t hb
    obtain ⟨q', b', he⟩ := Sequence.exists_yields e hp
    exact ⟨_, _, .ifThenElse hk hc hk₁ ht hk₂ he hk₃⟩
  | .repeatUntil q c, ts, h => by
    obtain ⟨k, us, rfl, hk, hu⟩ := fits_cons h
    obtain ⟨vs, ws, rfl, hv, hw⟩ := fits_append hu
    obtain ⟨k₁, rs, rfl, hk₁, hr⟩ := fits_cons hw
    obtain ⟨u, b, hq⟩ := Sequence.exists_yields q hv
    obtain ⟨e, x, hc⟩ := Expression.exists_yields c hr
    exact ⟨_, _, .repeatUntil hk hq hk₁ hc⟩
  | .assign _ e, ts, h => by
    obtain ⟨t, us, rfl, ht, hu⟩ := fits_cons h
    obtain ⟨k, vs, rfl, hk, hv⟩ := fits_cons hu
    obtain ⟨f, x, he⟩ := Expression.exists_yields e hv
    exact ⟨_, _, .assign ht hk he⟩
  | .read _, ts, h => by
    obtain ⟨k, us, rfl, hk, hu⟩ := fits_cons h
    obtain ⟨t, vs, rfl, ht, hv⟩ := fits_cons hu
    obtain rfl := fits_nil hv
    exact ⟨_, _, .read hk ht⟩
  | .write e, ts, h => by
    obtain ⟨k, us, rfl, hk, hu⟩ := fits_cons h
    obtain ⟨f, x, he⟩ := Expression.exists_yields e hu
    exact ⟨_, _, .write hk he⟩

theorem Sequence.exists_yields : (q : Sequence) → {ts : List Token} → Fits q.lexemes ts →
    ∃ (u : Sequence) (b : Block Span), u.Yields ts b
  | .last s, ts, h => by
    obtain ⟨u, x, hs⟩ := Statement.exists_yields s h
    exact ⟨_, _, .last hs⟩
  | .cons s q, ts, h => by
    obtain ⟨us, vs, rfl, hu, hv⟩ := fits_append h
    obtain ⟨k, ws, rfl, hk, hw⟩ := fits_cons hv
    obtain ⟨u, x, hs⟩ := Statement.exists_yields s hu
    obtain ⟨p, b, hq⟩ := Sequence.exists_yields q hw
    exact ⟨_, _, .cons hs hk hq⟩

end

end TinyLanguage.Grammar
