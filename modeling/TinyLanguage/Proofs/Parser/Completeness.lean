import TinyLanguage.Proofs.Grammar.Level
import TinyLanguage.Proofs.Parser.Procedures

namespace TinyLanguage.Parser

open Token.Kind Grammar

section

variable {γ : Type} {limit : Nat} {ts us : List Token} {ls ms : List Nat} {r r' : Except Error γ}

/-- The outcome `r` of reading some tokens that stand at some levels, unless one of them is too
deep. -/
def within (limit : Nat) : List Token → List Nat → Except Error γ → Except Error γ
  | t :: ts, l :: ls, r => if limit < l then .error (.tooDeep limit t.span) else within limit ts ls r
  | _, _, r => r

theorem within_append (h : ts.length = ls.length) :
    within limit (ts ++ us) (ls ++ ms) r = within limit ts ls (within limit us ms r) := by
  induction ts generalizing ls with
  | nil =>
    obtain rfl := List.length_eq_zero_iff.mp h.symm
    rfl
  | cons t ts ih =>
    cases ls with
    | nil => simp at h
    | cons l ls =>
      have hl : ts.length = ls.length := by simpa using h
      simp only [List.cons_append, within, ih hl]

theorem within_cons_of_le {t : Token} {l : Nat} (h : l ≤ limit) :
    within limit (t :: ts) (l :: ls) r = within limit ts ls r := by
  simp [within, Nat.not_lt.mpr h]

theorem within_cons_of_lt {t : Token} {l : Nat} (h : limit < l) :
    within limit (t :: ts) (l :: ls) r = .error (.tooDeep limit t.span) := by
  simp [within, h]

theorem within_map {δ : Type} (f : γ → δ) :
    (within limit ts ls r).map f = within limit ts ls (r.map f) := by
  induction ts generalizing ls with
  | nil => rfl
  | cons t ts ih =>
    cases ls with
    | nil => rfl
    | cons l ls =>
      by_cases hl : l ≤ limit
      · rw [within_cons_of_le hl, within_cons_of_le hl, ih]
      · rw [within_cons_of_lt (Nat.lt_of_not_le hl), within_cons_of_lt (Nat.lt_of_not_le hl)]
        rfl

theorem within_of_le (h : ∀ l ∈ ls, l ≤ limit) : within limit ts ls r = r := by
  induction ts generalizing ls with
  | nil => rfl
  | cons t ts ih =>
    cases ls with
    | nil => rfl
    | cons l ls =>
      rw [within_cons_of_le (h l (by simp))]
      exact ih fun l hl => h l (by simp [hl])

theorem within_eq_tooDeep (hlen : ts.length = ls.length) (h : ¬∀ l ∈ ls, l ≤ limit) :
    ∃ (i : Nat) (t : Token), ts[i]? = some t ∧ (∃ l, ls[i]? = some l ∧ limit < l) ∧
      (∀ j l, j < i → ls[j]? = some l → l ≤ limit) ∧
      within limit ts ls r = .error (.tooDeep limit t.span) := by
  induction ts generalizing ls with
  | nil =>
    obtain rfl := List.length_eq_zero_iff.mp hlen.symm
    simp at h
  | cons t ts ih =>
    cases ls with
    | nil => simp at hlen
    | cons l ls =>
      by_cases hl : l ≤ limit
      · have hls : ¬∀ l ∈ ls, l ≤ limit := fun ha => h (by simpa [hl] using ha)
        obtain ⟨i, u, hu, hdeeper, hfirst, he⟩ := ih (by simpa using hlen) hls
        refine ⟨i + 1, u, hu, hdeeper, ?_, by rw [within_cons_of_le hl, he]⟩
        intro j k hj hk
        cases j with
        | zero =>
          obtain rfl := Option.some.inj hk
          exact hl
        | succ j => exact hfirst j k (Nat.lt_of_succ_lt_succ hj) hk
      · have hlt : limit < l := Nat.lt_of_not_le hl
        exact ⟨0, t, rfl, ⟨l, rfl, hlt⟩, fun j _ hj => absurd hj (Nat.not_lt_zero j),
          within_cons_of_lt hlt⟩

theorem within_of_lt (hlen : ts.length = ls.length) (h : ¬∀ l ∈ ls, l ≤ limit) :
    ∃ t ∈ ts, within limit ts ls r = .error (.tooDeep limit t.span) := by
  obtain ⟨i, t, ht, -, -, he⟩ := within_eq_tooDeep hlen h
  exact ⟨t, List.mem_of_getElem? ht, he⟩

end

section

variable {α β : Type} {limit n : Nat} {ts us : List Token} {ls ms : List Nat} {st m m' st' : State}

/-- A parser that is done with its tokens hands over to the next one. -/
theorem run_bind_within {p : Parser α} {f : α → Parser β} {a : α}
    (h : p.run st = within limit ts ls (.ok (a, m))) :
    (p >>= f).run st = within limit ts ls ((f a).run m) := by
  induction ts generalizing ls with
  | nil => exact run_bind_of_ok h
  | cons t ts ih =>
    cases ls with
    | nil => exact run_bind_of_ok h
    | cons l ls =>
      by_cases hl : l ≤ limit
      · rw [within_cons_of_le hl] at h ⊢
        exact ih h
      · rw [within_cons_of_lt (Nat.lt_of_not_le hl)] at h ⊢
        exact run_bind_of_error h

/-- One more operation of a sum or a product, whose operator stands at level `n + 1`. -/
theorem operations_more {select : Token.Kind → Option Operator}
    {operand : Nat → Parser (Expr Span)} {p : Parser (Expr Span)} {o : Token} {op : Operator}
    {x y : Expr Span}
    (hp : p.run st =
      within limit ts ls ((operations select limit operand (limit - n) x).run m))
    (hlen : ts.length = ls.length) (ho : m.Step o m') (hop : select o.kind = some op)
    (hy : n + 1 ≤ limit →
      (operand (limit - (n + 1))).run m' = within limit us ms (.ok (y, st'))) :
    p.run st = within limit (ts ++ o :: us) (ls ++ (n + 1) :: ms)
      ((operations select limit operand (limit - (n + 1)) (.join op x y)).run st') := by
  have hk : m.kind?.bind select = some op := by rw [ho.kind?, Option.bind_some, hop]
  rw [hp, within_append hlen]
  congr 1
  by_cases hn : n + 1 ≤ limit
  · have hd : limit - n = limit - (n + 1) + 1 := by omega
    rw [within_cons_of_le hn, hd, operations_succ hk, run_bind_of_ok (advance_run ho)]
    exact run_bind_within (hy hn)
  · have hd : limit - n = 0 := by omega
    rw [within_cons_of_lt (Nat.lt_of_not_le hn), hd, operations_tooDeep hk, ho.here]

end

theorem multiplicative_sign (sign : ProductSign) :
    multiplicative? sign.kind = some sign.operator := by
  cases sign <;> rfl

theorem additive_sign (sign : SumSign) : additive? sign.kind = some sign.operator := by
  cases sign <;> rfl

theorem comparison_sign (sign : ComparisonSign) :
    comparison? sign.kind = some sign.operator := by
  cases sign <;> rfl

theorem within_first {b : Nat} {γ : Type} {r : Except Error γ} {st st' : State}
    {ts : List Token} {ls : List Nat} (hts : ts ≠ []) (hls : ∃ ms, ls = (b + 1) :: ms)
    (h : st.Reads ts st') : within b ts ls r = .error (.tooDeep b st.here) := by
  obtain ⟨ms, rfl⟩ := hls
  cases ts with
  | nil => exact absurd rfl hts
  | cons t us => rw [within_cons_of_lt (Nat.lt_succ_self b), h.here]

section

variable {limit b : Nat} {ts : List Token} {x : Expr Span} {st st' : State}

theorem product_of_stop {n : Nat} {ls : List Nat} {p : Parser (Expr Span)}
    (hp : p.run st = within limit ts ls ((operations multiplicative? limit
      (fun d => factor (expression limit d)) n x).run st'))
    (hst : 1 < st'.looseness) : p.run st = within limit ts ls (.ok (x, st')) := by
  rw [hp, operations_stop (State.multiplicative_eq_none hst)]

theorem sum_of_stop {n : Nat} {ls : List Nat} {p : Parser (Expr Span)}
    (hp : p.run st = within limit ts ls ((operations additive? limit (product limit) n x).run st'))
    (hst : 2 < st'.looseness) : p.run st = within limit ts ls (.ok (x, st')) := by
  rw [hp, operations_stop (State.additive_eq_none hst)]

end

mutual

/-- On the tokens of a derivation the parser finds their tree, unless a token is too deep. -/
theorem factor_run : {f : Factor} → {ts : List Token} → {x : Expr Span} → f.Yields ts x →
    {limit b : Nat} → b ≤ limit → {st st' : State} → st.Reads ts st' →
    (factor (expression limit (limit - b))).run st = within limit ts (f.levels b) (.ok (x, st'))
  | _, _, _, .number ht, limit, b, hb, st, st', h => by
    obtain ⟨m, hs, hm⟩ := State.reads_cons.1 h
    obtain rfl := State.reads_nil.1 hm
    rw [factor_number hs ht, Factor.levels, within_cons_of_le hb]
    rfl
  | _, _, _, .identifier ht, limit, b, hb, st, st', h => by
    obtain ⟨m, hs, hm⟩ := State.reads_cons.1 h
    obtain rfl := State.reads_nil.1 hm
    rw [factor_identifier hs ht, Factor.levels, within_cons_of_le hb]
    rfl
  | _, _, _, .parens hl he hr, limit, b, hb, st, st', h => by
    obtain ⟨m, hs, hm⟩ := State.reads_cons.1 h
    obtain ⟨n, hn, hq⟩ := State.reads_append.1 hm
    obtain ⟨n', hs', hn'⟩ := State.reads_cons.1 hq
    obtain rfl := State.reads_nil.1 hn'
    have hstop : 3 < n.looseness := by rw [hs'.looseness, hr]; decide
    have hrun := expression_run he hb hn hstop
    rw [factor_parens hs hl, run_bind_within hrun, Factor.levels, within_cons_of_le hb,
      within_append (he.length_levels b), within_cons_of_le hb,
      run_bind_of_ok (expect_run hs' hr), pure_run]
    rfl

theorem product_run : {t : Term} → {ts : List Token} → {x : Expr Span} → t.Yields ts x →
    {limit b : Nat} → b ≤ limit → {st st' : State} → st.Reads ts st' →
    (product limit (limit - b)).run st = within limit ts (t.levels b)
      ((operations multiplicative? limit (fun d => factor (expression limit d))
        (limit - (b + t.signs)) x).run st')
  | _, _, _, .factor hf, limit, b, hb, st, st', h => run_bind_within (factor_run hf hb h)
  | _, _, _, .more ht ho hf, limit, b, hb, st, st', h => by
    obtain ⟨m, hm, hq⟩ := State.reads_append.1 h
    obtain ⟨m', hs, hm'⟩ := State.reads_cons.1 hq
    exact operations_more (product_run ht hb hm) (ht.length_levels b) hs
      (by rw [ho, multiplicative_sign]) fun hn => factor_run hf hn hm'

theorem sum_run : {s : Sum} → {ts : List Token} → {x : Expr Span} → s.Yields ts x →
    {limit b : Nat} → b ≤ limit → {st st' : State} → st.Reads ts st' → 1 < st'.looseness →
    (sum limit (limit - b)).run st = within limit ts (s.levels b)
      ((operations additive? limit (product limit) (limit - (b + s.signs)) x).run st')
  | _, _, _, .term ht, limit, b, hb, st, st', h, hst =>
    run_bind_within (product_of_stop (product_run ht hb h) hst)
  | _, _, _, .more hs ho ht, limit, b, hb, st, st', h, hst => by
    obtain ⟨m, hm, hq⟩ := State.reads_append.1 h
    obtain ⟨m', hs', hm'⟩ := State.reads_cons.1 hq
    have hstop : 1 < m.looseness := by rw [hs'.looseness, ho, looseness_sum]; decide
    exact operations_more (sum_run hs hb hm hstop) (hs.length_levels b) hs'
      (by rw [ho, additive_sign]) fun hn => product_of_stop (product_run ht hn hm') hst

theorem expression_run : {e : Expression} → {ts : List Token} → {x : Expr Span} →
    e.Yields ts x → {limit b : Nat} → b ≤ limit → {st st' : State} → st.Reads ts st' →
    3 < st'.looseness →
    (expression limit (limit - b)).run st = within limit ts (e.levels b) (.ok (x, st'))
  | e, ts, x, he, limit, b, hb, st, st', h, hst => by
    by_cases hlim : b = limit
    · subst hlim
      rw [within_first he.ne_nil (e.exists_levels b) h, Nat.sub_self, expression, tooDeep_run]
    · have hb' : b + 1 ≤ limit := by omega
      have hd : limit - b = limit - (b + 1) + 1 := by omega
      rw [hd, expression_succ]
      cases he with
      | sum hs =>
        have hrun := sum_of_stop (sum_run hs hb' h (by omega)) (by omega)
        rw [run_bind_within hrun, run_bind_of_ok (peekOperator_run _),
          State.comparison_eq_none hst]
        rfl
      | comparison hl ho hr =>
        obtain ⟨m, hm, hq⟩ := State.reads_append.1 h
        obtain ⟨m', hs, hm'⟩ := State.reads_cons.1 hq
        have hstop : m.looseness = 3 := by rw [hs.looseness, ho, looseness_comparison]
        have hrun := sum_of_stop (sum_run hl hb' hm (by omega)) (by omega)
        have hrun' := sum_of_stop (sum_run hr hb' hm' (by omega)) (by omega)
        rw [run_bind_within hrun, run_bind_of_ok (peekOperator_run _), hs.kind?,
          Option.bind_some, ho, comparison_sign, Expression.levels,
          within_append (hl.length_levels (b + 1)), within_cons_of_le hb']
        congr 1
        rw [run_bind_of_ok (advance_run hs), run_bind_within hrun']
        rfl

end

mutual

theorem statement_run : {s : Grammar.Statement} → {ts : List Token} → {x : Statement Span} →
    s.Yields ts x → {limit b : Nat} → b ≤ limit → {st st' : State} → st.Reads ts st' →
    3 < st'.looseness →
    (statement (expression limit (limit - b)) (sequence limit (limit - b))).run st =
      within limit ts (s.levels b) (.ok (x, st'))
  | _, _, _, .ifThen hk hc hk₁ ht hk₂, limit, b, hb, st, st', h, hst => by
    obtain ⟨m, hs, hm⟩ := State.reads_cons.1 h
    obtain ⟨n, hn, hm⟩ := State.reads_append.1 hm
    obtain ⟨m₁, hs₁, hm⟩ := State.reads_cons.1 hm
    obtain ⟨n₁, hn₁, hm⟩ := State.reads_append.1 hm
    obtain ⟨m₂, hs₂, hm⟩ := State.reads_cons.1 hm
    obtain rfl := State.reads_nil.1 hm
    have hcond := expression_run hc hb hn (by rw [hs₁.looseness, hk₁]; decide)
    have hcons := sequence_run ht hb hn₁ (by rw [hs₂.looseness, hk₂]; decide)
      (by rw [hs₂.kind?, hk₂]; decide)
    rw [statement_conditional (by rw [hs.kind?, hk]), conditional,
      run_bind_of_ok (expect_run hs hk), run_bind_within hcond,
      run_bind_of_ok (expect_run hs₁ hk₁), run_bind_within hcons,
      run_bind_of_ok peekKind_run, hs₂.kind?, hk₂, Statement.levels, within_cons_of_le hb,
      within_append (hc.length_levels b), within_cons_of_le hb,
      within_append (ht.length_levels b), within_cons_of_le hb]
    dsimp only
    rw [run_bind_of_ok (expect_run hs₂ hk₂), run_bind_of_ok (spanFrom_run _), hs₂.previous]
    rfl
  | _, _, _, .ifThenElse hk hc hk₁ ht hk₂ he hk₃, limit, b, hb, st, st', h, hst => by
    obtain ⟨m, hs, hm⟩ := State.reads_cons.1 h
    obtain ⟨n, hn, hm⟩ := State.reads_append.1 hm
    obtain ⟨m₁, hs₁, hm⟩ := State.reads_cons.1 hm
    obtain ⟨n₁, hn₁, hm⟩ := State.reads_append.1 hm
    obtain ⟨m₂, hs₂, hm⟩ := State.reads_cons.1 hm
    obtain ⟨n₂, hn₂, hm⟩ := State.reads_append.1 hm
    obtain ⟨m₃, hs₃, hm⟩ := State.reads_cons.1 hm
    obtain rfl := State.reads_nil.1 hm
    have hcond := expression_run hc hb hn (by rw [hs₁.looseness, hk₁]; decide)
    have hcons := sequence_run ht hb hn₁ (by rw [hs₂.looseness, hk₂]; decide)
      (by rw [hs₂.kind?, hk₂]; decide)
    have halt := sequence_run he hb hn₂ (by rw [hs₃.looseness, hk₃]; decide)
      (by rw [hs₃.kind?, hk₃]; decide)
    rw [statement_conditional (by rw [hs.kind?, hk]), conditional,
      run_bind_of_ok (expect_run hs hk), run_bind_within hcond,
      run_bind_of_ok (expect_run hs₁ hk₁), run_bind_within hcons,
      run_bind_of_ok peekKind_run, hs₂.kind?, hk₂, Statement.levels, within_cons_of_le hb,
      within_append (hc.length_levels b), within_cons_of_le hb,
      within_append (ht.length_levels b), within_cons_of_le hb,
      within_append (he.length_levels b), within_cons_of_le hb]
    dsimp only
    rw [run_bind_of_ok (advance_run hs₂), run_bind_within halt,
      run_bind_of_ok (expect_run hs₃ hk₃), run_bind_of_ok (spanFrom_run _), hs₃.previous]
    rfl
  | _, _, _, .repeatUntil hk hq hk₁ hc, limit, b, hb, st, st', h, hst => by
    obtain ⟨m, hs, hm⟩ := State.reads_cons.1 h
    obtain ⟨n, hn, hm⟩ := State.reads_append.1 hm
    obtain ⟨m₁, hs₁, hm⟩ := State.reads_cons.1 hm
    have hbody := sequence_run hq hb hn (by rw [hs₁.looseness, hk₁]; decide)
      (by rw [hs₁.kind?, hk₁]; decide)
    have hcond := expression_run hc hb hm hst
    rw [statement_repetition (by rw [hs.kind?, hk]), repetition,
      run_bind_of_ok (expect_run hs hk), run_bind_within hbody,
      run_bind_of_ok (expect_run hs₁ hk₁), run_bind_within hcond,
      run_bind_of_ok (spanFrom_run _), hm.previous hc.ne_nil, Statement.levels,
      within_cons_of_le hb, within_append (hq.length_levels b), within_cons_of_le hb]
    rfl
  | _, _, _, .assign ht hk he, limit, b, hb, st, st', h, hst => by
    obtain ⟨m, hs, hm⟩ := State.reads_cons.1 h
    obtain ⟨m₁, hs₁, hm⟩ := State.reads_cons.1 hm
    have hvalue := expression_run he hb hm hst
    rw [statement_assignment (by rw [hs.kind?, ht]), assignment,
      run_bind_of_ok (expect_run hs ht), run_bind_of_ok (expect_run hs₁ hk),
      run_bind_within hvalue, run_bind_of_ok (spanFrom_run _), hm.previous he.ne_nil,
      Statement.levels, within_cons_of_le hb, within_cons_of_le hb]
    rfl
  | _, _, _, .read hk ht, limit, b, hb, st, st', h, hst => by
    obtain ⟨m, hs, hm⟩ := State.reads_cons.1 h
    obtain ⟨m₁, hs₁, hm⟩ := State.reads_cons.1 hm
    obtain rfl := State.reads_nil.1 hm
    rw [statement_read (by rw [hs.kind?, hk]), readStatement, run_bind_of_ok (expect_run hs hk),
      run_bind_of_ok (expect_run hs₁ ht), Statement.levels, within_cons_of_le hb,
      within_cons_of_le hb]
    rfl
  | _, _, _, .write hk he, limit, b, hb, st, st', h, hst => by
    obtain ⟨m, hs, hm⟩ := State.reads_cons.1 h
    have hvalue := expression_run he hb hm hst
    rw [statement_write (by rw [hs.kind?, hk]), writeStatement,
      run_bind_of_ok (expect_run hs hk), run_bind_within hvalue,
      run_bind_of_ok (spanFrom_run _), hm.previous he.ne_nil, Statement.levels,
      within_cons_of_le hb]
    rfl

theorem moreStatements_run : {q : Sequence} → {ts : List Token} → {x : Block Span} →
    q.Yields ts x → {limit b : Nat} → b + 1 ≤ limit → {st m st' : State} → {k : Token} →
    st.Step k m → k.kind = .semicolon → m.Reads ts st' → 3 < st'.looseness →
    st'.kind? ≠ some .semicolon → (before : List (Statement Span)) →
    (s : Statement Span) → (bound : List Token) →
    st.ahead.tokens.length ≤ bound.length →
    (moreStatements (statement (expression limit (limit - (b + 1)))
        (sequence limit (limit - (b + 1)))) before s bound).run st =
      within limit ts (q.levels b) (.ok (before.foldl (fun b t => .cons t b) (.cons s x), st'))
  | _, _, _, .last hs, limit, b, hb, st, m, st', k, h, hk, hm, hst, hn, before, s, bound, hlen => by
    have hitem := statement_run hs hb hm hst
    rw [moreStatements_step h hk hlen, run_bind_within hitem, moreStatements_stop hn,
      Sequence.levels]
    rfl
  | _, _, _, .cons hs hk' hq, limit, b, hb, st, m, st', k, h, hk, hm, hst, hn, before, s, bound,
      hlen => by
    obtain ⟨n, hm₁, hm⟩ := State.reads_append.1 hm
    obtain ⟨n', hs', hm⟩ := State.reads_cons.1 hm
    have hitem := statement_run hs hb hm₁ (by rw [hs'.looseness, hk']; decide)
    have hbound : n.ahead.tokens.length ≤ bound.tail.length := by
      have ht := congrArg List.length h.tokens
      have hu := congrArg List.length hm₁.tokens
      simp only [List.length_cons, List.length_append] at ht hu
      simp only [List.length_tail]
      omega
    rw [moreStatements_step h hk hlen, run_bind_within hitem,
      moreStatements_run hq hb hs' hk' hm hst hn (s :: before) _ bound.tail hbound,
      Sequence.levels, within_append (hs.length_levels (b + 1)), within_cons_of_le hb]
    rfl

theorem sequence_run : {q : Sequence} → {ts : List Token} → {x : Block Span} →
    q.Yields ts x → {limit b : Nat} → b ≤ limit → {st st' : State} → st.Reads ts st' →
    3 < st'.looseness → st'.kind? ≠ some .semicolon →
    (sequence limit (limit - b)).run st = within limit ts (q.levels b) (.ok (x, st'))
  | q, ts, x, hq, limit, b, hb, st, st', h, hst, hn => by
    by_cases hlim : b = limit
    · subst hlim
      rw [within_first hq.ne_nil (q.exists_levels b) h, Nat.sub_self, sequence, tooDeep_run]
    · have hb' : b + 1 ≤ limit := by omega
      have hd : limit - b = limit - (b + 1) + 1 := by omega
      rw [hd, sequence]
      cases hq with
      | last hs =>
        have hitem := statement_run hs hb' h hst
        rw [run_bind_within hitem, run_bind_of_ok get_run, moreStatements_stop hn]
        rfl
      | cons hs hk hq =>
        obtain ⟨n, hm₁, hm⟩ := State.reads_append.1 h
        obtain ⟨n', hs', hm⟩ := State.reads_cons.1 hm
        have hitem := statement_run hs hb' hm₁ (by rw [hs'.looseness, hk]; decide)
        rw [run_bind_within hitem, run_bind_of_ok get_run,
          moreStatements_run hq hb' hs' hk hm hst hn [] _ _ (Nat.le_refl _), Sequence.levels,
          within_append (hs.length_levels (b + 1)), within_cons_of_le hb']
        rfl

end

/-- Tokens without faults can be read one after the other up to a scan without a fault. -/
theorem exists_reads_ahead {ts : List Token} {rest : Scan} (h : ∀ t ∈ ts, t.kind ≠ .invalid)
    (hrest : rest.fault? = none) (read : List Token) :
    ∃ st st', State.ofScan read { rest with tokens := ts ++ rest.tokens } = .ok st ∧
      st.Reads ts st' ∧ st'.ahead = rest := by
  induction ts generalizing read with
  | nil => exact ⟨_, _, ofScan_of_sound hrest, .nil _, rfl⟩
  | cons t ts ih =>
    have hsound : (⟨t :: ts ++ rest.tokens, rest.ending⟩ : Scan).fault? = none := by
      simp [Scan.fault?, h t (by simp)]
    obtain ⟨m, st', hm, hr, hst⟩ := ih (fun u hu => h u (by simp [hu])) (t :: read)
    obtain ⟨hread, hahead⟩ := ofScan_eq_ok hm
    refine ⟨_, st', ofScan_of_sound hsound, .cons ⟨?_, hread⟩ hr, hst⟩
    rw [hahead]
    rfl

theorem exists_reads {ts : List Token} (h : ∀ t ∈ ts, t.kind ≠ .invalid) (read : List Token)
    (finish : Position) : ∃ st st', State.ofScan read ⟨ts, .complete finish⟩ = .ok st ∧
      st.Reads ts st' ∧ st'.ahead.tokens = [] := by
  obtain ⟨st, st', hst, hr, hend⟩ :=
    @exists_reads_ahead ts ⟨[], .complete finish⟩ h rfl read
  rw [List.append_nil] at hst
  exact ⟨st, st', hst, hr, congrArg Scan.tokens hend⟩

theorem program_run {q : Sequence} {ts : List Token} {b : Block Span} {limit : Nat}
    {st st' : State} (hq : q.Yields ts b) (h : st.Reads ts st') (hend : st'.ahead.tokens = []) :
    (program limit).run st = within limit ts (q.levels 0) (.ok (b, st')) := by
  have hk : st'.kind? = none := by rw [State.kind?, hend]; rfl
  have hst : 3 < st'.looseness := by rw [State.looseness, hk]; decide
  have hrun := sequence_run hq (Nat.zero_le limit) h hst (by simp [hk])
  rw [Nat.sub_zero] at hrun
  cases h with
  | nil => exact absurd rfl hq.ne_nil
  | cons hs hm =>
    have ht := congrArg List.head? hs.tokens
    rw [program_of_some ht, run_bind_within hrun, run_bind_of_ok peek_run, hend]
    rfl

/-- A text whose tokens have a derivation is read as the tree of it, unless a token is too deep. -/
theorem parse_of_yields {text : String} {limits : Limits} {ts : List Token} {finish : Position}
    {q : Sequence} {b : Block Span} (hlen : text.utf8ByteSize ≤ limits.maxLength)
    (hscan : Scan.ofText text = ⟨ts, .complete finish⟩) (hq : q.Yields ts b) :
    parse text limits = within limits.maxDepth ts (q.levels 0) (.ok b) := by
  obtain ⟨st, st', hst, hr, hend⟩ := exists_reads hq.ne_invalid [] finish
  rw [parse_of_state hlen (by rw [hscan, hst]), program_run hq hr hend, within_map]
  rfl

end TinyLanguage.Parser
