import TinyLanguage.Proofs.Grammar.Level
import TinyLanguage.Proofs.Parser.Procedures

namespace TinyLanguage.Parser

open Token.Kind Grammar

variable {α : Type} {limit depth : Nat}

def Finds (p : Parser α) (R : List Token → α → Prop) : Prop :=
  ∀ {st st' : State} {a : α}, p.run st = .ok (a, st') → ∃ ts, st.Reads ts st' ∧ R ts a

def IsFactor (limit depth : Nat) (ts : List Token) (x : Expr Span) : Prop :=
  ∃ f : Factor, f.Yields ts x ∧ ∀ l ∈ f.levels (limit - depth), l ≤ limit

def IsTerm (limit depth : Nat) (ts : List Token) (x : Expr Span) : Prop :=
  ∃ t : Term, t.Yields ts x ∧ ∀ l ∈ t.levels (limit - depth), l ≤ limit

def IsSum (limit depth : Nat) (ts : List Token) (x : Expr Span) : Prop :=
  ∃ s : Sum, s.Yields ts x ∧ ∀ l ∈ s.levels (limit - depth), l ≤ limit

def IsExpression (limit depth : Nat) (ts : List Token) (x : Expr Span) : Prop :=
  ∃ e : Expression, e.Yields ts x ∧ ∀ l ∈ e.levels (limit - depth), l ≤ limit

def IsStatement (limit depth : Nat) (ts : List Token) (x : Statement Span) : Prop :=
  ∃ s : Grammar.Statement, s.Yields ts x ∧ ∀ l ∈ s.levels (limit - depth), l ≤ limit

def IsSequence (limit depth : Nat) (ts : List Token) (x : Block Span) : Prop :=
  ∃ q : Sequence, q.Yields ts x ∧ ∀ l ∈ q.levels (limit - depth), l ≤ limit

theorem multiplicative_eq_some {k : Token.Kind} {op : Operator} (h : multiplicative? k = some op) :
    ∃ sign : ProductSign, k = sign.kind ∧ op = sign.operator := by
  cases k <;> cases h
  · exact ⟨.star, rfl, rfl⟩
  · exact ⟨.slash, rfl, rfl⟩

theorem additive_eq_some {k : Token.Kind} {op : Operator} (h : additive? k = some op) :
    ∃ sign : SumSign, k = sign.kind ∧ op = sign.operator := by
  cases k <;> cases h
  · exact ⟨.plus, rfl, rfl⟩
  · exact ⟨.minus, rfl, rfl⟩

theorem comparison_eq_some {k : Token.Kind} {op : Operator} (h : comparison? k = some op) :
    ∃ sign : ComparisonSign, k = sign.kind ∧ op = sign.operator := by
  cases k <;> cases h
  · exact ⟨.equals, rfl, rfl⟩
  · exact ⟨.less, rfl, rfl⟩

theorem factor_finds {e : Parser (Expr Span)}
    (he : Finds e (IsExpression limit depth)) : Finds (factor e) (IsFactor limit depth) := by
  intro st st' x h
  have hb : limit - depth ≤ limit := Nat.sub_le limit depth
  rw [factor, run_bind_of_ok peekKind_run] at h
  split at h
  · rename_i hk
    obtain ⟨u, m, ha, h⟩ := run_bind_eq_ok h
    obtain ⟨l, hs, hl⟩ := advance_eq_ok hk ha
    obtain ⟨y, n, hy, h⟩ := run_bind_eq_ok h
    obtain ⟨ts, hr, e, he, hlev⟩ := he hy
    obtain ⟨r, n', hx, h⟩ := run_bind_eq_ok h
    obtain ⟨hs', hr'⟩ := expect_eq_ok hx
    cases h
    refine ⟨l :: (ts ++ [r]), .cons hs (hr.append hs'.reads), .parens e, .parens hl he hr', ?_⟩
    simpa [Factor.levels, or_imp, forall_and, hb] using hlev
  · obtain ⟨t, m, hx, h⟩ := run_bind_eq_ok h
    obtain ⟨hs, ht⟩ := expect_eq_ok hx
    cases h
    exact ⟨[t], hs.reads, .number t.text, .number ht, by simp [Factor.levels]⟩
  · obtain ⟨t, m, hx, h⟩ := run_bind_eq_ok h
    obtain ⟨hs, ht⟩ := expect_eq_ok hx
    cases h
    exact ⟨[t], hs.reads, .identifier t.text, .identifier ht, by simp [Factor.levels]⟩
  · cases h

/-- What one more operation keeps, all of them keep. The relation `R` also tells the depth that is
left behind the operations found so far. -/
theorem operations_finds {select : Token.Kind → Option Operator}
    {operand : Nat → Parser (Expr Span)} {Q R : Nat → List Token → Expr Span → Prop}
    (hoperand : ∀ d < depth, Finds (operand d) (Q d))
    (hmore : ∀ {d ts x o op us y}, R (d + 1) ts x → select o.kind = some op → Q d us y →
      R d (ts ++ o :: us) (.join op x y))
    {ts : List Token} {left x : Expr Span} {st st' : State} (hleft : R depth ts left)
    (h : (operations select limit operand depth left).run st = .ok (x, st')) :
    ∃ us d, st.Reads us st' ∧ R d (ts ++ us) x := by
  induction depth generalizing ts left st with
  | zero =>
    cases hop : st.kind?.bind select with
    | none =>
      rw [operations_stop hop] at h
      cases h
      exact ⟨[], 0, .nil _, by simpa using hleft⟩
    | some op =>
      rw [operations_tooDeep hop] at h
      cases h
  | succ depth ih =>
    cases hop : st.kind?.bind select with
    | none =>
      rw [operations_stop hop] at h
      cases h
      exact ⟨[], depth + 1, .nil _, by simpa using hleft⟩
    | some op =>
      obtain ⟨k, hk, hsel⟩ := Option.bind_eq_some_iff.1 hop
      rw [operations_succ hop] at h
      obtain ⟨u, m, ha, h⟩ := run_bind_eq_ok h
      obtain ⟨o, hs, ho⟩ := advance_eq_ok hk ha
      obtain ⟨y, n, hy, h⟩ := run_bind_eq_ok h
      obtain ⟨us, hr, hq⟩ := hoperand depth (Nat.lt_succ_self depth) hy
      have hstep := hmore hleft (by rw [ho, hsel]) hq
      obtain ⟨vs, d, hr', hR⟩ := ih (fun d hd => hoperand d (Nat.lt_succ_of_lt hd)) hstep h
      refine ⟨o :: (us ++ vs), d, .cons hs (hr.append hr'), ?_⟩
      simpa using hR

/-- A term found up to here that stands at level `b`, with `depth` levels left behind it. -/
def IsOpenTerm (limit b depth : Nat) (ts : List Token) (x : Expr Span) : Prop :=
  ∃ t : Term, t.Yields ts x ∧ (∀ l ∈ t.levels b, l ≤ limit) ∧ b + t.signs + depth = limit

def IsOpenSum (limit b depth : Nat) (ts : List Token) (x : Expr Span) : Prop :=
  ∃ s : Sum, s.Yields ts x ∧ (∀ l ∈ s.levels b, l ≤ limit) ∧ b + s.signs + depth = limit

theorem IsOpenTerm.more {b : Nat} {ts us : List Token} {x y : Expr Span} {o : Token}
    {op : Operator} (hx : IsOpenTerm limit b (depth + 1) ts x)
    (hop : multiplicative? o.kind = some op) (hy : IsFactor limit depth us y) :
    IsOpenTerm limit b depth (ts ++ o :: us) (.join op x y) := by
  obtain ⟨t, ht, hl, hn⟩ := hx
  obtain ⟨f, hf, hl'⟩ := hy
  obtain ⟨sign, ho, rfl⟩ := multiplicative_eq_some hop
  have hlev : limit - depth = b + t.signs + 1 := by omega
  refine ⟨.more t sign f, .more ht ho hf, ?_, by rw [Term.signs]; omega⟩
  rw [hlev] at hl'
  simp only [Term.levels, List.forall_mem_append, List.forall_mem_cons]
  exact ⟨hl, by omega, hl'⟩

theorem IsOpenSum.more {b : Nat} {ts us : List Token} {x y : Expr Span} {o : Token}
    {op : Operator} (hx : IsOpenSum limit b (depth + 1) ts x)
    (hop : additive? o.kind = some op) (hy : IsTerm limit depth us y) :
    IsOpenSum limit b depth (ts ++ o :: us) (.join op x y) := by
  obtain ⟨s, hs, hl, hn⟩ := hx
  obtain ⟨t, ht, hl'⟩ := hy
  obtain ⟨sign, ho, rfl⟩ := additive_eq_some hop
  have hlev : limit - depth = b + s.signs + 1 := by omega
  refine ⟨.more s sign t, .more hs ho ht, ?_, by rw [Sum.signs]; omega⟩
  rw [hlev] at hl'
  simp only [Sum.levels, List.forall_mem_append, List.forall_mem_cons]
  exact ⟨hl, by omega, hl'⟩

theorem product_finds (hd : depth ≤ limit)
    (he : ∀ d ≤ depth, Finds (expression limit d) (IsExpression limit d)) :
    Finds (product limit depth) (IsTerm limit depth) := by
  intro st st' x h
  obtain ⟨y, m, hy, h⟩ := run_bind_eq_ok h
  obtain ⟨ts, hr, f, hf, hlev⟩ := factor_finds (he depth (Nat.le_refl depth)) hy
  have hleft : IsOpenTerm limit (limit - depth) depth ts y :=
    ⟨.factor f, .factor hf, hlev, by rw [Term.signs]; omega⟩
  obtain ⟨us, d, hr', t, ht, hl, -⟩ := operations_finds
    (fun d hd => factor_finds (he d (Nat.le_of_lt hd))) IsOpenTerm.more hleft h
  exact ⟨ts ++ us, hr.append hr', t, ht, hl⟩

theorem sum_finds (hd : depth ≤ limit)
    (he : ∀ d ≤ depth, Finds (expression limit d) (IsExpression limit d)) :
    Finds (sum limit depth) (IsSum limit depth) := by
  intro st st' x h
  obtain ⟨y, m, hy, h⟩ := run_bind_eq_ok h
  obtain ⟨ts, hr, t, ht, hlev⟩ := product_finds hd he hy
  have hleft : IsOpenSum limit (limit - depth) depth ts y :=
    ⟨.term t, .term ht, hlev, by rw [Sum.signs]; omega⟩
  have hoperand : ∀ d < depth, Finds (product limit d) (IsTerm limit d) := fun d hd' =>
    product_finds (by omega) fun d' hd'' => he d' (by omega)
  obtain ⟨us, d, hr', s, hs, hl, -⟩ := operations_finds hoperand IsOpenSum.more hleft h
  exact ⟨ts ++ us, hr.append hr', s, hs, hl⟩

theorem expression_finds (hd : depth ≤ limit) :
    Finds (expression limit depth) (IsExpression limit depth) := by
  induction depth using Nat.strongRecOn with
  | ind depth ih =>
    intro st st' x h
    cases depth with
    | zero =>
      rw [expression, tooDeep_run] at h
      cases h
    | succ depth =>
      have he : ∀ d ≤ depth, Finds (expression limit d) (IsExpression limit d) :=
        fun d hd' => ih d (by omega) (by omega)
      have hb : limit - depth = limit - (depth + 1) + 1 := by omega
      rw [expression_succ] at h
      obtain ⟨y, m, hy, h⟩ := run_bind_eq_ok h
      obtain ⟨ts, hr, s, hs, hlev⟩ := sum_finds (by omega) he hy
      rw [hb] at hlev
      rw [run_bind_of_ok (peekOperator_run _)] at h
      cases hop : m.kind?.bind comparison? with
      | none =>
        rw [hop] at h
        cases h
        exact ⟨ts, hr, .sum s, .sum hs, hlev⟩
      | some op =>
        rw [hop] at h
        obtain ⟨k, hk, hsel⟩ := Option.bind_eq_some_iff.1 hop
        obtain ⟨sign, rfl, rfl⟩ := comparison_eq_some hsel
        obtain ⟨u, n, ha, h⟩ := run_bind_eq_ok h
        obtain ⟨o, hso, ho⟩ := advance_eq_ok hk ha
        obtain ⟨z, n', hz, h⟩ := run_bind_eq_ok h
        obtain ⟨us, hr', s', hs', hlev'⟩ := sum_finds (by omega) he hz
        rw [hb] at hlev'
        cases h
        refine ⟨ts ++ o :: us, hr.append (.cons hso hr'), .comparison s sign s',
          .comparison hs ho hs', ?_⟩
        simp only [Expression.levels, List.forall_mem_append, List.forall_mem_cons]
        exact ⟨hlev, by omega, hlev'⟩

section

variable {e : Parser (Expr Span)} {q : Parser (Block Span)}

theorem conditional_finds (he : Finds e (IsExpression limit depth))
    (hq : Finds q (IsSequence limit depth)) :
    Finds (conditional e q) (IsStatement limit depth) := by
  intro st st' x h
  have hb : limit - depth ≤ limit := Nat.sub_le limit depth
  obtain ⟨k, m, hx, h⟩ := run_bind_eq_ok h
  obtain ⟨hs, hk⟩ := expect_eq_ok hx
  obtain ⟨c, n, hx, h⟩ := run_bind_eq_ok h
  obtain ⟨ts, hr, c', hc, hlev⟩ := he hx
  obtain ⟨k₁, m₁, hx, h⟩ := run_bind_eq_ok h
  obtain ⟨hs₁, hk₁⟩ := expect_eq_ok hx
  obtain ⟨b, n₁, hx, h⟩ := run_bind_eq_ok h
  obtain ⟨us, hr₁, t, ht, hlev₁⟩ := hq hx
  rw [run_bind_of_ok peekKind_run] at h
  split at h
  · rename_i hkind
    obtain ⟨u, m₂, ha, h⟩ := run_bind_eq_ok h
    obtain ⟨k₂, hs₂, hk₂⟩ := advance_eq_ok hkind ha
    obtain ⟨b', n₂, hx, h⟩ := run_bind_eq_ok h
    obtain ⟨vs, hr₂, t', ht', hlev₂⟩ := hq hx
    obtain ⟨k₃, m₃, hx, h⟩ := run_bind_eq_ok h
    obtain ⟨hs₃, hk₃⟩ := expect_eq_ok hx
    rw [run_bind_of_ok (spanFrom_run _), hs₃.previous] at h
    cases h
    refine ⟨k :: (ts ++ k₁ :: (us ++ k₂ :: (vs ++ [k₃]))),
      .cons hs (hr.append (.cons hs₁ (hr₁.append (.cons hs₂ (hr₂.append hs₃.reads))))),
      .ifThenElse c' t t', .ifThenElse hk hc hk₁ ht hk₂ ht' hk₃, ?_⟩
    simp only [Statement.levels, List.forall_mem_append, List.forall_mem_cons]
    exact ⟨hb, hlev, hb, hlev₁, hb, hlev₂, hb, by simp⟩
  · obtain ⟨k₂, m₂, hx, h⟩ := run_bind_eq_ok h
    obtain ⟨hs₂, hk₂⟩ := expect_eq_ok hx
    rw [run_bind_of_ok (spanFrom_run _), hs₂.previous] at h
    cases h
    refine ⟨k :: (ts ++ k₁ :: (us ++ [k₂])),
      .cons hs (hr.append (.cons hs₁ (hr₁.append hs₂.reads))), .ifThen c' t,
      .ifThen hk hc hk₁ ht hk₂, ?_⟩
    simp only [Statement.levels, List.forall_mem_append, List.forall_mem_cons]
    exact ⟨hb, hlev, hb, hlev₁, hb, by simp⟩

theorem repetition_finds (he : Finds e (IsExpression limit depth))
    (hq : Finds q (IsSequence limit depth)) :
    Finds (repetition e q) (IsStatement limit depth) := by
  intro st st' x h
  have hb : limit - depth ≤ limit := Nat.sub_le limit depth
  obtain ⟨k, m, hx, h⟩ := run_bind_eq_ok h
  obtain ⟨hs, hk⟩ := expect_eq_ok hx
  obtain ⟨b, n, hx, h⟩ := run_bind_eq_ok h
  obtain ⟨ts, hr, p, hp, hlev⟩ := hq hx
  obtain ⟨k₁, m₁, hx, h⟩ := run_bind_eq_ok h
  obtain ⟨hs₁, hk₁⟩ := expect_eq_ok hx
  obtain ⟨c, n₁, hx, h⟩ := run_bind_eq_ok h
  obtain ⟨us, hr₁, c', hc, hlev₁⟩ := he hx
  rw [run_bind_of_ok (spanFrom_run _), hr₁.previous hc.ne_nil] at h
  cases h
  refine ⟨k :: (ts ++ k₁ :: us), .cons hs (hr.append (.cons hs₁ hr₁)), .repeatUntil p c',
    .repeatUntil hk hp hk₁ hc, ?_⟩
  simp only [Statement.levels, List.forall_mem_append, List.forall_mem_cons]
  exact ⟨hb, hlev, hb, hlev₁⟩

theorem assignment_finds (he : Finds e (IsExpression limit depth)) :
    Finds (assignment e) (IsStatement limit depth) := by
  intro st st' x h
  have hb : limit - depth ≤ limit := Nat.sub_le limit depth
  obtain ⟨t, m, hx, h⟩ := run_bind_eq_ok h
  obtain ⟨hs, ht⟩ := expect_eq_ok hx
  obtain ⟨k, m₁, hx, h⟩ := run_bind_eq_ok h
  obtain ⟨hs₁, hk⟩ := expect_eq_ok hx
  obtain ⟨y, n, hx, h⟩ := run_bind_eq_ok h
  obtain ⟨ts, hr, e', he', hlev⟩ := he hx
  rw [run_bind_of_ok (spanFrom_run _), hr.previous he'.ne_nil] at h
  cases h
  refine ⟨t :: k :: ts, .cons hs (.cons hs₁ hr), .assign t.text e', .assign ht hk he', ?_⟩
  simp only [Statement.levels, List.forall_mem_cons]
  exact ⟨hb, hb, hlev⟩

theorem readStatement_finds : Finds readStatement (IsStatement limit depth) := by
  intro st st' x h
  have hb : limit - depth ≤ limit := Nat.sub_le limit depth
  obtain ⟨k, m, hx, h⟩ := run_bind_eq_ok h
  obtain ⟨hs, hk⟩ := expect_eq_ok hx
  obtain ⟨t, m₁, hx, h⟩ := run_bind_eq_ok h
  obtain ⟨hs₁, ht⟩ := expect_eq_ok hx
  cases h
  exact ⟨[k, t], .cons hs hs₁.reads, .read t.text, .read hk ht, by simp [Statement.levels, hb]⟩

theorem writeStatement_finds (he : Finds e (IsExpression limit depth)) :
    Finds (writeStatement e) (IsStatement limit depth) := by
  intro st st' x h
  have hb : limit - depth ≤ limit := Nat.sub_le limit depth
  obtain ⟨k, m, hx, h⟩ := run_bind_eq_ok h
  obtain ⟨hs, hk⟩ := expect_eq_ok hx
  obtain ⟨y, n, hx, h⟩ := run_bind_eq_ok h
  obtain ⟨ts, hr, e', he', hlev⟩ := he hx
  rw [run_bind_of_ok (spanFrom_run _), hr.previous he'.ne_nil] at h
  cases h
  refine ⟨k :: ts, .cons hs hr, .write e', .write hk he', ?_⟩
  simp only [Statement.levels, List.forall_mem_cons]
  exact ⟨hb, hlev⟩

theorem statement_finds (he : Finds e (IsExpression limit depth))
    (hq : Finds q (IsSequence limit depth)) :
    Finds (statement e q) (IsStatement limit depth) := by
  intro st st' x h
  rw [statement, run_bind_of_ok peekKind_run] at h
  split at h
  · exact conditional_finds he hq h
  · exact repetition_finds he hq h
  · exact assignment_finds he h
  · exact readStatement_finds h
  · exact writeStatement_finds he h
  · cases h

end

theorem IsSequence.last {ts : List Token} {s : Statement Span} (hd : depth + 1 ≤ limit)
    (hs : IsStatement limit depth ts s) : IsSequence limit (depth + 1) ts (.last s) := by
  obtain ⟨s', hy, hlev⟩ := hs
  have hb : limit - depth = limit - (depth + 1) + 1 := by omega
  rw [hb] at hlev
  exact ⟨.last s', .last hy, hlev⟩

theorem IsSequence.cons {ts us : List Token} {s : Statement Span} {b : Block Span} {k : Token}
    (hd : depth + 1 ≤ limit) (hs : IsStatement limit depth ts s) (hk : k.kind = .semicolon)
    (hq : IsSequence limit (depth + 1) us b) :
    IsSequence limit (depth + 1) (ts ++ k :: us) (.cons s b) := by
  obtain ⟨s', hy, hlev⟩ := hs
  obtain ⟨q, hq, hlev'⟩ := hq
  have hb : limit - depth = limit - (depth + 1) + 1 := by omega
  rw [hb] at hlev
  refine ⟨.cons s' q, .cons hy hk hq, ?_⟩
  simp only [Sequence.levels, List.forall_mem_append, List.forall_mem_cons]
  exact ⟨hlev, by omega, hlev'⟩

theorem moreStatements_finds (hd : depth + 1 ≤ limit) {item : Parser (Statement Span)}
    (hitem : Finds item (IsStatement limit depth)) {before : List (Statement Span)}
    {s : Statement Span} {ts : List Token} (hs : IsStatement limit depth ts s)
    {bound : List Token} {st st' : State} {x : Block Span}
    (h : (moreStatements item before s bound).run st = .ok (x, st')) :
    ∃ us b, st.Reads us st' ∧ IsSequence limit (depth + 1) (ts ++ us) b ∧
      x = before.foldl (fun b t => .cons t b) b := by
  induction bound generalizing before s ts st with
  | nil =>
    cases h
    exact ⟨[], _, .nil _, by simpa using IsSequence.last hd hs, rfl⟩
  | cons t bound ih =>
    rw [moreStatements, run_bind_of_ok peekKind_run] at h
    split at h
    · rename_i hkind
      obtain ⟨u, m, ha, h⟩ := run_bind_eq_ok h
      obtain ⟨k, hst, hk⟩ := advance_eq_ok hkind ha
      obtain ⟨y, n, hy, h⟩ := run_bind_eq_ok h
      obtain ⟨us, hr, hs'⟩ := hitem hy
      obtain ⟨vs, b, hr', hb, rfl⟩ := ih hs' h
      refine ⟨k :: (us ++ vs), .cons s b, .cons hst (hr.append hr'), ?_, rfl⟩
      exact IsSequence.cons hd hs hk hb
    · cases h
      exact ⟨[], _, .nil _, by simpa using IsSequence.last hd hs, rfl⟩

theorem sequence_finds (hd : depth ≤ limit) :
    Finds (sequence limit depth) (IsSequence limit depth) := by
  induction depth with
  | zero =>
    intro st st' x h
    rw [sequence, tooDeep_run] at h
    cases h
  | succ depth ih =>
    intro st st' x h
    have hitem : Finds (statement (expression limit depth) (sequence limit depth))
        (IsStatement limit depth) :=
      statement_finds (expression_finds (by omega)) (ih (by omega))
    rw [sequence] at h
    obtain ⟨s, m, hx, h⟩ := run_bind_eq_ok h
    obtain ⟨ts, hr, hs⟩ := hitem hx
    rw [run_bind_of_ok get_run] at h
    obtain ⟨us, b, hr', hb, rfl⟩ := moreStatements_finds hd hitem hs h
    exact ⟨ts ++ us, hr.append hr', hb⟩

theorem program_finds {st st' : State} {b : Block Span}
    (h : (program limit).run st = .ok (b, st')) :
    ∃ ts, st.Reads ts st' ∧ IsSequence limit limit ts b ∧ st'.ahead.tokens = [] := by
  cases ht : st.ahead.tokens.head? with
  | none =>
    rw [program, run_bind_of_ok peek_run, ht] at h
    cases h
  | some t =>
    rw [program_of_some ht] at h
    obtain ⟨b', m, hx, h⟩ := run_bind_eq_ok h
    obtain ⟨ts, hr, hq⟩ := sequence_finds (Nat.le_refl limit) hx
    rw [run_bind_of_ok peek_run] at h
    cases hm : m.ahead.tokens with
    | nil =>
      rw [hm] at h
      cases h
      exact ⟨ts, hr, hq, hm⟩
    | cons u us =>
      rw [hm] at h
      cases h

/-- Only the tree of a derivation is ever found, and its tokens are all those of the text. -/
theorem parse_eq_ok {text : String} {limits : Limits} {b : Block Span}
    (h : parse text limits = .ok b) : text.utf8ByteSize ≤ limits.maxLength ∧
      ∃ ts finish, ∃ q : Sequence, Scan.ofText text = ⟨ts, .complete finish⟩ ∧ q.Yields ts b ∧
        q.need ≤ limits.maxDepth := by
  by_cases hlen : text.utf8ByteSize ≤ limits.maxLength
  · refine ⟨hlen, ?_⟩
    cases hst : State.ofScan [] (.ofText text) with
    | error e =>
      rw [parse, if_pos hlen, hst] at h
      cases h
    | ok st =>
      rw [parse_of_state hlen hst] at h
      cases hrun : (program limits.maxDepth).run st with
      | error e =>
        rw [hrun] at h
        cases h
      | ok r =>
        obtain ⟨b', st'⟩ := r
        rw [hrun] at h
        cases h
        obtain ⟨ts, hr, ⟨q, hq, hlev⟩, hend⟩ := program_finds hrun
        obtain ⟨-, hahead⟩ := ofScan_eq_ok hst
        obtain ⟨finish, hf⟩ := st'.ending_of_nil hend
        have hscan : Scan.ofText text = ⟨ts, .complete finish⟩ := by
          have htokens := hr.tokens
          have hending := hr.ending
          rw [hend, List.append_nil, hahead] at htokens
          rw [hf, hahead] at hending
          rw [← htokens, hending]
        rw [Nat.sub_self] at hlev
        exact ⟨ts, finish, q, hscan, hq, (q.need_le_iff _).2 hlev⟩
  · rw [parse, if_neg hlen] at h
    cases h

end TinyLanguage.Parser
