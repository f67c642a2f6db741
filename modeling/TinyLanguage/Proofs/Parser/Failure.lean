import TinyLanguage.Proofs.Grammar.Prefix
import TinyLanguage.Proofs.Parser.Lockstep

namespace TinyLanguage.Parser

open Token (Kind)
open Token.Kind Grammar

/-- The kinds of token that a complaint calls for. -/
def expectedKinds (expected : String) : List Kind :=
  if expected = "statement" then [ifKw, repeatKw, identifier, readKw, writeKw]
  else if expected = "'(', number or identifier" then [leftParen, number, identifier]
  else (keywords ++ symbols ++ [identifier, number]).filter (·.describe = expected)

theorem expectedKinds_describe {k : Kind} (h : k ≠ .invalid) : expectedKinds k.describe = [k] := by
  cases k <;> first | rfl | exact absurd rfl h

theorem advance_eq_error {st : State} {k : Kind} {e : Error} (hk : st.kind? = some k)
    (h : advance.run st = .error e) :
    ∃ t rest, st.ahead = Scan.prepend [t] rest ∧ t.kind = k ∧ rest.fault? = some e := by
  obtain ⟨t, rest, hst, hkt⟩ := exists_prepend hk
  rw [advance_prepend hst] at h
  cases hs : State.ofScan (t :: st.read) rest with
  | error e' =>
    rw [hs] at h
    obtain rfl := Except.error.inj h
    exact ⟨t, rest, hst, hkt, ofScan_eq_error hs⟩
  | ok m =>
    rw [hs] at h
    cases h

theorem expect_eq_error {st : State} {k : Kind} {e : Error} (h : (expect k).run st = .error e) :
    e = st.unexpected k.describe ∨
      ∃ t rest, st.ahead = Scan.prepend [t] rest ∧ t.kind = k ∧ rest.fault? = some e := by
  by_cases hk : st.kind? = some k
  · right
    obtain ⟨t, rest, hst, hkt⟩ := exists_prepend hk
    rw [expect_prepend hst hkt] at h
    cases hs : State.ofScan (t :: st.read) rest with
    | error e' =>
      rw [hs] at h
      obtain rfl := Except.error.inj h
      exact ⟨t, rest, hst, hkt, ofScan_eq_error hs⟩
    | ok m =>
      rw [hs] at h
      cases h
  · left
    rw [expect_of_ne hk] at h
    exact (Except.error.inj h).symm

section

variable {ι κ α β : Type} {limit : Nat} {w : ι → List Lexeme} {w' : κ → List Lexeme}
  {pre ks : List Kind} {st m : State} {e : Error} {p : Parser α} {f : α → Parser β}

/-- What an error raised at `m` tells of the tokens behind `m`, which are of the kinds `ks`: they can
be gone on with, by each kind that is called for, and by the token that is followed by a fault. -/
inductive Blames (limit : Nat) (w : ι → List Lexeme) (ks : List Kind) (m : State) : Error → Prop
  | unexpected {expected : String} (hne : expectedKinds expected ≠ [])
    (h : ∀ k ∈ expectedKinds expected, Opens w (ks ++ [k])) :
    Blames limit w ks m (m.unexpected expected)
  | tooDeep (h : Opens w ks) : Blames limit w ks m (.tooDeep limit m.here)
  | fault {t : Token} {rest : Scan} {e : Error} (hm : m.ahead = rest.prepend [t])
    (he : rest.fault? = some e) (h : Opens w (ks ++ [t.kind])) : Blames limit w ks m e

theorem Blames.lift (h : Blames limit w ks m e) (hw : ∀ ls, Opens w ls → Opens w' (pre ++ ls)) :
    Blames limit w' (pre ++ ks) m e := by
  cases h with
  | unexpected hne h =>
    refine .unexpected hne fun k hk => ?_
    rw [List.append_assoc]
    exact hw _ (h k hk)
  | tooDeep h => exact .tooDeep (hw _ h)
  | fault hm he h =>
    refine .fault hm he ?_
    rw [List.append_assoc]
    exact hw _ h

/-- If `p` fails at `st`, behind tokens of the kinds `pre`, then the tokens up to the place of the
error can be gone on with. -/
def FailsAt (limit : Nat) (w : ι → List Lexeme) (pre : List Kind) (st : State)
    (p : Parser α) : Prop :=
  ∀ e, p.run st = .error e → ∃ ts m, st.Reads ts m ∧ Blames limit w (pre ++ ts.map Token.kind) m e

def Fails (limit : Nat) (w : ι → List Lexeme) (pre : List Kind) (p : Parser α) : Prop :=
  ∀ st, FailsAt limit w pre st p

theorem FailsAt.bind (hp : FailsAt limit w pre st p)
    (hf : ∀ a m, p.run st = .ok (a, m) →
      ∃ ts, st.Reads ts m ∧ FailsAt limit w (pre ++ ts.map Token.kind) m (f a)) :
    FailsAt limit w pre st (p >>= f) := by
  intro e h
  cases hr : p.run st with
  | error e' =>
    rw [run_bind_of_error hr] at h
    obtain rfl := Except.error.inj h
    exact hp _ hr
  | ok r =>
    obtain ⟨a, m⟩ := r
    rw [run_bind_of_ok hr] at h
    obtain ⟨ts, hts, hfa⟩ := hf a m hr
    obtain ⟨us, n, hus, hn⟩ := hfa e h
    refine ⟨ts ++ us, n, hts.append hus, ?_⟩
    rwa [List.map_append, ← List.append_assoc]

theorem Fails.lift (h : Fails limit w [] p) (hw : ∀ ls, Opens w ls → Opens w' (pre ++ ls)) :
    Fails limit w' pre p := by
  intro st e he
  obtain ⟨ts, m, hts, hm⟩ := h st e he
  exact ⟨ts, m, hts, hm.lift hw⟩

theorem failsAt_pure (a : α) : FailsAt limit w pre st (pure a : Parser α) := by
  intro e h
  cases h

theorem failsAt_tooDeep (h : Opens w pre) :
    FailsAt limit w pre st (tooDeep limit : Parser α) := by
  intro e he
  obtain rfl := Except.error.inj he
  exact ⟨[], st, .nil st, .tooDeep (by simpa using h)⟩

theorem failsAt_unexpected {expected : String} (hne : expectedKinds expected ≠ [])
    (h : ∀ k ∈ expectedKinds expected, Opens w (pre ++ [k])) :
    FailsAt limit w pre st (unexpected expected : Parser α) := by
  intro e he
  obtain rfl := Except.error.inj he
  exact ⟨[], st, .nil st, by simpa using .unexpected hne h⟩

theorem failsAt_peekKind {f : Option Kind → Parser α} (h : FailsAt limit w pre st (f st.kind?)) :
    FailsAt limit w pre st (peekKind >>= f) := by
  intro e he
  rw [run_bind_of_ok peekKind_run] at he
  exact h e he

theorem failsAt_peekOperator {select : Kind → Option Operator} {f : Option Operator → Parser α}
    (h : FailsAt limit w pre st (f (st.kind?.bind select))) :
    FailsAt limit w pre st (peekOperator select >>= f) := by
  intro e he
  rw [run_bind_of_ok (peekOperator_run select)] at he
  exact h e he

theorem failsAt_spanFrom_bind {s : Span} {f : Span → Parser α}
    (h : ∀ s', FailsAt limit w pre st (f s')) : FailsAt limit w pre st (spanFrom s >>= f) := by
  intro e he
  rw [run_bind_of_ok (spanFrom_run s)] at he
  exact h _ e he

theorem failsAt_advance_bind {k : Kind} {f : Unit → Parser α} (hk : st.kind? = some k)
    (h : Opens w (pre ++ [k])) (hf : ∀ m, FailsAt limit w (pre ++ [k]) m (f ())) :
    FailsAt limit w pre st (advance >>= f) := by
  refine FailsAt.bind ?_ fun _ m hm => ?_
  · intro e he
    obtain ⟨t, rest, hst, rfl, hrest⟩ := advance_eq_error hk he
    exact ⟨[], st, .nil st, .fault hst hrest (by simpa using h)⟩
  · obtain ⟨t, hs, rfl⟩ := advance_eq_ok hk hm
    exact ⟨[t], hs.reads, hf m⟩

theorem failsAt_expect {k : Kind} (hne : k ≠ .invalid) (h : Opens w (pre ++ [k])) :
    FailsAt limit w pre st (expect k) := by
  intro e he
  refine ⟨[], st, .nil st, ?_⟩
  rw [List.map_nil, List.append_nil]
  rcases expect_eq_error he with rfl | ⟨t, rest, hst, rfl, hrest⟩
  · have hkinds := expectedKinds_describe hne
    exact .unexpected (by simp [hkinds]) (by simpa [hkinds] using h)
  · exact .fault hst hrest h

theorem failsAt_expect_bind {k : Kind} {f : Token → Parser α} (hne : k ≠ .invalid)
    (h : Opens w (pre ++ [k])) (hf : ∀ t m, FailsAt limit w (pre ++ [k]) m (f t)) :
    FailsAt limit w pre st (expect k >>= f) := by
  refine FailsAt.bind (failsAt_expect hne h) fun t m hm => ?_
  obtain ⟨hs, rfl⟩ := expect_eq_ok hm
  exact ⟨[t], hs.reads, hf t m⟩

theorem Finds.failsAt_bind {R : List Token → α → Prop} (hfind : Finds p R)
    (hp : FailsAt limit w pre st p)
    (hf : ∀ a m ts, R ts a → FailsAt limit w (pre ++ ts.map Token.kind) m (f a)) :
    FailsAt limit w pre st (p >>= f) := by
  refine hp.bind fun a m hm => ?_
  obtain ⟨ts, hts, hR⟩ := hfind hm
  exact ⟨ts, hts, hf a m ts hR⟩

end

theorem kinds_of_lexemes {ls : List Lexeme} {ts : List Token} (h : ls = ts.map Token.lexeme) :
    ts.map Token.kind = ls.map Lexeme.kind := by
  rw [h]
  exact fits_lexemes ts

section

variable {ι : Type} {limit bound depth : Nat} {w : ι → List Lexeme}

theorem opens_factor_expected {k : Kind} (hk : k ∈ expectedKinds "'(', number or identifier") :
    Opens Factor.lexemes [k] := by
  have hk : k = leftParen ∨ k = number ∨ k = identifier := by simpa [expectedKinds] using hk
  rcases hk with rfl | rfl | rfl
  · exact opens_expression_nil.parens
  · exact opens_self (Factor.number "0")
  · exact opens_self (Factor.identifier "x")

theorem IsExpression.kinds {ts : List Token} {x : Expr Span} (h : IsExpression limit depth ts x) :
    ∃ e : Expression, ts.map Token.kind = e.lexemes.map Lexeme.kind := by
  obtain ⟨e, he, -⟩ := h
  exact ⟨e, kinds_of_lexemes he.lexemes⟩

theorem IsSequence.kinds {ts : List Token} {x : Block Span} (h : IsSequence limit depth ts x) :
    ∃ q : Sequence, ts.map Token.kind = q.lexemes.map Lexeme.kind := by
  obtain ⟨q, hq, -⟩ := h
  exact ⟨q, kinds_of_lexemes hq.lexemes⟩

theorem factor_fails {e : Parser (Expr Span)} (he : Fails limit Expression.lexemes [] e)
    (hfind : Finds e (IsExpression limit depth)) : Fails limit Factor.lexemes [] (factor e) := by
  intro st
  unfold factor
  refine failsAt_peekKind ?_
  generalize hk : st.kind? = k
  split
  · refine failsAt_advance_bind hk (opens_factor_expected (by decide)) fun m => ?_
    refine hfind.failsAt_bind (he.lift (fun ls hls => hls.parens) m) fun x n ts hx => ?_
    obtain ⟨e', hts⟩ := hx.kinds
    rw [hts]
    have hopens := opens_self (w := Factor.lexemes) (.parens e')
    exact failsAt_expect_bind (by decide) (by simpa [Factor.lexemes] using hopens) fun _ _ =>
      failsAt_pure _
  · exact failsAt_expect_bind (by decide) (opens_factor_expected (by decide)) fun _ _ =>
      failsAt_pure _
  · exact failsAt_expect_bind (by decide) (opens_factor_expected (by decide)) fun _ _ =>
      failsAt_pure _
  · exact failsAt_unexpected (by decide) fun k hk => opens_factor_expected hk

/-- Operations behind tokens of which `P` holds. The kinds `ks` of an operand and its operator keep
`P`, and they can be gone on with before they are complete. -/
theorem operations_fails {select : Kind → Option Operator} {operand : Nat → Parser (Expr Span)}
    {Q : Nat → List Token → Expr Span → Prop} {P : List Kind → Prop} (hle : depth ≤ bound)
    (hfind : ∀ d ≤ bound, Finds (operand d) (Q d))
    (hfail : ∀ {pre k op}, P pre → select k = some op →
      Opens w (pre ++ [k]) ∧ ∀ d ≤ bound, Fails limit w (pre ++ [k]) (operand d))
    (hmore : ∀ {pre k op d ts x}, P pre → select k = some op → Q d ts x →
      P (pre ++ k :: ts.map Token.kind))
    {pre : List Kind} (hpre : P pre) (left : Expr Span) :
    Fails limit w pre (operations select limit operand depth left) := by
  induction depth generalizing pre left with
  | zero =>
    intro st
    rw [operations]
    refine failsAt_peekOperator ?_
    cases hop : st.kind?.bind select with
    | none => exact failsAt_pure _
    | some op =>
      obtain ⟨k, -, hsel⟩ := Option.bind_eq_some_iff.1 hop
      exact failsAt_tooDeep (hfail hpre hsel).1.of_append
  | succ depth ih =>
    intro st
    rw [operations]
    refine failsAt_peekOperator ?_
    cases hop : st.kind?.bind select with
    | none => exact failsAt_pure _
    | some op =>
      obtain ⟨k, hk, hsel⟩ := Option.bind_eq_some_iff.1 hop
      obtain ⟨hopens, hoperand⟩ := hfail hpre hsel
      refine failsAt_advance_bind hk hopens fun m => ?_
      have hd : depth ≤ bound := by omega
      refine Finds.failsAt_bind (hfind depth hd) (hoperand depth hd m) fun right n ts hts => ?_
      rw [List.append_assoc]
      exact ih hd (hmore hpre hsel hts) _ n

theorem product_fails (hle : depth ≤ bound) (hb : bound ≤ limit)
    (he : ∀ d ≤ bound, Fails limit Expression.lexemes [] (expression limit d)) :
    Fails limit Term.lexemes [] (product limit depth) := by
  intro st
  have hfind : ∀ d ≤ bound, Finds (factor (expression limit d)) (IsFactor limit d) :=
    fun d hd => factor_finds (expression_finds (by omega))
  have hfail : ∀ d ≤ bound, Fails limit Factor.lexemes [] (factor (expression limit d)) :=
    fun d hd => factor_fails (he d hd) (expression_finds (by omega))
  refine Finds.failsAt_bind (hfind depth hle)
    ((hfail depth hle).lift (fun ls hls => hls.factor) st) fun x m ts hx => ?_
  obtain ⟨f, hf, -⟩ := hx
  refine operations_fails (Q := IsFactor limit)
    (P := fun ks => ∃ t : Term, ks = t.lexemes.map Lexeme.kind) hle hfind ?_ ?_
    ⟨.factor f, kinds_of_lexemes hf.lexemes⟩ x m
  · rintro pre k op ⟨t, rfl⟩ hsel
    obtain ⟨sign, rfl, -⟩ := multiplicative_eq_some hsel
    have hopens : ∀ ls, Opens Factor.lexemes ls →
        Opens Term.lexemes (t.lexemes.map Lexeme.kind ++ [sign.kind] ++ ls) := by
      intro ls hls
      rw [List.append_assoc]
      exact hls.operand t sign
    exact ⟨(opens_nil (Factor.number "0")).operand t sign, fun d hd => (hfail d hd).lift hopens⟩
  · rintro pre k op d ts x ⟨t, rfl⟩ hsel ⟨g, hg, -⟩
    obtain ⟨sign, rfl, -⟩ := multiplicative_eq_some hsel
    exact ⟨.more t sign g, by simp [Term.lexemes, kinds_of_lexemes hg.lexemes]⟩

theorem sum_fails (hle : depth ≤ bound) (hb : bound ≤ limit)
    (he : ∀ d ≤ bound, Fails limit Expression.lexemes [] (expression limit d)) :
    Fails limit Sum.lexemes [] (sum limit depth) := by
  intro st
  have hfind : ∀ d ≤ bound, Finds (product limit d) (IsTerm limit d) :=
    fun d hd => product_finds (by omega) fun d' hd' => expression_finds (by omega)
  have hfail : ∀ d ≤ bound, Fails limit Term.lexemes [] (product limit d) :=
    fun d hd => product_fails hd hb he
  refine Finds.failsAt_bind (hfind depth hle)
    ((hfail depth hle).lift (fun ls hls => hls.term) st) fun x m ts hx => ?_
  obtain ⟨t, ht, -⟩ := hx
  refine operations_fails (Q := IsTerm limit)
    (P := fun ks => ∃ s : Sum, ks = s.lexemes.map Lexeme.kind) hle hfind ?_ ?_
    ⟨.term t, kinds_of_lexemes ht.lexemes⟩ x m
  · rintro pre k op ⟨s, rfl⟩ hsel
    obtain ⟨sign, rfl, -⟩ := additive_eq_some hsel
    have hopens : ∀ ls, Opens Term.lexemes ls →
        Opens Sum.lexemes (s.lexemes.map Lexeme.kind ++ [sign.kind] ++ ls) := by
      intro ls hls
      rw [List.append_assoc]
      exact hls.summand s sign
    exact ⟨(opens_nil (Term.factor (.number "0"))).summand s sign,
      fun d hd => (hfail d hd).lift hopens⟩
  · rintro pre k op d ts x ⟨s, rfl⟩ hsel ⟨t, ht, -⟩
    obtain ⟨sign, rfl, -⟩ := additive_eq_some hsel
    exact ⟨.more s sign t, by simp [Sum.lexemes, kinds_of_lexemes ht.lexemes]⟩

theorem expression_fails (hle : depth ≤ limit) :
    Fails limit Expression.lexemes [] (expression limit depth) := by
  induction depth using Nat.strongRecOn with
  | ind depth ih =>
    intro st
    cases depth with
    | zero =>
      rw [expression]
      exact failsAt_tooDeep opens_expression_nil
    | succ depth =>
      have he : ∀ d ≤ depth, Fails limit Expression.lexemes [] (expression limit d) :=
        fun d hd => ih d (by omega) (by omega)
      have hfind : Finds (sum limit depth) (IsSum limit depth) :=
        sum_finds (by omega) fun d hd => expression_finds (by omega)
      have hfail : Fails limit Sum.lexemes [] (sum limit depth) :=
        sum_fails (Nat.le_refl depth) (by omega) he
      rw [expression_succ]
      refine hfind.failsAt_bind (hfail.lift (fun ls hls => hls.sum) st) fun x m ts hx => ?_
      obtain ⟨l, hl, -⟩ := hx
      rw [List.nil_append, kinds_of_lexemes hl.lexemes]
      refine failsAt_peekOperator ?_
      cases hop : m.kind?.bind comparison? with
      | none => exact failsAt_pure _
      | some op =>
        obtain ⟨k, hk, hsel⟩ := Option.bind_eq_some_iff.1 hop
        obtain ⟨sign, rfl, -⟩ := comparison_eq_some hsel
        have hopens : ∀ ls, Opens Sum.lexemes ls →
            Opens Expression.lexemes (l.lexemes.map Lexeme.kind ++ [sign.kind] ++ ls) := by
          intro ls hls
          rw [List.append_assoc]
          exact hls.comparand l sign
        refine failsAt_advance_bind hk ((opens_nil l).comparand l sign) fun n => ?_
        exact hfind.failsAt_bind (hfail.lift hopens n) fun _ _ _ _ => failsAt_pure _

section

variable {e : Parser (Expr Span)} {q : Parser (Block Span)}

theorem conditional_fails (hfind : Finds e (IsExpression limit depth))
    (hfind' : Finds q (IsSequence limit depth)) (he : Fails limit Expression.lexemes [] e)
    (hq : Fails limit Sequence.lexemes [] q) :
    Fails limit Statement.lexemes [] (conditional e q) := by
  intro st
  refine failsAt_expect_bind (by decide) opens_expression_nil.condition fun _ m => ?_
  refine hfind.failsAt_bind (he.lift (fun ls hls => hls.condition) m) fun _ m ts hc => ?_
  obtain ⟨c, hts⟩ := hc.kinds
  rw [hts]
  refine failsAt_expect_bind (by decide) (by simpa using viable_nil.consequent c) fun _ m => ?_
  have hq₁ : Fails limit Statement.lexemes
      ([] ++ [ifKw] ++ c.lexemes.map Lexeme.kind ++ [thenKw]) q :=
    hq.lift fun ls hls => by simpa using hls.consequent c
  refine hfind'.failsAt_bind (hq₁ m) fun _ m ts ht => ?_
  obtain ⟨t, hts⟩ := ht.kinds
  rw [hts]
  refine failsAt_peekKind ?_
  generalize hk : m.kind? = k
  split
  · refine failsAt_advance_bind hk (by simpa using viable_nil.alternative c t) fun m => ?_
    have hq₂ : Fails limit Statement.lexemes ([] ++ [ifKw] ++ c.lexemes.map Lexeme.kind ++
        [thenKw] ++ t.lexemes.map Lexeme.kind ++ [elseKw]) q :=
      hq.lift fun ls hls => by simpa using hls.alternative c t
    refine hfind'.failsAt_bind (hq₂ m) fun _ m ts ha => ?_
    obtain ⟨a, hts⟩ := ha.kinds
    have hopens := opens_self (w := Statement.lexemes) (.ifThenElse c t a)
    rw [hts]
    refine failsAt_expect_bind (by decide) (by simpa [Statement.lexemes] using hopens)
      fun _ m => ?_
    exact failsAt_spanFrom_bind fun _ => failsAt_pure _
  · have hopens := opens_self (w := Statement.lexemes) (.ifThen c t)
    refine failsAt_expect_bind (by decide) (by simpa [Statement.lexemes] using hopens)
      fun _ m => ?_
    exact failsAt_spanFrom_bind fun _ => failsAt_pure _

theorem repetition_fails (hfind : Finds e (IsExpression limit depth))
    (hfind' : Finds q (IsSequence limit depth)) (he : Fails limit Expression.lexemes [] e)
    (hq : Fails limit Sequence.lexemes [] q) :
    Fails limit Statement.lexemes [] (repetition e q) := by
  intro st
  refine failsAt_expect_bind (by decide) viable_nil.body fun _ m => ?_
  refine hfind'.failsAt_bind (hq.lift (fun ls hls => hls.body) m) fun _ m ts hb => ?_
  obtain ⟨b, hts⟩ := hb.kinds
  rw [hts]
  refine failsAt_expect_bind (by decide) (by simpa using opens_expression_nil.until b)
    fun _ m => ?_
  have he' : Fails limit Statement.lexemes
      ([] ++ [repeatKw] ++ b.lexemes.map Lexeme.kind ++ [untilKw]) e :=
    he.lift fun ls hls => by simpa using hls.until b
  refine hfind.failsAt_bind (he' m) fun _ m ts _ => ?_
  exact failsAt_spanFrom_bind fun _ => failsAt_pure _

theorem assignment_fails (hfind : Finds e (IsExpression limit depth))
    (he : Fails limit Expression.lexemes [] e) :
    Fails limit Statement.lexemes [] (assignment e) := by
  intro st
  refine failsAt_expect_bind (by decide) opens_expression_nil.assigned.of_append fun _ m => ?_
  refine failsAt_expect_bind (by decide) opens_expression_nil.assigned fun _ m => ?_
  refine hfind.failsAt_bind (he.lift (fun ls hls => hls.assigned) m) fun _ m ts _ => ?_
  exact failsAt_spanFrom_bind fun _ => failsAt_pure _

theorem readStatement_fails : Fails limit Statement.lexemes [] readStatement := by
  intro st
  have hopens := opens_self (w := Statement.lexemes) (.read "x")
  refine failsAt_expect_bind (by decide) hopens.of_append fun _ m => ?_
  exact failsAt_expect_bind (by decide) hopens fun _ _ => failsAt_pure _

theorem writeStatement_fails (hfind : Finds e (IsExpression limit depth))
    (he : Fails limit Expression.lexemes [] e) :
    Fails limit Statement.lexemes [] (writeStatement e) := by
  intro st
  refine failsAt_expect_bind (by decide) opens_expression_nil.written fun _ m => ?_
  refine hfind.failsAt_bind (he.lift (fun ls hls => hls.written) m) fun _ m ts _ => ?_
  exact failsAt_spanFrom_bind fun _ => failsAt_pure _

theorem opens_statement_expected {k : Kind} (hk : k ∈ expectedKinds "statement") :
    Opens Statement.lexemes [k] := by
  have hk : k = ifKw ∨ k = repeatKw ∨ k = identifier ∨ k = readKw ∨ k = writeKw := by
    simpa [expectedKinds] using hk
  have hread := opens_self (w := Statement.lexemes) (.read "x")
  rcases hk with rfl | rfl | rfl | rfl | rfl
  · exact opens_expression_nil.condition
  · exact viable_nil.body
  · exact opens_expression_nil.assigned.of_append
  · exact hread.of_append
  · exact opens_expression_nil.written

theorem statement_fails (hfind : Finds e (IsExpression limit depth))
    (hfind' : Finds q (IsSequence limit depth)) (he : Fails limit Expression.lexemes [] e)
    (hq : Fails limit Sequence.lexemes [] q) :
    Fails limit Statement.lexemes [] (statement e q) := by
  intro st
  refine failsAt_peekKind ?_
  split
  · exact conditional_fails hfind hfind' he hq st
  · exact repetition_fails hfind hfind' he hq st
  · exact assignment_fails hfind he st
  · exact readStatement_fails st
  · exact writeStatement_fails hfind he st
  · exact failsAt_unexpected (by decide) fun k hk => opens_statement_expected hk

end

theorem moreStatements_fails {item : Parser (Statement Span)}
    (hfind : Finds item (IsStatement limit depth)) (hfail : Fails limit Statement.lexemes [] item)
    {pre : List Kind} (hpre : ∀ ls, Viable ls → Viable (pre ++ semicolon :: ls))
    (before : List (Statement Span)) (s : Statement Span) (bound : List Token) :
    Fails limit Sequence.lexemes pre (moreStatements item before s bound) := by
  induction bound generalizing pre before s with
  | nil =>
    intro st
    exact failsAt_pure _
  | cons t bound ih =>
    intro st
    rw [moreStatements]
    refine failsAt_peekKind ?_
    generalize hk : st.kind? = k
    split
    · refine failsAt_advance_bind hk (hpre [] viable_nil) fun m => ?_
      have hitem : Fails limit Sequence.lexemes (pre ++ [semicolon]) item :=
        hfail.lift fun ls hls => by simpa using hpre ls hls.statement
      refine hfind.failsAt_bind (hitem m) fun next n ts hts => ?_
      obtain ⟨s', hs', -⟩ := hts
      refine ih (fun ls hls => ?_) _ _ n
      simpa [kinds_of_lexemes hs'.lexemes] using hpre _ (hls.next s')
    · exact failsAt_pure _

theorem sequence_fails (hle : depth ≤ limit) :
    Fails limit Sequence.lexemes [] (sequence limit depth) := by
  induction depth with
  | zero => exact fun st => failsAt_tooDeep viable_nil
  | succ depth ih =>
    intro st
    have hd : depth ≤ limit := by omega
    have hfind : Finds (statement (expression limit depth) (sequence limit depth))
        (IsStatement limit depth) := statement_finds_of_le hd
    have hfail : Fails limit Statement.lexemes []
        (statement (expression limit depth) (sequence limit depth)) :=
      statement_fails (expression_finds hd) (sequence_finds hd) (expression_fails hd) (ih hd)
    refine hfind.failsAt_bind (hfail.lift (fun ls hls => hls.statement) st) fun x m ts hx => ?_
    obtain ⟨s, hs, -⟩ := hx
    rw [List.nil_append, kinds_of_lexemes hs.lexemes]
    intro e h
    exact moreStatements_fails hfind hfail (fun ls hls => hls.next s) [] x m.ahead.tokens m e h

/-- Where no program is found, what has been read up to the place of the error begins one. -/
theorem program_fails {st : State} {e : Error} (h : (program limit).run st = .error e) :
    st.ahead.tokens = [] ∧ e = .noStatements ∨
      ∃ ts m, st.Reads ts m ∧ (Blames limit Sequence.lexemes (ts.map Token.kind) m e ∨
        ∃ t us, m.ahead.tokens = t :: us ∧ e = .trailing t.describe t.span ∧
          Viable (ts.map Token.kind)) := by
  cases hk : st.kind? with
  | none =>
    have ht : st.ahead.tokens = [] := by simpa [State.kind?] using hk
    rw [program_of_none hk, complain_run, Complaint.error, ht] at h
    exact .inl ⟨ht, (Except.error.inj h).symm⟩
  | some k =>
    right
    rw [program_of_kind hk] at h
    cases hr : (sequence limit limit).run st with
    | error e' =>
      rw [run_bind_of_error hr] at h
      obtain rfl := Except.error.inj h
      obtain ⟨ts, m, hts, hm⟩ := sequence_fails (Nat.le_refl limit) st _ hr
      exact ⟨ts, m, hts, .inl hm⟩
    | ok r =>
      obtain ⟨b, m⟩ := r
      rw [run_bind_of_ok hr, lone, run_bind_of_ok peekKind_run] at h
      obtain ⟨ts, hts, hq⟩ := sequence_finds (Nat.le_refl limit) hr
      obtain ⟨q, hkinds⟩ := hq.kinds
      cases hm : m.ahead.tokens with
      | nil =>
        rw [State.kind?, hm] at h
        cases h
      | cons t us =>
        rw [State.kind?, hm] at h
        simp only [List.head?_cons, Option.map_some, complain_run, Complaint.error, hm] at h
        refine ⟨ts, m, hts, .inr ⟨t, us, hm, (Except.error.inj h).symm, ?_⟩⟩
        rw [hkinds]
        exact opens_self q

end

end TinyLanguage.Parser
