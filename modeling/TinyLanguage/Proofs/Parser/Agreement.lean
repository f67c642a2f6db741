import TinyLanguage.Proofs.Parser.Lockstep
import TinyLanguage.Proofs.Parser.Routine

namespace TinyLanguage.Reader

namespace Routine

open Token.Kind

variable {start : Reader} {α γ : Type} {b limit d spare : Nat} {g : Gauge} {view : γ → α}
  {p : Routine start α} {q : Parser γ} {run m : Run start} {R : Run start → Prop}

/-- Wherever `d` levels are left, and the depth could be greater by `spare`, the routine ends as the
parser does. -/
def Serves (b limit d spare : Nat) (view : γ → α) (p : Routine start α) (q : Parser γ) : Prop :=
  ∀ run : Run start, run.Regular b limit → run.now.depth + d = limit →
    run.now.depth + spare ≤ run.count + b → Ends b limit view p run q run.Completes

theorem Serves.ends (h : Serves b limit d 1 view p q) (hreg : run.Regular b limit)
    (hd : run.now.depth + d = limit) (hm : m.Regular b limit) (hnext : run.Completes m) :
    Ends b limit view p m q run.Completes := by
  have hdepth := hnext.depth
  have hcount := hnext.count
  have hle := hreg.now.2
  exact (h m hm (by omega) (by omega)).mono fun _ => hnext.trans

theorem ends_expect_behind (kind : Token.Kind) (hm : m.Regular b limit) (hnext : run.Completes m) :
    Ends b limit id (expect kind) m (Parser.expect kind) run.Completes :=
  (ends_expect hm kind).mono fun _ => hnext.trans

theorem ends_spanFrom {s : Span} {f : Span → α} {f' : Span → γ} (hm : m.Regular b limit)
    (hdone : R m) (h : ∀ t, view (f' t) = f t) :
    Ends b limit view (do return f (← spanFrom s)) m (do return f' (← Parser.spanFrom s)) R :=
  .spanFrom (ends_pure hm hdone (h _))

theorem ends_closing {s : Span} {f : Span → α} {f' : Span → γ} (kind : Token.Kind)
    (hm : m.Regular b limit) (hnext : run.Completes m) (h : ∀ t, view (f' t) = f t) :
    Ends b limit view
      (do let _ ← expect kind
          return f (← spanFrom s)) m
      (do let _ ← Parser.expect kind
          return f' (← Parser.spanFrom s)) run.Completes :=
  (ends_expect_behind kind hm hnext).bind fun _ _ hm hdone => ends_spanFrom hm hdone h

theorem Ends.descend {f : Unit → Routine start α} (hlimit : run.now.depth < g.limit)
    (hlargest : run.now.depth < g.largest) (h : Ends b g.limit view (f ()) (run.call .deepen) q R) :
    Ends b g.limit view (g.descend >>= f) run q R := by
  have hdescend := outcome_bind_of_ok (f := f) (outcome_descend_of_lt hlimit hlargest)
  cases h with
  | found h hreg hcount hR hq =>
    rw [run.count_call_deepen] at hcount
    exact .found (hdescend.trans h) hreg hcount hR fun st hst => hq st (hst.withDepth _)
  | failed h hreg hcount hdeep hq =>
    rw [run.count_call_deepen] at hcount
    exact .failed (hdescend.trans h) hreg hcount hdeep fun st hst => hq st (hst.withDepth _)

theorem outcome_nested (part : Part) (run : Run start) :
    (g.nested part).outcome run =
      ((g.descend : Routine start _).outcome run).bind fun
        | (.error e, run') => some (.error e, run')
        | (.ok (), run') => ((g.body part).outcome run').map fun x =>
          (x.1, x.2.call (.restore run.now.depth)) := by
  rw [outcome, Gauge.nested]
  refine congrArg (Option.bind _) (funext fun x => ?_)
  obtain ⟨e | u, run'⟩ := x
  · rfl
  · change Option.bind _ _ = Option.map _ _
    rw [Option.map_eq_bind]
    rfl

theorem nested_zero {view : γ → Draft} (part : Part) :
    Serves b g.limit 0 1 view (g.nested part : Routine start _) (Parser.tooDeep g.limit) := by
  intro run hreg hd hspare
  have hle : g.limit ≤ run.now.depth := by omega
  have houtcome : (g.nested part).outcome run =
      some (.error (.tooDeep g.limit run.now.here), run) := by
    rw [outcome_nested, outcome_descend_of_le hle]
    rfl
  refine .failed houtcome hreg (Nat.le_refl _) ?_ fun st hst => ?_
  · exact fun _ _ _ => by omega
  · rw [Parser.tooDeep_run, hst.here]

theorem nested_succ (hg : g.Suffices start b) {view : γ → Draft} {part : Part}
    (h : Serves b g.limit d 0 view (g.body part : Routine start _) q) :
    Serves b g.limit (d + 1) 1 view (g.nested part : Routine start _) q := by
  intro run hreg hd hspare
  have hlt : run.now.depth < g.limit := by omega
  have hreg' := hreg.call_deepen hlt (by omega)
  have hdeeper : (run.call .deepen).now.depth = run.now.depth + 1 := rfl
  have hroom : run.now.depth < g.largest := Run.lt_largest hg hlt (by omega)
  have houtcome : (g.nested part).outcome run =
      ((g.body part).outcome (run.call .deepen)).map fun x =>
        (x.1, x.2.call (.restore run.now.depth)) := by
    rw [outcome_nested, outcome_descend_of_lt hlt hroom]
    rfl
  cases h _ hreg' (by omega) hreg'.now.2 with
  | @found a m h hm hcount hdone hq =>
    rw [h] at houtcome
    rw [run.count_call_deepen] at hcount
    have hrestored := hdone.toBefore.of_deepen.restore
    refine .found houtcome (hreg.call_restore hm hcount) (Nat.le_of_lt hrestored.count) hrestored
      fun st hst => ?_
    obtain ⟨st', hst', hmirrors⟩ := hq st (hst.withDepth _)
    exact ⟨st', hst', hmirrors.withDepth _⟩
  | @failed e m h hm hcount hdeep hq =>
    rw [h] at houtcome
    rw [run.count_call_deepen] at hcount
    refine .failed houtcome (hreg.call_restore hm hcount) ?_ ?_ fun st hst => ?_
    · rwa [m.count_call_restore]
    · rwa [m.count_call_restore]
    · exact hq st (hst.withDepth _)

/-- Behind a chain the depth is what it was in front of it. -/
theorem ends_restore {first : Run start} (hfirst : first.Regular b limit)
    (hreg : run.Regular b limit) (hbefore : first.Before run) (c : γ) :
    Ends b limit view (do restore first.now.depth; return view c) run (pure c)
      first.Completes := by
  refine .found (outcome_bind_of_ok (outcome_restore _))
    (hfirst.call_restore hreg (Nat.le_of_lt hbefore.count)) ?_ hbefore.restore fun st hst => ?_
  · exact Nat.le_of_eq (run.count_call_restore _).symm
  · exact ⟨st, rfl, hst.withDepth _⟩

theorem draft_join (op : Operator) (left right : Expr Span) :
    (Expr.join op left right).draft = .join op left.draft right.draft := by
  rw [Draft.join, left.span_draft, right.span_draft]
  rfl

/-- The chain that began in the run `first` goes on at a greater depth, and ends at its own. -/
theorem moreOperands_ends {tier : Tier} {operand' : Nat → Parser (Expr Span)}
    (hg : g.Suffices start b)
    (hoperand : ∀ d' < d, Serves b g.limit d' 0 Expr.draft (g.operand tier : Routine start _)
      (operand' d')) {first : Run start} (hfirst : first.Regular b g.limit)
    (hreg : run.Regular b g.limit) (hd : run.now.depth + d = g.limit) (hbefore : first.Before run)
    (hroom : run.now.depth < run.count + b) (left : Expr Span) :
    Ends b g.limit Expr.draft (g.moreOperands tier first.now.depth left.draft) run
      (Parser.operations tier.operator? g.limit operand' d left) first.Completes := by
  -- Each round goes down one of the `d` levels left. The token of its operator makes up for it.
  induction d generalizing run left with
  | zero =>
    rw [Gauge.moreOperands, Parser.operations]
    refine .peekOperator ?_
    cases hop : (run.now.current.map Token.kind).bind tier.operator? with
    | none => exact ends_restore hfirst hreg hbefore left
    | some op =>
      refine .failed (outcome_bind_of_error (outcome_descend_of_le (by omega))) hreg
        (Nat.le_refl _) (fun _ _ _ => by omega) fun st hst => ?_
      rw [← hst.here]
      rfl
  | succ d ih =>
    rw [Gauge.moreOperands, Parser.operations]
    refine .peekOperator ?_
    cases hop : (run.now.current.map Token.kind).bind tier.operator? with
    | none => exact ends_restore hfirst hreg hbefore left
    | some op =>
      have hlt : run.now.depth < g.limit := by omega
      have hdeeper : (run.call .deepen).now.depth = run.now.depth + 1 := rfl
      obtain ⟨k, hk, -⟩ := Option.bind_eq_some_iff.1 hop
      obtain ⟨t, ht, -⟩ := Option.map_eq_some_iff.1 hk
      refine .descend hlt (Run.lt_largest hg hlt hroom)
        (ends_advance (hreg.call_deepen hlt hroom) ht ?_)
      intro m hm hnext
      have hdepth := hnext.depth
      refine (hoperand d (Nat.lt_succ_self d) m hm (by omega) hm.now.2).bind ?_
      intro right m' hm' hnext'
      have hdepth' := hnext'.depth
      have hcount := hnext.toBefore.of_deepen.count
      have hcount' := hnext'.count
      rw [← draft_join]
      exact ih (fun d' hd' => hoperand d' (Nat.lt_succ_of_lt hd')) hm' (by omega)
        (hbefore.trans (hnext.trans hnext').toBefore.of_deepen) (by omega) (.join op left right)

theorem factor_serves {e : Parser (Expr Span)}
    (he : Serves b g.limit d 1 Expr.draft (g.nested .expression : Routine start _) e) :
    Serves b g.limit d 0 Expr.draft (g.factor : Routine start _) (Parser.factor e) := by
  intro run hreg hd hspare
  rw [Gauge.factor, Parser.factor]
  refine .peekKind ?_
  cases hk : run.now.current.map Token.kind with
  | none => exact ends_unexpected hreg _
  | some k =>
    cases k with
    | leftParen =>
      obtain ⟨t, ht, -⟩ := Option.map_eq_some_iff.1 hk
      refine ends_advance hreg ht fun m hm h => ?_
      refine (he.ends hreg hd hm h).bind fun x m hm h => ?_
      exact (ends_expect_behind .rightParen hm h).bind fun _ m hm h => ends_pure hm h rfl
    | number => exact (ends_expect hreg .number).bind fun t m hm h => ends_pure hm h rfl
    | identifier => exact (ends_expect hreg .identifier).bind fun t m hm h => ends_pure hm h rfl
    | _ => exact ends_unexpected hreg _

theorem chain_serves (tier : Tier) (operand' : Nat → Parser (Expr Span))
    (hg : g.Suffices start b)
    (hoperand : ∀ d' ≤ d, Serves b g.limit d' 0 Expr.draft (g.operand tier : Routine start _)
      (operand' d')) :
    Serves b g.limit d 0 Expr.draft (g.chain tier : Routine start _)
      (operand' d >>= Parser.operations tier.operator? g.limit operand' d) := by
  intro run hreg hd hspare
  have h := (hoperand d (Nat.le_refl d) run hreg hd hspare).bind
    (f := g.moreOperands tier run.now.depth)
    (g := Parser.operations tier.operator? g.limit operand' d) (R := run.Completes)
    fun left m hm hnext => moreOperands_ends hg
      (fun d' hd' => hoperand d' (Nat.le_of_lt hd')) hreg hm (hnext.depth ▸ hd) hnext.toBefore
      (by have := hnext.depth; have := hnext.count; omega) left
  refine h.congr ?_ fun _ _ => rfl
  rw [Gauge.chain]
  rfl

theorem product_serves (hg : g.Suffices start b)
    (he : ∀ d' ≤ d, Serves b g.limit d' 1 Expr.draft (g.nested .expression : Routine start _)
      (Parser.expression g.limit d')) :
    Serves b g.limit d 0 Expr.draft (g.chain .product : Routine start _)
      (Parser.product g.limit d) := by
  rw [Parser.product]
  refine chain_serves .product (fun d => Parser.factor (Parser.expression g.limit d)) hg
    fun d' hd' => ?_
  rw [Gauge.operand]
  exact factor_serves (he d' hd')

theorem sum_serves (hg : g.Suffices start b)
    (he : ∀ d' ≤ d, Serves b g.limit d' 1 Expr.draft (g.nested .expression : Routine start _)
      (Parser.expression g.limit d')) :
    Serves b g.limit d 0 Expr.draft (g.chain .sum : Routine start _) (Parser.sum g.limit d) := by
  refine chain_serves .sum (Parser.product g.limit) hg fun d' hd' => ?_
  rw [Gauge.operand]
  exact product_serves hg fun d'' hd'' => he d'' (Nat.le_trans hd'' hd')

theorem expression_serves (hg : g.Suffices start b) (d : Nat) :
    Serves b g.limit d 1 Expr.draft (g.nested .expression : Routine start _)
      (Parser.expression g.limit d) := by
  -- An expression in parentheses may have much less left than one level below this one: the chains
  -- around it have gone down too.
  induction d using Nat.strongRecOn with
  | ind d ih =>
    cases d with
    | zero =>
      rw [Parser.expression]
      exact nested_zero .expression
    | succ d =>
      have hsum : Serves b g.limit d 0 Expr.draft (g.chain .sum : Routine start _)
          (Parser.sum g.limit d) :=
        sum_serves hg fun d' hd' => ih d' (Nat.lt_succ_of_le hd')
      refine nested_succ hg fun run hreg hd hspare => ?_
      rw [Gauge.body, Parser.expression_succ]
      refine (hsum run hreg hd hspare).bind fun left m hm h => ?_
      refine .peekOperator ?_
      cases hop : (m.now.current.map Token.kind).bind comparison? with
      | none => exact ends_pure hm h rfl
      | some op =>
        obtain ⟨k, hk, -⟩ := Option.bind_eq_some_iff.1 hop
        obtain ⟨t, ht, -⟩ := Option.map_eq_some_iff.1 hk
        refine ends_advance hm ht fun m' hm' h' => ?_
        have hdepth := (h.trans h').depth
        refine (hsum m' hm' (by omega) hm'.now.2).bind fun right m'' hm'' h'' => ?_
        exact ends_pure hm'' ((h.trans h').trans h'') (draft_join op left right)

section

variable {e : Parser (Expr Span)} {s : Parser (Block Span)}
  (he : Serves b g.limit d 1 Expr.draft (g.nested .expression : Routine start _) e)
  (hs : Serves b g.limit d 1 Block.draft (g.nested .sequence : Routine start _) s)

include he hs in
theorem conditional_serves :
    Serves b g.limit d 0 (Statement.draft none) (g.conditional : Routine start _)
      (Parser.conditional e s) := by
  intro run hreg hd hspare
  rw [Gauge.conditional, Parser.conditional]
  refine (ends_expect hreg .ifKw).bind fun first m hm h => ?_
  refine (he.ends hreg hd hm h).bind fun condition m hm h => ?_
  refine (ends_expect_behind .thenKw hm h).bind fun _ m hm h => ?_
  refine (hs.ends hreg hd hm h).bind fun consequent m hm h => ?_
  refine .peekKind ?_
  cases hk : m.now.current.map Token.kind with
  | none => exact ends_closing .endKw hm h fun _ => rfl
  | some k =>
    cases k with
    | elseKw =>
      obtain ⟨t, ht, -⟩ := Option.map_eq_some_iff.1 hk
      refine ends_advance hm ht fun m' hm' h' => ?_
      refine (hs.ends hreg hd hm' (h.trans h')).bind fun alternative m hm h => ?_
      exact ends_closing .endKw hm h fun _ => rfl
    | _ => exact ends_closing .endKw hm h fun _ => rfl

include he hs in
theorem repetition_serves :
    Serves b g.limit d 0 (Statement.draft none) (g.repetition : Routine start _) (Parser.repetition e s) := by
  intro run hreg hd hspare
  rw [Gauge.repetition, Parser.repetition]
  refine (ends_expect hreg .repeatKw).bind fun first m hm h => ?_
  refine (hs.ends hreg hd hm h).bind fun body m hm h => ?_
  refine (ends_expect_behind .untilKw hm h).bind fun _ m hm h => ?_
  refine (he.ends hreg hd hm h).bind fun condition m hm h => ?_
  exact ends_spanFrom hm h fun _ => rfl

include he in
theorem assignment_serves :
    Serves b g.limit d 0 (Statement.draft none) (g.assignment : Routine start _) (Parser.assignment e) := by
  intro run hreg hd hspare
  rw [Gauge.assignment, Parser.assignment]
  refine (ends_expect hreg .identifier).bind fun target m hm h => ?_
  refine (ends_expect_behind .becomes hm h).bind fun _ m hm h => ?_
  refine (he.ends hreg hd hm h).bind fun value m hm h => ?_
  exact ends_spanFrom hm h fun _ => rfl

theorem readStatement_serves :
    Serves b limit d 0 (Statement.draft none) (readStatement : Routine start _) Parser.readStatement := by
  intro run hreg hd hspare
  refine (ends_expect hreg .readKw).bind fun first m hm h => ?_
  exact (ends_expect_behind .identifier hm h).bind fun target m hm h => ends_pure hm h rfl

include he in
theorem writeStatement_serves :
    Serves b g.limit d 0 (Statement.draft none) (g.writeStatement : Routine start _)
      (Parser.writeStatement e) := by
  intro run hreg hd hspare
  rw [Gauge.writeStatement, Parser.writeStatement]
  refine (ends_expect hreg .writeKw).bind fun first m hm h => ?_
  refine (he.ends hreg hd hm h).bind fun value m hm h => ?_
  exact ends_spanFrom hm h fun _ => rfl

include he hs in
theorem statement_serves :
    Serves b g.limit d 0 (Statement.draft none) (g.statement : Routine start _) (Parser.statement e s) := by
  intro run hreg hd hspare
  rw [Gauge.statement, Parser.statement]
  refine .peekKind ?_
  cases run.now.current.map Token.kind with
  | none => exact ends_unexpected hreg _
  | some k =>
    cases k with
    | ifKw => exact conditional_serves he hs run hreg hd hspare
    | repeatKw => exact repetition_serves he hs run hreg hd hspare
    | identifier => exact assignment_serves he run hreg hd hspare
    | readKw => exact readStatement_serves run hreg hd hspare
    | writeKw => exact writeStatement_serves he run hreg hd hspare
    | _ => exact ends_unexpected hreg _

end

theorem moreStatements_ends {item : Parser (Statement Span)}
    {T : List Token → Statement Span → Prop} (hfinds : Parser.Finds item T)
    (hitem : Serves b g.limit d 0 (Statement.draft none) (g.statement : Routine start _) item)
    {begun : Run start} (hd : begun.now.depth + d = g.limit) (hreg : run.Regular b g.limit)
    (hdone : begun.Completes run) {first : Draft} {rest : List Draft}
    (before : List (Statement Span)) (s : Statement Span)
    (hrest : rest ++ [first] = (s :: before).map (Statement.draft none)) :
    Ends b g.limit Block.draft (g.moreStatements first rest) run (Parser.remaining item before s)
      begun.Completes := by
  -- The depth stays the same here, but each round leaves fewer tokens ahead.
  induction hn : run.now.ahead.length using Nat.strongRecOn generalizing run rest before s with
  | ind n ih =>
    by_cases hk : run.now.current.map Token.kind = some .semicolon
    · obtain ⟨t, ht, -⟩ := Option.map_eq_some_iff.1 hk
      have hmore : Ends b g.limit Block.draft
          (do let _ ← advance
              let next ← g.statement
              g.moreStatements first (next :: rest)) run
          (do Parser.advance
              let next ← item
              Parser.remaining item (s :: before) next) begun.Completes := by
        refine ends_advance hreg ht fun m hm h => ?_
        have hdepth := (hdone.trans h).depth
        refine (hitem m hm (by omega) hm.now.2).bind fun next m' hm' h' => ?_
        have hnext := h.trans h'
        exact ih _ (hn ▸ hnext.ahead) hm' (hdone.trans hnext) (s :: before) next
          (congrArg (next.draft none :: ·) hrest) rfl
      refine hmore.congr ?_ fun st hst => Parser.remaining_step hfinds (hst.kind.trans hk)
      rw [Gauge.moreStatements, outcome_bind_of_ok outcome_peekKind, hk]
    · refine (ends_pure hreg hdone (Draft.link_eq hrest).symm).congr ?_
        fun st hst => Parser.remaining_stop (by rwa [hst.kind])
      rw [Gauge.moreStatements, outcome_bind_of_ok outcome_peekKind]
      split
      · contradiction
      · rfl

theorem sequence_serves (hg : g.Suffices start b) (d : Nat) :
    Serves b g.limit d 1 Block.draft (g.nested .sequence : Routine start _)
      (Parser.sequence g.limit d) := by
  induction d with
  | zero =>
    rw [Parser.sequence]
    exact nested_zero .sequence
  | succ d ih =>
    have hitem := statement_serves (expression_serves hg d) ih
    refine nested_succ hg fun run hreg hd hspare => ?_
    rw [Gauge.body, Parser.sequence_succ]
    refine (hitem run hreg hd hspare).bind fun first m hm h => ?_
    exact moreStatements_ends (Parser.statement_finds_of_le (by omega)) hitem hd hm h [] first rfl

theorem program_ends (hg : g.Suffices start b) (hreg : run.Regular b g.limit)
    (hdepth : run.now.depth = 0) (hb : 0 < b) :
    Ends b g.limit Block.draft g.program run (Parser.program g.limit) fun _ => True := by
  cases ht : run.now.current with
  | none =>
    have hnone : g.program.outcome run = some (.error .noStatements, run) := by
      rw [Gauge.program, outcome_bind_of_ok outcome_get, ht]
      rfl
    refine .failed hnone hreg (Nat.le_refl _) ?_ fun st hst => ?_
    · rintro n span ⟨⟩
    · rw [Parser.program, Parser.run_bind_of_ok Parser.peek_run, hst.head, ht]
      rfl
  | some t =>
    have hprogram : g.program.outcome run = (g.nested .sequence >>= finish).outcome run := by
      rw [Gauge.program, outcome_bind_of_ok outcome_get, ht]
      rfl
    refine .congr ?_ hprogram fun st hst => Parser.program_of_some (hst.head.trans ht)
    refine (sequence_serves hg g.limit run hreg (by omega) (by omega)).bind fun x m hm h => ?_
    refine .after (c := m.now.current) outcome_get (Nat.le_refl _) (fun st hst => ?_) ?_
    · exact ⟨st, by rw [Parser.peek_run, hst.head], hst⟩
    · cases m.now.current with
      | none => exact ends_pure hm trivial rfl
      | some t =>
        refine .failed rfl hm (Nat.le_refl _) ?_ fun _ _ => rfl
        rintro n span ⟨⟩

end Routine

/-- Every text is read to an end, where the parser that has the whole scan before it ends as well,
and what has been built on the way is the draft of its tree. The run is regular, and too deep is only
what follows so many tokens. -/
theorem parse_ends (text : String) {limits : Limits} {largest : Nat}
    (hg : (Routine.Gauge.mk limits.maxDepth largest).Suffices (ofText text) 1) : ∃ result run,
      parse largest text limits = some (result, run) ∧
        result = (TinyLanguage.parse text limits).map Block.draft ∧ run.Regular 1 limits.maxDepth ∧
        ∀ n span, result = .error (.tooDeep n span) → limits.maxDepth ≤ run.count := by
  have hbegin : (Run.begin (ofText text)).Regular 1 limits.maxDepth :=
    Run.regular_begin (Nat.zero_le _) (Nat.zero_le _)
  by_cases hlen : text.utf8ByteSize ≤ limits.maxLength
  · rw [parse, if_pos hlen]
    have hreg := hbegin.call_advance (.inl rfl)
    cases h : (ofText text).advance.1 with
    | error e =>
      have hfault := (advance_of_error h).1
      refine ⟨.error e, _, Routine.outcome_bind_of_error ?_, ?_, hreg, ?_⟩
      · rw [Routine.outcome_advance]
        exact congrArg (fun r => some (r, _)) h
      · rw [parse_of_fault hlen hfault]
        rfl
      · intro n span he
        exact absurd (Except.error.inj he) (Routine.ne_tooDeep_of_fault hfault n span)
    | ok u =>
      obtain ⟨st, hst, hmirrors⟩ := @mirrors_ofScan (ofText text) [] u rfl h
      have hadvance : (Routine.advance : Routine (ofText text) _).outcome (.begin (ofText text)) =
          some (.ok u, (Run.begin (ofText text)).call .advance) := by
        rw [Routine.outcome_advance]
        exact congrArg (fun r => some (r, _)) h
      rw [Routine.outcome_bind_of_ok hadvance, Parser.parse_of_state hlen hst]
      cases Routine.program_ends hg hreg (depth_advance _) Nat.one_pos with
      | found h hm hcount hQ hq =>
        obtain ⟨st', hst', -⟩ := hq st hmirrors
        rw [hst']
        refine ⟨_, _, h, rfl, hm, ?_⟩
        rintro n span ⟨⟩
      | failed h hm hcount hdeep hq =>
        rw [hq st hmirrors]
        refine ⟨_, _, h, rfl, hm, fun n span he => ?_⟩
        exact Nat.le_of_lt_succ (hdeep n span (Except.error.inj he))
  · rw [parse, if_neg hlen, TinyLanguage.parse, if_neg hlen]
    refine ⟨_, _, rfl, rfl, hbegin, ?_⟩
    rintro n span ⟨⟩

end TinyLanguage.Reader
