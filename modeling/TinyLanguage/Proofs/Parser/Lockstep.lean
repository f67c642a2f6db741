import TinyLanguage.Proofs.Parser.Foresight
import TinyLanguage.Proofs.Parser.Soundness

namespace TinyLanguage.Parser

open Token.Kind Grammar

def Leads {α β : Type} (limit limit' : Nat) (p : Parser α) (p' : Parser β) : Prop :=
  ∀ ⦃ι : Type⦄ (st : State), Foretells limit limit' st p fun _ : ι => p'

variable {ι : Type} {limit limit' depth depth' : Nat}

theorem foretells_unexpected {α β : Type} (expected : String) (st : State) :
    Foretells limit limit' st (unexpected expected : Parser α)
      fun _ : ι => (unexpected expected : Parser β) :=
  foretells_complain (.unexpected expected)

theorem factor_leads {e e' : Parser (Expr Span)} (he : Leads limit limit' e e') :
    Leads limit limit' (factor e) (factor e') := by
  intro ι st
  unfold factor
  refine Foretells.peekKind ?_
  generalize hk : st.kind? = k
  split
  · refine (foretells_advance hk).bind fun _ m _ => ?_
    refine (he m).bind fun x n _ => ?_
    exact (foretells_expect .rightParen).bind fun _ _ _ => foretells_pure _ _
  · exact (foretells_expect .number).bind fun _ _ _ => foretells_pure _ _
  · exact (foretells_expect .identifier).bind fun _ _ _ => foretells_pure _ _
  · exact foretells_unexpected _ st

/-- Operations that stand equally deep under two limits. What holds of the operands under all lower
limits holds of what goes on with them. -/
theorem operations_foretells (select : Token.Kind → Option Operator)
    (operand : Nat → Nat → Parser (Expr Span))
    (hoperand : ∀ {limit' d d'}, d < depth → limit' ≤ limit → d + limit' = d' + limit →
      Leads limit limit' (operand limit d) (operand limit' d'))
    (hl : limit' ≤ limit) (hd : depth + limit' = depth' + limit) (left : Expr Span) (st : State) :
    Foretells limit limit' st (operations select limit (operand limit) depth left)
      fun left' => operations select limit' (operand limit') depth' left' := by
  induction depth generalizing limit' depth' left st with
  | zero =>
    obtain rfl : limit' = limit := by omega
    obtain rfl : depth' = 0 := by omega
    cases hop : st.kind?.bind select with
    | none =>
      refine (foretells_pure left id).congr (operations_stop hop) ?_
      intro left' st' hst'
      exact operations_stop (by rwa [hst'])
    | some op =>
      refine (foretells_complain .tooDeep).congr (operations_tooDeep hop) ?_
      intro left' st' hst'
      exact operations_tooDeep (by rwa [hst'])
  | succ depth ih =>
    cases hop : st.kind?.bind select with
    | none =>
      refine (foretells_pure left id).congr (operations_stop hop) ?_
      intro left' st' hst'
      exact operations_stop (by rwa [hst'])
    | some op =>
      obtain ⟨k, hk, -⟩ := Option.bind_eq_some_iff.1 hop
      have hmore : ∀ {limit' d'}, limit' ≤ limit → depth + limit' = d' + limit →
          Foretells limit limit' st (operations select limit (operand limit) (depth + 1) left)
            fun left' => operations select limit' (operand limit') (d' + 1) left' := by
        intro limit' d' hl hd
        refine Foretells.congr ?_ (operations_succ hop)
          fun left' st' hst' => operations_succ (by rwa [hst'])
        refine (foretells_advance hk).bind fun _ m _ => ?_
        refine (hoperand (Nat.lt_succ_self depth) hl hd m).bind fun right n _ => ?_
        have hrest := ih (fun hlt => hoperand (Nat.lt_succ_of_lt hlt)) hl hd (.join op left right) n
        exact hrest.reindex fun x : (Expr Span × Unit) × Expr Span => .join op x.1.1 x.2
      cases depth' with
      | zero =>
        have hself := hmore (Nat.le_refl limit) rfl
        refine (foretells_tooDeep hself (by omega)).congr rfl ?_
        intro left' st' hst'
        exact operations_tooDeep (by rwa [hst'])
      | succ d' => exact hmore hl (by omega)

theorem product_leads
    (he : ∀ {limit' d d'}, d ≤ depth → limit' ≤ limit → d + limit' = d' + limit →
      Leads limit limit' (expression limit d) (expression limit' d'))
    (hl : limit' ≤ limit) (hd : depth + limit' = depth' + limit) :
    Leads limit limit' (product limit depth) (product limit' depth') := by
  intro ι st
  refine (factor_leads (he (Nat.le_refl depth) hl hd) st).bind fun x m _ => ?_
  have hmore := operations_foretells multiplicative? (fun l d => factor (expression l d))
    (fun hlt hl hd => factor_leads (he (Nat.le_of_lt hlt) hl hd)) hl hd x m
  exact hmore.reindex Prod.snd

theorem sum_leads
    (he : ∀ {limit' d d'}, d ≤ depth → limit' ≤ limit → d + limit' = d' + limit →
      Leads limit limit' (expression limit d) (expression limit' d'))
    (hl : limit' ≤ limit) (hd : depth + limit' = depth' + limit) :
    Leads limit limit' (sum limit depth) (sum limit' depth') := by
  intro ι st
  refine (product_leads he hl hd st).bind fun x m _ => ?_
  have hmore := operations_foretells additive? product
    (fun hlt hl hd => product_leads (fun hle => he (by omega)) hl hd) hl hd x m
  exact hmore.reindex Prod.snd

theorem Foretells.peekOperator {α β : Type} {st : State} {select : Token.Kind → Option Operator}
    {f : Option Operator → Parser α} {f' : ι → Option Operator → Parser β}
    (h : Foretells limit limit' st (f (st.kind?.bind select))
      fun i => f' i (st.kind?.bind select)) :
    Foretells limit limit' st (peekOperator select >>= f)
      fun i => peekOperator select >>= f' i := by
  refine h.congr (run_bind_of_ok (peekOperator_run select)) ?_
  intro i st' hst'
  rw [run_bind_of_ok (peekOperator_run select), hst']

theorem expression_leads (hl : limit' ≤ limit) (hd : depth + limit' = depth' + limit) :
    Leads limit limit' (expression limit depth) (expression limit' depth') := by
  induction depth using Nat.strongRecOn generalizing limit' depth' with
  | ind depth ih =>
    intro ι st
    cases depth with
    | zero =>
      obtain rfl : limit' = limit := by omega
      obtain rfl : depth' = 0 := by omega
      rw [expression]
      exact foretells_complain .tooDeep
    | succ depth =>
      have hmore : ∀ {ι : Type} {limit' d'}, limit' ≤ limit → depth + limit' = d' + limit →
          Foretells limit limit' st (expression limit (depth + 1))
            fun _ : ι => expression limit' (d' + 1) := by
        intro ι limit' d' hl hd
        have hsum : Leads limit limit' (sum limit depth) (sum limit' d') :=
          sum_leads (fun hle => ih _ (by omega)) hl hd
        rw [expression_succ, expression_succ]
        refine (hsum st).bind fun x m _ => ?_
        refine Foretells.peekOperator ?_
        generalize hop : m.kind?.bind comparison? = op
        cases op with
        | none => exact foretells_pure _ _
        | some op =>
          obtain ⟨k, hk, -⟩ := Option.bind_eq_some_iff.1 hop
          refine (foretells_advance hk).bind fun _ n _ => ?_
          exact (hsum n).bind fun _ _ _ => foretells_pure _ _
      cases depth' with
      | zero =>
        -- Only the lower limit is reached, so what the higher one allows is compared to itself.
        have hself := @hmore Unit limit depth (Nat.le_refl limit) rfl
        rw [expression]
        exact foretells_tooDeep hself (by omega)
      | succ d' => exact hmore hl (by omega)

section

variable {e e' : Parser (Expr Span)} {q q' : Parser (Block Span)}

theorem conditional_leads (he : Leads limit limit' e e') (hq : Leads limit limit' q q') :
    Leads limit limit' (conditional e q) (conditional e' q') := by
  intro ι st
  refine (foretells_expect .ifKw).bind fun _ m _ => ?_
  refine (he m).bind fun _ m _ => ?_
  refine (foretells_expect .thenKw).bind fun _ m _ => ?_
  refine (hq m).bind fun _ m _ => ?_
  refine Foretells.peekKind ?_
  generalize hk : m.kind? = k
  split
  · refine (foretells_advance hk).bind fun _ m _ => ?_
    refine (hq m).bind fun _ m _ => ?_
    refine (foretells_expect .endKw).bind fun _ m _ => ?_
    exact (foretells_spanFrom _ _).bind fun _ _ _ => foretells_pure _ _
  · refine (foretells_expect .endKw).bind fun _ m _ => ?_
    exact (foretells_spanFrom _ _).bind fun _ _ _ => foretells_pure _ _

theorem repetition_leads (he : Leads limit limit' e e') (hq : Leads limit limit' q q') :
    Leads limit limit' (repetition e q) (repetition e' q') := by
  intro ι st
  refine (foretells_expect .repeatKw).bind fun _ m _ => ?_
  refine (hq m).bind fun _ m _ => ?_
  refine (foretells_expect .untilKw).bind fun _ m _ => ?_
  refine (he m).bind fun _ m _ => ?_
  exact (foretells_spanFrom _ _).bind fun _ _ _ => foretells_pure _ _

theorem assignment_leads (he : Leads limit limit' e e') :
    Leads limit limit' (assignment e) (assignment e') := by
  intro ι st
  refine (foretells_expect .identifier).bind fun _ m _ => ?_
  refine (foretells_expect .becomes).bind fun _ m _ => ?_
  refine (he m).bind fun _ m _ => ?_
  exact (foretells_spanFrom _ _).bind fun _ _ _ => foretells_pure _ _

theorem readStatement_leads : Leads limit limit' readStatement readStatement := by
  intro ι st
  refine (foretells_expect .readKw).bind fun _ m _ => ?_
  exact (foretells_expect .identifier).bind fun _ _ _ => foretells_pure _ _

theorem writeStatement_leads (he : Leads limit limit' e e') :
    Leads limit limit' (writeStatement e) (writeStatement e') := by
  intro ι st
  refine (foretells_expect .writeKw).bind fun _ m _ => ?_
  refine (he m).bind fun _ m _ => ?_
  exact (foretells_spanFrom _ _).bind fun _ _ _ => foretells_pure _ _

theorem statement_leads (he : Leads limit limit' e e') (hq : Leads limit limit' q q') :
    Leads limit limit' (statement e q) (statement e' q') := by
  intro ι st
  refine Foretells.peekKind ?_
  split
  · exact conditional_leads he hq st
  · exact repetition_leads he hq st
  · exact assignment_leads he st
  · exact readStatement_leads st
  · exact writeStatement_leads he st
  · exact foretells_unexpected _ st

end

section

variable {R R' : List Token → Statement Span → Prop} {item item' : Parser (Statement Span)}
  {before : List (Statement Span)} {s : Statement Span} {bound : List Token} {st : State}

def remaining (item : Parser (Statement Span)) (before : List (Statement Span))
    (s : Statement Span) : Parser (Block Span) := do
  moreStatements item before s (← get).ahead.tokens

theorem remaining_run :
    (remaining item before s).run st =
      (moreStatements item before s st.ahead.tokens).run st := rfl

theorem Finds.length_le {α : Type} {p : Parser α} {R : List Token → α → Prop} (h : Finds p R)
    {a : α} {st st' : State} (hp : p.run st = .ok (a, st')) :
    st'.ahead.tokens.length ≤ st.ahead.tokens.length := by
  obtain ⟨ts, hr, -⟩ := h hp
  rw [hr.tokens, List.length_append]
  omega

/-- The list of tokens that comes along makes no difference as long as it is no shorter than those
ahead. -/
theorem moreStatements_congr (hitem : Finds item R) {bound' : List Token}
    (hlen : st.ahead.tokens.length ≤ bound.length)
    (hlen' : st.ahead.tokens.length ≤ bound'.length) :
    (moreStatements item before s bound).run st = (moreStatements item before s bound').run st := by
  induction bound generalizing before s bound' st with
  | nil =>
    have hk : st.kind? ≠ some .semicolon := by
      rw [State.kind?, List.length_eq_zero_iff.1 (Nat.le_zero.1 hlen)]
      simp
    rw [moreStatements_stop hk, moreStatements_stop hk]
  | cons t bound ih =>
    by_cases hk : st.kind? = some .semicolon
    · cases bound' with
      | nil => simp [State.kind?, List.length_eq_zero_iff.1 (Nat.le_zero.1 hlen')] at hk
      | cons t' bound' =>
        rw [moreStatements_semicolon hk, moreStatements_semicolon hk]
        refine run_bind_congr fun _ m hm => run_bind_congr fun next n hn => ?_
        obtain ⟨k, hs, -⟩ := advance_eq_ok hk hm
        have hm := congrArg List.length hs.tokens
        have hn := hitem.length_le hn
        simp only [List.length_cons] at hm hlen hlen'
        exact ih (by omega) (by omega)
    · rw [moreStatements_stop hk, moreStatements_stop hk]

theorem remaining_stop (h : st.kind? ≠ some .semicolon) :
    (remaining item before s).run st = .ok (.ofReverse before s, st) :=
  moreStatements_stop h

theorem remaining_step (hitem : Finds item R) (h : st.kind? = some .semicolon) :
    (remaining item before s).run st = (do
      advance
      let next ← item
      remaining item (s :: before) next).run st := by
  rw [remaining_run]
  cases ht : st.ahead.tokens with
  | nil => simp [State.kind?, ht] at h
  | cons t ts =>
    rw [moreStatements_semicolon h]
    refine run_bind_congr fun _ m hm => run_bind_congr fun next n hn => ?_
    obtain ⟨k, hs, -⟩ := advance_eq_ok h hm
    have hm := congrArg List.length (ht.symm.trans hs.tokens)
    have hn := hitem.length_le hn
    simp only [List.length_cons] at hm
    exact moreStatements_congr hitem (by omega) (Nat.le_refl _)

theorem remaining_foretells (hitem : Finds item R) (hitem' : Finds item' R')
    (h : Leads limit limit' item item') (before : List (Statement Span)) (s : Statement Span)
    (st : State) :
    Foretells limit limit' st (remaining item before s)
      fun x : List (Statement Span) × Statement Span => remaining item' x.1 x.2 := by
  induction hn : st.ahead.tokens.length using Nat.strongRecOn generalizing before s st with
  | ind n ih =>
    by_cases hk : st.kind? = some .semicolon
    · refine Foretells.congr ?_ (remaining_step hitem hk)
        fun x st' hst' => remaining_step hitem' (by rwa [hst'])
      refine (foretells_advance hk).bind fun _ m hm => ?_
      refine (h m).bind fun next m' hm' => ?_
      obtain ⟨k, hs, -⟩ := advance_eq_ok hk hm
      have hlen := congrArg List.length hs.tokens
      have hlen' := hitem.length_le hm'
      simp only [List.length_cons] at hlen
      have hrest := ih _ (by omega) (s :: before) next m' rfl
      exact hrest.reindex fun x : ((List (Statement Span) × Statement Span) × Unit) ×
        Statement Span => (x.1.1.2 :: x.1.1.1, x.2)
    · refine (foretells_pure _ fun x : List (Statement Span) × Statement Span =>
        Block.ofReverse x.1 x.2).congr (remaining_stop hk) ?_
      intro x st' hst'
      exact remaining_stop (by rwa [hst'])

end

theorem sequence_succ (limit depth : Nat) : sequence limit (depth + 1) = (do
    let first ← statement (expression limit depth) (sequence limit depth)
    remaining (statement (expression limit depth) (sequence limit depth)) [] first) := rfl

theorem statement_finds_of_le (hd : depth ≤ limit) :
    Finds (statement (expression limit depth) (sequence limit depth)) (IsStatement limit depth) :=
  statement_finds (expression_finds hd) (sequence_finds hd)

theorem sequence_leads (hl : limit' ≤ limit) (hle : depth ≤ limit)
    (hd : depth + limit' = depth' + limit) :
    Leads limit limit' (sequence limit depth) (sequence limit' depth') := by
  induction depth generalizing limit' depth' with
  | zero =>
    intro ι st
    obtain rfl : limit' = limit := by omega
    obtain rfl : depth' = 0 := by omega
    exact foretells_complain .tooDeep
  | succ depth ih =>
    intro ι st
    have hmore : ∀ {ι : Type} {limit' d'}, limit' ≤ limit → depth + limit' = d' + limit →
        Foretells limit limit' st (sequence limit (depth + 1))
          fun _ : ι => sequence limit' (d' + 1) := by
      intro ι limit' d' hl hd
      have hitem := statement_leads (expression_leads hl hd) (ih hl (by omega) hd)
      rw [sequence_succ, sequence_succ]
      refine (hitem st).bind fun first m _ => ?_
      have hrest := remaining_foretells (statement_finds_of_le (by omega))
        (statement_finds_of_le (by omega)) hitem [] first m
      exact hrest.reindex fun x : ι × Statement Span => ([], x.2)
    cases depth' with
    | zero =>
      have hself := @hmore Unit limit depth (Nat.le_refl limit) rfl
      exact foretells_tooDeep hself (by omega)
    | succ d' => exact hmore hl (by omega)

theorem program_of_none {limit : Nat} {st : State} (h : st.kind? = none) :
    (program limit).run st = (complain limit .outside : Parser (Block Span)).run st := by
  have ht : st.ahead.tokens = [] := by simpa [State.kind?] using h
  rw [program, run_bind_of_ok peek_run, complain_run, Complaint.error, ht]
  rfl

def lone (limit : Nat) (b : Block Span) : Parser (Block Span) := do
  match ← peekKind with
  | some _ => complain limit .outside
  | none => return b

theorem program_of_kind {limit : Nat} {st : State} {k : Token.Kind} (h : st.kind? = some k) :
    (program limit).run st = (sequence limit limit >>= lone limit).run st := by
  obtain ⟨t, ht, -⟩ := Option.map_eq_some_iff.1 h
  rw [program_of_some ht]
  refine run_bind_congr fun b m _ => ?_
  rw [run_bind_of_ok peek_run, lone, run_bind_of_ok peekKind_run, State.kind?]
  cases hm : m.ahead.tokens with
  | nil => rfl
  | cons u us =>
    simp only [List.head?_cons, Option.map_some, complain_run, Complaint.error, hm]
    rfl

theorem program_leads (hl : limit' ≤ limit) :
    Leads limit limit' (program limit) (program limit') := by
  intro ι st
  cases hk : st.kind? with
  | none =>
    refine (foretells_complain .outside).congr (program_of_none hk) ?_
    intro i st' hst'
    exact program_of_none (hst'.trans hk)
  | some k =>
    refine Foretells.congr ?_ (program_of_kind hk)
      fun i st' hst' => program_of_kind (hst'.trans hk)
    have hsequence := sequence_leads hl (Nat.le_refl limit) (Nat.add_comm limit limit')
    refine (hsequence st).bind fun b m _ => ?_
    refine Foretells.peekKind ?_
    cases m.kind? with
    | none => exact foretells_pure _ _
    | some k => exact foretells_complain .outside

end TinyLanguage.Parser
