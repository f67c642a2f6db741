import TinyLanguage.Parser.Program
import TinyLanguage.Proofs.Grammar.Unambiguous
import TinyLanguage.Proofs.Parser.Step

namespace TinyLanguage.Parser

open Token.Kind Grammar

/-- What sums and products share: goes on with operations that have begun with `left`. -/
def operations (select : Token.Kind → Option Operator) (limit : Nat)
    (operand : Nat → Parser (Expr Span)) (depth : Nat) (left : Expr Span) :
    Parser (Expr Span) := do
  match ← peekOperator select with
  | none => return left
  | some op =>
    match depth with
    | 0 => tooDeep limit
    | depth + 1 =>
      advance
      let right ← operand depth
      operations select limit operand depth (.join op left right)

def product (limit depth : Nat) : Parser (Expr Span) :=
  factor (expression limit depth) >>=
    operations multiplicative? limit (fun d => factor (expression limit d)) depth

def sum (limit depth : Nat) : Parser (Expr Span) :=
  product limit depth >>= operations additive? limit (product limit) depth

theorem moreFactors_eq (limit depth : Nat) : moreFactors limit depth =
    operations multiplicative? limit (fun d => factor (expression limit d)) depth := by
  funext left
  induction depth generalizing left with
  | zero =>
    unfold moreFactors operations
    rfl
  | succ depth ih =>
    unfold moreFactors operations
    refine bind_congr fun o => ?_
    cases o with
    | none => rfl
    | some op => exact bind_congr fun _ => bind_congr fun right => ih (.join op left right)

theorem moreTerms_eq (limit depth : Nat) :
    moreTerms limit depth = operations additive? limit (product limit) depth := by
  funext left
  induction depth generalizing left with
  | zero =>
    unfold moreTerms operations
    rfl
  | succ depth ih =>
    have hproduct : (factor (expression limit depth) >>= moreFactors limit depth) =
        product limit depth := by rw [moreFactors_eq, product]
    unfold moreTerms operations
    refine bind_congr fun o => ?_
    cases o with
    | none => rfl
    | some op =>
      exact bind_congr fun _ => (congrArg (· >>= _) hproduct).trans
        (bind_congr fun right => ih (.join op left right))

theorem expression_succ (limit depth : Nat) : expression limit (depth + 1) = (do
    let left ← sum limit depth
    match ← peekOperator comparison? with
    | none => return left
    | some op =>
      advance
      let right ← sum limit depth
      return .join op left right) := by
  have hsum : (factor (expression limit depth) >>= moreFactors limit depth >>=
      moreTerms limit depth) = sum limit depth := by
    rw [moreFactors_eq, moreTerms_eq]
    rfl
  rewrite [expression, hsum]
  refine bind_congr fun left => bind_congr fun o => ?_
  cases o with
  | none | some op => rfl

theorem multiplicative_eq_none_iff (k : Token.Kind) :
    multiplicative? k = none ↔ looseness k ≠ 1 := by
  cases k <;> simp [multiplicative?, looseness]

theorem additive_eq_none_iff (k : Token.Kind) : additive? k = none ↔ looseness k ≠ 2 := by
  cases k <;> simp [additive?, looseness]

theorem comparison_eq_none_iff (k : Token.Kind) : comparison? k = none ↔ looseness k ≠ 3 := by
  cases k <;> simp [comparison?, looseness]

def State.looseness (st : State) : Nat :=
  (st.kind?.map Grammar.looseness).getD 4

theorem State.Step.looseness {st st' : State} {t : Token} (h : st.Step t st') :
    st.looseness = Grammar.looseness t.kind := by
  rw [State.looseness, h.kind?]
  rfl

theorem State.multiplicative_eq_none {st : State} (h : 1 < st.looseness) :
    st.kind?.bind multiplicative? = none := by
  rw [Option.bind_eq_none_iff]
  intro k hk
  have hl : st.looseness = Grammar.looseness k := by simp [State.looseness, hk]
  rw [multiplicative_eq_none_iff]
  omega

theorem State.additive_eq_none {st : State} (h : 2 < st.looseness) :
    st.kind?.bind additive? = none := by
  rw [Option.bind_eq_none_iff]
  intro k hk
  have hl : st.looseness = Grammar.looseness k := by simp [State.looseness, hk]
  rw [additive_eq_none_iff]
  omega

theorem State.comparison_eq_none {st : State} (h : 3 < st.looseness) :
    st.kind?.bind comparison? = none := by
  rw [Option.bind_eq_none_iff]
  intro k hk
  have hl : st.looseness = Grammar.looseness k := by simp [State.looseness, hk]
  rw [comparison_eq_none_iff]
  omega

variable {select : Token.Kind → Option Operator} {limit depth : Nat}
  {operand : Nat → Parser (Expr Span)} {left : Expr Span} {st m : State} {t : Token}
  {op : Operator}

theorem operations_stop (h : st.kind?.bind select = none) :
    (operations select limit operand depth left).run st = .ok (left, st) := by
  rw [operations, run_bind_of_ok (peekOperator_run select), h]
  rfl

theorem operations_tooDeep (h : st.kind?.bind select = some op) :
    (operations select limit operand 0 left).run st = .error (.tooDeep limit st.here) := by
  rw [operations, run_bind_of_ok (peekOperator_run select), h]
  rfl

theorem operations_succ (h : st.kind?.bind select = some op) :
    (operations select limit operand (depth + 1) left).run st = (do
      advance
      let right ← operand depth
      operations select limit operand depth (.join op left right)).run st := by
  rw [operations, run_bind_of_ok (peekOperator_run select), h]

section

variable {e : Parser (Expr Span)} {st st' : State}

theorem factor_parens {l : Token} (h : st.Step l st')
    (hl : l.kind = .leftParen) :
    (factor e).run st = (do
      let x ← e
      let _ ← expect .rightParen
      return x).run st' := by
  have hk : st.kind? = some .leftParen := by rw [h.kind?, hl]
  rw [factor, run_bind_of_ok peekKind_run, hk]
  exact run_bind_of_ok (advance_run h)

theorem factor_number {t : Token} (h : st.Step t st')
    (ht : t.kind = .number) : (factor e).run st = .ok (.constant t.span t.text, st') := by
  have hk : st.kind? = some .number := by rw [h.kind?, ht]
  rw [factor, run_bind_of_ok peekKind_run, hk]
  exact run_bind_of_ok (expect_run h ht)

theorem factor_identifier {t : Token} (h : st.Step t st')
    (ht : t.kind = .identifier) : (factor e).run st = .ok (.identifier t.span t.text, st') := by
  have hk : st.kind? = some .identifier := by rw [h.kind?, ht]
  rw [factor, run_bind_of_ok peekKind_run, hk]
  exact run_bind_of_ok (expect_run h ht)

end

section

variable {e : Parser (Expr Span)} {q : Parser (Block Span)} {item : Parser (Statement Span)}
  {before : List (Statement Span)} {s : Statement Span}
  {st st' : State} {bound : List Token}

theorem statement_conditional (h : st.kind? = some .ifKw) :
    (statement e q).run st = (conditional e q).run st := by
  rw [statement, run_bind_of_ok peekKind_run, h]

theorem statement_repetition (h : st.kind? = some .repeatKw) :
    (statement e q).run st = (repetition e q).run st := by
  rw [statement, run_bind_of_ok peekKind_run, h]

theorem statement_assignment (h : st.kind? = some .identifier) :
    (statement e q).run st = (assignment e).run st := by
  rw [statement, run_bind_of_ok peekKind_run, h]

theorem statement_read (h : st.kind? = some .readKw) :
    (statement e q).run st = readStatement.run st := by
  rw [statement, run_bind_of_ok peekKind_run, h]

theorem statement_write (h : st.kind? = some .writeKw) :
    (statement e q).run st = (writeStatement e).run st := by
  rw [statement, run_bind_of_ok peekKind_run, h]

theorem moreStatements_stop (h : st.kind? ≠ some .semicolon) :
    (moreStatements item before s bound).run st = .ok (.ofReverse before s, st) := by
  cases bound with
  | nil => rfl
  | cons t bound =>
    rw [moreStatements, run_bind_of_ok peekKind_run]
    split
    · rename_i hk
      exact absurd hk h
    · rfl

theorem moreStatements_semicolon {t : Token} (h : st.kind? = some .semicolon) :
    (moreStatements item before s (t :: bound)).run st = (do
      advance
      let next ← item
      moreStatements item (s :: before) next bound).run st := by
  rw [moreStatements, run_bind_of_ok peekKind_run, h]

theorem moreStatements_step {k : Token} (h : st.Step k st') (hk : k.kind = .semicolon)
    (hlen : st.ahead.tokens.length ≤ bound.length) :
    (moreStatements item before s bound).run st = (do
      let next ← item
      moreStatements item (s :: before) next bound.tail).run st' := by
  cases bound with
  | nil => simp [h.tokens] at hlen
  | cons t bound =>
    rw [moreStatements_semicolon (by rw [h.kind?, hk])]
    exact run_bind_of_ok (advance_run h)

end

theorem program_of_some {limit : Nat} {st : State} {t : Token}
    (h : st.ahead.tokens.head? = some t) : (program limit).run st = (do
      let b ← sequence limit limit
      match ← peek with
      | some t => throw (.trailing t.describe t.span)
      | none => return b : Parser (Block Span)).run st := by
  rw [program, run_bind_of_ok peek_run, h]
  rfl

theorem parse_of_state {text : String} {limits : Limits} {st : State}
    (hlen : text.utf8ByteSize ≤ limits.maxLength)
    (hst : State.ofScan [] (.ofText text) = .ok st) :
    parse text limits = ((program limits.maxDepth).run st).map Prod.fst := by
  rw [parse, if_pos hlen, hst]
  rfl

end TinyLanguage.Parser
