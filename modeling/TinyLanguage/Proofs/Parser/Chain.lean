import TinyLanguage.Proofs.Parser.Exactness
import TinyLanguage.Proofs.Tree.Walk

namespace TinyLanguage

namespace Token.Kind

def isOpening : Kind → Bool
  | .ifKw | .repeatKw => true
  | _ => false

def isClosing : Kind → Bool
  | .endKw | .untilKw => true
  | _ => false

def descent : Kind → Int
  | .ifKw | .repeatKw => 1
  | .endKw | .untilKw => -1
  | _ => 0

end Token.Kind

open Token.Kind (isOpening isClosing descent)

/-- How many more blocks have been started than ended. -/
def nesting (ts : List Token) : Int :=
  (ts.countP fun t => isOpening t.kind) - (ts.countP fun t => isClosing t.kind)

/-- The number of semicolons before which `d` more blocks have been started than ended. -/
def semicolonsAt (d : Int) (ts : List Token) : Nat :=
  (List.range ts.length).countP fun i =>
    (ts[i]?.map Token.kind = some .semicolon) ∧ nesting (ts.take i) = d

@[simp] theorem nesting_nil : nesting [] = 0 := rfl

@[simp] theorem nesting_cons (t : Token) (ts : List Token) :
    nesting (t :: ts) = descent t.kind + nesting ts := by
  simp only [nesting, List.countP_cons]
  cases t.kind <;> simp [isOpening, isClosing, descent] <;> omega

@[simp] theorem nesting_append (ts us : List Token) :
    nesting (ts ++ us) = nesting ts + nesting us := by
  simp only [nesting, List.countP_append]
  omega

@[simp] theorem semicolonsAt_nil (d : Int) : semicolonsAt d [] = 0 := rfl

theorem semicolonsAt_cons (d : Int) (t : Token) (ts : List Token) :
    semicolonsAt d (t :: ts) =
      semicolonsAt (d - descent t.kind) ts + if t.kind = .semicolon ∧ d = 0 then 1 else 0 := by
  have hshift (n : Int) : descent t.kind + n = d ↔ n = d - descent t.kind := by omega
  rw [semicolonsAt, List.length_cons, List.range_succ_eq_map, List.countP_cons, List.countP_map,
    semicolonsAt]
  congr 1
  · apply List.countP_congr
    intro i _
    simp [hshift]
  · simp [@eq_comm Int 0 d]

theorem semicolonsAt_append (d : Int) (ts us : List Token) :
    semicolonsAt d (ts ++ us) = semicolonsAt d ts + semicolonsAt (d - nesting ts) us := by
  induction ts generalizing d with
  | nil => simp
  | cons t ts ih =>
    have hd : d - descent t.kind - nesting ts = d - nesting (t :: ts) := by
      rw [nesting_cons]
      omega
    rw [List.cons_append, semicolonsAt_cons, semicolonsAt_cons, ih, hd]
    omega

structure Nested (ts : List Token) : Prop where
  nesting : nesting ts = 0
  inner : ∀ d < 0, semicolonsAt d ts = 0

structure Closed (ts : List Token) : Prop extends Nested ts where
  outer : semicolonsAt 0 ts = 0

section

variable {ts us : List Token} {t u : Token} {k l : Token.Kind}

theorem semicolonsAt_cons_of_ne {d : Int} (h : t.kind ≠ .semicolon) :
    semicolonsAt d (t :: ts) = semicolonsAt (d - descent t.kind) ts := by
  rw [semicolonsAt_cons, if_neg fun h' => h h'.1, Nat.add_zero]

theorem nested_nil : Nested [] :=
  ⟨rfl, fun _ _ => rfl⟩

theorem Nested.cons (h : Nested ts) (ht : t.kind = k) (hk : descent k = 0) :
    Nested (t :: ts) := by
  refine ⟨by rw [nesting_cons, ht, hk, h.nesting, Int.add_zero], fun d hd => ?_⟩
  rw [semicolonsAt_cons, ht, hk, Int.sub_zero, h.inner d hd, if_neg (by omega)]

theorem Nested.append (h : Nested ts) (h' : Nested us) : Nested (ts ++ us) := by
  refine ⟨by rw [nesting_append, h.nesting, h'.nesting, Int.add_zero], fun d hd => ?_⟩
  rw [semicolonsAt_append, h.nesting, Int.sub_zero, h.inner d hd, h'.inner d hd]

theorem closed_nil : Closed [] :=
  ⟨nested_nil, rfl⟩

theorem Closed.cons (h : Closed ts) (ht : t.kind = k) (hk : descent k = 0)
    (hne : k ≠ .semicolon) : Closed (t :: ts) := by
  refine ⟨h.toNested.cons ht hk, ?_⟩
  rw [semicolonsAt_cons_of_ne (ht ▸ hne), ht, hk, Int.sub_zero, h.outer]

theorem Closed.append (h : Closed ts) (h' : Closed us) : Closed (ts ++ us) := by
  refine ⟨h.toNested.append h'.toNested, ?_⟩
  rw [semicolonsAt_append, h.nesting, Int.sub_zero, h.outer, h'.outer]

theorem Closed.semicolonsAt_append (h : Closed ts) (ht : t.kind = .semicolon) :
    semicolonsAt 0 (ts ++ t :: us) = 1 + semicolonsAt 0 us := by
  have hd : (0 : Int) - 0 - descent .semicolon = 0 := rfl
  rw [TinyLanguage.semicolonsAt_append, h.outer, h.nesting, semicolonsAt_cons, ht,
    if_pos ⟨rfl, rfl⟩, hd]
  omega

theorem ne_semicolon_of_descent (h : descent k ≠ 0) : k ≠ .semicolon := by
  rintro rfl
  exact h rfl

/-- What blocks hold counts for nothing outside of them. -/
theorem Nested.enclose (h : Nested ts) (ht : t.kind = k) (hk : descent k = 1) (hu : u.kind = l)
    (hl : descent l = -1) : Closed (t :: (ts ++ [u])) := by
  have hne : t.kind ≠ .semicolon := by
    rw [ht]
    exact ne_semicolon_of_descent (by omega)
  have hne' : u.kind ≠ .semicolon := by
    rw [hu]
    exact ne_semicolon_of_descent (by omega)
  have hzero : ∀ d ≤ 0, semicolonsAt d (t :: (ts ++ [u])) = 0 := by
    intro d hd
    rw [semicolonsAt_cons_of_ne hne, ht, hk, semicolonsAt_append, h.inner _ (by omega),
      semicolonsAt_cons_of_ne hne', semicolonsAt_nil]
  refine ⟨⟨?_, fun d hd => hzero d (by omega)⟩, hzero 0 (Int.le_refl 0)⟩
  rw [nesting_cons, nesting_append, nesting_cons, nesting_nil, ht, hk, hu, hl, h.nesting]
  rfl

theorem descent_of_inExpression (h : Grammar.inExpression k) :
    descent k = 0 ∧ k ≠ .semicolon := by
  revert h
  cases k <;> decide

theorem closed_of_inExpression (h : ∀ t ∈ ts, Grammar.inExpression t.kind) : Closed ts := by
  induction ts with
  | nil => exact closed_nil
  | cons t ts ih =>
    rw [List.forall_mem_cons] at h
    obtain ⟨hdescent, hne⟩ := descent_of_inExpression h.1
    exact (ih h.2).cons rfl hdescent hne

end

namespace Grammar

theorem Expression.Yields.inExpression {e : Expression} {ts : List Token} {x : Expr Span}
    (h : e.Yields ts x) : ∀ t ∈ ts, Grammar.inExpression t.kind := by
  intro t ht
  refine e.inExpression_lexemes t.lexeme ?_
  rw [h.lexemes]
  exact List.mem_map_of_mem ht

theorem Expression.Yields.closed {e : Expression} {ts : List Token} {x : Expr Span}
    (h : e.Yields ts x) : Closed ts :=
  closed_of_inExpression h.inExpression

mutual

/-- A statement with blocks is enclosed by its first keyword and the last one that follows a block;
the keywords between do not matter. -/
theorem Statement.Yields.closed : {s : Statement} → {ts : List Token} →
    {x : TinyLanguage.Statement Span} → s.Yields ts x → Closed ts
  | _, _, _, .ifThen hk hc hk₁ ht hk₂ => by
    have hb := (Sequence.Yields.nested ht).cons hk₁ rfl
    have h := (hc.closed.toNested.append hb).enclose hk rfl hk₂ rfl
    simpa using h
  | _, _, _, .ifThenElse hk hc hk₁ ht hk₂ he hk₃ => by
    have hb' := (Sequence.Yields.nested he).cons hk₂ rfl
    have hb := ((Sequence.Yields.nested ht).append hb').cons hk₁ rfl
    have h := (hc.closed.toNested.append hb).enclose hk rfl hk₃ rfl
    simpa using h
  | _, _, _, .repeatUntil hk hq hk₁ hc => by
    have h := (Sequence.Yields.nested hq).enclose hk rfl hk₁ rfl
    simpa using h.append hc.closed
  | _, _, _, .assign ht hk he => (he.closed.cons hk rfl nofun).cons ht rfl nofun
  | _, _, _, .read hk ht => (closed_nil.cons ht rfl nofun).cons hk rfl nofun
  | _, _, _, .write hk he => he.closed.cons hk rfl nofun

theorem Sequence.Yields.nested : {q : Sequence} → {ts : List Token} → {b : Block Span} →
    q.Yields ts b → Nested ts
  | _, _, _, .last hs => (Statement.Yields.closed hs).toNested
  | _, _, _, .cons hs hk hq =>
    (Statement.Yields.closed hs).toNested.append
      ((Sequence.Yields.nested hq).cons hk rfl)

end

theorem Sequence.Yields.length_tails {q : Sequence} {ts : List Token} {b : Block Span}
    (h : q.Yields ts b) : b.tails.length = 1 + semicolonsAt 0 ts := by
  cases h with
  | last hs =>
    rw [hs.closed.outer]
    rfl
  | cons hs hk hq =>
    rw [Block.tails, List.length_cons, hq.length_tails, hs.closed.semicolonsAt_append hk,
      Nat.add_comm]

end Grammar

namespace Node

variable {α : Type}

def links (w : List (List Step × Node α)) : Nat :=
  w.countP fun m => m.2.next?.isSome

@[simp] theorem links_append (v w : List (List Step × Node α)) :
    links (v ++ w) = links v + links w :=
  List.countP_append

@[simp] theorem links_below (s : Step) (w : List (List Step × Node α)) :
    links (w.map (below s)) = links w := by
  rw [links, List.countP_map]
  rfl

end Node

open Node (links)

def semicolons (ts : List Token) : Nat :=
  ts.countP fun t => t.kind = .semicolon

@[simp] theorem semicolons_nil : semicolons [] = 0 := rfl

@[simp] theorem semicolons_append (ts us : List Token) :
    semicolons (ts ++ us) = semicolons ts + semicolons us :=
  List.countP_append

theorem semicolons_cons_of_kind {t : Token} {k : Token.Kind} (h : t.kind = k)
    (hk : k ≠ .semicolon) (ts : List Token) : semicolons (t :: ts) = semicolons ts := by
  rw [semicolons, List.countP_cons_of_neg (by simp [h, hk]), semicolons]

theorem semicolons_cons_self {t : Token} (h : t.kind = .semicolon) (ts : List Token) :
    semicolons (t :: ts) = semicolons ts + 1 := by
  rw [semicolons, List.countP_cons_of_pos (by simp [h]), semicolons]

theorem Expr.links_walk {α : Type} (e : Expr α) : links e.walk = 0 := by
  induction e with
  | constant | identifier => rfl
  | binary a op l r ihl ihr =>
    have h : links
        (l.walk.map (Node.below (.child 0)) ++ r.walk.map (Node.below (.child 1))) = 0 := by
      rw [Node.links_append, Node.links_below, Node.links_below, ihl, ihr]
    exact h

namespace Grammar

theorem Expression.Yields.semicolons {e : Expression} {ts : List Token} {x : Expr Span}
    (h : e.Yields ts x) : semicolons ts = 0 := by
  rw [TinyLanguage.semicolons, List.countP_eq_zero]
  intro t ht
  simpa using (descent_of_inExpression (h.inExpression t ht)).2

mutual

theorem Statement.Yields.links : {s : Statement} → {ts : List Token} →
    {x : TinyLanguage.Statement Span} → s.Yields ts x → links x.walkBelow = semicolons ts
  | _, _, _, .ifThen hk hc hk₁ ht hk₂ => by
    simp [TinyLanguage.Statement.walkBelow, Expr.links_walk, semicolons_cons_of_kind hk,
      semicolons_cons_of_kind hk₁, semicolons_cons_of_kind hk₂, hc.semicolons,
      Sequence.Yields.links ht]
  | _, _, _, .ifThenElse hk hc hk₁ ht hk₂ he hk₃ => by
    simp [TinyLanguage.Statement.walkBelow, Expr.links_walk, semicolons_cons_of_kind hk,
      semicolons_cons_of_kind hk₁, semicolons_cons_of_kind hk₂, semicolons_cons_of_kind hk₃,
      hc.semicolons, Sequence.Yields.links ht, Sequence.Yields.links he]
  | _, _, _, .repeatUntil hk hq hk₁ hc => by
    simp [TinyLanguage.Statement.walkBelow, Expr.links_walk, semicolons_cons_of_kind hk,
      semicolons_cons_of_kind hk₁, hc.semicolons, Sequence.Yields.links hq]
  | _, _, _, .assign ht hk he => by
    simp [TinyLanguage.Statement.walkBelow, Expr.links_walk, semicolons_cons_of_kind ht,
      semicolons_cons_of_kind hk, he.semicolons]
  | _, _, _, .read hk ht => by
    simp [TinyLanguage.Statement.walkBelow, semicolons_cons_of_kind hk,
      semicolons_cons_of_kind ht, Node.links]
  | _, _, _, .write hk he => by
    simp [TinyLanguage.Statement.walkBelow, Expr.links_walk, semicolons_cons_of_kind hk,
      he.semicolons]

/-- All semicolons stand between statements that follow each other. -/
theorem Sequence.Yields.links : {q : Sequence} → {ts : List Token} → {b : Block Span} →
    q.Yields ts b → links b.walk = semicolons ts
  | _, _, _, .last hs => Statement.Yields.links hs
  | _, _, _, @Sequence.Yields.cons s q k ts us x b hs hk hq => by
    have h : links (Block.walk (.cons x b)) =
        links (x.walkBelow ++ b.walk.map (Node.below .next)) + 1 := by
      rw [Block.walk, Node.links, List.countP_cons_of_pos (by exact rfl), Node.links]
    rw [h, Node.links_append, Node.links_below, Statement.Yields.links hs,
      Sequence.Yields.links hq, semicolons_append, semicolons_cons_self hk, Nat.add_assoc]

end

end Grammar

/-- Each semicolon links two statements, and it links two of the program itself if all blocks that
have been started before it have been ended. -/
theorem parse_links {text : String} {limits : Limits} {b : Block Span}
    (h : parse text limits = .ok b) :
    ∃ ts, tokenize text = .ok ts ∧ links (Node.statement b).walk = semicolons ts ∧
      (Node.statement b).chain.length = 1 + semicolonsAt 0 ts := by
  obtain ⟨ts, q, hts, hq⟩ := exists_yields_of_parse h
  refine ⟨ts, hts, hq.links, ?_⟩
  rw [Node.chain, List.length_map, hq.length_tails]

theorem parse_links_repeat :
    ∃ ts b, tokenize "repeat read x; read y until x; write y" = .ok ts ∧
      parse "repeat read x; read y until x; write y" {} = .ok b ∧
      semicolons ts = 2 ∧ semicolonsAt 0 ts = 1 := by
  have h : parse "repeat read x; read y until x; write y" {} =
      .ok (.cons (.repeatUntil ⟨1, 1, 0, 29⟩ (.cons (.read ⟨1, 8, 7, 13⟩ "x")
        (.last (.read ⟨1, 16, 15, 21⟩ "y"))) (.identifier ⟨1, 29, 28, 29⟩ "x"))
        (.last (.write ⟨1, 32, 31, 38⟩ (.identifier ⟨1, 38, 37, 38⟩ "y")))) :=
    ok_of_toOption (by decide +kernel)
  obtain ⟨ts, hts, hlinks, hchain⟩ := parse_links h
  exact ⟨ts, _, hts, h, hlinks.symm, (Nat.add_left_cancel hchain).symm⟩

end TinyLanguage
