import TinyLanguage.Proofs.Format.Printed
import TinyLanguage.Proofs.Parser.Exactness
import TinyLanguage.Tree.Node

namespace TinyLanguage

variable {α : Type}

/-- Whether the tokens of a kind stand for nodes: the keywords that a statement starts with, but for
`read`, the operators, names and numbers. -/
def Token.Kind.isListed : Token.Kind → Bool
  | .ifKw | .repeatKw | .writeKw => true
  | .plus | .minus | .star | .slash | .less | .equals => true
  | .identifier | .number => true
  | _ => false

/-- What the nodes of an expression say, each operator between its operands. -/
def Expr.listing : Expr α → List Lexeme
  | .constant _ s => [⟨.number, s⟩]
  | .identifier _ x => [⟨.identifier, x⟩]
  | .binary _ op l r => l.listing ++ ⟨op.kind, op.symbol⟩ :: r.listing

mutual

def Statement.listing : Statement α → List Lexeme
  | .ifThen _ c t => .fixed .ifKw :: (c.listing ++ t.listing)
  | .ifThenElse _ c t e => .fixed .ifKw :: (c.listing ++ (t.listing ++ e.listing))
  | .repeatUntil _ b c => .fixed .repeatKw :: (b.listing ++ c.listing)
  | .assign _ x e => ⟨.identifier, x⟩ :: e.listing
  | .read _ x => [⟨.identifier, x⟩]
  | .write _ e => .fixed .writeKw :: e.listing

def Block.listing : Block α → List Lexeme
  | .last s => s.listing
  | .cons s b => s.listing ++ b.listing

end

@[simp] theorem Expr.length_listing (e : Expr α) : e.listing.length = e.count := by
  induction e with
  | constant | identifier => rfl
  | binary _ _ l r ihl ihr =>
    simp only [listing, count, List.length_append, List.length_cons, ihl, ihr]
    omega

mutual

@[simp] theorem Statement.length_listing : (s : Statement α) → s.listing.length = s.count
  | .ifThen _ c t => by
    simp only [Statement.listing, Statement.count, List.length_cons, List.length_append,
      c.length_listing, Block.length_listing t]
    omega
  | .ifThenElse _ c t e => by
    simp only [Statement.listing, Statement.count, List.length_cons, List.length_append,
      c.length_listing, Block.length_listing t, Block.length_listing e]
    omega
  | .repeatUntil _ b c => by
    simp only [Statement.listing, Statement.count, List.length_cons, List.length_append,
      c.length_listing, Block.length_listing b]
    omega
  | .assign _ _ e | .write _ e => by
    simp only [Statement.listing, Statement.count, List.length_cons, e.length_listing]
    omega
  | .read _ _ => rfl

@[simp] theorem Block.length_listing : (b : Block α) → b.listing.length = b.count
  | .last s => Statement.length_listing s
  | .cons s b => by
    simp only [Block.listing, Block.count, List.length_append, Statement.length_listing s,
      Block.length_listing b]

end

def listed (ts : List Token) : List Lexeme :=
  (ts.filter fun t => t.kind.isListed).map Token.lexeme

@[simp] theorem listed_nil : listed [] = [] := rfl

@[simp] theorem listed_append (ts us : List Token) :
    listed (ts ++ us) = listed ts ++ listed us := by
  simp [listed]

theorem listed_cons_of_isListed {t : Token} {l : Lexeme} (h : t.kind.isListed) (hl : t.lexeme = l)
    (ts : List Token) : listed (t :: ts) = l :: listed ts := by
  rw [listed, List.filter_cons_of_pos (by exact h), List.map_cons, hl]
  rfl

theorem listed_cons_of_kind {t : Token} {k : Token.Kind} (h : t.kind = k)
    (hk : k.isListed = false) (ts : List Token) : listed (t :: ts) = listed ts := by
  rw [listed, List.filter_cons_of_neg (by simp [h, hk])]
  rfl

namespace Grammar

theorem listing_join (op : Operator) (x y : Expr Span) :
    (Expr.join op x y).listing = x.listing ++ ⟨op.kind, op.symbol⟩ :: y.listing := rfl

theorem ProductSign.kind_eq (sign : ProductSign) : sign.kind = sign.operator.kind := by
  cases sign <;> rfl

theorem SumSign.kind_eq (sign : SumSign) : sign.kind = sign.operator.kind := by
  cases sign <;> rfl

theorem ComparisonSign.kind_eq (sign : ComparisonSign) : sign.kind = sign.operator.kind := by
  cases sign <;> rfl

theorem listed_operator {o : Token} {op : Operator} (h : o.kind = op.kind) (ts : List Token) :
    listed (o :: ts) = ⟨op.kind, op.symbol⟩ :: listed ts :=
  listed_cons_of_isListed (by rw [h]; cases op <;> rfl)
    (by cases op <;> exact Token.lexeme_of_kind h rfl) ts

theorem listed_identifier {t : Token} (h : t.kind = .identifier) (ts : List Token) :
    listed (t :: ts) = ⟨.identifier, t.text⟩ :: listed ts :=
  listed_cons_of_isListed (by rw [h]; rfl) (lexeme_of_identifier h) ts

theorem listed_number {t : Token} (h : t.kind = .number) (ts : List Token) :
    listed (t :: ts) = ⟨.number, t.text⟩ :: listed ts :=
  listed_cons_of_isListed (by rw [h]; rfl) (lexeme_of_number h) ts

theorem listed_keyword {t : Token} {k : Token.Kind} (h : t.kind = k) (hk : k.isListed)
    (hs : k.spelling?.isSome) (ts : List Token) : listed (t :: ts) = .fixed k :: listed ts :=
  listed_cons_of_isListed (by rwa [h]) (Token.lexeme_of_kind h hs) ts

mutual

/-- The tree says what the tokens say that stand for its nodes. -/
theorem Factor.Yields.listing : {f : Factor} → {ts : List Token} → {x : Expr Span} →
    f.Yields ts x → x.listing = listed ts
  | _, _, _, .number ht => by rw [listed_number ht, listed_nil, Expr.listing]
  | _, _, _, .identifier ht => by rw [listed_identifier ht, listed_nil, Expr.listing]
  | _, _, _, .parens hl he hr => by
    rw [listed_cons_of_kind hl rfl, listed_append, listed_cons_of_kind hr rfl, listed_nil,
      List.append_nil, Expression.Yields.listing he]

theorem Term.Yields.listing : {t : Term} → {ts : List Token} → {x : Expr Span} →
    t.Yields ts x → x.listing = listed ts
  | _, _, _, .factor hf => Factor.Yields.listing hf
  | _, _, _, .more ht ho hf => by
    rw [listing_join, listed_append, listed_operator (ho.trans (ProductSign.kind_eq _)), Term.Yields.listing ht,
      Factor.Yields.listing hf]

theorem Sum.Yields.listing : {s : Sum} → {ts : List Token} → {x : Expr Span} →
    s.Yields ts x → x.listing = listed ts
  | _, _, _, .term ht => Term.Yields.listing ht
  | _, _, _, .more hs ho ht => by
    rw [listing_join, listed_append, listed_operator (ho.trans (SumSign.kind_eq _)), Sum.Yields.listing hs, Term.Yields.listing ht]

theorem Expression.Yields.listing : {e : Expression} → {ts : List Token} → {x : Expr Span} →
    e.Yields ts x → x.listing = listed ts
  | _, _, _, .sum hs => Sum.Yields.listing hs
  | _, _, _, .comparison hl ho hr => by
    rw [listing_join, listed_append, listed_operator (ho.trans (ComparisonSign.kind_eq _)), Sum.Yields.listing hl,
      Sum.Yields.listing hr]

end

mutual

theorem Statement.Yields.listing : {s : Statement} → {ts : List Token} →
    {x : TinyLanguage.Statement Span} → s.Yields ts x → x.listing = listed ts
  | _, _, _, .ifThen hk hc hk₁ ht hk₂ => by
    rw [listed_keyword hk rfl rfl, listed_append, listed_cons_of_kind hk₁ rfl, listed_append,
      listed_cons_of_kind hk₂ rfl, listed_nil, List.append_nil, ← hc.listing,
      ← Sequence.Yields.listing ht, TinyLanguage.Statement.listing]
  | _, _, _, .ifThenElse hk hc hk₁ ht hk₂ he hk₃ => by
    rw [listed_keyword hk rfl rfl, listed_append, listed_cons_of_kind hk₁ rfl, listed_append,
      listed_cons_of_kind hk₂ rfl, listed_append, listed_cons_of_kind hk₃ rfl, listed_nil,
      List.append_nil, ← hc.listing, ← Sequence.Yields.listing ht, ← Sequence.Yields.listing he,
      TinyLanguage.Statement.listing]
  | _, _, _, .repeatUntil hk hq hk₁ hc => by
    rw [listed_keyword hk rfl rfl, listed_append, listed_cons_of_kind hk₁ rfl, ← hc.listing,
      ← Sequence.Yields.listing hq, TinyLanguage.Statement.listing]
  | _, _, _, .assign ht hk he => by
    rw [listed_identifier ht, listed_cons_of_kind hk rfl, ← he.listing,
      TinyLanguage.Statement.listing]
  | _, _, _, .read hk ht => by
    rw [listed_cons_of_kind hk rfl, listed_identifier ht, listed_nil,
      TinyLanguage.Statement.listing]
  | _, _, _, .write hk he => by
    rw [listed_keyword hk rfl rfl, ← he.listing, TinyLanguage.Statement.listing]

theorem Sequence.Yields.listing : {q : Sequence} → {ts : List Token} → {b : Block Span} →
    q.Yields ts b → b.listing = listed ts
  | _, _, _, .last hs => Statement.Yields.listing hs
  | _, _, _, .cons hs hk hq => by
    rw [listed_append, listed_cons_of_kind hk rfl, ← Statement.Yields.listing hs,
      ← Sequence.Yields.listing hq, Block.listing]

end

end Grammar

/-- Every node of a tree stands for one token, in the order of the text; the tokens that are left
out are `then`, `else`, `end`, `until`, `read`, parentheses, semicolons and `:=`. -/
theorem parse_listing {text : String} {limits : Limits} {b : Block Span}
    (h : parse text limits = .ok b) :
    ∃ ts, tokenize text = .ok ts ∧
      b.listing = (ts.filter fun t => t.kind.isListed).map Token.lexeme ∧
      (Node.statement b).count = ts.countP fun t => t.kind.isListed := by
  obtain ⟨ts, q, hts, hq⟩ := exists_yields_of_parse h
  have hlisting : b.listing = listed ts := hq.listing
  refine ⟨ts, hts, hlisting, ?_⟩
  rw [List.countP_eq_length_filter, ← List.length_map (f := Token.lexeme), Node.count,
    ← b.length_listing, hlisting, listed]

theorem parse_listing_conditional :
    ∃ ts b, tokenize "if (x) then write 1-x end" = .ok ts ∧
      parse "if (x) then write 1-x end" {} = .ok b ∧
      (ts.filter fun t => t.kind.isListed).map Token.lexeme = [.fixed .ifKw, ⟨.identifier, "x"⟩,
        .fixed .writeKw, ⟨.number, "1"⟩, .fixed .minus, ⟨.identifier, "x"⟩] ∧
      (Node.statement b).count = 6 := by
  have h : parse "if (x) then write 1-x end" {} =
      .ok (.last (.ifThen ⟨1, 1, 0, 25⟩ (.identifier ⟨1, 5, 4, 5⟩ "x")
        (.last (.write ⟨1, 13, 12, 21⟩ (.binary ⟨1, 19, 18, 21⟩ .subtract
          (.constant ⟨1, 19, 18, 19⟩ "1") (.identifier ⟨1, 21, 20, 21⟩ "x")))))) :=
    ok_of_toOption (by decide +kernel)
  obtain ⟨ts, hts, hlisting, hcount⟩ := parse_listing h
  exact ⟨ts, _, hts, h, hlisting.symm, rfl⟩

end TinyLanguage
