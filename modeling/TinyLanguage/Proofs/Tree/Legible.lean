import TinyLanguage.Proofs.Grammar.Yield
import TinyLanguage.Proofs.Tree.Recursion

namespace TinyLanguage

open Token (Kind)

variable {α : Type}

/-- The names and numbers of a tree are such as can be told from all other lexemes. -/
def Expr.Legible : Expr α → Prop
  | .constant _ s => Kind.classify s = .number
  | .identifier _ x => Kind.classify x = .identifier
  | .binary _ _ l r => l.Legible ∧ r.Legible

mutual

def Statement.Legible : Statement α → Prop
  | .ifThen _ c t => c.Legible ∧ t.Legible
  | .ifThenElse _ c t e => c.Legible ∧ t.Legible ∧ e.Legible
  | .repeatUntil _ b c => b.Legible ∧ c.Legible
  | .assign _ x e => Kind.classify x = .identifier ∧ e.Legible
  | .read _ x => Kind.classify x = .identifier
  | .write _ e => e.Legible

def Block.Legible : Block α → Prop
  | .last s => s.Legible
  | .cons s b => s.Legible ∧ b.Legible

end

def Node.Legible : Node α → Prop
  | .expression e => e.Legible
  | .statement b => b.Legible

theorem Expr.Legible.child {e : Expr α} (he : e.Legible) : ∀ n ∈ e.children, n.Legible := by
  cases e with
  | constant | identifier => simp [Expr.children]
  | binary _ _ l r => simpa [Expr.children, Node.Legible, Expr.Legible] using he

theorem Statement.Legible.child {s : Statement α} (hs : s.Legible) :
    ∀ n ∈ s.children, n.Legible := by
  cases s with
  | ifThen | ifThenElse | repeatUntil | write =>
    simpa [Statement.children, Node.Legible, Statement.Legible] using hs
  | assign => simpa [Statement.children, Node.Legible] using hs.2
  | read => simp [Statement.children]

theorem Block.Legible.head {b : Block α} (hb : b.Legible) : b.head.Legible := by
  cases b with
  | last s => exact hb
  | cons s b => exact hb.1

theorem Block.Legible.tail {b c : Block α} (hb : b.Legible) (hc : b.tail? = some c) :
    c.Legible := by
  cases b with
  | last s => cases hc
  | cons s b =>
    obtain rfl := Option.some.inj hc
    exact hb.2

namespace Node

theorem Legible.child {n : Node α} (hn : n.Legible) : ∀ m ∈ n.children, m.Legible := by
  cases n with
  | expression e => exact Expr.Legible.child hn
  | statement b => exact Statement.Legible.child (Block.Legible.head hn)

theorem Legible.step {n m : Node α} {s : Step} (hn : n.Legible) (h : n.step? s = some m) :
    m.Legible := by
  cases s with
  | child i => exact hn.child m (List.mem_of_getElem? h)
  | next =>
    cases n with
    | expression e => cases h
    | statement b =>
      obtain ⟨c, hc, rfl⟩ := Option.map_eq_some_iff.1 h
      exact Block.Legible.tail hn hc

theorem Legible.follow {n m : Node α} {path : List Step} (hn : n.Legible)
    (h : n.follow? path = some m) : m.Legible :=
  follow_induction Legible.step hn h

end Node

namespace Grammar

theorem classify_text {t : Token} {k : Kind} (h : t.kind = k) : Kind.classify t.text = k :=
  t.kind_eq.symm.trans h

mutual

theorem Factor.Yields.legible : {f : Factor} → {ts : List Token} → {x : Expr Span} →
    f.Yields ts x → x.Legible
  | _, _, _, .number ht | _, _, _, .identifier ht => classify_text ht
  | _, _, _, .parens _ he _ => Expression.Yields.legible he

theorem Term.Yields.legible : {t : Term} → {ts : List Token} → {x : Expr Span} →
    t.Yields ts x → x.Legible
  | _, _, _, .factor hf => Factor.Yields.legible hf
  | _, _, _, .more ht _ hf => ⟨Term.Yields.legible ht, Factor.Yields.legible hf⟩

theorem Sum.Yields.legible : {s : Sum} → {ts : List Token} → {x : Expr Span} →
    s.Yields ts x → x.Legible
  | _, _, _, .term ht => Term.Yields.legible ht
  | _, _, _, .more hs _ ht => ⟨Sum.Yields.legible hs, Term.Yields.legible ht⟩

theorem Expression.Yields.legible : {e : Expression} → {ts : List Token} → {x : Expr Span} →
    e.Yields ts x → x.Legible
  | _, _, _, .sum hs => Sum.Yields.legible hs
  | _, _, _, .comparison hl _ hr => ⟨Sum.Yields.legible hl, Sum.Yields.legible hr⟩

end

mutual

theorem Statement.Yields.legible : {s : Statement} → {ts : List Token} →
    {x : TinyLanguage.Statement Span} → s.Yields ts x → x.Legible
  | _, _, _, .ifThen _ hc _ ht _ => ⟨hc.legible, Sequence.Yields.legible ht⟩
  | _, _, _, .ifThenElse _ hc _ ht _ he _ =>
    ⟨hc.legible, Sequence.Yields.legible ht, Sequence.Yields.legible he⟩
  | _, _, _, .repeatUntil _ hq _ hc => ⟨Sequence.Yields.legible hq, hc.legible⟩
  | _, _, _, .assign ht _ he => ⟨classify_text ht, he.legible⟩
  | _, _, _, .read _ ht => classify_text ht
  | _, _, _, .write _ he => he.legible

theorem Sequence.Yields.legible : {q : Sequence} → {ts : List Token} → {b : Block Span} →
    q.Yields ts b → b.Legible
  | _, _, _, .last hs => Statement.Yields.legible hs
  | _, _, _, .cons hs _ hq => ⟨Statement.Yields.legible hs, Sequence.Yields.legible hq⟩

end

end Grammar

end TinyLanguage
