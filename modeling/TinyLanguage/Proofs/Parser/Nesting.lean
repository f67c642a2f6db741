import TinyLanguage.Proofs.Grammar.Spread
import TinyLanguage.Proofs.Parser.Occurrence

namespace TinyLanguage

open Grammar

namespace Expr

variable {α : Type}

def leftmost : Expr α → Expr α
  | binary _ _ l _ => l.leftmost
  | e => e

def rightmost : Expr α → Expr α
  | binary _ _ _ r => r.rightmost
  | e => e

end Expr

/-- A node has its span in a text of these tokens: the place is counted right, the children and all
that follow them in their chains stand within and in order, and it starts and ends as its leaves or
its tokens do. -/
structure Node.Placed (text : String) (ts : List Token) (n : Node Span) : Prop where
  inside : n.note.start < n.note.stop ∧ n.note.stop ≤ text.utf8ByteSize
  stands : ∃ before part behind, text = before ++ part ++ behind ∧
    n.note = ⟨1 + before.toList.count '\n', 1 + lastLine before.toList, before.utf8ByteSize,
      (before ++ part).utf8ByteSize⟩
  holds : ∀ s ∈ chainSpans n.children, n.note.start ≤ s.start ∧ s.stop ≤ n.note.stop
  children : (chainSpans n.children).Pairwise fun r s => r.stop ≤ s.start
  chain : (n.chain.map Node.note).Pairwise fun r s => r.stop ≤ s.start
  leaves : ∀ x, n = .expression x → x.note.first = x.leftmost.note.first ∧
    x.note.stop = x.rightmost.note.stop
  tokens : ∀ b, n = .statement b → ∃ s : Grammar.Statement, ∃ us, us <:+: ts ∧
    s.lexemes = us.map Token.lexeme ∧ s.tree = b.head.shape ∧ Ends us b.head.note

namespace Node

variable {text : String} {limit : Nat} {ts : List Token} {n : Node Span}

theorem Occurs.exists_spread (h : n.Occurs limit ts) (hts : Successive ts) :
    ∃ us, us <:+: ts ∧ Ends us n.note ∧ Spread us (chainSpans n.children) := by
  cases n with
  | expression x =>
    obtain ⟨e, us, hus, he⟩ := h
    obtain ⟨vs, hvs, hbare⟩ := he.bare
    have hvs := hvs.trans hus
    obtain ⟨core, hcore, hends, hspread⟩ := hbare.spread (hts.sublist hvs.sublist).rising
    exact ⟨core, hcore.trans hvs, hends, hspread⟩
  | statement b =>
    obtain ⟨s, us, base, hus, hs, -⟩ := h.head
    have hrising := (hts.sublist hus.sublist).rising
    exact ⟨us, hus, hs.ends hrising, hs.spread hrising⟩

theorem Occurs.exists_spread_chain (h : n.Occurs limit ts) (hts : Successive ts) :
    ∃ us, us <:+: ts ∧ Spread us (n.chain.map Node.note) := by
  cases n with
  | expression x =>
    obtain ⟨us, hus, hends, -⟩ := h.exists_spread hts
    exact ⟨us, hus, .of_ends hends⟩
  | statement b =>
    obtain ⟨q, us, base, hus, hq, -⟩ := h
    have hspread := hq.spread (hts.sublist hus.sublist).rising
    exact ⟨us, hus, by simpa [chain, note, Function.comp_def] using hspread⟩

theorem Occurs.start_lt_stop (h : n.Occurs limit ts) (hts : Successive ts) :
    n.note.start < n.note.stop := by
  obtain ⟨us, hus, hends, -⟩ := h.exists_spread hts
  exact hends.start_lt_stop (hts.sublist hus.sublist)

theorem Occurs.ordered (h : n.Occurs limit ts) (hts : Successive ts) :
    (chainSpans n.children).Pairwise fun r s => r.stop ≤ s.start := by
  obtain ⟨us, hus, -, hspread⟩ := h.exists_spread hts
  exact hspread.ordered (hts.sublist hus.sublist)

/-- The left operand is where an operation starts, the right one is where it ends. -/
theorem Occurs.leaves {x : Expr Span} (h : (expression x).Occurs limit ts) (hts : Successive ts) :
    x.note.first = x.leftmost.note.first ∧ x.note.stop = x.rightmost.note.stop := by
  induction x with
  | constant | identifier => exact ⟨rfl, rfl⟩
  | binary a op l r ihl ihr =>
    have hl : (expression l).Occurs limit ts := h.child (by simp [children, Expr.children])
    have hr : (expression r).Occurs limit ts := h.child (by simp [children, Expr.children])
    have horder : l.note.stop ≤ r.note.start := by
      simpa [children, Expr.children] using h.ordered hts
    have hlt : r.note.start < r.note.stop := hr.start_lt_stop hts
    obtain ⟨e, us, -, he⟩ := h
    obtain ⟨vs, -, hbare⟩ := he.bare
    -- Its two operands have been joined, which has given the operation its span.
    cases hbare with
    | join =>
      refine ⟨(ihl hl).1, ?_⟩
      exact (Nat.max_eq_left (by omega)).trans (ihr hr).2

theorem Occurs.placed (h : n.Occurs limit ts) (hpart : Partition [] text.toList ts) :
    n.Placed text ts := by
  have hts := hpart.successive
  obtain ⟨us, hus, hends, hspread⟩ := h.exists_spread hts
  obtain ⟨vs, hvs, hchain⟩ := h.exists_spread_chain hts
  have hstands : ∃ before part behind, text = before ++ part ++ behind ∧
      n.note = ⟨1 + before.toList.count '\n', 1 + lastLine before.toList, before.utf8ByteSize,
        (before ++ part).utf8ByteSize⟩ := by
    obtain ⟨front, back, rfl⟩ := hus
    rw [List.append_assoc] at hpart
    obtain ⟨before, part, behind, htext, hnote, -⟩ := hpart.exists_stretch hends
    refine ⟨.ofList before, .ofList part, .ofList behind, ?_, ?_⟩
    · rw [← String.toList_inj, htext]
      simp
    · rw [hnote, Span.between_after, String.toList_ofList, String.ofList_append]
  have hinside : n.note.stop ≤ text.utf8ByteSize := by
    obtain ⟨before, part, behind, rfl, hnote⟩ := hstands
    rw [hnote]
    simp
  refine ⟨⟨h.start_lt_stop hts, hinside⟩, hstands, hspread.within hends (hts.sublist hus.sublist),
    h.ordered hts, hchain.ordered (hts.sublist hvs.sublist), ?_, ?_⟩
  · rintro x rfl
    exact h.leaves hts
  · rintro b rfl
    obtain ⟨s, ws, base, hws, hs, -⟩ := h.head
    exact ⟨s, ws, hws, hs.lexemes, hs.shape.symm, hs.ends (hts.sublist hws.sublist).rising⟩

end Node

/-- The spans of a tree nest and follow each other as its nodes do, and each is where its text is. -/
theorem node_spans {text : String} {limits : Limits} {b : Block Span}
    (h : parse text limits = .ok b) :
    ∃ ts, tokenize text = .ok ts ∧ ∀ path n, (Node.statement b).follow? path = some n →
      n.Placed text ts := by
  obtain ⟨ts, hpart, hoccurs⟩ := exists_occurs h
  exact ⟨ts, hpart.tokenize_eq, fun path n hn => (hoccurs hn).placed hpart⟩

theorem node_spans_until :
    ∃ ts b x, tokenize "repeat\n  read x\nuntil (x)*2=y" = .ok ts ∧
      parse "repeat\n  read x\nuntil (x)*2=y" {} = .ok b ∧
      (Node.statement b).follow? [.child 1, .child 0] = some (.expression x) ∧
      x.note = ⟨3, 8, 23, 27⟩ ∧ x.leftmost = .identifier ⟨3, 8, 23, 24⟩ "x" ∧
      (Node.expression x).Placed "repeat\n  read x\nuntil (x)*2=y" ts := by
  have h : parse "repeat\n  read x\nuntil (x)*2=y" {} =
      .ok (.last (.repeatUntil ⟨1, 1, 0, 29⟩ (.last (.read ⟨2, 3, 9, 15⟩ "x"))
        (.binary ⟨3, 8, 23, 29⟩ .equal (.binary ⟨3, 8, 23, 27⟩ .multiply
          (.identifier ⟨3, 8, 23, 24⟩ "x") (.constant ⟨3, 11, 26, 27⟩ "2"))
          (.identifier ⟨3, 13, 28, 29⟩ "y")))) :=
    ok_of_toOption (by decide +kernel)
  obtain ⟨ts, hts, hplaced⟩ := node_spans h
  exact ⟨ts, _, _, hts, h, rfl, rfl, rfl, hplaced [.child 1, .child 0] _ rfl⟩

end TinyLanguage
