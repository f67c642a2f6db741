import TinyLanguage.Proofs.Grammar.Frame
import TinyLanguage.Proofs.Parser.Exactness
import TinyLanguage.Proofs.Token.Piece
import TinyLanguage.Proofs.Tree.Recursion

namespace TinyLanguage

open Grammar

/-- The node is what a derivation yields for some of the tokens in a row. Where a derivation of
statements stands, no token of it is deeper than the limit. -/
def Node.Occurs (limit : Nat) (ts : List Token) : Node Span → Prop
  | .expression x => ∃ e us, us <:+: ts ∧ Expression.Yields e us x
  | .statement b =>
    ∃ q us base, us <:+: ts ∧ Sequence.Yields q us b ∧ ∀ l ∈ q.levels base, l ≤ limit

namespace Node

variable {limit base : Nat} {ts us : List Token}

theorem Occurs.mono {n : Node Span} (h : n.Occurs limit us) (hus : us <:+: ts) :
    n.Occurs limit ts := by
  cases n with
  | expression x =>
    obtain ⟨e, vs, hvs, he⟩ := h
    exact ⟨e, vs, hvs.trans hus, he⟩
  | statement b =>
    obtain ⟨q, vs, base, hvs, hq⟩ := h
    exact ⟨q, vs, base, hvs.trans hus, hq⟩

theorem occurs_expression {e : Expression} {x : Expr Span} (h : e.Yields us x)
    (before behind : List Token) (hts : before ++ us ++ behind = ts) :
    (expression x).Occurs limit ts :=
  ⟨e, us, ⟨before, behind, hts⟩, h⟩

theorem occurs_statement {q : Sequence} {b : Block Span} (h : q.Yields us b)
    (hl : ∀ l ∈ q.levels base, l ≤ limit) (before behind : List Token)
    (hts : before ++ us ++ behind = ts) : (statement b).Occurs limit ts :=
  ⟨q, us, base, ⟨before, behind, hts⟩, h, hl⟩

theorem occurs_of_bare {x : Expr Span} (h : Bare us x) : ∀ m ∈ x.children, m.Occurs limit us := by
  cases h with
  | number | identifier => simp [Expr.children]
  | @join e l r op vs ws o x y he hl ho hr =>
    have hx : (expression x).Occurs limit (vs ++ o :: ws) := occurs_expression hl [] (o :: ws) rfl
    have hy : (expression y).Occurs limit (vs ++ o :: ws) :=
      occurs_expression hr (vs ++ [o]) [] (by simp)
    simpa [Expr.join, Expr.children] using ⟨hx, hy⟩

theorem occurs_of_yields {s : Grammar.Statement} {x : TinyLanguage.Statement Span}
    (h : s.Yields us x) (hlev : ∀ l ∈ s.levels base, l ≤ limit) :
    ∀ m ∈ x.children, m.Occurs limit us := by
  cases h with
  | @ifThen c t k k₁ k₂ vs ws x b hk hc hk₁ ht hk₂ =>
    simp only [Grammar.Statement.levels, List.forall_mem_append, List.forall_mem_cons] at hlev
    obtain ⟨-, -, -, hlev, -⟩ := hlev
    have hx := @occurs_expression limit _ _ _ _ hc [k] (k₁ :: (ws ++ [k₂])) rfl
    have hb := occurs_statement ht hlev (k :: (vs ++ [k₁])) [k₂] rfl
    simpa [Statement.children] using ⟨hx, by simpa using hb⟩
  | @ifThenElse c t e k k₁ k₂ k₃ vs ws zs x b b' hk hc hk₁ ht hk₂ he hk₃ =>
    simp only [Grammar.Statement.levels, List.forall_mem_append, List.forall_mem_cons] at hlev
    obtain ⟨-, -, -, hlev, -, hlev', -⟩ := hlev
    have hx := @occurs_expression limit _ _ _ _ hc [k] (k₁ :: (ws ++ k₂ :: (zs ++ [k₃]))) rfl
    have hb := occurs_statement ht hlev (k :: (vs ++ [k₁])) (k₂ :: (zs ++ [k₃])) rfl
    have hb' := occurs_statement he hlev' (k :: (vs ++ k₁ :: (ws ++ [k₂]))) [k₃] rfl
    simpa [Statement.children] using ⟨hx, by simpa using hb, by simpa using hb'⟩
  | @repeatUntil q c k k₁ vs ws b x hk hq hk₁ hc =>
    simp only [Grammar.Statement.levels, List.forall_mem_append, List.forall_mem_cons] at hlev
    have hb := occurs_statement hq hlev.2.1 [k] (k₁ :: ws) rfl
    have hx := @occurs_expression limit _ _ _ _ hc (k :: (vs ++ [k₁])) [] rfl
    simpa [Statement.children] using ⟨hb, by simpa using hx⟩
  | @assign e t k vs x ht hk he =>
    have hx := @occurs_expression limit _ _ _ _ he [t, k] [] rfl
    simpa [Statement.children] using hx
  | read => simp [Statement.children]
  | @write e k vs x hk he =>
    have hx := @occurs_expression limit _ _ _ _ he [k] [] rfl
    simpa [Statement.children] using hx

theorem Occurs.head {b : Block Span} (h : (statement b).Occurs limit ts) :
    ∃ s : Grammar.Statement, ∃ us base, us <:+: ts ∧ s.Yields us b.head ∧
      ∀ l ∈ s.levels (base + 1), l ≤ limit := by
  obtain ⟨q, us, base, hus, hq, hlev⟩ := h
  cases hq with
  | last hs => exact ⟨_, _, base, hus, hs, hlev⟩
  | cons hs hk hq =>
    rw [Sequence.levels, List.forall_mem_append] at hlev
    exact ⟨_, _, base, List.IsInfix.trans ⟨[], _, rfl⟩ hus, hs, hlev.1⟩

theorem Occurs.next {b c : Block Span} (h : (statement b).Occurs limit ts)
    (hc : b.tail? = some c) : (statement c).Occurs limit ts := by
  obtain ⟨q, us, base, hus, hq, hlev⟩ := h
  cases hq with
  | last hs => cases hc
  | @cons s q k vs ws x c' hs hk hq =>
    obtain rfl := Option.some.inj hc
    rw [Sequence.levels, List.forall_mem_append, List.forall_mem_cons] at hlev
    exact (occurs_statement hq hlev.2.2 (vs ++ [k]) [] (by simp)).mono hus

theorem Occurs.child {n m : Node Span} (hn : n.Occurs limit ts) (hm : m ∈ n.children) :
    m.Occurs limit ts := by
  cases n with
  | expression x =>
    obtain ⟨e, us, hus, he⟩ := hn
    obtain ⟨vs, hvs, hbare⟩ := he.bare
    exact (occurs_of_bare hbare m hm).mono (hvs.trans hus)
  | statement b =>
    obtain ⟨s, us, base, hus, hs, hlev⟩ := hn.head
    exact (occurs_of_yields hs hlev m hm).mono hus

theorem Occurs.step {n m : Node Span} {s : Step} (hn : n.Occurs limit ts)
    (h : n.step? s = some m) : m.Occurs limit ts := by
  cases s with
  | child i => exact hn.child (List.mem_of_getElem? h)
  | next =>
    cases n with
    | expression x => cases h
    | statement b =>
      obtain ⟨c, hc, rfl⟩ := Option.map_eq_some_iff.1 h
      exact hn.next hc

end Node

theorem Partition.tokenize_eq {text : String} {ts : List Token}
    (h : Partition [] text.toList ts) : tokenize text = .ok ts :=
  tokenize_eq_ok_iff.2 (Scan.ofText_eq_complete_iff.2 h)

/-- Every node of the tree of a text is yielded for some of the tokens of this text. -/
theorem exists_occurs {text : String} {limits : Limits} {b : Block Span}
    (h : parse text limits = .ok b) :
    ∃ ts, Partition [] text.toList ts ∧ ∀ {path n}, (Node.statement b).follow? path = some n →
      n.Occurs limits.maxDepth ts := by
  obtain ⟨-, ts, finish, q, hscan, hq, hneed⟩ := parse_eq_ok_iff.1 h
  have hroot := Node.occurs_statement hq ((q.need_le_iff _).1 hneed) [] [] (List.append_nil ts)
  exact ⟨ts, Scan.ofText_eq_complete_iff.1 ⟨finish, hscan⟩,
    Node.follow_induction Node.Occurs.step hroot⟩

theorem Partition.successive {before cs : List Char} {ts : List Token}
    (h : Partition before cs ts) : Successive ts :=
  ⟨fun t ht => (h.ordered.1 t ht).2, h.ordered.2⟩

/-- A span that runs over some tokens of a text in a row stands around one part of it, which is cut
into these tokens, as what is in front of it and behind it is into the others. -/
theorem Partition.exists_setting {cs : List Char} {before core behind : List Token} {s : Span}
    (h : Partition [] cs (before ++ (core ++ behind))) (hs : Ends core s) :
    ∃ front g part rest, cs = front ++ g ++ (part ++ rest) ∧ s = .between
      (({} : Position).after (front ++ g)) (({} : Position).after (front ++ g ++ part)) ∧
      Partition [] front before ∧ Gap g ∧ Partition (front ++ g) part core ∧
      Partition (front ++ g ++ part) rest behind := by
  obtain ⟨front, back, rfl, hfront, hback, -⟩ := h.split
  cases core with
  | nil => cases hs.1
  | cons t core =>
    obtain ⟨g, back, rfl, hg, hfirst, hback⟩ := hback.enter
    obtain ⟨part, rest, rfl, hpart, hrest, hstop⟩ := @Partition.split _ _ (t :: core) _ hback
    obtain ⟨u, hu, hend⟩ := Option.map_eq_some_iff.1 hs.2
    rw [hu, Option.map_some, Option.getD_some, hend] at hstop
    exact ⟨front, g, part, rest, by simp, Span.eq_between
      ((Option.some.inj hs.1).symm.trans hfirst) hstop.symm, hfront, hg, hpart, hrest⟩

theorem Partition.exists_stretch {cs : List Char} {before core behind : List Token} {s : Span}
    (h : Partition [] cs (before ++ (core ++ behind))) (hs : Ends core s) :
    ∃ front part rest, cs = front ++ (part ++ rest) ∧
      s = .between (({} : Position).after front) (({} : Position).after (front ++ part)) ∧
      Partition front part core := by
  obtain ⟨front, g, part, rest, hcs, hspan, -, -, hpart, -⟩ := h.exists_setting hs
  exact ⟨front ++ g, part, rest, hcs, hspan, hpart⟩

theorem Partition.exists_marked {text : String} {before core behind : List Token} {s : Span}
    (h : Partition [] text.toList (before ++ (core ++ behind))) (hs : Ends core s) :
    ∃ front part, s.Marks text part ∧ s.first = ({} : Position).after front ∧
      Partition front part.toList core := by
  obtain ⟨front, part, rest, htext, rfl, hpart⟩ := h.exists_stretch hs
  refine ⟨front, .ofList part, ?_, rfl, by rwa [String.toList_ofList]⟩
  have hmarks := @Span.marks_between text (.ofList part) front rest (by simp [htext])
  rwa [String.toList_ofList] at hmarks

end TinyLanguage
