import TinyLanguage.Proofs.Parser.Agreement
import TinyLanguage.Proofs.Parser.Exactness
import TinyLanguage.Proofs.Tree.Legible

namespace TinyLanguage

open Token (Kind)

def IsName (text : String) : Prop :=
  text ≠ "" ∧ (∀ c ∈ text.toList, c.isAlpha) ∧
    text ∉ ["if", "then", "else", "end", "repeat", "until", "read", "write"]

def IsNumeral (text : String) : Prop :=
  text ≠ "" ∧ ∀ c ∈ text.toList, c.isDigit

namespace Node

variable {α : Type}

/-- The text that a node of each kind bears, and the categories of its children. -/
def Kind.Allows : Kind → List Category → Prop
  | conditional, cs =>
    cs = [.expression, .statement] ∨ cs = [.expression, .statement, .statement]
  | loop, cs => cs = [.statement, .expression]
  | assign x, cs => IsName x ∧ cs = [.expression]
  | read x, cs => IsName x ∧ cs = []
  | write, cs => cs = [.expression]
  | operator _, cs => cs = [.expression, .expression]
  | constant s, cs => IsNumeral s ∧ cs = []
  | identifier x, cs => IsName x ∧ cs = []

@[simp] theorem category_expression (e : Expr α) : (expression e).category = .expression := by
  cases e <;> rfl

@[simp] theorem category_statement (b : Block α) : (statement b).category = .statement := by
  cases b with
  | last s | cons s b => cases s <;> rfl

theorem category_of_next {n m : Node α} (h : n.next? = some m) :
    n.category = .statement ∧ m.category = .statement := by
  cases n with
  | expression e => cases h
  | statement b =>
    obtain ⟨c, -, rfl⟩ := Option.map_eq_some_iff.1 h
    exact ⟨category_statement b, category_statement c⟩

end Node

theorem isName_of_classify {x : String} (h : Kind.classify x = .identifier) : IsName x := by
  obtain ⟨hne, hall⟩ := Kind.letters_of_identifier h
  refine ⟨?_, hall, ?_⟩
  · rintro rfl
    exact hne rfl
  · intro hx
    simp only [List.mem_cons, List.not_mem_nil, or_false] at hx
    rcases hx with rfl | rfl | rfl | rfl | rfl | rfl | rfl | rfl <;> exact absurd h (by decide)

theorem isNumeral_of_classify {s : String} (h : Kind.classify s = .number) : IsNumeral s := by
  obtain ⟨hne, hall⟩ := Kind.digits_of_number h
  refine ⟨?_, hall⟩
  rintro rfl
  exact hne rfl

theorem Node.Legible.allows {α : Type} {n : Node α} (hn : n.Legible) :
    n.kind.Allows (n.children.map Node.category) := by
  cases n with
  | expression e =>
    cases e with
    | constant => exact ⟨isNumeral_of_classify hn, rfl⟩
    | identifier => exact ⟨isName_of_classify hn, rfl⟩
    | binary =>
      simp [Node.kind, Node.children, Expr.kind, Expr.children, Node.Kind.Allows]
  | statement b =>
    have hs : b.head.Legible := Block.Legible.head hn
    change b.head.kind.Allows (b.head.children.map Node.category)
    cases h : b.head with
    | ifThen | ifThenElse | repeatUntil | write =>
      simp [Statement.kind, Statement.children, Node.Kind.Allows]
    | assign =>
      rw [h] at hs
      exact ⟨isName_of_classify hs.1, by simp [Statement.children]⟩
    | read =>
      rw [h] at hs
      exact ⟨isName_of_classify hs, rfl⟩

theorem Node.legible_of_parse {text : String} {limits : Limits} {b : Block Span} {n : Node Span}
    {path : List Node.Step} (h : parse text limits = .ok b)
    (hn : (Node.statement b).follow? path = some n) : n.Legible := by
  obtain ⟨-, ts, finish, q, -, hq, -⟩ := parse_eq_ok_iff.1 h
  exact Node.Legible.follow (show (Node.statement b).Legible from hq.legible) hn

namespace Node

variable {n : Node Span} {d : Draft}

theorem kind_draft (n : Node Span) : n.draft.kind = n.kind := by
  rw [draft_eq]

theorem children_draft (n : Node Span) : n.draft.children = n.children.map draft := by
  rw [draft_eq]

theorem next_draft (n : Node Span) : n.draft.next? = n.next?.map draft := by
  rw [draft_eq]

@[simp] theorem category_draft (n : Node Span) : n.draft.category = n.category :=
  congrArg Kind.category n.kind_draft

theorem step_draft (n : Node Span) (s : Step) : n.draft.step? s = (n.step? s).map draft := by
  cases s with
  | child i =>
    rw [Draft.step?, children_draft, List.getElem?_map]
    rfl
  | next => exact n.next_draft

theorem follow_draft (n : Node Span) (path : List Step) :
    n.draft.follow? path = (n.follow? path).map draft := by
  induction path generalizing n with
  | nil => rfl
  | cons s path ih =>
    rw [Draft.follow?, follow?, List.foldlM_cons, List.foldlM_cons, step_draft]
    cases n.step? s with
    | none => rfl
    | some m => exact ih m

/-- The draft of a legible node has the children that its kind calls for, and if something follows
it, both are statements. -/
theorem Legible.draft_form (hn : n.Legible) :
    n.draft.kind.Allows (n.draft.children.map Draft.category) ∧
      ∀ d, n.draft.next? = some d → n.draft.category = .statement ∧ d.category = .statement := by
  constructor
  · rw [kind_draft, children_draft, List.map_map]
    simpa [Function.comp_def] using hn.allows
  · intro d hd
    rw [next_draft] at hd
    obtain ⟨m, hm, rfl⟩ := Option.map_eq_some_iff.1 hd
    simpa using category_of_next hm

end Node

/-- All that can be reached in what a reader has built is the draft of a part of the tree. -/
theorem Reader.exists_node_of_follow {text : String} {limits : Limits} {largest : Nat}
    {d m : Draft} {run : Run (ofText text)} {path : List Node.Step}
    (hlargest : limits.maxDepth ≤ largest) (h : parse largest text limits = some (.ok d, run))
    (hm : d.follow? path = some m) :
    ∃ b n, TinyLanguage.parse text limits = .ok b ∧ (Node.statement b).follow? path = some n ∧
      n.draft = m := by
  obtain ⟨result, run', hrun, hresult, -⟩ := parse_ends text (.inl hlargest)
  obtain ⟨rfl, -⟩ := Prod.mk.inj (Option.some.inj (h.symm.trans hrun))
  cases hb : TinyLanguage.parse text limits with
  | error e =>
    rw [hb] at hresult
    cases hresult
  | ok b =>
    rw [hb] at hresult
    obtain rfl := Except.ok.inj hresult
    have hfollow : (Node.statement b).draft.follow? path = some m := hm
    rw [Node.follow_draft] at hfollow
    obtain ⟨n, hn, rfl⟩ := Option.map_eq_some_iff.1 hfollow
    exact ⟨b, n, rfl, hn, rfl⟩

/-- A reader can put nodes together in any way, but what it builds of a program has the form of a
program: every node has the children that its kind calls for and bears a text that can stand there,
and only statements are chained, to statements. -/
theorem parsed_form (text : String) (limits : Limits) {largest : Nat}
    (hlargest : limits.maxDepth ≤ largest) :
    (∃ run, Reader.parse largest text limits = some ((parse text limits).map Block.draft, run)) ∧
      ∀ d run, Reader.parse largest text limits = some (.ok d, run) →
        ∀ path m, d.follow? path = some m →
          m.kind.Allows (m.children.map Draft.category) ∧
            ∀ n, m.next? = some n → m.category = .statement ∧ n.category = .statement := by
  obtain ⟨_, run, hrun, rfl, -⟩ := Reader.parse_ends text (.inl hlargest)
  refine ⟨⟨run, hrun⟩, fun d run' hd path m hm => ?_⟩
  obtain ⟨b, n, hb, hn, rfl⟩ := Reader.exists_node_of_follow hlargest hd hm
  exact (Node.legible_of_parse hb hn).draft_form

theorem parsed_form_assignment :
    ∃ d run m, Reader.parse 100 "if a then read x; x := 0 end" {} = some (.ok d, run) ∧
      d.follow? [.child 1, .next] = some m ∧ m.kind = .assign "x" ∧ m.next? = none ∧
      m.kind.Allows (m.children.map Draft.category) := by
  have h : parse "if a then read x; x := 0 end" {} = .ok (.last (.ifThen ⟨1, 1, 0, 28⟩
      (.identifier ⟨1, 4, 3, 4⟩ "a") (.cons (.read ⟨1, 11, 10, 16⟩ "x")
        (.last (.assign ⟨1, 19, 18, 24⟩ "x" (.constant ⟨1, 24, 23, 24⟩ "0")))))) :=
    ok_of_toOption (by decide +kernel)
  obtain ⟨⟨run, hrun⟩, hform⟩ := parsed_form "if a then read x; x := 0 end" {} (Nat.le_refl 100)
  rw [h] at hrun
  exact ⟨_, run, _, hrun, rfl, rfl, rfl, (hform _ run hrun [.child 1, .next] _ rfl).1⟩

end TinyLanguage
