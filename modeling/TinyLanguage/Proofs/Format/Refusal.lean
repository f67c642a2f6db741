import TinyLanguage.Format.Printer
import TinyLanguage.Proofs.Format.Source
import TinyLanguage.Proofs.Parser.Form

namespace TinyLanguage

open Format (unlines indent)

variable {α β : Type}

theorem ok_bind (a : α) (f : α → Except Error β) : (Except.ok a >>= f) = f a := rfl

theorem error_bind (e : Error) (f : α → Except Error β) : (Except.error e >>= f) = .error e := rfl

namespace Draft

section

variable {kind : Node.Kind} {span : Span} {c d : Draft} {cs : List Draft} {next? : Option Draft}

theorem requireChild_zero : (mk kind span (c :: cs) next?).requireChild 0 =
    .ok ⟨c, List.mem_cons_self⟩ := rfl

theorem requireChild_one : (mk kind span (c :: d :: cs) next?).requireChild 1 =
    .ok ⟨d, List.mem_cons_of_mem c List.mem_cons_self⟩ := rfl

theorem child_two {e : Draft} : (mk kind span (c :: d :: e :: cs) next?).child? 2 =
    some ⟨e, by simp⟩ := rfl

end

variable {c d : Draft} {level : Nat} {text rest : String} {e : Error}

theorem sequenceText_of_none (hd : d.statementText level = .ok text) (h : d.next? = none) :
    d.sequenceText level = .ok s!"{indent level}{text}" := by
  rw [sequenceText, hd, ok_bind]
  split
  · rfl
  · rename_i hc
    cases h.symm.trans hc

theorem sequenceText_of_some (hd : d.statementText level = .ok text) (h : d.next? = some c)
    (hc : c.sequenceText level = .ok rest) :
    d.sequenceText level = .ok s!"{indent level}{text};\n{rest}" := by
  rw [sequenceText, hd, ok_bind]
  split
  · rename_i hnone
    cases h.symm.trans hnone
  · rename_i c' hc'
    obtain rfl := Option.some.inj (h.symm.trans hc')
    rw [hc]
    rfl

theorem sequenceText_of_error (hd : d.statementText level = .error e) :
    d.sequenceText level = .error e := by
  rw [sequenceText, hd, error_bind]

end Draft

open Draft (requireChild_zero requireChild_one child_two)

theorem Expr.expressionText_draft (e : Expr Span) : e.draft.expressionText = .ok e.source := by
  induction e with
  | constant | identifier =>
    rw [draft, Draft.expressionText]
    rfl
  | binary _ op l r ihl ihr =>
    rw [draft, Draft.expressionText]
    simp only [requireChild_zero, requireChild_one, ok_bind, ihl, ihr]
    rfl

mutual

-- A printer writes what closes a statement later than the statement, so `stop` may be anything.
theorem Statement.statementText_draft : (s : Statement Span) → (next? : Option Draft) →
    (level : Nat) → ∃ text, (s.draft next?).statementText level = .ok text ∧
      ∀ stop, unlines (s.source level stop) = s!"{indent level}{text}{stop}\n"
  | .ifThen _ c t, next?, level => by
    obtain ⟨consequent, ht, htext⟩ := Block.sequenceText_draft t (level + 1)
    refine ⟨s!"if {c.source} then\n{consequent}\n{indent level}end", ?_, fun stop => ?_⟩
    · rw [Statement.draft, Draft.statementText]
      simp only [requireChild_zero, requireChild_one, ok_bind, c.expressionText_draft, ht]
      rfl
    · simp [Statement.source, ← String.toList_inj, htext]
  | .ifThenElse _ c t e, next?, level => by
    obtain ⟨first, ht, hfirst⟩ := Block.sequenceText_draft t (level + 1)
    obtain ⟨second, he, hsecond⟩ := Block.sequenceText_draft e (level + 1)
    refine ⟨s!"if {c.source} then\n{first}\n{indent level}else\n{second}\n{indent level}end", ?_,
      fun stop => ?_⟩
    · rw [Statement.draft, Draft.statementText]
      simp only [requireChild_zero, requireChild_one, child_two, ok_bind,
        c.expressionText_draft, ht, he]
      rfl
    · simp [Statement.source, ← String.toList_inj, hfirst, hsecond]
  | .repeatUntil _ b c, next?, level => by
    obtain ⟨body, hb, htext⟩ := Block.sequenceText_draft b (level + 1)
    refine ⟨s!"repeat\n{body}\n{indent level}until {c.source}", ?_, fun stop => ?_⟩
    · rw [Statement.draft, Draft.statementText]
      simp only [requireChild_zero, requireChild_one, ok_bind, c.expressionText_draft, hb]
      rfl
    · simp [Statement.source, ← String.toList_inj, htext]
  | .assign _ x e, next?, level => by
    refine ⟨s!"{x} := {e.source}", ?_, fun stop => ?_⟩
    · rw [Statement.draft, Draft.statementText]
      simp only [requireChild_zero, ok_bind, e.expressionText_draft]
      rfl
    · simp [Statement.source, ← String.toList_inj]
  | .read _ x, next?, level => by
    refine ⟨s!"read {x}", ?_, fun stop => ?_⟩
    · rw [Statement.draft, Draft.statementText]
      rfl
    · simp [Statement.source, ← String.toList_inj]
  | .write _ e, next?, level => by
    refine ⟨s!"write {e.source}", ?_, fun stop => ?_⟩
    · rw [Statement.draft, Draft.statementText]
      simp only [requireChild_zero, ok_bind, e.expressionText_draft]
      rfl
    · simp [Statement.source, ← String.toList_inj]

theorem Block.sequenceText_draft : (b : Block Span) → (level : Nat) →
    ∃ text, b.draft.sequenceText level = .ok text ∧ unlines (b.source level) = s!"{text}\n"
  | .last s, level => by
    obtain ⟨text, hs, htext⟩ := Statement.statementText_draft s none level
    refine ⟨_, Draft.sequenceText_of_none hs (s.next_draft), ?_⟩
    simp [Block.source, htext]
  | .cons s b, level => by
    obtain ⟨text, hs, htext⟩ := Statement.statementText_draft s (some b.draft) level
    obtain ⟨rest, hb, hrest⟩ := Block.sequenceText_draft b level
    refine ⟨_, Draft.sequenceText_of_some hs s.next_draft hb, ?_⟩
    simp [Block.source, ← String.toList_inj, htext, hrest]

end

theorem Expr.statementText_draft (e : Expr Span) (level : Nat) : e.draft.statementText level =
    .error (.format s!"expected a statement, found '{e.kind.label}'") := by
  cases e with
  | constant | identifier | binary =>
    rw [draft, Draft.statementText]
    rfl

/-- The children that a printer asks for are there, each of the category it takes it for, so it does
not matter to it that a draft promises nothing of the kind. -/
theorem Node.print_draft (n : Node Span) : n.draft.print = Format.source.render n := by
  cases n with
  | expression e =>
    rw [draft, Draft.print, Draft.sequenceText_of_error (e.statementText_draft 0)]
    rfl
  | statement b =>
    obtain ⟨text, hb, htext⟩ := b.sequenceText_draft 0
    have hlines : text.push '\n' = unlines (b.source 0) := by
      rw [htext, ← String.toList_inj]
      simp
    rw [draft, Draft.print, hb, ok_bind, hlines]
    rfl

example : (Draft.mk .write {} [.ofKind (.read "x") {}] none).print =
    .error (.format "expected an expression, found 'read(x)'") := by
  cbv

example : (Draft.mk .loop {} [.ofKind (.read "x") {}] none).print =
    .error (.format "node 'repeat' has no child #1") := by
  cbv

/-- Every node of a tree is written out in every format, except that an expression has no source
text of its own. This is all that a printer complains of that knows nothing about the form of the
tree, so it never asks what the reader has built for a child that is not there. No program that has
been read fails to be written out. -/
theorem render_outcome :
    (∀ n : Node Span,
      (∃ text, Format.outline.render n = .ok text) ∧
      (∃ text, Format.graph.render n = .ok text) ∧
      ((∃ text, Format.source.render n = .ok text) ↔ n.category = .statement) ∧
      (n.category = .expression → Format.source.render n =
        .error (.format s!"expected a statement, found '{n.label}'")) ∧
      n.draft.print = Format.source.render n) ∧
    (∀ text limits largest d run, limits.maxDepth ≤ largest →
      Reader.parse largest text limits = some (.ok d, run) →
      ∀ path m, d.follow? path = some m →
        ((∃ text, m.print = .ok text) ↔ m.category = .statement) ∧
        (m.category = .expression →
          m.print = .error (.format s!"expected a statement, found '{m.label}'"))) ∧
    ∀ text limits b, parse text limits = .ok b →
      ∀ f : Format, ∃ written, f.render (.statement b) = .ok written := by
  have hsource (n : Node Span) :
      ((∃ text, Format.source.render n = .ok text) ↔ n.category = .statement) ∧
      (n.category = .expression → Format.source.render n =
        .error (.format s!"expected a statement, found '{n.label}'")) := by
    cases n with
    | expression e => exact ⟨by simp [Format.render, Format.lines, Except.map], fun _ => rfl⟩
    | statement b => exact ⟨by simpa using ⟨_, rfl⟩, by simp⟩
  refine ⟨fun n => ⟨⟨_, rfl⟩, ⟨_, rfl⟩, (hsource n).1, (hsource n).2, n.print_draft⟩, ?_, ?_⟩
  · intro text limits largest d run hlargest hrun path m hm
    obtain ⟨b, n, -, -, rfl⟩ := Reader.exists_node_of_follow hlargest hrun hm
    have hlabel : n.draft.label = n.label := congrArg Node.Kind.label n.kind_draft
    rw [n.print_draft, n.category_draft, hlabel]
    exact hsource n
  · intro _ _ b _ f
    cases f with
    | outline | graph | source => exact ⟨_, rfl⟩

theorem render_outcome_condition :
    ∃ b n d run, parse "if a<b then read x end" {} = .ok b ∧
      (Node.statement b).follow? [.child 0] = some n ∧
      Format.source.render n = .error (.format "expected a statement, found 'op(<)'") ∧
      n.draft.print = Format.source.render n ∧
      Reader.parse 100 "if a<b then read x end" {} = some (.ok d, run) ∧
      (∃ text, d.print = .ok text) ∧
      ∀ f : Format, ∃ written, f.render (.statement b) = .ok written := by
  have h : parse "if a<b then read x end" {} = .ok (.last (.ifThen ⟨1, 1, 0, 22⟩
      (.binary ⟨1, 4, 3, 6⟩ .less (.identifier ⟨1, 4, 3, 4⟩ "a") (.identifier ⟨1, 6, 5, 6⟩ "b"))
      (.last (.read ⟨1, 13, 12, 18⟩ "x")))) :=
    ok_of_toOption (by decide +kernel)
  obtain ⟨hnodes, hdrafts, hall⟩ := render_outcome
  obtain ⟨-, -, -, hrefuse, hdraft⟩ := hnodes (.expression (.binary ⟨1, 4, 3, 6⟩ .less
    (.identifier ⟨1, 4, 3, 4⟩ "a") (.identifier ⟨1, 6, 5, 6⟩ "b")))
  obtain ⟨_, run, hrun, rfl, -⟩ :=
    @Reader.parse_ends "if a<b then read x end" {} 100 (.inl (Nat.le_refl 100))
  rw [h] at hrun
  exact ⟨_, _, _, run, h, rfl, hrefuse rfl, hdraft, hrun,
    (hdrafts _ _ _ _ _ (Nat.le_refl 100) hrun [] _ rfl).1.2 rfl, hall _ _ _ h⟩

end TinyLanguage
