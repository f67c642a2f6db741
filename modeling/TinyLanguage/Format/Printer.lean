import TinyLanguage.Error
import TinyLanguage.Format.Outline
import TinyLanguage.Tree.Draft

namespace TinyLanguage.Draft

theorem sizeOf_child {c d : Draft} (h : c ∈ d.children) : sizeOf c < sizeOf d := by
  obtain ⟨kind, span, children, next⟩ := d
  have hlt := List.sizeOf_lt_of_mem h
  simp only [mk.sizeOf_spec]
  dsimp only at hlt
  omega

theorem sizeOf_next {c d : Draft} (h : d.next? = some c) : sizeOf c < sizeOf d := by
  obtain ⟨kind, span, children, next⟩ := d
  obtain rfl : next = some c := h
  simp only [mk.sizeOf_spec, Option.some.sizeOf_spec]
  omega

def child? (d : Draft) (i : Nat) : Option {c // c ∈ d.children} :=
  d.children.attach[i]?

def requireChild (d : Draft) (i : Nat) : Except Error {c // c ∈ d.children} :=
  match d.child? i with
  | some c => .ok c
  | none => .error (.format s!"node '{d.label}' has no child #{i}")

def expressionText (d : Draft) : Except Error String :=
  match d.kind with
  | .operator op => do
    let ⟨left, _⟩ ← d.requireChild 0
    let leftText ← left.expressionText
    let ⟨right, _⟩ ← d.requireChild 1
    let rightText ← right.expressionText
    return s!"({leftText} {op.symbol} {rightText})"
  | .constant s => return s
  | .identifier x => return x
  | _ => throw (.format s!"expected an expression, found '{d.label}'")
termination_by sizeOf d
decreasing_by all_goals exact sizeOf_child ‹_›

mutual

/-- The text of a statement behind the indentation of its first line. -/
def statementText (level : Nat) (d : Draft) : Except Error String :=
  let pad := Format.indent level
  match d.kind with
  | .conditional => do
    let ⟨condition, _⟩ ← d.requireChild 0
    let conditionText ← condition.expressionText
    let ⟨consequent, _⟩ ← d.requireChild 1
    let consequentText ← consequent.sequenceText (level + 1)
    let text := s!"if {conditionText} then\n{consequentText}\n{pad}"
    match d.child? 2 with
    | none => return s!"{text}end"
    | some ⟨alternative, _⟩ =>
      let alternativeText ← alternative.sequenceText (level + 1)
      return s!"{text}else\n{alternativeText}\n{pad}end"
  | .loop => do
    let ⟨body, _⟩ ← d.requireChild 0
    let bodyText ← body.sequenceText (level + 1)
    let ⟨condition, _⟩ ← d.requireChild 1
    let conditionText ← condition.expressionText
    return s!"repeat\n{bodyText}\n{pad}until {conditionText}"
  | .assign x => do
    let ⟨value, _⟩ ← d.requireChild 0
    let valueText ← value.expressionText
    return s!"{x} := {valueText}"
  | .read x => return s!"read {x}"
  | .write => do
    let ⟨value, _⟩ ← d.requireChild 0
    let valueText ← value.expressionText
    return s!"write {valueText}"
  | _ => throw (.format s!"expected a statement, found '{d.label}'")
termination_by (sizeOf d, 0)
decreasing_by all_goals exact .left _ _ (sizeOf_child ‹_›)

def sequenceText (level : Nat) (d : Draft) : Except Error String := do
  let text ← d.statementText level
  match _h : d.next? with
  | none => return s!"{Format.indent level}{text}"
  | some next =>
    let rest ← next.sequenceText level
    return s!"{Format.indent level}{text};\n{rest}"
termination_by (sizeOf d, 1)
decreasing_by
  · exact .right _ (by decide)
  · exact .left _ _ (sizeOf_next ‹_›)

end

def print (d : Draft) : Except Error String :=
  return (← d.sequenceText 0).push '\n'

end TinyLanguage.Draft
