import TinyLanguage.Tree.Node

namespace TinyLanguage

variable {α : Type} [BEq α]

namespace Node

mutual

/-- Whether the chains that go on with these nodes agree. Both are walked at once, and end at
once if they agree. -/
def sameFrom : Option (Node α) → Option (Node α) → Bool
  | none, none => true
  | some n, some m =>
    if n.kind != m.kind || n.note != m.note || !sameAll n.children m.children then
      false
    else
      sameFrom n.next? m.next?
  | _, _ => false
termination_by o => (total o.toList, 0)
decreasing_by
  all_goals
    have h := n.count_eq
    rw [extent] at h
    apply Prod.Lex.left
    simp only [Option.toList_some, total_cons, total_nil]
    omega

def sameAll : List (Node α) → List (Node α) → Bool
  | [], [] => true
  | c :: cs, d :: ds => sameFrom (some c) (some d) && sameAll cs ds
  | _, _ => false
termination_by cs => (total cs, 1)
decreasing_by
  · cases cs with
    | nil => exact Prod.Lex.right _ Nat.zero_lt_one
    | cons b bs =>
      have h := b.count_pos
      apply Prod.Lex.left
      simp only [Option.toList_some, total_cons, total_nil]
      omega
  · have h := c.count_pos
    apply Prod.Lex.left
    simp only [total_cons]
    omega

end

def same (n m : Node α) : Bool :=
  sameFrom (some n) (some m)

end Node

end TinyLanguage
