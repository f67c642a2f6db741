import TinyLanguage.Tree.Node

namespace TinyLanguage

variable {α : Type}

/-- Lists a tree from the top: a node at its level, its children with their chains one level deeper,
then the rest of its own chain. -/
def Expr.outline (level : Nat) : Expr α → List (Nat × Node α)
  | .binary a op l r =>
    (level, .expression (.binary a op l r)) :: (l.outline (level + 1) ++ r.outline (level + 1))
  | e => [(level, .expression e)]

mutual

def Statement.inner (level : Nat) : Statement α → List (Nat × Node α)
  | .ifThen _ c t => c.outline level ++ t.outline level
  | .ifThenElse _ c t e => c.outline level ++ t.outline level ++ e.outline level
  | .repeatUntil _ b c => b.outline level ++ c.outline level
  | .assign _ _ e | .write _ e => e.outline level
  | .read _ _ => []

def Block.outline (level : Nat) : Block α → List (Nat × Node α)
  | .last s => (level, .statement (.last s)) :: s.inner (level + 1)
  | .cons s b => (level, .statement (.cons s b)) :: (s.inner (level + 1) ++ b.outline level)

end

def Node.outline : Node α → List (Nat × Node α)
  | .expression e => e.outline 0
  | .statement b => b.outline 0

end TinyLanguage
