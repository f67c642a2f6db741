import TinyLanguage.Tree.Node

namespace TinyLanguage

variable {α : Type}

def Expr.height : Expr α → Nat
  | .constant _ _ | .identifier _ _ => 1
  | .binary _ _ l r => 1 + max l.height r.height

mutual

def Statement.height : Statement α → Nat
  | .ifThen _ c t => 1 + max c.height t.height
  | .ifThenElse _ c t e => 1 + max c.height (max t.height e.height)
  | .repeatUntil _ b c => 1 + max b.height c.height
  | .assign _ _ e | .write _ e => 1 + e.height
  | .read _ _ => 1

/-- The statements of a block stand at one level, so a block is as high as the highest of them. -/
def Block.height : Block α → Nat
  | .last s => s.height
  | .cons s b => max s.height b.height

end

def Node.height : Node α → Nat
  | .expression e => e.height
  | .statement b => b.height

end TinyLanguage
