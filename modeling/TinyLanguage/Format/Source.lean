import TinyLanguage.Format.Outline

namespace TinyLanguage

variable {α : Type}

/-- Each operation stands in parentheses, so the text shows the tree without rules of precedence. -/
def Expr.source : Expr α → String
  | .constant _ s => s
  | .identifier _ x => x
  | .binary _ op l r => s!"({l.source} {op.symbol} {r.source})"

mutual

/-- The lines of a statement, the last of them closed by `stop`. -/
def Statement.source (level : Nat) (stop : String) : Statement α → List String
  | .ifThen _ c t =>
    s!"{Format.indent level}if {c.source} then" ::
      (t.source (level + 1) ++ [s!"{Format.indent level}end{stop}"])
  | .ifThenElse _ c t e =>
    s!"{Format.indent level}if {c.source} then" ::
      (t.source (level + 1) ++ s!"{Format.indent level}else" ::
        (e.source (level + 1) ++ [s!"{Format.indent level}end{stop}"]))
  | .repeatUntil _ b c =>
    s!"{Format.indent level}repeat" ::
      (b.source (level + 1) ++ [s!"{Format.indent level}until {c.source}{stop}"])
  | .assign _ x e => [s!"{Format.indent level}{x} := {e.source}{stop}"]
  | .read _ x => [s!"{Format.indent level}read {x}{stop}"]
  | .write _ e => [s!"{Format.indent level}write {e.source}{stop}"]

def Block.source (level : Nat) : Block α → List String
  | .last s => s.source level ""
  | .cons s b => s.source level ";" ++ b.source level

end

end TinyLanguage
