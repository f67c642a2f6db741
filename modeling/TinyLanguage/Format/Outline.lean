import TinyLanguage.Tree.Outline

namespace TinyLanguage.Format

variable {α : Type}

def indent (level : Nat) : String :=
  "".pushn ' ' (2 * level)

def outlineLines (n : Node α) : List String :=
  n.outline.map fun (level, m) => indent level ++ m.label

end TinyLanguage.Format
