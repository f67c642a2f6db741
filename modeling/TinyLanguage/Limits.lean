namespace TinyLanguage

/-- How deep a program may nest and how many bytes its text may have. -/
structure Limits where
  maxDepth : Nat := 100
  maxLength : Nat := 1048576
deriving DecidableEq, Repr

end TinyLanguage
