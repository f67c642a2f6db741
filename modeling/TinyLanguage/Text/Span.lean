import TinyLanguage.Text.Position

namespace TinyLanguage

/-- A stretch of a text: where it starts, and the byte offsets of its two ends. -/
structure Span where
  line : Nat := 1
  column : Nat := 1
  start : Nat := 0
  stop : Nat := 0
deriving DecidableEq, Repr

namespace Span

def between (p q : Position) : Span :=
  ⟨p.line, p.column, p.offset, q.offset⟩

def point (p : Position) : Span :=
  between p p

/-- From the start of the first span to the further of the two ends. -/
def extendTo (s t : Span) : Span :=
  { s with stop := max t.stop s.stop }

def describe (s : Span) : String :=
  s!"{s.line}:{s.column}"

@[simp] theorem start_between (p q : Position) : (between p q).start = p.offset := rfl

@[simp] theorem stop_between (p q : Position) : (between p q).stop = q.offset := rfl

@[simp] theorem start_extendTo (s t : Span) : (s.extendTo t).start = s.start := rfl

@[simp] theorem stop_extendTo (s t : Span) : (s.extendTo t).stop = max t.stop s.stop := rfl

end Span

end TinyLanguage
