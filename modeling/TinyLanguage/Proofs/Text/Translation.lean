import Mathlib.Data.List.Induction
import TinyLanguage.Proofs.Token.Partition

namespace TinyLanguage

def lastLine (cs : List Char) : Nat :=
  (cs.reverse.takeWhile (· ≠ '\n')).length

@[simp] theorem lastLine_nil : lastLine [] = 0 := rfl

theorem lastLine_concat (cs : List Char) (c : Char) :
    lastLine (cs ++ [c]) = if c = '\n' then 0 else lastLine cs + 1 := by
  by_cases h : c = '\n' <;> simp [lastLine, h]

namespace Position

variable (p : Position) (cs : List Char)

theorem line_after : (p.after cs).line = p.line + cs.count '\n' := by
  induction cs generalizing p with
  | nil => rfl
  | cons c cs ih =>
    rw [after_cons, ih]
    by_cases h : c = '\n'
    · simp [advance, h]
      omega
    · simp [advance, h]

/-- Only the characters of the line that a text stops in count for the column. -/
theorem column_after :
    (p.after cs).column = (if '\n' ∈ cs then 1 else p.column) + lastLine cs := by
  induction cs using List.reverseRecOn with
  | nil => simp
  | append_singleton cs c ih =>
    rw [after_append, after_cons, after_nil, lastLine_concat]
    by_cases h : c = '\n'
    · simp [advance, h]
    · have hmem : '\n' ∈ cs ++ [c] ↔ '\n' ∈ cs := by simp [Ne.symm h]
      simp [advance, h, hmem, ih, Nat.add_assoc]

end Position

namespace Span

/-- Where a span comes to stand if the text that it is in is put at `p`. -/
def movedTo (p : Position) (s : Span) : Span :=
  ⟨p.line + (s.line - 1), if s.line = 1 then p.column + (s.column - 1) else s.column,
    p.offset + s.start, p.offset + s.stop⟩

def relativeTo (p : Position) (s : Span) : Span :=
  ⟨s.line - (p.line - 1), if s.line = p.line then s.column - (p.column - 1) else s.column,
    s.start - p.offset, s.stop - p.offset⟩

def first (s : Span) : Position :=
  ⟨s.line, s.column, s.start⟩

theorem eq_between {s : Span} {p q : Position} (hp : s.first = p) (hq : s.stop = q.offset) :
    s = between p q := by
  rw [between, ← hp, ← hq]
  rfl

@[simp] theorem first_extendTo (s t : Span) : (s.extendTo t).first = s.first := rfl

theorem movedTo_extendTo (p : Position) (s t : Span) :
    (s.extendTo t).movedTo p = (s.movedTo p).extendTo (t.movedTo p) := by
  have hstop : p.offset + max t.stop s.stop = max (p.offset + t.stop) (p.offset + s.stop) := by
    omega
  rw [movedTo, stop_extendTo, hstop]
  rfl

theorem relativeTo_extendTo (p : Position) (s t : Span) :
    (s.extendTo t).relativeTo p = (s.relativeTo p).extendTo (t.relativeTo p) := by
  have hstop : max t.stop s.stop - p.offset = max (t.stop - p.offset) (s.stop - p.offset) := by
    omega
  rw [relativeTo, stop_extendTo, hstop]
  rfl

theorem between_after (as bs : List Char) :
    between (({} : Position).after as) (({} : Position).after bs) =
      ⟨1 + as.count '\n', 1 + lastLine as, (String.ofList as).utf8ByteSize,
        (String.ofList bs).utf8ByteSize⟩ := by
  simp [between, Position.line_after, Position.column_after, Position.offset_after]

/-- What stands between two places of a text stands between the same two of it behind others. -/
theorem movedTo_between (p : Position) (as bs : List Char) :
    (between (({} : Position).after as) (({} : Position).after bs)).movedTo p =
      between (p.after as) (p.after bs) := by
  simp only [movedTo, between, Position.line_after, Position.column_after, Position.offset_after,
    Span.mk.injEq]
  refine ⟨by omega, ?_, by omega, by omega⟩
  by_cases h : '\n' ∈ as
  · have hcount := List.count_pos_iff.2 h
    rw [if_neg (by omega), if_pos h, if_pos h]
  · have hcount := List.count_eq_zero.2 h
    rw [if_pos (by omega), if_neg h, if_neg h]
    omega

theorem relativeTo_between (as bs cs : List Char) :
    (between (({} : Position).after (as ++ bs)) (({} : Position).after (as ++ cs))).relativeTo
      (({} : Position).after as) =
        between (({} : Position).after bs) (({} : Position).after cs) := by
  simp only [relativeTo, between, Position.after_append, Position.line_after,
    Position.column_after, Position.offset_after, Span.mk.injEq]
  refine ⟨by omega, ?_, by omega, by omega⟩
  by_cases h : '\n' ∈ bs
  · have hcount := List.count_pos_iff.2 h
    rw [if_neg (by omega), if_pos h, if_pos h]
  · have hcount := List.count_eq_zero.2 h
    rw [if_pos (by omega), if_neg h, if_neg h, ite_self]
    omega

end Span

end TinyLanguage
