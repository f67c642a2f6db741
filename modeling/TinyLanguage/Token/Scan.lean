import TinyLanguage.Token.Cursor

namespace TinyLanguage

inductive Scan.Ending where
  | complete (finish : Position)
  | openComment (start finish : Position)
deriving DecidableEq, Repr

structure Scan where
  tokens : List Token
  ending : Scan.Ending
deriving DecidableEq, Repr

namespace Scan

def Ending.finish : Ending → Position
  | complete finish => finish
  | openComment _ finish => finish

def cons (t : Token) (s : Scan) : Scan :=
  { s with tokens := t :: s.tokens }

end Scan

namespace Cursor

/-- The scan from a cursor on, behind tokens already found, latest first. -/
def collect (found : List Token) (c : Cursor) : Scan :=
  match _h : c.next with
  | .token t next => collect (t :: found) next
  | .finished finish => ⟨found.reverse, .complete finish⟩
  | .openComment start finish => ⟨found.reverse, .openComment start finish⟩
termination_by c.rest.length
decreasing_by exact length_rest_of_next ‹_›

def scan (c : Cursor) : Scan :=
  c.collect []

theorem collect_eq (found : List Token) (c : Cursor) :
    c.collect found = { c.scan with tokens := found.reverse ++ c.scan.tokens } := by
  unfold scan
  induction hn : c.rest.length using Nat.strongRecOn generalizing found c with
  | ind n ih =>
    subst hn
    rw [collect.eq_def found, collect.eq_def []]
    split
    · rename_i t d h
      have hlt := length_rest_of_next h
      rw [ih _ hlt (t :: found) d rfl, ih _ hlt [t] d rfl]
      simp
    · simp
    · simp

theorem scan_of_token {c d : Cursor} {t : Token} (h : c.next = .token t d) :
    c.scan = d.scan.cons t := by
  rw [scan, collect]
  split
  · rename_i t' d' h'
    obtain ⟨rfl, rfl⟩ := Step.token.inj (h.symm.trans h')
    rw [collect_eq]
    simp [Scan.cons]
  · rename_i h'
    simp [h] at h'
  · rename_i h'
    simp [h] at h'

theorem scan_of_finished {c : Cursor} {finish : Position} (h : c.next = .finished finish) :
    c.scan = ⟨[], .complete finish⟩ := by
  rw [scan, collect]
  split
  · rename_i h'
    simp [h] at h'
  · rename_i finish' h'
    obtain rfl := Step.finished.inj (h.symm.trans h')
    rfl
  · rename_i h'
    simp [h] at h'

theorem scan_of_openComment {c : Cursor} {start finish : Position}
    (h : c.next = .openComment start finish) : c.scan = ⟨[], .openComment start finish⟩ := by
  rw [scan, collect]
  split
  · rename_i h'
    simp [h] at h'
  · rename_i h'
    simp [h] at h'
  · rename_i start' finish' h'
    obtain ⟨rfl, rfl⟩ := Step.openComment.inj (h.symm.trans h')
    rfl

end Cursor

namespace Scan

def ofText (text : String) : Scan :=
  (Cursor.ofText text).scan

def toExcept (s : Scan) : Except Error (List Token) :=
  match s.ending with
  | .complete _ => .ok s.tokens
  | .openComment start finish => .error (.unterminatedComment start finish)

/-- What keeps a program from going on with this scan: a token that belongs to no program, or an
open comment. -/
def fault? (s : Scan) : Option Error :=
  match s.tokens, s.ending with
  | t :: _, _ => if t.kind = .invalid then some (.invalidToken t) else none
  | [], .complete _ => none
  | [], .openComment start finish => some (.unterminatedComment start finish)

end Scan

def tokenize (text : String) : Except Error (List Token) :=
  (Scan.ofText text).toExcept

theorem tokenize_eq_ok_iff {text : String} {ts : List Token} :
    tokenize text = .ok ts ↔ ∃ finish, Scan.ofText text = ⟨ts, .complete finish⟩ := by
  unfold tokenize Scan.toExcept
  obtain ⟨us, ending⟩ := Scan.ofText text
  cases ending <;> simp

end TinyLanguage
