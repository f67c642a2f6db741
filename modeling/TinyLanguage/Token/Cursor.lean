import TinyLanguage.Error

namespace TinyLanguage

structure Cursor where
  place : Position
  rest : List Char
deriving DecidableEq, Repr

namespace Cursor

def ofText (text : String) : Cursor :=
  ⟨{}, text.toList⟩

/-- What a cursor meets next: a token and the cursor behind it, the end of the text, or a comment
that is still open there. -/
inductive Step where
  | token (t : Token) (next : Cursor)
  | finished (finish : Position)
  | openComment (start finish : Position)
deriving DecidableEq, Repr

/-- The first place outside blanks and comments. The first argument tells where the comment around
`p` starts, if there is one; such a comment has no end if the text ends first, and the result is
then its start with the end of the text. -/
def skip (comment : Option Position) (p : Position) : List Char → Except (Position × Position) Cursor
  | [] =>
    match comment with
    | none => .ok ⟨p, []⟩
    | some start => .error (start, p)
  | c :: cs =>
    match comment with
    | some start => skip (if c = '}' then none else some start) (p.advance c) cs
    | none =>
      if c = '{' then skip (some p) (p.advance c) cs
      else if c.isWhitespace then skip none (p.advance c) cs
      else .ok ⟨p, c :: cs⟩

def cut (c : Char) (cs : List Char) : List Char × List Char :=
  if c.isAlpha then (c :: cs.takeWhile Char.isAlpha, cs.dropWhile Char.isAlpha)
  else if c.isDigit then (c :: cs.takeWhile Char.isDigit, cs.dropWhile Char.isDigit)
  else
    match c, cs with
    | ':', '=' :: cs => ([':', '='], cs)
    | c, cs => ([c], cs)

def next (c : Cursor) : Step :=
  match skip none c.place c.rest with
  | .error (start, finish) => .openComment start finish
  | .ok ⟨finish, []⟩ => .finished finish
  | .ok ⟨start, d :: ds⟩ =>
    let (lexeme, rest) := cut d ds
    let stop := start.after lexeme
    .token (.ofText (String.ofList lexeme) (.between start stop)) ⟨stop, rest⟩

/-- The answer to a request for one token, and the cursor for the next request. An open comment is
reported once: it leaves the cursor at the end of the text. -/
def read (c : Cursor) : Except Error (Option Token) × Cursor :=
  match c.next with
  | .token t next => (.ok (some t), next)
  | .finished finish => (.ok none, ⟨finish, []⟩)
  | .openComment start finish => (.error (.unterminatedComment start finish), ⟨finish, []⟩)

theorem cut_append (c : Char) (cs : List Char) : (cut c cs).1 ++ (cut c cs).2 = c :: cs := by
  unfold cut
  split
  · simp
  · split
    · simp
    · split <;> simp

theorem length_cut_snd_le (c : Char) (cs : List Char) : (cut c cs).2.length ≤ cs.length := by
  have h := congrArg List.length (cut_append c cs)
  have : 0 < (cut c cs).1.length := by
    unfold cut
    split
    · simp
    · split
      · simp
      · split <;> simp
  simp only [List.length_append, List.length_cons] at h
  omega

theorem length_rest_of_skip {comment : Option Position} {p : Position} {cs : List Char} {c : Cursor}
    (h : skip comment p cs = .ok c) : c.rest.length ≤ cs.length := by
  induction cs generalizing comment p with
  | nil =>
    cases comment with
    | none => simp only [skip, Except.ok.injEq] at h; subst h; simp
    | some start => simp [skip] at h
  | cons d ds ih =>
    cases comment with
    | some start => exact Nat.le_succ_of_le (ih h)
    | none =>
      simp only [skip] at h
      split at h
      · exact Nat.le_succ_of_le (ih h)
      · split at h
        · exact Nat.le_succ_of_le (ih h)
        · simp only [Except.ok.injEq] at h; subst h; simp

theorem length_rest_of_next {c d : Cursor} {t : Token} (h : c.next = .token t d) :
    d.rest.length < c.rest.length := by
  unfold next at h
  split at h
  · simp at h
  · simp at h
  · rename_i start e es hs
    have hle := length_rest_of_skip hs
    simp only [Step.token.injEq] at h
    obtain ⟨-, rfl⟩ := h
    have := length_cut_snd_le e es
    simp only [List.length_cons] at hle
    simpa using by omega

end Cursor

end TinyLanguage
