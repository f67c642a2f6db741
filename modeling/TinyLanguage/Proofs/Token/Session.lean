import TinyLanguage.Proofs.Text.Translation
import TinyLanguage.Token.Session

namespace TinyLanguage

/-- What request number `k` is answered with, told from the scan as a whole. -/
def Scan.answer (s : Scan) (k : Nat) : Except Error (Option Token) :=
  match s.tokens[k]?, s.ending with
  | some t, _ => .ok (some t)
  | none, .complete _ => .ok none
  | none, .openComment start finish =>
    if k = s.tokens.length then .error (.unterminatedComment start finish) else .ok none

namespace Scan

variable {s : Scan} {k : Nat}

end Scan

namespace Cursor

variable {c d : Cursor} {t : Token} {start finish : Position}

theorem read_of_token (h : c.next = .token t d) : c.read = (.ok (some t), d) := by
  rw [read, h]

theorem read_of_finished (h : c.next = .finished finish) : c.read = (.ok none, ⟨finish, []⟩) := by
  rw [read, h]

theorem read_of_openComment (h : c.next = .openComment start finish) :
    c.read = (.error (.unterminatedComment start finish), ⟨finish, []⟩) := by
  rw [read, h]

def StandsIn (text : String) (c : Cursor) : Prop :=
  ∃ front, text.toList = front ++ c.rest ∧ c.place = ({} : Position).after front

variable {text : String}

theorem standsIn_ofText (text : String) : (ofText text).StandsIn text :=
  ⟨[], rfl, rfl⟩

theorem StandsIn.end_eq (h : c.StandsIn text) :
    c.place.after c.rest = ({} : Position).after text.toList := by
  obtain ⟨front, htext, hplace⟩ := h
  rw [hplace, htext, Position.after_append]

theorem StandsIn.of_token (h : c.StandsIn text) (hc : c.next = .token t d) : d.StandsIn text := by
  obtain ⟨front, htext, hplace⟩ := h
  obtain ⟨g, -, -, -, hrest, hd, -⟩ := exists_word hc
  refine ⟨front ++ (g ++ t.text.toList), ?_, ?_⟩
  · rw [htext, hrest]
    simp
  · rw [hd, hplace, ← Position.after_append]

theorem standsIn_end (text : String) : StandsIn text ⟨({} : Position).after text.toList, []⟩ :=
  ⟨text.toList, (List.append_nil _).symm, rfl⟩

/-- A request brings a cursor behind a token, or to the end of the text. -/
theorem StandsIn.read_cases (h : c.StandsIn text) :
    (∃ t, c.next = .token t c.read.2 ∧ c.read.1 = .ok (some t)) ∨
      (∀ t, c.read.1 ≠ .ok (some t)) ∧ c.read.2 = ⟨({} : Position).after text.toList, []⟩ := by
  cases hc : c.next with
  | token t d =>
    rw [read_of_token hc]
    exact .inl ⟨t, rfl, rfl⟩
  | finished finish =>
    rw [read_of_finished hc, next_eq_finished hc, h.end_eq]
    exact .inr ⟨nofun, rfl⟩
  | openComment start finish =>
    rw [read_of_openComment hc, (next_eq_openComment hc).2, h.end_eq]
    exact .inr ⟨nofun, rfl⟩

theorem StandsIn.read (h : c.StandsIn text) : c.read.2.StandsIn text := by
  rcases h.read_cases with ⟨t, hc, -⟩ | ⟨-, hc⟩
  · exact h.of_token hc
  · rw [hc]
    exact standsIn_end text

theorem StandsIn.readOn (h : c.StandsIn text) (k : Nat) : (c.readOn k).StandsIn text := by
  induction k with
  | zero => exact h
  | succ k ih => exact ih.read

end Cursor

namespace Session

variable {σ τ : Type} {read : σ → Except Error (Option Token) × σ}
  {read' : τ → Except Error (Option Token) × τ} {f : σ → τ}

end Session

/-- What comes of asking for token after token, where `cursor k` is the cursor for the request that
follows `k` others. -/
structure Reads (text : String) (cursor : Nat → Cursor) (tokens : List Token) : Prop where
  answered : ∀ k t, tokens[k]? = some t → (cursor k).read.1 = .ok (some t)
  ending : (cursor tokens.length).read.1 = (unclosed? none {} text.toList).elim (.ok none)
    fun start => .error (.unterminatedComment start (({} : Position).after text.toList))
  exhausted : ∀ k, tokens.length < k → (cursor k).read.1 = .ok none
  placed : ∀ k, ∃ front back : String, text = front ++ back ∧ (cursor k).rest = back.toList ∧
    (cursor k).here = ⟨1 + front.toList.count '\n', 1 + lastLine front.toList,
      front.utf8ByteSize, front.utf8ByteSize⟩
  behind : ∀ k t, (cursor k).read.1 = .ok (some t) →
    (cursor k).here.start < t.span.stop ∧ (cursor (k + 1)).here.start = t.span.stop
  finished : ∀ k, (∀ t, (cursor k).read.1 ≠ .ok (some t)) →
    (cursor (k + 1)).here = .point (({} : Position).after text.toList)
  forward : ∀ j k, j ≤ k → (cursor j).here.start ≤ (cursor k).here.start

end TinyLanguage
