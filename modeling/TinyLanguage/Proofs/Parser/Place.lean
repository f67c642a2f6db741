import TinyLanguage.Proofs.Parser.Foresight

namespace TinyLanguage

namespace Parser

variable {limit : Nat}

theorem State.head_places (st : State) : st.ahead.places.head? = some st.here := by
  cases ht : st.ahead.tokens with
  | cons t ts => simp [Scan.places, State.here, ht]
  | nil =>
    obtain ⟨finish, hending⟩ := st.ending_of_nil ht
    simp [Scan.places, State.here, ht, hending, Scan.Ending.span, Scan.Ending.finish]

theorem Complaint.span_of_error (c : Complaint) (st : State) :
    c.error limit st = .noStatements ∨ (c.error limit st).span? = some st.here := by
  cases c with
  | tooDeep => exact .inr rfl
  | unexpected expected =>
    right
    cases ht : st.ahead.tokens <;>
      simp [Complaint.error, State.unexpected, State.here, ht, Error.span?]
  | outside =>
    cases ht : st.ahead.tokens with
    | nil => simp [Complaint.error, ht]
    | cons t ts => simp [Complaint.error, State.here, ht, Error.span?]

theorem Comes.span_of_error {α : Type} {rest : Scan} {c : Option Complaint} {e : Error}
    (h : Comes limit rest c (.error e : Except Error (α × State))) :
    e = .noStatements ∨ ∃ span, e.span? = some span ∧ rest.places.head? = some span := by
  cases h with
  | fault hf => exact .inr (Scan.span_of_fault hf)
  | @complaint c m hm =>
    rcases c.span_of_error m with h | h
    · exact .inl h
    · exact .inr ⟨m.here, h, hm ▸ m.head_places⟩

end Parser

theorem parse_of_fault {text : String} {limits : Limits} {e : Error}
    (hlen : text.utf8ByteSize ≤ limits.maxLength) (h : (Scan.ofText text).fault? = some e) :
    parse text limits = .error e := by
  rw [parse, if_pos hlen, Parser.ofScan_of_fault h]
  rfl

/-- A text is not read as a program because it is too long, because of a fault at its start or by
the parser. -/
theorem parse_eq_error {text : String} {limits : Limits} {e : Error}
    (h : parse text limits = .error e) :
    limits.maxLength < text.utf8ByteSize ∧ e = .tooLong limits.maxLength text.utf8ByteSize ∨
      text.utf8ByteSize ≤ limits.maxLength ∧ ((Scan.ofText text).fault? = some e ∨
        ∃ st, Parser.State.ofScan [] (.ofText text) = .ok st ∧
          (Parser.program limits.maxDepth).run st = .error e) := by
  by_cases hlen : text.utf8ByteSize ≤ limits.maxLength
  · refine .inr ⟨hlen, ?_⟩
    cases hst : Parser.State.ofScan [] (.ofText text) with
    | error e' =>
      rw [parse, if_pos hlen, hst] at h
      obtain rfl := Except.error.inj h
      exact .inl (Parser.ofScan_eq_error hst)
    | ok st =>
      rw [Parser.parse_of_state hlen hst] at h
      cases hr : (Parser.program limits.maxDepth).run st with
      | error e' =>
        rw [hr] at h
        obtain rfl := Except.error.inj h
        exact .inr ⟨st, rfl, hr⟩
      | ok r =>
        rw [hr] at h
        cases h
  · rw [parse, if_neg hlen] at h
    exact .inl ⟨Nat.lt_of_not_le hlen, (Except.error.inj h).symm⟩

end TinyLanguage
