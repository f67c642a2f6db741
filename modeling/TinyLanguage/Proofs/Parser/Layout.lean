import Mathlib.Data.List.Basic
import TinyLanguage.Proofs.Parser.Exactness
import TinyLanguage.Proofs.Parser.Lockstep
import TinyLanguage.Proofs.Parser.Place

namespace TinyLanguage

open Grammar

theorem Token.describe_of_lexeme {t t' : Token} (h : t.lexeme = t'.lexeme) :
    t.describe = t'.describe := by
  obtain ⟨hkind, htext⟩ := Lexeme.mk.inj h
  simp only [Token.describe, hkind, htext]

namespace Parser

variable {limit : Nat} {s s' : Scan} {e : Error}

theorem Complaint.error_placedAt (c : Complaint) {m m' : State} (h : m.ahead.Agrees m'.ahead) :
    c.error limit m' = (c.error limit m).placedAt m'.here := by
  rcases h.head with ⟨t, t', us, us', ht, ht', hlex⟩ | ⟨ht, ht'⟩
  · have hdescribe := Token.describe_of_lexeme hlex
    cases c <;> simp [Complaint.error, State.unexpected, State.here, Error.placedAt, ht, ht',
      hdescribe]
  · cases c <;> simp [Complaint.error, State.unexpected, State.here, Error.placedAt, ht, ht']

theorem Comes.exists_error {α β : Type} {rest rest' : Scan} {c : Option Complaint}
    {r : Except Error (β × State)}
    (h : Comes limit rest c (.error e : Except Error (α × State))) (h' : Comes limit rest' c r)
    (hagrees : rest.Agrees rest') :
    ∃ e', r = .error e' ∧
      (e = .noStatements ∧ e' = .noStatements ∨ Error.Moved rest rest' e e') := by
  cases h with
  | fault hf =>
    obtain ⟨e', hf', hmoved⟩ := hagrees.exists_fault hf
    obtain ⟨e'', rfl⟩ := h'.eq_error_of_fault (by simp [hf'])
    cases h' with
    | fault hf'' =>
      obtain rfl := Option.some.inj (hf'.symm.trans hf'')
      exact ⟨e', rfl, .inr hmoved⟩
    | complaint hm =>
      subst hm
      cases (State.sound _).symm.trans hf'
  | @complaint c m hm =>
    subst hm
    have hsound := hagrees.alike.fault.1 m.sound
    cases h' with
    | fault hf' => cases hsound.symm.trans hf'
    | @complaint c m' hm' =>
      subst hm'
      have herror : c.error limit m' = (c.error limit m).placedAt m'.here :=
        c.error_placedAt hagrees
      refine ⟨_, rfl, ?_⟩
      rw [herror]
      rcases c.span_of_error m with he | he
      · exact .inl ⟨he, by rw [he]; rfl⟩
      · exact .inr (Scan.moved_of_head m.head_places m'.head_places he)

/-- A run that fails foretells how others fail on scans that agree. -/
theorem Foretells.exists_error {ι α β : Type} {p : Parser α} {p' : ι → Parser β} {st st' : State}
    (hforetells : Foretells limit limit st p p') (hagrees : st.ahead.Agrees st'.ahead)
    (h : p.run st = .error e) (i : ι) :
    ∃ e', (p' i).run st' = .error e' ∧
      (e = .noStatements ∧ e' = .noStatements ∨ Error.Moved st.ahead st'.ahead e e') := by
  obtain ⟨ts, rest, c, hst, hcomes, hrun⟩ := hforetells
  rw [hst] at hagrees
  obtain ⟨ts', rest', hst', hlex, hrest⟩ := hagrees.prepend
  have hkinds : ts'.map Token.kind = ts.map Token.kind :=
    (fits_lexemes ts').trans (hlex ▸ (fits_lexemes ts).symm)
  have hlength : ts.length = ts'.length := by simpa using congrArg List.length hlex.symm
  rcases hrun i st' ts' rest' hst' hkinds hrest.symm.alike with hcomes' | ⟨hlt, -⟩
  · rw [h] at hcomes
    obtain ⟨e', he', hmoved⟩ := hcomes.exists_error hcomes' hrest
    refine ⟨e', he', hmoved.imp id fun hmoved => ?_⟩
    rw [hst, hst']
    exact Scan.moved_prepend hmoved hlength
  · exact absurd hlt (Nat.lt_irrefl limit)

/-- Two runs on scans that agree fail alike. -/
theorem program_agrees {st st' : State} (hagrees : st.ahead.Agrees st'.ahead)
    (h : (program limit).run st = .error e) :
    ∃ e', (program limit).run st' = .error e' ∧
      (e = .noStatements ∧ e' = .noStatements ∨ Error.Moved st.ahead st'.ahead e e') :=
  (@program_leads limit limit (Nat.le_refl limit) Unit st).exists_error hagrees h ()

end Parser

theorem parse_ok_agrees {text text' : String} {limits limits' : Limits} {x : Block Span}
    (hlen' : text'.utf8ByteSize ≤ limits'.maxLength) (hdepth : limits.maxDepth ≤ limits'.maxDepth)
    (hagrees : (Scan.ofText text).Agrees (Scan.ofText text')) (h : parse text limits = .ok x) :
    ∃ y, parse text' limits' = .ok y ∧ x.shape = y.shape := by
  obtain ⟨-, ts, finish, q, hscan, hq, hneed⟩ := parse_eq_ok_iff.1 h
  rw [hscan] at hagrees
  obtain ⟨finish', hending⟩ : ∃ finish', (Scan.ofText text').ending = .complete finish' := by
    cases he : (Scan.ofText text').ending with
    | complete finish' => exact ⟨finish', rfl⟩
    | openComment start finish' =>
      have hopen := hagrees.ending
      rw [he] at hopen
      cases hopen
  obtain ⟨y, hy⟩ := Sequence.exists_tree (hq.lexemes.trans hagrees.lexemes)
  refine ⟨y, parse_eq_ok_iff.2 ⟨hlen', _, finish', q, ?_, hy, Nat.le_trans hneed hdepth⟩, ?_⟩
  · rw [← hending]
  · rw [hq.shape, hy.shape]

theorem parse_error_agrees {text text' : String} {limits limits' : Limits} {e : Error}
    (hlen : text.utf8ByteSize ≤ limits.maxLength) (hlen' : text'.utf8ByteSize ≤ limits'.maxLength)
    (hdepth : limits.maxDepth = limits'.maxDepth)
    (hagrees : (Scan.ofText text).Agrees (Scan.ofText text')) (h : parse text limits = .error e) :
    ∃ e', parse text' limits' = .error e' ∧ (e = .noStatements ∧ e' = .noStatements ∨
      Error.Moved (Scan.ofText text) (Scan.ofText text') e e') := by
  rcases parse_eq_error h with ⟨hlt, -⟩ | ⟨-, hf | ⟨st, hst, hrun⟩⟩
  · exact absurd hlen (Nat.not_le.2 hlt)
  · obtain ⟨e', hf', hmoved⟩ := hagrees.exists_fault hf
    exact ⟨e', parse_of_fault hlen' hf', .inr hmoved⟩
  · obtain ⟨hread, hahead⟩ := Parser.ofScan_eq_ok hst
    have hsound : (Scan.ofText text').fault? = none :=
      hagrees.alike.fault.1 (by rw [← hahead]; exact st.sound)
    rw [← hahead] at hagrees
    obtain ⟨e', he', hmoved⟩ :=
      @Parser.program_agrees _ _ st ⟨[], Scan.ofText text', hsound⟩ hagrees hrun
    refine ⟨e', ?_, by rwa [← hahead]⟩
    rw [Parser.parse_of_state hlen' (Parser.ofScan_of_sound hsound), ← hdepth, he']
    rfl

/-- Parsing depends on what the tokens say and not on where they stand. -/
theorem parse_layout (text text' : String) (limits limits' : Limits)
    (hlen : text.utf8ByteSize ≤ limits.maxLength) (hlen' : text'.utf8ByteSize ≤ limits'.maxLength)
    (hdepth : limits.maxDepth = limits'.maxDepth)
    (hagrees : (Scan.ofText text).Agrees (Scan.ofText text')) :
    (∃ x y, parse text limits = .ok x ∧ parse text' limits' = .ok y ∧ x.shape = y.shape) ∨
      ∃ e e', parse text limits = .error e ∧ parse text' limits' = .error e' ∧
        (e = .noStatements ∧ e' = .noStatements ∨
          Error.Moved (Scan.ofText text) (Scan.ofText text') e e') := by
  cases h : parse text limits with
  | ok x =>
    obtain ⟨y, hy, hshape⟩ := parse_ok_agrees hlen' (Nat.le_of_eq hdepth) hagrees h
    exact .inl ⟨x, y, rfl, hy, hshape⟩
  | error e =>
    obtain ⟨e', he', hmoved⟩ := parse_error_agrees hlen hlen' hdepth hagrees h
    exact .inr ⟨e, e', rfl, he', hmoved⟩

theorem parse_layout_comment :
    (∃ x y, parse "x:=1;read y" ⟨9, 20⟩ = .ok x ∧
      parse "x {new} := 1;\nread y" ⟨9, 40⟩ = .ok y ∧ x.shape = y.shape) ∧
    ∃ e', parse "{a}\nx := +" ⟨9, 40⟩ = .error e' ∧
      Error.Moved (Scan.ofText "x:=+") (Scan.ofText "{a}\nx := +")
        (.unexpected "'(', number or identifier" "'+'" ⟨1, 4, 3, 4⟩) e' := by
  have hread := parse_layout "x:=1;read y" "x {new} := 1;\nread y" ⟨9, 20⟩ ⟨9, 40⟩ (by decide)
    (by decide) rfl ⟨by decide +kernel, by decide +kernel⟩
  have hplus := parse_layout "x:=+" "{a}\nx := +" ⟨9, 20⟩ ⟨9, 40⟩ (by decide)
    (by decide) rfl ⟨by decide +kernel, by decide +kernel⟩
  have hok : (parse "x:=1;read y" ⟨9, 20⟩).toOption.isSome := by decide +kernel
  have herror : parse "x:=+" ⟨9, 20⟩ =
      .error (.unexpected "'(', number or identifier" "'+'" ⟨1, 4, 3, 4⟩) :=
    eq_error_of_map (f := fun _ => ()) (by decide +kernel)
  constructor
  · rcases hread with h | ⟨e, e', h, -⟩
    · exact h
    · simp [h, Except.toOption] at hok
  · rcases hplus with ⟨x, y, h, -⟩ | ⟨e, e', h, h', ⟨rfl, -⟩ | hmoved⟩
    · cases h.symm.trans herror
    · cases h.symm.trans herror
    · obtain rfl := Except.error.inj (h.symm.trans herror)
      exact ⟨e', h', hmoved⟩

end TinyLanguage
