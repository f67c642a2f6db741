import TinyLanguage.Proofs.Parser.Diagnosis

namespace TinyLanguage

namespace Parser

variable {α : Type} {limit limit' : Nat} {rest : Scan} {c : Option Complaint} {st : State}
  {e : Error}

theorem Complaint.error_congr {c : Complaint} {m m' : State} (h : m.ahead = m'.ahead)
    (hc : c ≠ .tooDeep) : c.error limit m = c.error limit' m' := by
  cases c with
  | tooDeep => exact absurd rfl hc
  | unexpected expected => simp only [Complaint.error, State.unexpected, State.here, h]
  | outside => simp only [Complaint.error, h]

theorem Comes.eq_error {r : Except Error (α × State)}
    (h : Comes limit rest c (.error e : Except Error (α × State)))
    (h' : Comes limit' rest c r) (he : ∀ span, e ≠ .tooDeep limit span) : r = .error e := by
  cases h with
  | fault hf =>
    cases h' with
    | fault hf' => rw [Option.some.inj (hf.symm.trans hf')]
    | complaint hm | found hm =>
      subst hm
      exact absurd hf (by rw [State.sound]; simp)
  | @complaint c m hm =>
    cases h' with
    | fault hf' =>
      subst hm
      exact absurd hf' (by rw [State.sound]; simp)
    | complaint hm' =>
      have hc : c ≠ .tooDeep := by
        rintro rfl
        exact he m.here rfl
      rw [Complaint.error_congr (hm'.trans hm.symm) hc]

/-- An error under a limit is that under a higher one, unless it is about the depth. -/
theorem program_error_of_le (hl : limit ≤ limit') (h : (program limit).run st = .error e)
    (he : ∀ span, e ≠ .tooDeep limit span) : (program limit').run st = .error e := by
  obtain ⟨ts, rest, c, hst, hcomes, hrun⟩ := @program_leads limit' limit hl Unit st
  rcases hrun () st ts rest hst rfl (.refl rest) with hlow | ⟨-, us, vs, m, -, -, hdeep⟩
  · rw [h] at hlow
    exact hlow.eq_error hcomes he
  · exact absurd (Except.error.inj (h.symm.trans hdeep)) (he m.here)

/-- Where a token is too deep for a limit, a higher one finds nothing wrong in front of it. -/
theorem program_tooDeep_of_le {text : String} {n : Nat} {span : Span} (hl : limit ≤ limit')
    (hst : st.ahead = Scan.ofText text)
    (h : (program limit).run st = .error (.tooDeep n span)) :
    (∃ r, (program limit').run st = .ok r) ∨
      ∃ e, (program limit').run st = .error e ∧
        (e = .noStatements ∨ ∃ s, e.span? = some s ∧ span.start ≤ s.start) := by
  obtain ⟨ts, rest, c, hahead, hcomes, hrun⟩ := @program_leads limit' limit hl Unit st
  cases hr : (program limit').run st with
  | ok r => exact .inl ⟨r, rfl⟩
  | error e =>
    refine .inr ⟨e, rfl, ?_⟩
    rw [hr] at hcomes
    rcases hcomes.span_of_error with he | ⟨s, he, hs⟩
    · exact .inl he
    · refine .inr ⟨s, he, ?_⟩
      -- The run that stops first has come as far as the other or not.
      obtain ⟨us, vs, hts, hspan⟩ :
          ∃ us vs, ts = us ++ vs ∧ (rest.prepend vs).places.head? = some span := by
        rcases hrun () st ts rest hahead rfl (.refl rest) with
          hlow | ⟨-, us, vs, m, hts, hm, hdeep⟩
        · rw [h] at hlow
          rcases hlow.span_of_error with he' | ⟨s', he', hs'⟩
          · cases he'
          · obtain rfl := Option.some.inj he'
            exact ⟨ts, [], (List.append_nil ts).symm, hs'⟩
        · obtain ⟨-, rfl⟩ := Error.tooDeep.inj (Except.error.inj (h.symm.trans hdeep))
          exact ⟨us, vs, hts, hm ▸ m.head_places⟩
      rw [hst, hts] at hahead
      exact Scan.start_le_start hahead hspan hs

end Parser

/-- Limits only cut off. What is read, or found wrong, under some limits stays so under higher
ones, except for the limits themselves; behind the place where a token is too deep something else
may be wrong. -/
theorem parse_limits_monotone (text : String) (low high : Limits)
    (hdepth : low.maxDepth ≤ high.maxDepth) (hlength : low.maxLength ≤ high.maxLength) :
    ((∀ n span, parse text low ≠ .error (.tooDeep n span)) →
      (∀ n m, parse text low ≠ .error (.tooLong n m)) → parse text high = parse text low) ∧
    ∀ n span, parse text low = .error (.tooDeep n span) →
      (∃ b, parse text high = .ok b) ∨
        ∃ e s, parse text high = .error e ∧ e.span? = some s ∧ span.start ≤ s.start := by
  constructor
  · intro hdeep hlong
    cases h : parse text low with
    | ok b =>
      obtain ⟨hlen, ts, finish, q, hscan, hq, hneed⟩ := parse_eq_ok_iff.1 h
      exact parse_eq_ok_iff.2
        ⟨Nat.le_trans hlen hlength, ts, finish, q, hscan, hq, Nat.le_trans hneed hdepth⟩
    | error e =>
      rcases parse_eq_error h with ⟨-, rfl⟩ | ⟨hlen, hf | ⟨st, hst, hrun⟩⟩
      · exact absurd h (hlong _ _)
      · exact parse_of_fault (Nat.le_trans hlen hlength) hf
      · have hhigh := Parser.program_error_of_le hdepth hrun fun span he =>
          hdeep _ _ (h.trans (congrArg Except.error he))
        rw [Parser.parse_of_state (Nat.le_trans hlen hlength) hst, hhigh]
        rfl
  · intro n span h
    rcases parse_eq_error h with ⟨-, he⟩ | ⟨hlen, hf | ⟨st, hst, hrun⟩⟩
    · cases he
    · rcases Scan.fault_eq_some hf with ⟨t, us, -, -, he⟩ | ⟨start, finish, -, he⟩ <;> cases he
    · have hparse := Parser.parse_of_state (Nat.le_trans hlen hlength) hst
      rcases Parser.program_tooDeep_of_le hdepth (Parser.ofScan_eq_ok hst).2 hrun with
        ⟨r, hr⟩ | ⟨e, hr, rfl | ⟨s, he, hs⟩⟩
      · exact .inl ⟨r.1, by rw [hparse, hr]; rfl⟩
      · -- Without a token there is nothing too deep.
        rw [hr] at hparse
        obtain ⟨-, htokens⟩ := parse_eq_noStatements_iff.1 hparse
        have hlow := parse_eq_noStatements_iff.2 ⟨hlen, htokens⟩
        cases h.symm.trans hlow
      · exact .inr ⟨e, s, by rw [hparse, hr]; rfl, he, hs⟩

/-- A higher limit may reveal that something else is wrong, further on. -/
theorem parse_limits_monotone_sum :
    (∃ e s, parse "write a+b+" ⟨9, 20⟩ = .error e ∧ e.span? = some s ∧ 7 ≤ s.start) ∧
      parse "write +" ⟨9, 20⟩ = parse "write +" ⟨2, 7⟩ := by
  have hdeep : parse "write a+b+" ⟨2, 10⟩ = .error (.tooDeep 2 ⟨1, 8, 7, 8⟩) :=
    eq_error_of_map (f := fun _ => ()) (by decide +kernel)
  have hsign : parse "write +" ⟨2, 7⟩ =
      .error (.unexpected "'(', number or identifier" "'+'" ⟨1, 7, 6, 7⟩) :=
    eq_error_of_map (f := fun _ => ()) (by decide +kernel)
  have hsum := parse_limits_monotone "write a+b+" ⟨2, 10⟩ ⟨9, 20⟩ (by decide) (by decide)
  have hplus := parse_limits_monotone "write +" ⟨2, 7⟩ ⟨9, 20⟩ (by decide) (by decide)
  refine ⟨?_, hplus.1 (by simp [hsign]) (by simp [hsign])⟩
  rcases hsum.2 2 _ hdeep with ⟨b, hb⟩ | herror
  · have herror : (parse "write a+b+" ⟨9, 20⟩).toOption.isSome = false := by decide +kernel
    simp [hb, Except.toOption] at herror
  · exact herror

end TinyLanguage
