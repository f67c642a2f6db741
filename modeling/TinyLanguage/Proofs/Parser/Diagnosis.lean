import Mathlib.Data.List.Basic
import TinyLanguage.Proofs.Parser.Exactness
import TinyLanguage.Proofs.Parser.Failure
import TinyLanguage.Proofs.Parser.Place

namespace TinyLanguage

open Grammar

theorem Token.kind_surjective : Function.Surjective Token.kind := by
  intro k
  cases hk : k.spelling? with
  | some s => exact ⟨.ofText s {}, Kind.classify_spelling hk⟩
  | none =>
    cases k with
    | identifier => exact ⟨.ofText "x" {}, by decide⟩
    | number => exact ⟨.ofText "0" {}, by decide⟩
    | invalid => exact ⟨.ofText "!" {}, by decide⟩
    | _ => cases hk

theorem valid_of_viable {ts : List Token} (h : Viable (ts.map Token.kind)) :
    ∀ t ∈ ts, t.kind ≠ .invalid := by
  intro t ht
  exact h.ne_invalid t.kind (List.mem_map_of_mem ht)

namespace Parser

variable {limit : Nat} {st : State} {e : Error}

theorem program_of_kinds {ts : List Token} {finish : Position} {q : Sequence}
    (hst : st.ahead = ⟨ts, .complete finish⟩)
    (h : ts.map Token.kind = q.lexemes.map Lexeme.kind) (limit : Nat) :
    (∃ r, (program limit).run st = .ok r) ∨
      ∃ span, (program limit).run st = .error (.tooDeep limit span) := by
  obtain ⟨p, b, hp⟩ := q.exists_yields h
  obtain ⟨m, st', hm, hr, hend⟩ := exists_reads hp.ne_invalid st.read finish
  rw [← hst, ofScan_of_sound st.sound] at hm
  obtain rfl := Except.ok.inj hm
  rw [program_run hp hr hend]
  by_cases hlevels : ∀ l ∈ p.levels 0, l ≤ limit
  · exact .inl ⟨_, within_of_le hlevels⟩
  · obtain ⟨t, -, ht⟩ := within_of_lt (r := .ok (b, st')) (hp.length_levels 0) hlevels
    exact .inr ⟨t.span, ht⟩

theorem Complaint.error_ne_tooDeep {c : Complaint} (hc : c ≠ .tooDeep) (m : State) (span : Span) :
    c.error limit m ≠ .tooDeep limit span := by
  intro h
  cases c with
  | tooDeep => exact hc rfl
  | unexpected expected =>
    simp only [Complaint.error, State.unexpected] at h
    split at h <;> cases h
  | outside =>
    simp only [Complaint.error] at h
    split at h <;> cases h

/-- What some program begins with can be read on from its last token with no error but about the
depth. -/
theorem exists_program_of_viable {ks : List Token.Kind} {k : Token.Kind} (h : Viable (ks ++ [k]))
    (limit : Nat) :
    ∃ (st : State) (ts : List Token) (rest : Scan), st.ahead = rest.prepend ts ∧
      ts.map Token.kind = ks ∧ rest.tokens.head?.map Token.kind = some k ∧ rest.fault? = none ∧
        ((∃ r, (program limit).run st = .ok r) ∨
          ∃ span, (program limit).run st = .error (.tooDeep limit span)) := by
  obtain ⟨q, ls, hq⟩ := h
  obtain ⟨us, hus⟩ := Token.kind_surjective.list_map (q.lexemes.map Lexeme.kind)
  have hvalid : ∀ u ∈ us, u.kind ≠ .invalid := valid_of_viable (hus ▸ opens_self q)
  let st : State := ⟨[], ⟨us, .complete {}⟩, Scan.fault_of_valid hvalid⟩
  have hst : st.ahead = ⟨us, .complete {}⟩ := rfl
  have hprogram := program_of_kinds hst hus limit
  rw [← hq, List.append_assoc] at hus
  obtain ⟨ts, vs, rfl, hts, hvs⟩ := List.map_eq_append_iff.1 hus
  obtain ⟨t, us, rfl, ht, -⟩ := List.map_eq_cons_iff.1 hvs
  have hsound : (⟨t :: us, .complete {}⟩ : Scan).fault? = none :=
    Scan.fault_of_valid fun u hu => hvalid u (List.mem_append_right ts hu)
  exact ⟨st, ts, ⟨t :: us, .complete {}⟩, rfl, hts, congrArg some ht, hsound, hprogram⟩

/-- An error is a fault of the text, or a complaint. Unless it is about the depth, no program goes
on with the token that it is about. -/
theorem program_complains (h : (program limit).run st = .error e) :
    ∃ ts rest, st.ahead = rest.prepend ts ∧ (rest.fault? = some e ∨
      ∃ c : Complaint, ∃ m : State, m.ahead = rest ∧ e = c.error limit m ∧ (c ≠ .tooDeep →
        ∀ t ∈ rest.tokens.head?, ¬Viable (ts.map Token.kind ++ [t.kind]))) := by
  obtain ⟨ts, rest, c, hst, hcomes, hrun⟩ :=
    @program_leads limit limit (Nat.le_refl limit) Unit st
  rw [h] at hcomes
  cases hcomes with
  | fault hf => exact ⟨ts, rest, hst, .inl hf⟩
  | @complaint c m hm =>
    refine ⟨ts, rest, hst, .inr ⟨c, m, hm, rfl, fun hc t ht hviable => ?_⟩⟩
    -- A program that went on with the token would be met by the same complaint.
    obtain ⟨st', ts', rest', hst', hts', hhead, hsound, hprogram⟩ :=
      exists_program_of_viable hviable limit
    have halike : rest'.Alike rest := by
      refine ⟨by rw [hhead, Option.mem_def.1 ht]; rfl, ?_⟩
      rw [hsound, ← hm, m.sound]
    rcases hrun () st' ts' rest' hst' hts' halike with hcomes | ⟨hlt, -⟩
    · rcases hprogram with ⟨r, hr⟩ | ⟨span, hr⟩
      · rw [hr] at hcomes
        cases hcomes
      · rw [hr] at hcomes
        generalize he : Error.tooDeep limit span = e' at hcomes
        cases hcomes with
        | fault hf => cases hsound.symm.trans hf
        | complaint hm' => exact Complaint.error_ne_tooDeep hc _ span he.symm
    · exact absurd hlt (Nat.lt_irrefl limit)

theorem Complaint.head_of_error {c : Complaint} {m : State} {found : String} {span : Span}
    (h : (∃ expected, c.error limit m = .unexpected expected found span) ∨
      c.error limit m = .trailing found span) :
    c ≠ .tooDeep ∧ ∃ t us, m.ahead.tokens = t :: us ∧ span = t.span := by
  cases ht : m.ahead.tokens with
  | nil =>
    rcases h with ⟨expected, h⟩ | h <;> cases c <;>
      simp [Complaint.error, State.unexpected, ht] at h
  | cons t us =>
    rcases h with ⟨expected, h⟩ | h <;> cases c <;>
      simp [Complaint.error, State.unexpected, ht] at h <;> simp [h]

end Parser

theorem Scan.append_inj_of_span {text : String} {ts us ts' us' : List Token} {t t' : Token}
    (h : (ofText text).tokens = ts ++ t :: us) (h' : (ofText text).tokens = ts' ++ t' :: us')
    (hspan : t.span = t'.span) : ts = ts' ∧ t = t' := by
  have hi : (ofText text).places[ts.length]? = some t.span := by simp [places, h]
  have hj : (ofText text).places[ts'.length]? = some t.span := by simp [places, h', hspan]
  have hlen : ts.length = ts'.length := by
    rcases Nat.lt_trichotomy ts.length ts'.length with hlt | heq | hlt
    · exact absurd (start_lt_start hi hj hlt) (Nat.lt_irrefl _)
    · exact heq
    · exact absurd (start_lt_start hj hi hlt) (Nat.lt_irrefl _)
  obtain ⟨hts, hcons⟩ := List.append_inj (h.symm.trans h') hlen
  exact ⟨hts, List.head_eq_of_cons_eq hcons⟩

/-- The token `t`, behind the tokens `pre`, is the first with which no program goes on. -/
structure Misfit (text : String) (pre : List Token) (t : Token) : Prop where
  split : ∃ post, (Scan.ofText text).tokens = pre ++ t :: post
  viable : Viable (pre.map Token.kind)
  not_viable : ¬Viable ((pre ++ [t]).map Token.kind)

/-- Every token that is called for goes on with a program, and some token is called for. -/
structure CallsFor (pre : List Token) (expected : String) : Prop where
  ne_nil : Parser.expectedKinds expected ≠ []
  viable : ∀ k ∈ Parser.expectedKinds expected, Viable (pre.map Token.kind ++ [k])

theorem CallsFor.viable_nil {pre : List Token} {expected : String} (h : CallsFor pre expected) :
    Viable (pre.map Token.kind) := by
  obtain ⟨k, hk⟩ := List.exists_mem_of_ne_nil _ h.ne_nil
  exact (h.viable k hk).of_append

inductive Diagnosis (text : String) (limits : Limits) : Error → Prop
  | tooLong (h : limits.maxLength < text.utf8ByteSize) :
    Diagnosis text limits (.tooLong limits.maxLength text.utf8ByteSize)
  /-- The text has no token and no open comment. -/
  | noStatements (h : tokenize text = .ok []) : Diagnosis text limits .noStatements
  | unexpected {pre : List Token} {t : Token} {expected : String} (h : Misfit text pre t)
    (hexpected : CallsFor pre expected) :
    Diagnosis text limits (.unexpected expected t.describe t.span)
  | trailing {pre : List Token} {t : Token} (h : Misfit text pre t) :
    Diagnosis text limits (.trailing t.describe t.span)
  /-- The tokens begin a program and are none, and the place is the end of the text. -/
  | unexpectedEnd {ts : List Token} {expected : String} (htokens : tokenize text = .ok ts)
    (hne : ts ≠ []) (hvalid : ∀ t ∈ ts, t.kind ≠ .invalid) (hviable : Viable (ts.map Token.kind))
    (hprogram : ¬∃ q : Sequence, q.lexemes.map Lexeme.kind = ts.map Token.kind)
    (hexpected : CallsFor ts expected) :
    Diagnosis text limits
      (.unexpectedEnd expected (.point (({} : Position).after text.toList)))
  /-- The token `t` is the first that belongs to no program. -/
  | invalid {pre post : List Token} {t : Token}
    (hsplit : (Scan.ofText text).tokens = pre ++ t :: post) (ht : t.kind = .invalid)
    (hvalid : ∀ u ∈ pre, u.kind ≠ .invalid) (hviable : Viable (pre.map Token.kind)) :
    Diagnosis text limits (.invalidToken t)
  /-- The text ends within a comment, and all its tokens begin a program. -/
  | openComment {ts : List Token} {start : Position}
    (hscan : Scan.ofText text = ⟨ts, .openComment start (({} : Position).after text.toList)⟩)
    (hvalid : ∀ u ∈ ts, u.kind ≠ .invalid) (hviable : Viable (ts.map Token.kind)) :
    Diagnosis text limits
      (.unterminatedComment start (({} : Position).after text.toList))
  /-- The tokens in front of the place begin a program. A token stands there, or the text ends. -/
  | tooDeep {pre post : List Token} (hsplit : (Scan.ofText text).tokens = pre ++ post)
    (hviable : Viable (pre.map Token.kind)) :
    Diagnosis text limits (.tooDeep limits.maxDepth
      ((post.head?.map Token.span).getD (.point (({} : Position).after text.toList))))

theorem not_viable_of_error {text found : String} {limit : Nat} {st : Parser.State} {e : Error}
    {pre post : List Token} {t : Token} (hst : st.ahead = Scan.ofText text)
    (hrun : (Parser.program limit).run st = .error e)
    (htokens : (Scan.ofText text).tokens = pre ++ t :: post)
    (he : (∃ expected, e = .unexpected expected found t.span) ∨ e = .trailing found t.span) :
    ¬Viable ((pre ++ [t]).map Token.kind) := by
  obtain ⟨ts, rest, hsplit, hf | ⟨c, m, hm, rfl, hviable⟩⟩ := Parser.program_complains hrun
  · rcases Scan.fault_eq_some hf with ⟨u, us, -, -, rfl⟩ | ⟨start, finish, -, rfl⟩ <;>
      rcases he with ⟨expected, he⟩ | he <;> cases he
  · obtain ⟨hc, u, us, hu, hspan⟩ := Parser.Complaint.head_of_error he
    have hu' : (Scan.ofText text).tokens = ts ++ u :: us := by
      rw [← hst, hsplit, ← hu, hm]
      rfl
    obtain ⟨rfl, rfl⟩ := Scan.append_inj_of_span htokens hu' hspan
    have hhead : t ∈ rest.tokens.head? := by rw [← hm, hu]; rfl
    simpa using hviable hc t hhead

theorem diagnosis_of_fault {text : String} {limits : Limits} {pre : List Token} {rest : Scan}
    {e : Error} (hsplit : Scan.ofText text = rest.prepend pre)
    (hviable : Viable (pre.map Token.kind)) (h : rest.fault? = some e) :
    Diagnosis text limits e := by
  rcases Scan.fault_eq_some h with ⟨t, us, hrest, ht, rfl⟩ | ⟨start, finish, rfl, rfl⟩
  · have htokens : (Scan.ofText text).tokens = pre ++ t :: us := by
      rw [hsplit, ← hrest]
      rfl
    exact .invalid htokens ht (valid_of_viable hviable) hviable
  · have hfinish := Scan.finish_ofText text
    rw [hsplit] at hfinish
    obtain rfl : finish = ({} : Position).after text.toList := hfinish
    rw [Scan.prepend, List.append_nil] at hsplit
    exact .openComment hsplit (valid_of_viable hviable) hviable

theorem diagnosis_of_unexpected {text expected : String} {limits : Limits} {st m : Parser.State}
    {ts : List Token} (hst : st.ahead = Scan.ofText text)
    (hrun : (Parser.program limits.maxDepth).run st = .error (m.unexpected expected))
    (hsplit : Scan.ofText text = m.ahead.prepend ts) (hcalls : CallsFor ts expected) :
    Diagnosis text limits (m.unexpected expected) := by
  cases hm : m.ahead.tokens with
  | cons t us =>
    have htokens : (Scan.ofText text).tokens = ts ++ t :: us := by
      rw [hsplit, ← hm]
      rfl
    rw [Parser.State.unexpected, hm] at hrun ⊢
    have hnot := not_viable_of_error hst hrun htokens (.inl ⟨expected, rfl⟩)
    exact .unexpected ⟨⟨us, htokens⟩, hcalls.viable_nil, hnot⟩ hcalls
  | nil =>
    obtain ⟨finish, hending⟩ := m.ending_of_nil hm
    have hscan : Scan.ofText text = ⟨ts, .complete finish⟩ := by
      rw [hsplit, Scan.prepend, hm, hending, List.append_nil]
    have hfinish := Scan.finish_ofText text
    rw [hscan] at hfinish
    obtain rfl : finish = ({} : Position).after text.toList := hfinish
    rw [Parser.State.unexpected, hm, Parser.State.here, hm, hending] at hrun ⊢
    refine .unexpectedEnd (tokenize_eq_ok_iff.2 ⟨_, hscan⟩) ?_
      (valid_of_viable hcalls.viable_nil) hcalls.viable_nil ?_ hcalls
    · rintro rfl
      have hk : st.kind? = none := by rw [Parser.State.kind?, hst, hscan]; rfl
      rw [Parser.program_of_none hk, Parser.complain_run, Parser.Complaint.error, hst,
        hscan] at hrun
      cases hrun
    · rintro ⟨q, hq⟩
      rcases Parser.program_of_kinds (hst.trans hscan) hq.symm limits.maxDepth with
        ⟨r, hr⟩ | ⟨span, hr⟩ <;> rw [hr] at hrun <;> cases hrun

theorem diagnosis_of_tooDeep {text : String} {limits : Limits} {m : Parser.State} {ts : List Token}
    (hsplit : Scan.ofText text = m.ahead.prepend ts) (hviable : Viable (ts.map Token.kind)) :
    Diagnosis text limits (.tooDeep limits.maxDepth m.here) := by
  have htokens : (Scan.ofText text).tokens = ts ++ m.ahead.tokens := by rw [hsplit, Scan.prepend]
  have hfinish := Scan.finish_ofText text
  rw [hsplit] at hfinish
  have hplace : m.here = (m.ahead.tokens.head?.map Token.span).getD
      (.point (({} : Position).after text.toList)) := by
    rw [Parser.State.here]
    cases m.ahead.tokens with
    | nil => exact congrArg Span.point hfinish
    | cons t us => rfl
  rw [hplace]
  exact .tooDeep htokens hviable

theorem diagnosis_of_parse {text : String} {limits : Limits} {e : Error}
    (h : parse text limits = .error e) : Diagnosis text limits e := by
  rcases parse_eq_error h with ⟨hlen, rfl⟩ | ⟨hlen, hf | ⟨st, hst, hrun⟩⟩
  · exact .tooLong hlen
  · have hsplit : Scan.ofText text = (Scan.ofText text).prepend [] := rfl
    exact diagnosis_of_fault hsplit viable_nil hf
  · have hst := (Parser.ofScan_eq_ok hst).2
    rcases Parser.program_fails hrun with ⟨ht, rfl⟩ | ⟨ts, m, hts, hm | ⟨t, us, hm, rfl, hviable⟩⟩
    · obtain ⟨finish, hending⟩ := st.ending_of_nil ht
      refine .noStatements (tokenize_eq_ok_iff.2 ⟨finish, ?_⟩)
      rw [← hst, ← ht, ← hending]
    · have hsplit : Scan.ofText text = m.ahead.prepend ts := by
        rw [← hst, Scan.prepend, hts.ending, ← hts.tokens]
      cases hm with
      | unexpected hne hopens => exact diagnosis_of_unexpected hst hrun hsplit ⟨hne, hopens⟩
      | tooDeep hopens => exact diagnosis_of_tooDeep hsplit hopens
      | @fault t rest e hm hf hopens =>
        rw [hm, ← Scan.prepend_append] at hsplit
        exact diagnosis_of_fault hsplit (by simpa using hopens) hf
    · have htokens := hts.tokens
      rw [hst, hm] at htokens
      exact .trailing ⟨⟨us, htokens⟩, hviable, not_viable_of_error hst hrun htokens (.inr rfl)⟩

theorem parse_eq_noStatements_iff {text : String} {limits : Limits} :
    parse text limits = .error .noStatements ↔
      text.utf8ByteSize ≤ limits.maxLength ∧ tokenize text = .ok [] := by
  constructor
  · intro h
    have hdiagnosis := diagnosis_of_parse h
    generalize he : Error.noStatements = e at hdiagnosis
    cases hdiagnosis with
    | noStatements htokens =>
      refine ⟨Nat.le_of_not_lt fun hlen => ?_, htokens⟩
      rw [parse, if_neg (Nat.not_le.2 hlen)] at h
      cases h
    | _ => cases he
  · rintro ⟨hlen, htokens⟩
    obtain ⟨finish, hscan⟩ := tokenize_eq_ok_iff.1 htokens
    rw [Parser.parse_of_state hlen (by rw [hscan]; exact Parser.ofScan_of_sound rfl)]
    rfl

/-- An error is about the first token with which no program goes on, or about what stands in its
place. -/
theorem error_diagnosis (text : String) (limits : Limits) :
    (∀ e, parse text limits = .error e → Diagnosis text limits e) ∧
      (parse text limits = .error .noStatements ↔
        text.utf8ByteSize ≤ limits.maxLength ∧ tokenize text = .ok []) :=
  ⟨fun _ => diagnosis_of_parse, parse_eq_noStatements_iff⟩

theorem error_diagnosis_operand :
    Diagnosis "x := ; !" {} (.unexpected "'(', number or identifier" "';'" ⟨1, 6, 5, 6⟩) ∧
      parse "{x}" {} = .error .noStatements := by
  have herror : (parse "x := ; !" {}).map (fun _ => ()) =
      .error (.unexpected "'(', number or identifier" "';'" ⟨1, 6, 5, 6⟩) := by decide +kernel
  have htokens : tokenize "{x}" = .ok [] := by decide +kernel
  exact ⟨(error_diagnosis "x := ; !" {}).1 _ (eq_error_of_map herror),
    (error_diagnosis "{x}" {}).2.2 ⟨by decide, htokens⟩⟩

end TinyLanguage
