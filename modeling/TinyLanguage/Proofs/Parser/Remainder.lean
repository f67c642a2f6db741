import TinyLanguage.Proofs.Parser.Exactness
import TinyLanguage.Proofs.Parser.Lockstep
import TinyLanguage.Proofs.Parser.Place
import TinyLanguage.Proofs.Token.Continuation

namespace TinyLanguage

namespace Scan

variable {s s' : Scan} {t : Token} {ts us us' : List Token}

theorem fault_of_common (h : s.tokens = ts ++ t :: us) (h' : s'.tokens = ts ++ t :: us') :
    s.fault? = s'.fault? := by
  cases ts <;> simp only [fault?, h, h', List.nil_append, List.cons_append]

theorem fault_of_head (h : s.tokens = t :: us) (h' : s'.tokens = t :: us') :
    s.fault? = s'.fault? :=
  @fault_of_common s s' t [] us us' h h'

theorem alike_of_head (h : s.tokens = t :: us) (h' : s'.tokens = t :: us') : s.Alike s' :=
  ⟨by rw [h, h']; rfl, by rw [fault_of_head h h']⟩

end Scan

namespace Parser

variable {α β : Type} {limit : Nat} {rest rest' : Scan} {c : Option Complaint} {t : Token}
  {us us' : List Token} {e : Error}

theorem Complaint.error_of_head (c : Complaint) {m m' : State} (h : m.ahead.tokens = t :: us)
    (h' : m'.ahead.tokens = t :: us') : c.error limit m = c.error limit m' := by
  cases c <;> simp only [Complaint.error, State.unexpected, State.here, h, h']

/-- Two runs that stop in front of the same token say the same. -/
theorem Comes.error_of_head {r : Except Error (β × State)}
    (h : Comes limit rest c (.error e : Except Error (α × State))) (h' : Comes limit rest' c r)
    (hrest : rest.tokens = t :: us) (hrest' : rest'.tokens = t :: us') : r = .error e := by
  have hfault := Scan.fault_of_head hrest hrest'
  cases h with
  | fault hf =>
    rw [hf] at hfault
    cases h' with
    | fault hf' => rw [Option.some.inj (hfault.trans hf')]
    | complaint hm | found hm =>
      subst hm
      cases hfault.trans (State.sound _)
  | @complaint c m hm =>
    subst hm
    rw [m.sound] at hfault
    cases h' with
    | fault hf' => cases hfault.trans hf'
    | @complaint c m' hm' =>
      subst hm'
      rw [c.error_of_head hrest' hrest]

theorem Comes.exists_head {s : Span}
    (h : Comes limit rest c (.error e : Except Error (α × State))) (hs : e.span? = some s)
    (hne : s.start < s.stop) (hcomment : ∀ p, e ≠ .lexical "unterminated comment" p) :
    ∃ t us, rest.tokens = t :: us ∧ t.span = s := by
  rcases h.span_of_error with rfl | ⟨s', hs', hplace⟩
  · cases hs
  obtain rfl := Option.some.inj (hs.symm.trans hs')
  obtain ⟨ts, ending⟩ := rest
  cases ts with
  | cons t us => exact ⟨t, us, rfl, Option.some.inj hplace⟩
  | nil =>
    exfalso
    obtain rfl := Option.some.inj hplace
    cases ending with
    | complete finish => exact absurd hne (Nat.lt_irrefl _)
    | openComment start finish =>
      cases h with
      | fault hf => exact hcomment _ (Option.some.inj hf).symm
      | @complaint c m hm =>
        have hsound := m.sound
        rw [hm] at hsound
        cases hsound

/-- Where a program is wrong at a token, it is wrong in the same way whatever follows this token. -/
theorem program_error_of_head {st : State} {s : Span} (h : (program limit).run st = .error e)
    (hs : e.span? = some s) (hne : s.start < s.stop)
    (hcomment : ∀ p, e ≠ .lexical "unterminated comment" p) :
    ∃ ts t us, st.ahead.tokens = ts ++ t :: us ∧ t.span = s ∧
      ∀ (st' : State) (rest : Scan), st'.ahead = rest.prepend (ts ++ [t]) →
        (program limit).run st' = .error e := by
  obtain ⟨ts, rest, c, hst, hcomes, hrun⟩ :=
    @program_leads limit limit (Nat.le_refl limit) Unit st
  rw [h] at hcomes
  obtain ⟨t, us, ht, hspan⟩ := hcomes.exists_head hs hne hcomment
  refine ⟨ts, t, us, by rw [hst, ← ht]; rfl, hspan, ?_⟩
  intro st' rest' hst'
  rw [Scan.prepend_append] at hst'
  have halike : (rest'.prepend [t]).Alike rest := Scan.alike_of_head rfl ht
  rcases hrun () st' ts _ hst' rfl halike with hcomes' | ⟨hlt, -⟩
  · exact hcomes.error_of_head hcomes' ht rfl
  · exact absurd hlt (Nat.lt_irrefl limit)

end Parser

/-- What is wrong with a text does not depend on what stands behind the place of the error. -/
theorem parse_error_prefix {text : String} {limits : Limits} {e : Error} {s : Span}
    (h : parse text limits = .error e) (hs : e.span? = some s) (hne : s.start < s.stop)
    (hcomment : ∀ p, e ≠ .lexical "unterminated comment" p) :
    ∃ front back, text = front ++ back ∧ front.utf8ByteSize = s.stop ∧
      ∀ (r : String) (limits' : Limits),
        (∀ c ∈ r.toList.head?, c = ' ' ∨ c = '\t' ∨ c = '\r' ∨ c = '\n') →
        (front ++ r).utf8ByteSize ≤ limits'.maxLength → limits'.maxDepth = limits.maxDepth →
          parse (front ++ r) limits' = .error e := by
  rcases parse_eq_error h with ⟨-, rfl⟩ | ⟨-, hf | ⟨st, hst, hrun⟩⟩
  · cases hs
  · have hcomes : Parser.Comes limits.maxDepth (Scan.ofText text) none
        (.error e : Except Error (Unit × Parser.State)) := .fault hf
    obtain ⟨t, us, ht, rfl⟩ := hcomes.exists_head hs hne hcomment
    obtain ⟨front, back, htext, hsize, hscan⟩ := @Scan.exists_front text [] us t ht
    refine ⟨front, back, htext, hsize, fun r limits' hr hlen _ => ?_⟩
    obtain ⟨rest, hrest⟩ := hscan r (parted_of_blank hr)
    refine parse_of_fault hlen ?_
    rw [hrest, ← hf]
    exact Scan.fault_of_head rfl ht
  · obtain ⟨ts, t, us, ht, rfl, hprogram⟩ := Parser.program_error_of_head hrun hs hne hcomment
    rw [(Parser.ofScan_eq_ok hst).2] at ht
    obtain ⟨front, back, htext, hsize, hscan⟩ := Scan.exists_front ht
    refine ⟨front, back, htext, hsize, fun r limits' hr hlen hdepth => ?_⟩
    obtain ⟨rest, hrest⟩ := hscan r (parted_of_blank hr)
    have htokens : (rest.prepend (ts ++ [t])).tokens = ts ++ t :: rest.tokens := by
      simp [Scan.prepend]
    have hsound : (Scan.ofText (front ++ r)).fault? = none := by
      rw [hrest, Scan.fault_of_common htokens ht, ← (Parser.ofScan_eq_ok hst).2]
      exact st.sound
    rw [Parser.parse_of_state hlen (Parser.ofScan_of_sound hsound), hdepth,
      hprogram _ rest hrest]
    rfl

/-- Neither an open comment nor a character of no token is seen behind the place of an error. -/
theorem parse_error_prefix_semicolon :
    ∃ front back, "x := 1 + ; read y" = front ++ back ∧ front.utf8ByteSize = 10 ∧
      parse (front ++ "\n? \x7b : ") {} =
        .error (.unexpected "'(', number or identifier" "';'" ⟨1, 10, 9, 10⟩) := by
  have h : parse "x := 1 + ; read y" {} =
      .error (.unexpected "'(', number or identifier" "';'" ⟨1, 10, 9, 10⟩) :=
    eq_error_of_map (f := fun _ => ()) (by decide +kernel)
  obtain ⟨front, back, htext, hsize, hparse⟩ := parse_error_prefix h rfl (by decide) (by simp)
  obtain ⟨hfront, -⟩ := eq_of_utf8ByteSize (c := "x := 1 + ;") (d := " read y")
    (htext.symm.trans (by decide)) (hsize.trans (by decide))
  refine ⟨front, back, htext, hsize, hparse _ {} (by simp) ?_ rfl⟩
  rw [hfront]
  decide

end TinyLanguage
