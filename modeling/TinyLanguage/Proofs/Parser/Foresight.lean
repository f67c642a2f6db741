import TinyLanguage.Proofs.Parser.Procedures
import TinyLanguage.Proofs.Token.Likeness

namespace TinyLanguage

namespace Parser

inductive Complaint where
  | unexpected (expected : String)
  | tooDeep
  /-- A token stands behind the last statement, or there is none at all. -/
  | outside
deriving DecidableEq, Repr

def Complaint.error (limit : Nat) (st : State) : Complaint → Error
  | .unexpected expected => st.unexpected expected
  | .tooDeep => .tooDeep limit st.here
  | .outside =>
    match st.ahead.tokens with
    | t :: _ => .trailing t.describe t.span
    | [] => .noStatements

def complain {α : Type} (limit : Nat) (c : Complaint) : Parser α := fun st =>
  .error (c.error limit st)

@[simp] theorem complain_run {α : Type} (limit : Nat) (c : Complaint) (st : State) :
    (complain limit c : Parser α).run st = .error (c.error limit st) := rfl

section

variable {α β : Type} {limit : Nat} {rest : Scan}

/-- The outcome of a run that comes as far as `rest`: the fault found there, a complaint about it,
or some result. -/
inductive Comes (limit : Nat) (rest : Scan) :
    Option Complaint → Except Error (α × State) → Prop
  | fault {c : Option Complaint} {e : Error} (h : rest.fault? = some e) :
    Comes limit rest c (.error e)
  | complaint {c : Complaint} {m : State} (h : m.ahead = rest) :
    Comes limit rest (some c) (.error (c.error limit m))
  | found {a : α} {m : State} (h : m.ahead = rest) : Comes limit rest none (.ok (a, m))

theorem Comes.error {c : Option Complaint} {e : Error}
    (h : Comes limit rest c (.error e : Except Error (α × State))) :
    Comes limit rest c (.error e : Except Error (β × State)) := by
  cases h with
  | fault h => exact .fault h
  | complaint h => exact .complaint h

theorem Comes.eq_error_of_fault {c : Option Complaint} {r : Except Error (α × State)}
    (h : Comes limit rest c r) (hrest : rest.fault? ≠ none) : ∃ e, r = .error e := by
  cases h with
  | fault => exact ⟨_, rfl⟩
  | complaint => exact ⟨_, rfl⟩
  | found h =>
    subst h
    exact absurd (State.sound _) hrest

theorem Comes.eq_error_of_complaint {c : Complaint} {r : Except Error (α × State)}
    (h : Comes limit rest (some c) r) : ∃ e, r = .error e := by
  cases h with
  | fault => exact ⟨_, rfl⟩
  | complaint => exact ⟨_, rfl⟩

theorem Comes.eq_ok {r : Except Error (α × State)} (h : Comes limit rest none r)
    (hrest : rest.fault? = none) : ∃ a m, r = .ok (a, m) ∧ m.ahead = rest := by
  cases h with
  | fault h => simp [hrest] at h
  | found h => exact ⟨_, _, rfl, h⟩

end

def StopsWithin {α : Type} (limit : Nat) (ts : List Token) (rest : Scan)
    (r : Except Error (α × State)) : Prop :=
  ∃ us vs, ∃ m : State, ts = us ++ vs ∧ m.ahead = rest.prepend vs ∧
    r = .error (.tooDeep limit m.here)

section

variable {ι κ α β γ δ : Type} {limit limit' : Nat} {st : State}

/-- The run of `p` from `st` tells what becomes of the runs of all `p'` that meet tokens of the same
kinds up to where it comes. If their limit is lower they may stop on the way. -/
def Foretells (limit limit' : Nat) (st : State) (p : Parser α) (p' : ι → Parser β) : Prop :=
  ∃ ts rest c, st.ahead = rest.prepend ts ∧ Comes limit rest c (p.run st) ∧
    ∀ i st' ts' rest', st'.ahead = rest'.prepend ts' →
      ts'.map Token.kind = ts.map Token.kind → rest'.Alike rest →
        Comes limit' rest' c ((p' i).run st') ∨
          limit' < limit ∧ StopsWithin limit' ts' rest' ((p' i).run st')

theorem Foretells.reindex {p : Parser α} {p' : ι → Parser β} (h : Foretells limit limit' st p p')
    (g : κ → ι) : Foretells limit limit' st p fun k => p' (g k) := by
  obtain ⟨ts, rest, c, hst, hc, hp'⟩ := h
  exact ⟨ts, rest, c, hst, hc, fun k => hp' (g k)⟩

/-- Only the kind of the token ahead may make a difference. -/
theorem Foretells.congr {p q : Parser α} {p' q' : ι → Parser β}
    (h : Foretells limit limit' st p p') (hp : q.run st = p.run st)
    (hp' : ∀ i st', st'.kind? = st.kind? → (q' i).run st' = (p' i).run st') :
    Foretells limit limit' st q q' := by
  obtain ⟨ts, rest, c, hst, hc, hrun⟩ := h
  refine ⟨ts, rest, c, hst, hp ▸ hc, ?_⟩
  intro i st' ts' rest' hst' hts halike
  have hkind : st'.kind? = st.kind? := by
    rw [State.kind?, State.kind?, hst, hst']
    exact (halike.prepend hts).kind
  rw [hp' i st' hkind]
  exact hrun i st' ts' rest' hst' hts halike

theorem Foretells.bind {p : Parser α} {p' : ι → Parser β} {f : α → Parser γ}
    {f' : ι → β → Parser δ} (h : Foretells limit limit' st p p')
    (hf : ∀ a m, p.run st = .ok (a, m) →
      Foretells limit limit' m (f a) fun x : ι × β => f' x.1 x.2) :
    Foretells limit limit' st (p >>= f) fun i => p' i >>= f' i := by
  obtain ⟨ts, rest, c, hst, hc, hp'⟩ := h
  cases hr : p.run st with
  | error e =>
    -- The run stops within `p`, and so do the others.
    rw [hr] at hc
    refine ⟨ts, rest, c, hst, by rw [run_bind_of_error hr]; exact hc.error, ?_⟩
    intro i st' ts' rest' hst' hts halike
    rcases hp' i st' ts' rest' hst' hts halike with hc' | ⟨hlt, us, vs, m, hus, hm, hr'⟩
    · left
      have herr : ∃ e', (p' i).run st' = .error e' := by
        cases hc with
        | fault h =>
          refine hc'.eq_error_of_fault ?_
          rw [ne_eq, halike.fault, h]
          simp
        | complaint => exact hc'.eq_error_of_complaint
      obtain ⟨e', hr'⟩ := herr
      rw [run_bind_of_error hr']
      rw [hr'] at hc'
      exact hc'.error
    · exact .inr ⟨hlt, us, vs, m, hus, hm, run_bind_of_error hr'⟩
  | ok r =>
    obtain ⟨a, m⟩ := r
    rw [hr] at hc
    cases hc with
    | found hm =>
      -- The tokens that `f a` reads follow those of `p`; the others are split in the same way.
      obtain ⟨us, rest₂, c₂, hm₂, hc₂, hf'⟩ := hf a m hr
      refine ⟨ts ++ us, rest₂, c₂, by rw [hst, ← hm, hm₂, Scan.prepend_append],
        by rw [run_bind_of_ok hr]; exact hc₂, ?_⟩
      intro i st' ts' rest' hst' hts halike
      obtain ⟨ts', us', rfl, hts, hus⟩ := List.map_eq_append_iff.1 (hts.trans List.map_append)
      rw [Scan.prepend_append] at hst'
      have halike' : (rest'.prepend us').Alike rest := by
        rw [← hm, hm₂]
        exact halike.prepend hus
      rcases hp' i st' ts' _ hst' hts halike' with hc' | ⟨hlt, ws, vs, n, hws, hn, hr'⟩
      · have hsound : (rest'.prepend us').fault? = none := by
          rw [halike'.fault, ← hm]
          exact m.sound
        obtain ⟨b, m', hr', hm'⟩ := hc'.eq_ok hsound
        rw [run_bind_of_ok hr']
        rcases hf' (i, b) m' us' rest' hm' hus halike with hc'' | ⟨hlt, ws, vs, n, rfl, hn, hr''⟩
        · exact .inl hc''
        · exact .inr ⟨hlt, ts' ++ ws, vs, n, by rw [List.append_assoc], hn, hr''⟩
      · right
        refine ⟨hlt, ws, vs ++ us', n, by rw [hws, List.append_assoc], ?_, run_bind_of_error hr'⟩
        rw [hn, Scan.prepend_append]

theorem Foretells.peekKind {f : Option Token.Kind → Parser α}
    {f' : ι → Option Token.Kind → Parser β}
    (h : Foretells limit limit' st (f st.kind?) fun i => f' i st.kind?) :
    Foretells limit limit' st (peekKind >>= f) fun i => peekKind >>= f' i := by
  refine h.congr (run_bind_of_ok peekKind_run) ?_
  intro i st' hst'
  rw [run_bind_of_ok peekKind_run, hst']

theorem foretells_of_same {p : Parser α} {p' : ι → Parser β} {a : α} {b : ι → State → β}
    (hp : p.run st = .ok (a, st)) (hp' : ∀ i st', (p' i).run st' = .ok (b i st', st')) :
    Foretells limit limit' st p p' := by
  refine ⟨[], st.ahead, none, rfl, by rw [hp]; exact .found rfl, ?_⟩
  intro i st' ts' rest' hst' hts _
  obtain rfl := List.map_eq_nil_iff.1 hts
  rw [hp']
  exact .inl (.found hst')

theorem foretells_pure (a : α) (b : ι → β) :
    Foretells limit limit' st (pure a) fun i => pure (b i) :=
  foretells_of_same rfl fun _ _ => rfl

theorem foretells_spanFrom (s : Span) (s' : ι → Span) :
    Foretells limit limit' st (spanFrom s) fun i => spanFrom (s' i) :=
  foretells_of_same (spanFrom_run s) fun i _ => spanFrom_run (s' i)

theorem foretells_complain (c : Complaint) :
    Foretells limit limit' st (complain limit c : Parser α)
      fun _ : ι => (complain limit' c : Parser β) := by
  refine ⟨[], st.ahead, some c, rfl, .complaint rfl, ?_⟩
  intro i st' ts' rest' hst' hts _
  obtain rfl := List.map_eq_nil_iff.1 hts
  exact .inl (.complaint hst')

/-- Where the lower limit is reached, the run that it allows stops, and the other one may come as
far as it likes. -/
theorem foretells_tooDeep {p : Parser α} {q : ι → Parser α} (h : Foretells limit limit st p q)
    (hlt : limit' < limit) :
    Foretells limit limit' st p fun _ : κ => (tooDeep limit' : Parser β) := by
  obtain ⟨ts, rest, c, hst, hc, -⟩ := h
  refine ⟨ts, rest, c, hst, hc, ?_⟩
  intro i st' ts' rest' hst' _ _
  exact .inr ⟨hlt, [], ts', st', rfl, hst', tooDeep_run limit'⟩

theorem exists_prepend {k : Token.Kind} (hk : st.kind? = some k) :
    ∃ t rest, st.ahead = Scan.prepend [t] rest ∧ t.kind = k := by
  cases ht : st.ahead.tokens with
  | nil => simp [State.kind?, ht] at hk
  | cons t ts =>
    refine ⟨t, { st.ahead with tokens := ts }, ?_, by simpa [State.kind?, ht] using hk⟩
    rw [Scan.prepend, List.singleton_append, ← ht]

theorem comes_ofScan {read : List Token} {rest : Scan} (a : α) :
    Comes limit rest none ((State.ofScan read rest).map (a, ·)) := by
  cases h : State.ofScan read rest with
  | error e => exact .fault (ofScan_eq_error h)
  | ok m => exact .found (ofScan_eq_ok h).2

theorem advance_prepend {t : Token} {rest : Scan} (h : st.ahead = rest.prepend [t]) :
    advance.run st = (State.ofScan (t :: st.read) rest).map ((), ·) := by
  have ht : st.ahead.tokens = t :: rest.tokens := by rw [h]; rfl
  rw [advance_cons ht, h]
  rfl

theorem expect_prepend {t : Token} {rest : Scan} {k : Token.Kind}
    (h : st.ahead = rest.prepend [t]) (hk : t.kind = k) :
    (expect k).run st = (State.ofScan (t :: st.read) rest).map (t, ·) := by
  have ht : st.ahead.tokens.head? = some t := by rw [h]; rfl
  have hkind : st.kind? = some k := by rw [State.kind?, ht, ← hk]; rfl
  have hadvance := advance_prepend h
  rw [expect_of_kind hkind ht]
  cases hs : State.ofScan (t :: st.read) rest with
  | error e =>
    rw [hs] at hadvance
    exact run_bind_of_error hadvance
  | ok m =>
    rw [hs] at hadvance
    exact run_bind_of_ok hadvance

theorem foretells_read {p : Parser α} {p' : ι → Parser β} {k : Token.Kind} (a : Token → α)
    (b : Token → β) (hk : st.kind? = some k)
    (hp : ∀ t rest, st.ahead = rest.prepend [t] → t.kind = k →
      p.run st = (State.ofScan (t :: st.read) rest).map (a t, ·))
    (hp' : ∀ i st' t rest, st'.ahead = rest.prepend [t] → t.kind = k →
      (p' i).run st' = (State.ofScan (t :: st'.read) rest).map (b t, ·)) :
    Foretells limit limit' st p p' := by
  obtain ⟨t, rest, hst, hkt⟩ := exists_prepend hk
  refine ⟨[t], rest, none, hst, ?_, ?_⟩
  · rw [hp t rest hst hkt]
    exact comes_ofScan (a t)
  · intro i st' ts' rest' hst' hts halike
    obtain ⟨t', us, rfl, hkt', hus⟩ := List.map_eq_cons_iff.1 hts
    obtain rfl := List.map_eq_nil_iff.1 hus
    rw [hp' i st' t' rest' hst' (hkt'.trans hkt)]
    exact .inl (comes_ofScan (b t'))

theorem foretells_advance {k : Token.Kind} (hk : st.kind? = some k) :
    Foretells limit limit' st advance fun _ : ι => advance :=
  foretells_read (fun _ => ()) (fun _ => ()) hk (fun _ _ h _ => advance_prepend h)
    fun _ _ _ _ h _ => advance_prepend h

theorem foretells_expect (k : Token.Kind) :
    Foretells limit limit' st (expect k) fun _ : ι => expect k := by
  by_cases hk : st.kind? = some k
  · exact foretells_read id id hk (fun _ _ h hkt => expect_prepend h hkt)
      fun _ _ _ _ h hkt => expect_prepend h hkt
  · refine (foretells_complain (.unexpected k.describe)).congr (expect_of_ne hk) ?_
    intro i st' hst'
    exact expect_of_ne (by rwa [hst'])

end

end Parser

end TinyLanguage
