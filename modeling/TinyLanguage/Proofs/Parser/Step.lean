import TinyLanguage.Parser.State
import TinyLanguage.Proofs.Grammar.Yield

namespace TinyLanguage.Parser

variable {α β : Type}

namespace State

def kind? (st : State) : Option Token.Kind :=
  st.ahead.tokens.head?.map Token.kind

structure Step (st : State) (t : Token) (st' : State) : Prop where
  ahead : st.ahead = st'.ahead.cons t
  read : st'.read = t :: st.read

inductive Reads : State → List Token → State → Prop
  | nil (st : State) : Reads st [] st
  | cons {st m st' : State} {t : Token} {ts : List Token} (h : st.Step t m)
    (hs : Reads m ts st') : Reads st (t :: ts) st'

variable {st st' : State} {t : Token} {ts us : List Token}

theorem ending_of_nil (st : State) (h : st.ahead.tokens = []) :
    ∃ finish, st.ahead.ending = .complete finish := by
  have hs := st.sound
  unfold Scan.fault? at hs
  rw [h] at hs
  cases he : st.ahead.ending with
  | complete finish => exact ⟨finish, rfl⟩
  | openComment start finish => simp [he] at hs

theorem Step.kind? (h : st.Step t st') : st.kind? = some t.kind := by
  rw [State.kind?, h.ahead]
  rfl

theorem Step.here (h : st.Step t st') : st.here = t.span := by
  rw [State.here, h.ahead]
  rfl

theorem Step.previous (h : st.Step t st') : st'.previous = t.span := by
  rw [State.previous, h.read]

theorem Step.tokens (h : st.Step t st') : st.ahead.tokens = t :: st'.ahead.tokens := by
  rw [h.ahead]
  rfl

theorem Step.reads (h : st.Step t st') : st.Reads [t] st' :=
  .cons h (.nil st')

theorem reads_nil : st.Reads [] st' ↔ st' = st := by
  constructor
  · intro h
    cases h
    rfl
  · rintro rfl
    exact .nil _

theorem reads_cons : st.Reads (t :: ts) st' ↔ ∃ m, st.Step t m ∧ m.Reads ts st' := by
  constructor
  · intro h
    cases h with
    | cons h hs => exact ⟨_, h, hs⟩
  · rintro ⟨m, h, hs⟩
    exact .cons h hs

theorem reads_append : st.Reads (ts ++ us) st' ↔ ∃ m, st.Reads ts m ∧ m.Reads us st' := by
  induction ts generalizing st with
  | nil => simp [reads_nil]
  | cons t ts ih =>
    simp only [List.cons_append, reads_cons, ih]
    constructor
    · rintro ⟨m, h, n, hm, hn⟩
      exact ⟨n, ⟨m, h, hm⟩, hn⟩
    · rintro ⟨n, ⟨m, h, hm⟩, hn⟩
      exact ⟨m, h, n, hm, hn⟩

theorem Reads.append {m : State} (h : st.Reads ts m) (hm : m.Reads us st') :
    st.Reads (ts ++ us) st' :=
  reads_append.2 ⟨m, h, hm⟩

theorem Reads.tokens (h : st.Reads ts st') : st.ahead.tokens = ts ++ st'.ahead.tokens := by
  induction h with
  | nil => rfl
  | cons h hs ih =>
    rw [h.ahead, List.cons_append, ← ih]
    rfl

theorem Reads.here (h : st.Reads (t :: ts) st') : st.here = t.span := by
  obtain ⟨m, hs, -⟩ := reads_cons.1 h
  exact hs.here

theorem Reads.ending (h : st.Reads ts st') : st'.ahead.ending = st.ahead.ending := by
  induction h with
  | nil => rfl
  | cons h hs ih =>
    rw [ih, h.ahead]
    rfl

theorem Reads.read (h : st.Reads ts st') : st'.read = ts.reverse ++ st.read := by
  induction h with
  | nil => rfl
  | cons h hs ih => rw [ih, h.read, List.reverse_cons, List.append_cons]

theorem Reads.previous (h : st.Reads ts st') (hts : ts ≠ []) :
    st'.previous = Grammar.lastSpan ts := by
  obtain ⟨us, t, rfl⟩ := (List.eq_nil_or_concat ts).resolve_left hts
  simp [State.previous, h.read, Grammar.lastSpan]

end State

variable {p : Parser α} {f : α → Parser β} {st st' : State} {t : Token} {k : Token.Kind}

theorem run_bind_of_ok {a : α} (h : p.run st = .ok (a, st')) :
    (p >>= f).run st = (f a).run st' := by
  rw [StateT.run_bind, h]
  rfl

theorem run_bind_of_error {e : Error} (h : p.run st = .error e) :
    (p >>= f).run st = .error e := by
  rw [StateT.run_bind, h]
  rfl

theorem run_bind_eq_ok {b : β} (h : (p >>= f).run st = .ok (b, st')) :
    ∃ a m, p.run st = .ok (a, m) ∧ (f a).run m = .ok (b, st') := by
  cases hp : p.run st with
  | error e =>
    rw [run_bind_of_error hp] at h
    cases h
  | ok r =>
    obtain ⟨a, m⟩ := r
    rw [run_bind_of_ok hp] at h
    exact ⟨a, m, rfl, h⟩

theorem run_bind_congr {g : α → Parser β}
    (h : ∀ a m, p.run st = .ok (a, m) → (f a).run m = (g a).run m) :
    (p >>= f).run st = (p >>= g).run st := by
  cases hp : p.run st with
  | error e => rw [run_bind_of_error hp, run_bind_of_error hp]
  | ok r => rw [run_bind_of_ok hp, run_bind_of_ok hp, h r.1 r.2 hp]

@[simp] theorem pure_run (a : α) : (pure a : Parser α).run st = .ok (a, st) := rfl

@[simp] theorem get_run : (get : Parser State).run st = .ok (st, st) := rfl

@[simp] theorem peek_run : peek.run st = .ok (st.ahead.tokens.head?, st) := rfl

@[simp] theorem peekKind_run : peekKind.run st = .ok (st.kind?, st) := rfl

@[simp] theorem peekOperator_run (select : Token.Kind → Option Operator) :
    (peekOperator select).run st = .ok (st.kind?.bind select, st) := rfl

@[simp] theorem unexpected_run (expected : String) :
    (unexpected expected : Parser α).run st = .error (st.unexpected expected) := rfl

@[simp] theorem tooDeep_run (limit : Nat) :
    (tooDeep limit : Parser α).run st = .error (.tooDeep limit st.here) := rfl

@[simp] theorem spanFrom_run (s : Span) :
    (spanFrom s).run st = .ok (s.extendTo st.previous, st) := rfl

theorem ofScan_of_sound {read : List Token} {ahead : Scan} (h : ahead.fault? = none) :
    State.ofScan read ahead = .ok ⟨read, ahead, h⟩ := by
  unfold State.ofScan
  split
  · simp_all
  · rfl

theorem ofScan_of_fault {read : List Token} {ahead : Scan} {e : Error}
    (h : ahead.fault? = some e) : State.ofScan read ahead = .error e := by
  unfold State.ofScan
  split <;> simp_all

theorem ofScan_eq_ok {read : List Token} {ahead : Scan} (h : State.ofScan read ahead = .ok st) :
    st.read = read ∧ st.ahead = ahead := by
  unfold State.ofScan at h
  split at h
  · cases h
  · cases h
    exact ⟨rfl, rfl⟩

theorem ofScan_eq_error {read : List Token} {ahead : Scan} {e : Error}
    (h : State.ofScan read ahead = .error e) : ahead.fault? = some e := by
  unfold State.ofScan at h
  split at h
  · rename_i hf
    rw [hf, Except.error.inj h]
  · cases h

theorem advance_cons {ts : List Token} (h : st.ahead.tokens = t :: ts) :
    advance.run st = (State.ofScan (t :: st.read) { st.ahead with tokens := ts }).map ((), ·) := by
  change advance st = _
  unfold advance
  rw [h]
  dsimp only
  cases State.ofScan (t :: st.read) ⟨ts, st.ahead.ending⟩ <;> rfl

theorem advance_run (h : st.Step t st') : advance.run st = .ok ((), st') := by
  have ht : st.ahead.tokens = t :: st'.ahead.tokens := by rw [h.ahead]; rfl
  have ha : { st.ahead with tokens := st'.ahead.tokens } = st'.ahead := by rw [h.ahead]; rfl
  rw [advance_cons ht, ha, ofScan_of_sound st'.sound, ← h.read]
  rfl

theorem advance_eq_ok {u : Unit} (hk : st.kind? = some k) (h : advance.run st = .ok (u, st')) :
    ∃ t, st.Step t st' ∧ t.kind = k := by
  cases ht : st.ahead.tokens with
  | nil => simp [State.kind?, ht] at hk
  | cons t ts =>
    rw [advance_cons ht] at h
    cases hs : State.ofScan (t :: st.read) { st.ahead with tokens := ts } with
    | error e =>
      rw [hs] at h
      cases h
    | ok m =>
      rw [hs] at h
      cases h
      obtain ⟨hr, ha⟩ := ofScan_eq_ok hs
      refine ⟨t, ⟨?_, hr⟩, by simpa [State.kind?, ht] using hk⟩
      rw [ha, Scan.cons, ← ht]

theorem expect_of_kind (hk : st.kind? = some k) (ht : st.ahead.tokens.head? = some t) :
    (expect k).run st = (advance >>= fun _ => pure t).run st := by
  have hkt : t.kind = k := by simpa [State.kind?, ht] using hk
  unfold expect
  rw [run_bind_of_ok peek_run, ht]
  simp only [hkt, if_pos]

theorem expect_of_ne (h : st.kind? ≠ some k) :
    (expect k).run st = .error (st.unexpected k.describe) := by
  unfold expect
  rw [run_bind_of_ok peek_run]
  cases ht : st.ahead.tokens.head? with
  | none => rfl
  | some t =>
    have hkt : t.kind ≠ k := by simpa [State.kind?, ht] using h
    simp only [if_neg hkt, unexpected_run]

theorem expect_run (h : st.Step t st') (hk : t.kind = k) : (expect k).run st = .ok (t, st') := by
  have ht : st.ahead.tokens.head? = some t := by rw [h.ahead]; rfl
  rw [expect_of_kind (hk ▸ h.kind?) ht, run_bind_of_ok (advance_run h), pure_run]

theorem expect_eq_ok (h : (expect k).run st = .ok (t, st')) : st.Step t st' ∧ t.kind = k := by
  by_cases hk : st.kind? = some k
  · cases ht : st.ahead.tokens.head? with
    | none => simp [State.kind?, ht] at hk
    | some t' =>
      rw [expect_of_kind hk ht] at h
      obtain ⟨u, m, ha, hp⟩ := run_bind_eq_ok h
      cases hp
      obtain ⟨t₁, hs, hk₁⟩ := advance_eq_ok hk ha
      have he : t₁ = t := by
        rw [hs.ahead] at ht
        exact Option.some.inj ht
      exact ⟨he ▸ hs, he ▸ hk₁⟩
  · rw [expect_of_ne hk] at h
    cases h

end TinyLanguage.Parser
