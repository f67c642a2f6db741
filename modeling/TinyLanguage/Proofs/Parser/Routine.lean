import TinyLanguage.Proofs.Parser.Place
import TinyLanguage.Proofs.Parser.Reader

namespace TinyLanguage.Reader

variable {start : Reader} {b limit : Nat} {g : Routine.Gauge}

/-- The gauge counts as far as the limit, or else as far as `b` more than the number of tokens that
there are. -/
def Routine.Gauge.Suffices (g : Gauge) (start : Reader) (b : Nat) : Prop :=
  g.limit ≤ g.largest ∨ start.ahead.length + b ≤ g.largest

namespace Run

def count (run : Run start) : Nat :=
  (start.consumed run.calls).length

/-- Up to now the depth has been within the limit and at most `b` more than the number of tokens
given away, and no token was asked for, but the first, while there was none ahead. -/
structure Regular (b limit : Nat) (run : Run start) : Prop where
  depth : ∀ calls, calls <:+ run.calls → (start.after calls).depth ≤ limit ∧
    (start.after calls).depth ≤ (start.consumed calls).length + b
  advance : ∀ calls, .advance :: calls <:+ run.calls →
    calls = [] ∨ (start.after calls).current.isSome

structure Before (run run' : Run start) : Prop where
  count : run.count < run'.count
  ahead : run'.now.ahead.length < run.now.ahead.length

/-- What was begun in the first run is complete in the second: some tokens have been given away for
it, and the depth is what it was. -/
structure Completes (run run' : Run start) : Prop extends run.Before run' where
  depth : run'.now.depth = run.now.depth

variable {run run' run'' : Run start}

theorem Before.trans (h : run.Before run') (h' : run'.Before run'') : run.Before run'' :=
  ⟨Nat.lt_trans h.count h'.count, Nat.lt_trans h'.ahead h.ahead⟩

theorem Completes.trans (h : run.Completes run') (h' : run'.Completes run'') :
    run.Completes run'' :=
  ⟨h.toBefore.trans h'.toBefore, h'.depth.trans h.depth⟩

theorem count_le (run : Run start) : run.count ≤ start.ahead.length :=
  (List.sublist_append_left _ _).trans (start.consumed_append_sublist run.calls) |>.length_le

theorem lt_largest (hg : g.Suffices start b) (hlimit : run.now.depth < g.limit)
    (hb : run.now.depth < run.count + b) : run.now.depth < g.largest := by
  have hcount := run.count_le
  rcases hg with h | h <;> omega

theorem count_le_call (run : Run start) (c : Call) : run.count ≤ (run.call c).count := by
  rw [count, count, call, consumed, List.length_append]
  exact Nat.le_add_right _ _

@[simp] theorem count_call_deepen (run : Run start) : (run.call .deepen).count = run.count := by
  rw [count, call, consumed, given, List.append_nil, count]

@[simp] theorem count_call_restore (run : Run start) (depth : Nat) :
    (run.call (.restore depth)).count = run.count := by
  rw [count, call, consumed, given, List.append_nil, count]

theorem Before.of_deepen (h : (run.call .deepen).Before run') : run.Before run' :=
  ⟨run.count_call_deepen ▸ h.count, h.ahead⟩

theorem Before.restore (h : run.Before run') :
    run.Completes (run'.call (.restore run.now.depth)) := by
  refine ⟨⟨?_, h.ahead⟩, rfl⟩
  rw [run'.count_call_restore]
  exact h.count

theorem Regular.now (h : run.Regular b limit) :
    run.now.depth ≤ limit ∧ run.now.depth ≤ run.count + b := by
  rw [run.now_eq]
  exact h.depth run.calls (List.suffix_refl _)

theorem regular_begin (hlimit : start.depth ≤ limit) (hb : start.depth ≤ b) :
    (begin start).Regular b limit := by
  constructor
  · intro calls hcalls
    obtain rfl := List.suffix_nil.1 hcalls
    exact ⟨hlimit, Nat.le_trans hb (Nat.le_add_left _ _)⟩
  · intro calls hcalls
    cases List.suffix_nil.1 hcalls

theorem Regular.call {c : Call} (h : run.Regular b limit)
    (hdepth : (run.now.serve c).depth ≤ limit ∧ (run.now.serve c).depth ≤ run.count + b)
    (hcurrent : c = .advance → run.calls = [] ∨ run.now.current.isSome) :
    (run.call c).Regular b limit := by
  have hle := run.count_le_call c
  constructor
  · intro calls hcalls
    rcases List.suffix_cons_iff.1 hcalls with rfl | hcalls
    · rw [after, ← run.now_eq]
      exact ⟨hdepth.1, Nat.le_trans hdepth.2 (Nat.add_le_add_right hle b)⟩
    · exact h.depth calls hcalls
  · intro calls hcalls
    rcases List.suffix_cons_iff.1 hcalls with he | hcalls
    · obtain ⟨rfl, rfl⟩ := List.cons.inj he
      rw [← run.now_eq]
      exact hcurrent rfl
    · exact h.advance calls hcalls

theorem Regular.call_advance (h : run.Regular b limit)
    (hcurrent : run.calls = [] ∨ run.now.current.isSome) :
    (run.call .advance).Regular b limit :=
  h.call (by rw [serve, depth_advance]; exact h.now) fun _ => hcurrent

theorem Regular.call_deepen (h : run.Regular b limit) (hlimit : run.now.depth < limit)
    (hb : run.now.depth < run.count + b) : (run.call .deepen).Regular b limit :=
  h.call ⟨hlimit, hb⟩ nofun

theorem Regular.call_restore (h : run.Regular b limit) (h' : run'.Regular b limit)
    (hcount : run.count ≤ run'.count) :
    (run'.call (.restore run.now.depth)).Regular b limit :=
  h'.call ⟨h.now.1, Nat.le_trans h.now.2 (Nat.add_le_add_right hcount b)⟩ nofun

theorem completes_call_advance {t : Token} {u : Option Token} (ht : run.now.current = some t)
    (h : run.now.advance.1 = .ok u) : run.Completes (run.call .advance) := by
  obtain ⟨-, hahead⟩ := ahead_of_advance h
  have hgiven := given_advance h
  rw [ht] at hahead hgiven
  refine ⟨⟨?_, ?_⟩, ?_⟩
  · rw [count, count, Run.call, consumed, ← run.now_eq, hgiven, List.length_append]
    exact Nat.lt_add_one _
  · rw [hahead]
    exact Nat.lt_add_one _
  · exact depth_advance _

end Run

structure Mirrors (r : Reader) (st : Parser.State) : Prop where
  previous : st.previous = r.previous
  ahead : st.ahead = r.current.elim ⟨[], .complete r.cursor.place⟩ r.cursor.scan.cons

namespace Mirrors

variable {r : Reader} {st : Parser.State} {t : Token}

theorem head (h : r.Mirrors st) : st.ahead.tokens.head? = r.current := by
  rw [h.ahead]
  cases r.current <;> rfl

theorem kind (h : r.Mirrors st) : st.kind? = r.current.map Token.kind := by
  rw [Parser.State.kind?, h.head]

theorem here (h : r.Mirrors st) : st.here = r.here := by
  rw [Parser.State.here, Reader.here, h.ahead]
  cases r.current <;> rfl

theorem unexpected (h : r.Mirrors st) (expected : String) :
    st.unexpected expected = r.unexpected expected := by
  rw [Parser.State.unexpected, h.here, h.ahead, Reader.unexpected, Reader.here]
  cases r.current <;> rfl

theorem prepend (h : r.Mirrors st) (ht : r.current = some t) :
    st.ahead = r.cursor.scan.prepend [t] := by
  rw [h.ahead, ht]
  rfl

theorem withDepth (h : r.Mirrors st) (depth : Nat) : { r with depth }.Mirrors st :=
  ⟨h.previous, h.ahead⟩

end Mirrors

/-- Where a reader advances, what lies ahead begins with no fault. -/
theorem mirrors_ofScan {r : Reader} {read : List Token} {u : Option Token}
    (hread : (read.head?.map Token.span).getD {} = (r.current.map Token.span).getD r.previous)
    (hu : r.advance.1 = .ok u) :
    ∃ st, Parser.State.ofScan read r.cursor.scan = .ok st ∧ r.advance.2.Mirrors st := by
  have hprevious {ahead : Scan} {h : ahead.fault? = none} :
      Parser.State.previous ⟨read, ahead, h⟩ = (r.current.map Token.span).getD r.previous := by
    rw [← hread]
    cases read <;> rfl
  cases ha : r.advance with
  | mk answer r' =>
    rw [ha] at hu
    cases ha ▸ r.advances with
    | token hnext hk =>
      have hscan := Cursor.scan_of_token hnext
      refine ⟨_, Parser.ofScan_of_sound ?_, hprevious, hscan⟩
      rw [hscan]
      exact Scan.fault_cons_eq_none.2 hk
    | finished hnext =>
      have hscan := Cursor.scan_of_finished hnext
      refine ⟨_, Parser.ofScan_of_sound ?_, hprevious, hscan⟩
      rw [hscan]
      rfl
    | fault hf hc => cases hu

namespace Routine

variable {α β γ δ : Type} {p : Routine start α} {f : α → Routine start β} {q : Parser γ}
  {g : γ → Parser δ} {run run' : Run start} {Q R : Run start → Prop} {e : Error}

theorem outcome_bind : (p >>= f).outcome run = (p.outcome run).bind fun
    | (.ok a, run') => (f a).outcome run'
    | (.error e, run') => some (.error e, run') := by
  unfold outcome
  simp only [ExceptT.run_bind, StateT.run_bind]
  refine congrArg (Option.bind _) (funext fun x => ?_)
  obtain ⟨a | e, run'⟩ := x <;> rfl

theorem outcome_bind_of_ok {a : α} (h : p.outcome run = some (.ok a, run')) :
    (p >>= f).outcome run = (f a).outcome run' := by
  rw [outcome_bind, h]
  rfl

theorem outcome_bind_of_error (h : p.outcome run = some (.error e, run')) :
    (p >>= f).outcome run = some (.error e, run') := by
  rw [outcome_bind, h]
  rfl

theorem outcome_get : (get : Routine start (Run start)).outcome run = some (.ok run, run) := rfl

theorem outcome_advance : (advance : Routine start (Option Token)).outcome run =
    some (run.now.advance.1, run.call .advance) := by
  rw [advance, outcome_bind_of_ok outcome_get]
  cases run.now.advance.1 <;> rfl

theorem outcome_peekKind : (peekKind : Routine start _).outcome run =
    some (.ok (run.now.current.map Token.kind), run) := rfl

theorem outcome_peekOperator (select : Token.Kind → Option Operator) :
    (peekOperator select : Routine start _).outcome run =
      some (.ok ((run.now.current.map Token.kind).bind select), run) := rfl

theorem outcome_unexpected (expected : String) :
    (unexpected expected : Routine start α).outcome run =
      some (.error (run.now.unexpected expected), run) := rfl

theorem outcome_spanFrom (s : Span) : (spanFrom s : Routine start Span).outcome run =
    some (.ok (s.extendTo run.now.previous), run) := rfl

theorem outcome_restore (depth : Nat) : (restore depth : Routine start Unit).outcome run =
    some (.ok (), run.call (.restore depth)) := rfl

theorem outcome_descend_of_le {g : Gauge} (h : g.limit ≤ run.now.depth) :
    g.descend.outcome run = some (.error (.tooDeep g.limit run.now.here), run) := by
  rw [Gauge.descend, outcome_bind_of_ok outcome_get, if_pos h]
  rfl

theorem outcome_descend_of_lt {g : Gauge} (hlimit : run.now.depth < g.limit)
    (hlargest : run.now.depth < g.largest) :
    g.descend.outcome run = some (.ok (), run.call .deepen) := by
  rw [Gauge.descend, outcome_bind_of_ok outcome_get, if_neg (Nat.not_le.2 hlimit),
    if_pos hlargest]
  rfl

/-- The routine ends. Either it finds what the parser finds, as `view` shows it, and then `Q` holds,
or it fails as the parser fails. It is too deep only where so many tokens have been given away. -/
inductive Ends (b limit : Nat) (view : γ → α) (p : Routine start α) (run : Run start)
    (q : Parser γ) (Q : Run start → Prop) : Prop
  | found {c : γ} {run' : Run start} (h : p.outcome run = some (.ok (view c), run'))
    (hreg : run'.Regular b limit) (hcount : run.count ≤ run'.count) (hQ : Q run')
    (hq : ∀ st, run.now.Mirrors st → ∃ st', q.run st = .ok (c, st') ∧ run'.now.Mirrors st')
  | failed {e : Error} {run' : Run start} (h : p.outcome run = some (.error e, run'))
    (hreg : run'.Regular b limit) (hcount : run.count ≤ run'.count)
    (hdeep : ∀ n span, e = .tooDeep n span → limit < run'.count + b)
    (hq : ∀ st, run.now.Mirrors st → q.run st = .error e)

variable {view : γ → α} {view' : δ → β}

theorem Ends.after {ε : Type} {a : α} {c : ε} {p' : Parser ε} {g : ε → Parser δ}
    (h : p.outcome run = some (.ok a, run')) (hle : run.count ≤ run'.count)
    (hq : ∀ st, run.now.Mirrors st → ∃ st', p'.run st = .ok (c, st') ∧ run'.now.Mirrors st')
    (hf : Ends b limit view' (f a) run' (g c) R) :
    Ends b limit view' (p >>= f) run (p' >>= g) R := by
  cases hf with
  | found hrun hreg hcount hR hg =>
    refine .found ((outcome_bind_of_ok h).trans hrun) hreg (Nat.le_trans hle hcount) hR
      fun st hst => ?_
    obtain ⟨m, hm, hmirrors⟩ := hq st hst
    rw [Parser.run_bind_of_ok hm]
    exact hg m hmirrors
  | failed hrun hreg hcount hdeep hg =>
    refine .failed ((outcome_bind_of_ok h).trans hrun) hreg (Nat.le_trans hle hcount) hdeep
      fun st hst => ?_
    obtain ⟨m, hm, hmirrors⟩ := hq st hst
    rw [Parser.run_bind_of_ok hm]
    exact hg m hmirrors

theorem Ends.bind (hp : Ends b limit view p run q Q)
    (hf : ∀ c run', run'.Regular b limit → Q run' → Ends b limit view' (f (view c)) run' (g c) R) :
    Ends b limit view' (p >>= f) run (q >>= g) R := by
  cases hp with
  | found h hreg hcount hQ hq => exact .after h hcount hq (hf _ _ hreg hQ)
  | failed h hreg hcount hdeep hq =>
    exact .failed (outcome_bind_of_error h) hreg hcount hdeep fun st hst =>
      Parser.run_bind_of_error (hq st hst)

theorem Ends.mono (h : Ends b limit view p run q Q) (hQ : ∀ run', Q run' → R run') :
    Ends b limit view p run q R := by
  cases h with
  | found h hreg hcount hQ' hq => exact .found h hreg hcount (hQ _ hQ') hq
  | failed h hreg hcount hdeep hq => exact .failed h hreg hcount hdeep hq

theorem Ends.congr {p' : Routine start α} {q' : Parser γ} (h : Ends b limit view p' run q' R)
    (hp : p.outcome run = p'.outcome run) (hq : ∀ st, run.now.Mirrors st → q.run st = q'.run st) :
    Ends b limit view p run q R := by
  cases h with
  | found h hreg hcount hR hrun =>
    exact .found (hp.trans h) hreg hcount hR fun st hst => (hq st hst).symm ▸ hrun st hst
  | failed h hreg hcount hdeep hrun =>
    exact .failed (hp.trans h) hreg hcount hdeep fun st hst => (hq st hst).trans (hrun st hst)

theorem ends_pure {a : α} {c : γ} (hreg : run.Regular b limit) (hR : R run) (h : view c = a) :
    Ends b limit view (pure a) run (pure c) R :=
  .found (h ▸ rfl) hreg (Nat.le_refl _) hR fun st hst => ⟨st, rfl, hst⟩

theorem ends_unexpected (hreg : run.Regular b limit) (expected : String) :
    Ends b limit view (unexpected expected) run (Parser.unexpected expected) R := by
  refine .failed (outcome_unexpected expected) hreg (Nat.le_refl _) ?_ fun st hst => ?_
  · intro n span h
    unfold Reader.unexpected at h
    split at h <;> cases h
  · rw [Parser.unexpected_run, hst.unexpected]

theorem Ends.peekKind {f : Option Token.Kind → Routine start α} {g : Option Token.Kind → Parser γ}
    (h : Ends b limit view (f (run.now.current.map Token.kind)) run
      (g (run.now.current.map Token.kind)) R) :
    Ends b limit view (Routine.peekKind >>= f) run (Parser.peekKind >>= g) R :=
  h.after outcome_peekKind (Nat.le_refl _) fun st hst =>
    ⟨st, by rw [Parser.peekKind_run, hst.kind], hst⟩

theorem Ends.peekOperator {select : Token.Kind → Option Operator}
    {f : Option Operator → Routine start α} {g : Option Operator → Parser γ}
    (h : Ends b limit view (f ((run.now.current.map Token.kind).bind select)) run
      (g ((run.now.current.map Token.kind).bind select)) R) :
    Ends b limit view (Routine.peekOperator select >>= f) run
      (Parser.peekOperator select >>= g) R :=
  h.after (outcome_peekOperator select) (Nat.le_refl _) fun st hst =>
    ⟨st, by rw [Parser.peekOperator_run, hst.kind], hst⟩

theorem Ends.spanFrom {s : Span} {f : Span → Routine start α} {g : Span → Parser γ}
    (h : Ends b limit view (f (s.extendTo run.now.previous)) run
      (g (s.extendTo run.now.previous)) R) :
    Ends b limit view (Routine.spanFrom s >>= f) run (Parser.spanFrom s >>= g) R :=
  h.after (outcome_spanFrom s) (Nat.le_refl _) fun st hst =>
    ⟨st, by rw [Parser.spanFrom_run, hst.previous], hst⟩

theorem ne_tooDeep_of_fault {s : Scan} (h : s.fault? = some e) (n : Nat) (span : Span) :
    e ≠ .tooDeep n span := by
  rcases Scan.fault_eq_some h with ⟨t, us, -, -, rfl⟩ | ⟨first, finish, -, rfl⟩ <;> nofun

theorem ends_read {ε : Type} {f : Option Token → Routine start β} {p' : Parser ε}
    {g : ε → Parser δ} {c : ε} {t : Token} (hreg : run.Regular b limit)
    (ht : run.now.current = some t)
    (hp' : ∀ st, run.now.Mirrors st →
      p'.run st = (Parser.State.ofScan (t :: st.read) run.now.cursor.scan).map (c, ·))
    (hf : ∀ run', run'.Regular b limit → run.Completes run' →
      Ends b limit view' (f (some t)) run' (g c) R) :
    Ends b limit view' (advance >>= f) run (p' >>= g) R := by
  have hreg' := hreg.call_advance (.inr (by rw [ht]; rfl))
  cases h : run.now.advance.1 with
  | ok u =>
    obtain ⟨rfl, -⟩ := ahead_of_advance h
    have hrest := hf _ hreg' (Run.completes_call_advance ht h)
    rw [← ht] at hrest
    refine .after (by rw [outcome_advance, h]) (run.count_le_call .advance) (fun st hst => ?_) hrest
    have hread : ((t :: st.read).head?.map Token.span).getD {} =
        (run.now.current.map Token.span).getD run.now.previous := by rw [ht]; rfl
    obtain ⟨st', hst', hmirrors⟩ := mirrors_ofScan hread h
    exact ⟨st', by rw [hp' st hst, hst']; rfl, hmirrors⟩
  | error e =>
    have hfault := (advance_of_error h).1
    refine .failed (outcome_bind_of_error (by rw [outcome_advance, h])) hreg'
      (run.count_le_call .advance) ?_ fun st hst => ?_
    · exact fun n span he => absurd he (ne_tooDeep_of_fault hfault n span)
    · refine Parser.run_bind_of_error ?_
      rw [hp' st hst, Parser.ofScan_of_fault hfault]
      rfl

theorem ends_advance {f : Option Token → Routine start β} {g : Unit → Parser δ} {t : Token}
    (hreg : run.Regular b limit) (ht : run.now.current = some t)
    (hf : ∀ run', run'.Regular b limit → run.Completes run' →
      Ends b limit view' (f (some t)) run' (g ()) R) :
    Ends b limit view' (advance >>= f) run (Parser.advance >>= g) R :=
  ends_read hreg ht (fun _ hst => Parser.advance_prepend (hst.prepend ht)) hf

theorem ends_expect (hreg : run.Regular b limit) (kind : Token.Kind) :
    Ends b limit id (expect kind) run (Parser.expect kind) run.Completes := by
  by_cases hk : run.now.current.map Token.kind = some kind
  · obtain ⟨t, ht, hkt⟩ := Option.map_eq_some_iff.1 hk
    rw [← bind_pure (Parser.expect kind)]
    have hread : Ends b limit id (advance >>= ofOption kind.describe) run
        (Parser.expect kind >>= pure) run.Completes :=
      ends_read hreg ht (fun _ hst => Parser.expect_prepend (hst.prepend ht) hkt)
        fun _ hreg' hnext => ends_pure hreg' hnext rfl
    refine hread.congr ?_ fun _ _ => rfl
    rw [expect, outcome_bind_of_ok outcome_peekKind]
    exact congrArg (outcome · run) (if_pos hk)
  · refine (ends_unexpected hreg kind.describe).congr ?_ fun st hst => ?_
    · rw [expect, outcome_bind_of_ok outcome_peekKind, if_neg hk]
    · exact Parser.expect_of_ne (by rwa [hst.kind])

end Routine

end TinyLanguage.Reader
