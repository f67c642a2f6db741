import TinyLanguage.Proofs.Parser.Agreement

namespace TinyLanguage.Reader

/-- No invalid token has been given away or is ahead, and the latest of those that have been given
away stands at `previous`. -/
structure Holds (given : List Token) (r : Reader) : Prop where
  valid : ∀ t ∈ given ++ r.current.toList, t.kind ≠ .invalid
  previous : r.previous = (given.getLast?.map Token.span).getD {}

/-- The scan of the text begins with the tokens given away and the one ahead, and goes on with what
the cursor is going to meet. -/
structure Streams (text : String) (given : List Token) (r : Reader) : Prop where
  scan : r.cursor.scan.prepend (given ++ r.current.toList) = Scan.ofText text
  cursor : r.cursor.StandsIn text

def aheadStop (text : String) (r : Reader) : Nat :=
  (r.current.map (·.span.stop)).getD text.utf8ByteSize

structure TakesOne (r : Reader) : Prop where
  taken : ∀ t u, r.current = some t → r.advance.1 = .ok u →
    r.given .advance = [t] ∧ r.ahead = t :: r.advance.2.ahead
  left : ∀ e, r.advance.1 = .error e →
    r.advance.2.current = r.current ∧ r.advance.2.previous = r.previous

variable {text : String} {given : List Token} {calls : List Call} {r : Reader} {u : Option Token}

theorem takesOne (r : Reader) : r.TakesOne := by
  constructor
  · intro t u ht hu
    have hgiven := given_advance hu
    have hahead := (ahead_of_advance hu).2
    rw [ht] at hgiven hahead
    exact ⟨hgiven, hahead⟩
  · intro e he
    obtain ⟨-, c, hc, -⟩ := advance_of_error he
    rw [hc]
    exact ⟨rfl, rfl⟩

theorem holds_ofText (text : String) : (ofText text).Holds [] :=
  ⟨nofun, rfl⟩

theorem previous_shift (h : r.Holds given) (next : Option Token) (c : Cursor) :
    (r.shift next c).previous =
      ((given ++ r.current.toList).getLast?.map Token.span).getD {} := by
  rw [shift]
  cases r.current with
  | none => rw [Option.toList, List.append_nil, ← h.previous]; rfl
  | some t => rw [Option.toList, List.getLast?_concat]; rfl

theorem Holds.advance (h : r.Holds given) :
    r.advance.2.Holds (given ++ r.given .advance) := by
  cases ha : r.advance with
  | mk answer r' =>
    have hgiven : r.given .advance = answer.toOption.join.toList := by rw [Reader.given, ha]
    rw [hgiven]
    cases ha ▸ r.advances with
    | token hnext hk =>
      refine ⟨fun t ht => ?_, previous_shift h _ _⟩
      rcases List.mem_append.1 ht with ht | ht
      · exact h.valid t ht
      · obtain rfl := List.mem_singleton.1 ht
        exact hk
    | finished hnext =>
      refine ⟨fun t ht => h.valid t ?_, previous_shift h _ _⟩
      rwa [shift, Option.toList_none, List.append_nil] at ht
    | fault hf hc =>
      rw [show (Except.error _ : Except Error (Option Token)).toOption.join.toList = [] from rfl,
        List.append_nil]
      exact ⟨h.valid, h.previous⟩

theorem holds_after (text : String) (calls : List Call) :
    ((ofText text).after calls).Holds ((ofText text).consumed calls) := by
  induction calls with
  | nil => exact holds_ofText text
  | cons c calls ih =>
    rw [after, consumed]
    cases c with
    | advance => exact ih.advance
    | deepen | restore =>
      rw [Reader.given, List.append_nil]
      exact ⟨ih.valid, ih.previous⟩

theorem streams_ofText (text : String) : Streams text [] (ofText text) :=
  ⟨rfl, Cursor.standsIn_ofText text⟩

theorem Streams.advance (h : Streams text given r) (hu : r.advance.1 = .ok u) :
    Streams text (given ++ r.current.toList) r.advance.2 ∧
      r.advance.2.cursor.place.offset = r.advance.2.aheadStop text := by
  cases ha : r.advance with
  | mk answer r' =>
    rw [ha] at hu
    have hscan := h.scan
    cases ha ▸ r.advances with
    | token hnext hk =>
      rw [Cursor.scan_of_token hnext] at hscan
      refine ⟨⟨?_, h.cursor.of_token hnext⟩, (Cursor.next_eq_token hnext).2.2.1.symm⟩
      rw [shift, Scan.prepend_append]
      exact hscan
    | finished hnext =>
      have hfinish := Cursor.next_eq_finished hnext
      rw [h.cursor.end_eq] at hfinish
      rw [Cursor.scan_of_finished hnext] at hscan
      subst hfinish
      refine ⟨⟨?_, Cursor.standsIn_end text⟩, ?_⟩
      · rw [shift, Cursor.scan_of_finished rfl, Option.toList_none, List.append_nil]
        exact hscan
      · rw [shift, Position.offset_after, aheadStop, String.ofList_toList]
        exact Nat.zero_add _
    | fault hf hc => cases hu

theorem Faultless.streams (h : (ofText text).Faultless calls) :
    Streams text ((ofText text).consumed calls) ((ofText text).after calls) := by
  induction calls with
  | nil => exact streams_ofText text
  | cons c calls ih =>
    have hs := ih h.of_cons
    rw [consumed]
    cases c with
    | advance =>
      obtain ⟨u, hu⟩ := h calls (List.suffix_refl _)
      rw [given_advance hu]
      exact (hs.advance hu).1
    | deepen | restore =>
      rw [Reader.given, List.append_nil]
      exact ⟨hs.scan, hs.cursor⟩

/-- Once it has advanced, a reader has looked just behind the token ahead. -/
theorem Faultless.offset_eq (h : (ofText text).Faultless calls) (hmem : .advance ∈ calls) :
    ((ofText text).after calls).cursor.place.offset =
      ((ofText text).after calls).aheadStop text := by
  induction calls with
  | nil => cases hmem
  | cons c calls ih =>
    cases c with
    | advance =>
      obtain ⟨u, hu⟩ := h calls (List.suffix_refl _)
      exact (h.of_cons.streams.advance hu).2
    | deepen | restore =>
      exact ih h.of_cons ((List.mem_cons.1 hmem).resolve_left nofun)

end TinyLanguage.Reader

namespace TinyLanguage

open Reader in
/-- The reader of a text comes to an end, with the outcome of `parse`, its tree built as a draft.
Wherever it is called, the tokens that it has given away, the one ahead and those that its cursor is
going to meet make up the scan of the text, until something is wrong with a token that was asked for.
The first token apart, it asks for one only where it gives one away, so that what lies ahead gets
shorter. -/
theorem reader_streams (text : String) (limits : Limits) (largest : Nat)
    (hlargest : limits.maxDepth ≤ largest) :
    (∀ r : Reader, r.TakesOne) ∧ ∃ result run,
      Reader.parse largest text limits = some (result, run) ∧
      result = (parse text limits).map Block.draft ∧
      (∀ calls, calls <:+ run.calls →
        ((ofText text).after calls).Holds ((ofText text).consumed calls) ∧
        ((ofText text).Faultless calls →
          Streams text ((ofText text).consumed calls) ((ofText text).after calls) ∧
          (.advance ∈ calls → ((ofText text).after calls).cursor.place.offset =
            ((ofText text).after calls).aheadStop text))) ∧
      ∀ calls, .advance :: calls <:+ run.calls →
        calls = [] ∨ ((ofText text).after calls).current.isSome := by
  obtain ⟨result, run, hrun, hresult, hreg, -⟩ := parse_ends text (.inl hlargest)
  refine ⟨takesOne, result, run, hrun, hresult, fun calls _ => ⟨holds_after text calls, ?_⟩,
    hreg.advance⟩
  exact fun h => ⟨h.streams, h.offset_eq⟩

open Reader in
theorem reader_streams_unfinished : ∃ run : Run (ofText "x:=1;"),
    Reader.parse 2 "x:=1;" ⟨2, 5⟩ = some (.error (.unexpectedEnd "statement" ⟨1, 6, 5, 5⟩), run) ∧
    ∀ calls, calls <:+ run.calls → (ofText "x:=1;").Faultless calls →
      (ofText "x:=1;").consumed calls ++ ((ofText "x:=1;").after calls).ahead =
        [.ofText "x" ⟨1, 1, 0, 1⟩, .ofText ":=" ⟨1, 2, 1, 3⟩, .ofText "1" ⟨1, 4, 3, 4⟩,
          .ofText ";" ⟨1, 5, 4, 5⟩] := by
  obtain ⟨-, result, run, hrun, rfl, hcalls, -⟩ :=
    reader_streams "x:=1;" ⟨2, 5⟩ 2 (Nat.le_refl 2)
  have hparse : parse "x:=1;" ⟨2, 5⟩ = .error (.unexpectedEnd "statement" ⟨1, 6, 5, 5⟩) := by
    decide +kernel
  rw [hparse] at hrun
  refine ⟨run, hrun, fun calls hsuffix hfaultless => ?_⟩
  have hscan := congrArg Scan.tokens ((hcalls calls hsuffix).2 hfaultless).1.scan
  rw [Reader.ahead, ← List.append_assoc]
  exact hscan.trans (by decide +kernel)

end TinyLanguage
