import TinyLanguage.Proofs.Format.Source
import TinyLanguage.Proofs.Grammar.Sequencing
import TinyLanguage.Proofs.Grammar.Translation
import TinyLanguage.Proofs.Parser.Diagnosis
import TinyLanguage.Proofs.Parser.Layout
import TinyLanguage.Proofs.Token.Continuation
import TinyLanguage.Proofs.Token.Relocation

namespace TinyLanguage

open Grammar

namespace Scan

variable {s : Scan} {e e' : Error} {p : Position}

theorem agrees_movedTo (p : Position) (s : Scan) : s.Agrees (s.movedTo p) := by
  refine ⟨(lexemes_movedTo p s).symm, ?_⟩
  obtain ⟨ts, ending⟩ := s
  cases ending <;> rfl

theorem eq_mapSpan_of_moved (h : Error.Moved s (s.movedTo p) e e') :
    e' = e.mapSpan (Span.movedTo p) := by
  obtain ⟨i, q, q', hq, hq', he, rfl⟩ := h
  rw [places_movedTo, List.getElem?_map, hq] at hq'
  obtain rfl := Option.some.inj hq'
  rw [Error.mapSpan, he]
  rfl

theorem ofText_semicolon {a : String} {ts : List Token} (h : Partition [] a.toList ts)
    (b : String) : ∃ k : Token, ofText (a ++ ";" ++ b) =
      (((ofText b).movedTo (({} : Position).after (a ++ ";").toList)).cons k).prepend ts ∧
        k.kind = .semicolon := by
  have hword : Word [';'] := .mark rfl rfl rfl (by decide)
  have hp : ∀ w, Parted w (';' :: b.toList) := fun w => parted_of_head rfl rfl (by decide)
  have hnext : (Cursor.mk (({} : Position).after a.toList) (';' :: b.toList)).next = _ :=
    @Cursor.next_word _ [';'] b.toList hword (parted_symbol (k := .semicolon) (by decide) rfl _)
  have hscan := h.scan_append hp
  rw [← Position.after_append] at hnext
  rw [List.nil_append, Cursor.scan_of_token hnext, ofText_movedTo] at hscan
  have hkind : Token.Kind.classify ";" = .semicolon := by decide
  have htext : (a ++ ";" ++ b).toList = a.toList ++ ';' :: b.toList := by simp
  have hplace : (a ++ ";").toList = a.toList ++ [';'] := by simp
  rw [hplace, ofText, Cursor.ofText, htext]
  exact ⟨_, hscan, hkind⟩

end Scan

namespace Parser

def further (limit depth : Nat) (before : List (Statement Span)) : Parser (Block Span) := do
  let item := statement (expression limit depth) (sequence limit depth)
  let s ← item
  let b ← remaining item before s
  lone limit b

section

variable {limit depth : Nat} {before : List (Statement Span)} {s : Statement Span} {st m : State}

theorem program_eq_further {k : Token.Kind} (hk : st.kind? = some k) :
    (program (depth + 1)).run st = (further (depth + 1) depth []).run st := by
  rw [program_of_kind hk, sequence_succ, bind_assoc]
  rfl

theorem further_step {ts : List Token} {ls : List Nat} (hd : depth ≤ limit)
    (hs : (statement (expression limit depth) (sequence limit depth)).run st =
      within limit ts ls (.ok (s, m))) (hm : m.kind? = some .semicolon) :
    (further limit depth before).run st =
      within limit ts ls ((advance >>= fun _ => further limit depth (s :: before)).run m) := by
  rw [further, run_bind_within hs, StateT.run_bind, remaining_step (statement_finds_of_le hd) hm,
    ← StateT.run_bind]
  simp only [bind_assoc, further]

theorem lt_looseness_of_semicolon (h : st.kind? = some .semicolon) : 3 < st.looseness := by
  rw [State.looseness, h]
  decide

theorem further_of_none (h : st.kind? = none) :
    (further limit depth before).run st = .error (st.unexpected "statement") := by
  refine run_bind_of_error ?_
  rw [statement, run_bind_of_ok peekKind_run, h]
  rfl

/-- Statements in front of a semicolon are read, and then it goes on behind it. -/
theorem further_run {b : Nat} (hb : b + 1 ≤ limit) (hm : m.kind? = some .semicolon) :
    {q : Sequence} → {ts : List Token} → {x : Block Span} → q.Yields ts x → {st : State} →
    st.Reads ts m → (before : List (Statement Span)) →
    ∃ before', (further limit (limit - (b + 1)) before).run st = within limit ts (q.levels b)
      ((advance >>= fun _ => further limit (limit - (b + 1)) before').run m)
  | _, _, .last s, .last hs, st, h, before =>
    ⟨s :: before, further_step (Nat.sub_le limit (b + 1))
      (statement_run hs hb h (lt_looseness_of_semicolon hm)) hm⟩
  | _, _, .cons s x, .cons hs hk hq, st, h, before => by
    obtain ⟨n, hn, h⟩ := State.reads_append.1 h
    obtain ⟨n', hs', h⟩ := State.reads_cons.1 h
    have hkind : n.kind? = some .semicolon := by rw [hs'.kind?, hk]
    obtain ⟨before', hrun⟩ := further_run hb hm hq h (s :: before)
    refine ⟨before', (further_step (Nat.sub_le limit (b + 1))
      (statement_run hs hb hn (lt_looseness_of_semicolon hkind)) hkind).trans ?_⟩
    rw [run_bind_of_ok (advance_run hs'), hrun, Sequence.levels,
      within_append (hs.length_levels (b + 1)), within_cons_of_le hb]

/-- What goes on behind one semicolon foretells what goes on behind another. -/
theorem further_leads (hd : depth ≤ limit) (before before' : List (Statement Span)) :
    Leads limit limit (further limit depth before) (further limit depth before') := by
  intro ι st
  have hitem : Leads limit limit (statement (expression limit depth) (sequence limit depth))
      (statement (expression limit depth) (sequence limit depth)) :=
    statement_leads (expression_leads (Nat.le_refl limit) rfl)
      (sequence_leads (Nat.le_refl limit) hd rfl)
  refine (hitem st).bind fun s m _ => ?_
  have hrest := remaining_foretells (statement_finds_of_le hd) (statement_finds_of_le hd) hitem
    before s m
  refine Foretells.bind (hrest.reindex fun x : ι × Statement Span => (before', x.2)) fun b n _ => ?_
  refine Foretells.peekKind ?_
  cases n.kind? with
  | none => exact foretells_pure _ _
  | some k => exact foretells_complain .outside

theorem exists_error_further {st' : State} {e : Error}
    (h : (program (depth + 1)).run st = .error e) (he : e ≠ .noStatements)
    (hagrees : st.ahead.Agrees st'.ahead) (before : List (Statement Span)) :
    ∃ e', (further (depth + 1) depth before).run st' = .error e' ∧
      Error.Moved st.ahead st'.ahead e e' := by
  obtain ⟨k, hk⟩ : ∃ k, st.kind? = some k := by
    refine Option.ne_none_iff_exists'.1 fun hnone => he ?_
    have ht : st.ahead.tokens = [] := by simpa [State.kind?] using hnone
    rw [program_of_none hnone, complain_run, Complaint.error, ht] at h
    exact (Except.error.inj h).symm
  rw [program_eq_further hk] at h
  have hfurther := @further_leads _ _ (Nat.le_succ depth) [] before Unit st
  obtain ⟨e', he', ⟨hnone, -⟩ | hmoved⟩ := hfurther.exists_error hagrees h ()
  · exact absurd hnone he
  · exact ⟨e', he', hmoved⟩

/-- What follows a semicolon behind a text that can be read is read as if the program had come so
far. -/
theorem parse_eq_further {a : String} {limits : Limits} {x : Block Span} (b : String)
    (ha : parse a limits = .ok x)
    (hlen : (a ++ ";" ++ b).utf8ByteSize ≤ limits.maxLength) :
    ∃ depth read before, limits.maxDepth = depth + 1 ∧ parse (a ++ ";" ++ b) limits = (do
      let st ← State.ofScan read
        ((Scan.ofText b).movedTo (({} : Position).after (a ++ ";").toList))
      (further (depth + 1) depth before).run' st) := by
  obtain ⟨-, ts, finish, q, hscan, hq, hneed⟩ := parse_eq_ok_iff.1 ha
  obtain ⟨k, htext, hk⟩ :=
    Scan.ofText_semicolon (Scan.ofText_eq_complete_iff.1 ⟨finish, hscan⟩) b
  have hpos := Sequence.lt_of_levels ((q.need_le_iff _).1 hneed)
  obtain ⟨depth, hdepth⟩ : ∃ depth, limits.maxDepth = depth + 1 := ⟨limits.maxDepth - 1, by omega⟩
  rw [hdepth] at hneed
  generalize hrest : (Scan.ofText b).movedTo (({} : Position).after (a ++ ";").toList) = rest at *
  have hsound : (rest.cons k).fault? = none := Scan.fault_cons_eq_none.2 (by rw [hk]; decide)
  obtain ⟨st, m, hst, hreads, hm⟩ := exists_reads_ahead hq.ne_invalid hsound []
  have hkind : m.kind? = some .semicolon := by rw [State.kind?, hm, ← hk]; rfl
  obtain ⟨k', hk'⟩ : ∃ k, st.kind? = some k := by
    cases hreads with
    | nil => exact absurd rfl hq.ne_nil
    | cons hs _ => exact ⟨_, hs.kind?⟩
  obtain ⟨before, hrun⟩ := further_run (Nat.le_add_left 1 depth) hkind hq hreads []
  rw [within_of_le ((q.need_le_iff _).1 hneed), Nat.zero_add, Nat.add_sub_cancel] at hrun
  refine ⟨depth, k :: m.read, before, hdepth, ?_⟩
  have hstep : m.ahead = rest.prepend [k] := hm
  rw [parse_of_state hlen (by rw [htext]; exact hst), hdepth, program_eq_further hk', hrun,
    StateT.run_bind, advance_prepend hstep]
  cases State.ofScan (k :: m.read) rest <;> rfl

end

end Parser

section

variable {a b : String} {limits : Limits} {x y : Block Span} {e : Error}

theorem parse_semicolon_ok (ha : parse a limits = .ok x) (hb : parse b limits = .ok y)
    (hlen : (a ++ ";" ++ b).utf8ByteSize ≤ limits.maxLength) :
    parse (a ++ ";" ++ b) limits =
      .ok (x.append (y.map (Span.movedTo (({} : Position).after (a ++ ";").toList)))) := by
  obtain ⟨-, ts, finish, q, hscan, hq, hneed⟩ := parse_eq_ok_iff.1 ha
  obtain ⟨-, us, finish', q', hscan', hq', hneed'⟩ := parse_eq_ok_iff.1 hb
  obtain ⟨k, htext, hk⟩ :=
    Scan.ofText_semicolon (Scan.ofText_eq_complete_iff.1 ⟨finish, hscan⟩) b
  rw [hscan'] at htext
  have hmap := Span.movedTo_extendTo (({} : Position).after (a ++ ";").toList)
  exact parse_eq_ok_iff.2 ⟨hlen, _, _, _, htext, hq.append hk (hq'.map hmap),
    Sequence.need_append_le hneed hneed'⟩

theorem parse_semicolon_nil (ha : parse a limits = .ok x)
    (hb : parse b limits = .error .noStatements)
    (hlen : (a ++ ";" ++ b).utf8ByteSize ≤ limits.maxLength) :
    parse (a ++ ";" ++ b) limits = .error
      (.unexpectedEnd "statement" (.point (({} : Position).after (a ++ ";" ++ b).toList))) := by
  obtain ⟨depth, read, before, -, hparse⟩ := Parser.parse_eq_further b ha hlen
  obtain ⟨finish, hscan⟩ := tokenize_eq_ok_iff.1 (parse_eq_noStatements_iff.1 hb).2
  have hfinish := Scan.finish_ofText b
  rw [hscan] at hfinish
  obtain rfl : finish = ({} : Position).after b.toList := hfinish
  have hend : (({} : Position).after b.toList).movedTo (({} : Position).after (a ++ ";").toList) =
      ({} : Position).after (a ++ ";" ++ b).toList := by
    rw [Position.after_movedTo, ← Position.after_append, ← String.toList_append]
  rw [hparse, hscan, ← hend, Parser.ofScan_of_sound rfl]
  exact congrArg (Except.map Prod.fst)
    (@Parser.further_of_none (depth + 1) depth before ⟨read, ⟨[], .complete _⟩, rfl⟩ rfl)

theorem parse_semicolon_error (ha : parse a limits = .ok x) (hb : parse b limits = .error e)
    (he : e ≠ .noStatements) (hlen : (a ++ ";" ++ b).utf8ByteSize ≤ limits.maxLength) :
    parse (a ++ ";" ++ b) limits =
      .error (e.mapSpan (Span.movedTo (({} : Position).after (a ++ ";").toList))) := by
  obtain ⟨depth, read, before, hdepth, hparse⟩ := Parser.parse_eq_further b ha hlen
  have hagrees := Scan.agrees_movedTo (({} : Position).after (a ++ ";").toList) (.ofText b)
  rcases parse_eq_error hb with ⟨hlt, -⟩ | ⟨-, hf | ⟨st, hst, hrun⟩⟩
  · rw [String.utf8ByteSize_append] at hlen
    omega
  · obtain ⟨e', hf', hmoved⟩ := hagrees.exists_fault hf
    rw [hparse, Parser.ofScan_of_fault hf', Scan.eq_mapSpan_of_moved hmoved]
    rfl
  · obtain ⟨hread, hahead⟩ := Parser.ofScan_eq_ok hst
    have hsound := hagrees.alike.fault.1 (by rw [← hahead]; exact st.sound)
    rw [hdepth] at hrun
    obtain ⟨e', he', hmoved⟩ := @Parser.exists_error_further _ _ ⟨read, _, hsound⟩ _ hrun he
      (by rw [hahead]; exact hagrees) before
    rw [hparse, Parser.ofScan_of_sound hsound]
    rw [hahead] at hmoved
    exact congrArg (Except.map Prod.fst) (Scan.eq_mapSpan_of_moved hmoved ▸ he')

end

/-- Texts that are put one behind another, with a semicolon between them, are read one after the
other: the first gives its statements, and all that is said of the second is said of its place. -/
theorem parse_semicolon {a : String} {limits : Limits} {x : Block Span} (b : String)
    (ha : parse a limits = .ok x)
    (hlen : (a ++ ";" ++ b).utf8ByteSize ≤ limits.maxLength) :
    (∀ y, parse b limits = .ok y → ∃ z, parse (a ++ ";" ++ b) limits = .ok z ∧
      z.statements = x.statements ++
        (y.map (Span.movedTo (({} : Position).after (a ++ ";").toList))).statements) ∧
    (parse b limits = .error .noStatements → parse (a ++ ";" ++ b) limits = .error
      (.unexpectedEnd "statement" (.point (({} : Position).after (a ++ ";" ++ b).toList)))) ∧
    ∀ e, e ≠ .noStatements → parse b limits = .error e → parse (a ++ ";" ++ b) limits =
      .error (e.mapSpan (Span.movedTo (({} : Position).after (a ++ ";").toList))) := by
  refine ⟨fun y hb => ?_, fun hb => parse_semicolon_nil ha hb hlen,
    fun e he hb => parse_semicolon_error ha hb he hlen⟩
  exact ⟨_, parse_semicolon_ok ha hb hlen, Block.statements_append x _⟩

theorem parse_semicolon_read :
    (∃ z, parse "read x;\nwrite x" {} = .ok z ∧ z.statements =
      [.read ⟨1, 1, 0, 6⟩ "x", .write ⟨2, 1, 8, 15⟩ (.identifier ⟨2, 7, 14, 15⟩ "x")]) ∧
    parse "read x; {}" {} = .error (.unexpectedEnd "statement" ⟨1, 11, 10, 10⟩) ∧
    parse "read x;\nwrite )" {} =
      .error (.unexpected "'(', number or identifier" "')'" ⟨2, 7, 14, 15⟩) := by
  have ha : parse "read x" {} = .ok (.last (.read ⟨1, 1, 0, 6⟩ "x")) :=
    ok_of_toOption (by decide +kernel)
  refine ⟨?_, ?_, ?_⟩
  · have hb : parse "\nwrite x" {} =
        .ok (.last (.write ⟨2, 1, 1, 8⟩ (.identifier ⟨2, 7, 7, 8⟩ "x"))) :=
      ok_of_toOption (by decide +kernel)
    exact (parse_semicolon "\nwrite x" ha (by decide)).1 _ hb
  · have hb : parse " {}" {} = .error .noStatements :=
      eq_error_of_map (f := fun _ => ()) (by decide +kernel)
    exact (parse_semicolon " {}" ha (by decide)).2.1 hb
  · have hb : parse "\nwrite )" {} =
        .error (.unexpected "'(', number or identifier" "')'" ⟨2, 7, 7, 8⟩) :=
      eq_error_of_map (f := fun _ => ()) (by decide +kernel)
    exact (parse_semicolon "\nwrite )" ha (by decide)).2.2 _ (by simp) hb

end TinyLanguage
