import TinyLanguage.Command.Basic
import TinyLanguage.Proofs.Format.Lines
import TinyLanguage.Proofs.Token.Respelling

namespace TinyLanguage

open Format (linesOf unlines)

structure Token.Entry where
  line : Nat
  column : Nat
  kind : String
  text : String
deriving DecidableEq, Repr

def Token.entry (t : Token) : Token.Entry :=
  ⟨t.span.line, t.span.column, t.kind.name, t.text⟩

namespace Token.Entry

/-- Reads a row of a table, however wide its columns are: a number ends before the first character
that is no digit, the name of a kind before the first space. -/
def ofRow (row : String) : Entry :=
  let line := row.toList.dropWhile (· = ' ')
  let column := (line.dropWhile Char.isDigit).drop 1
  let kind := (column.dropWhile Char.isDigit).dropWhile (· = ' ')
  let text := (kind.dropWhile (· ≠ ' ')).dropWhile (· = ' ')
  { line := .ofDigitChars 10 (line.takeWhile Char.isDigit) 0
    column := .ofDigitChars 10 (column.takeWhile Char.isDigit) 0
    kind := .ofList (kind.takeWhile (· ≠ ' '))
    text := .ofList text }

def ofTable (table : String) : List Entry :=
  (linesOf table).map ofRow

end Token.Entry

section

variable {w rest : List Char} {c : Char} {n : Nat}

theorem head_append {p : Char → Prop} (hne : w ≠ []) (h : ∀ c ∈ w, p c) :
    ∀ d ∈ (w ++ rest).head?, p d := by
  obtain ⟨c, cs, rfl⟩ := List.exists_cons_of_ne_nil hne
  simpa using h c List.mem_cons_self

theorem dropWhile_spaces (h : ∀ d ∈ rest.head?, d ≠ ' ') :
    (List.replicate n ' ' ++ rest).dropWhile (· = ' ') = rest :=
  dropWhile_append_of_head (by simp) (by simpa using h)

theorem takeWhile_digits (hc : c.isDigit = false) :
    (Nat.toDigits 10 n ++ c :: rest).takeWhile Char.isDigit = Nat.toDigits 10 n :=
  takeWhile_append_of_head (fun _ => isDigit_toDigits) (by simpa using hc)

theorem dropWhile_digits (hc : c.isDigit = false) :
    (Nat.toDigits 10 n ++ c :: rest).dropWhile Char.isDigit = c :: rest :=
  dropWhile_append_of_head (fun _ => isDigit_toDigits) (by simpa using hc)

theorem takeWhile_name (h : ∀ c ∈ w, c ≠ ' ') : (w ++ ' ' :: rest).takeWhile (· ≠ ' ') = w :=
  takeWhile_append_of_head (by simpa using h) (by simp)

theorem dropWhile_name (h : ∀ c ∈ w, c ≠ ' ') :
    (w ++ ' ' :: rest).dropWhile (· ≠ ' ') = ' ' :: rest :=
  dropWhile_append_of_head (by simpa using h) (by simp)

end

theorem Token.Kind.name_ne_nil (k : Kind) : k.name.toList ≠ [] := by
  cases k <;> decide

theorem Token.Kind.not_blank_of_mem_name {k : Kind} {c : Char} (h : c ∈ k.name.toList) :
    c.isWhitespace = false := by
  have hall : k.name.toList.all fun c => !c.isWhitespace := by cases k <;> decide
  simpa using List.all_eq_true.1 hall c h

theorem ne_space_of_not_blank {c : Char} (h : c.isWhitespace = false) : c ≠ ' ' := by
  rintro rfl
  cases h

namespace Token

/-- The columns of a row: numbers and the name of a kind, each with a character behind it that
belongs to none. -/
theorem exists_row (t : Token) : ∃ i j k, t.row.toList = List.replicate i ' ' ++
    (Nat.toDigits 10 t.span.line ++ ':' :: (Nat.toDigits 10 t.span.column ++
      ' ' :: (List.replicate j ' ' ++ (t.kind.name.toList ++
        ' ' :: (List.replicate k ' ' ++ t.text.toList))))) := by
  refine ⟨4 - (toString t.span.line).length, 3 - (toString t.span.column).length,
    12 - t.kind.name.length, ?_⟩
  simp [row, alignRight, alignLeft, replicate_append_cons]

variable {t : Token}

theorem ofRow_row (h : Word t.text.toList) : Entry.ofRow t.row = t.entry := by
  obtain ⟨i, j, k, hrow⟩ := t.exists_row
  have hnumber : ∀ n rest, ∀ d ∈ (Nat.toDigits 10 n ++ rest).head?, d ≠ ' ' := fun n rest =>
    head_append Nat.toDigits_ne_nil fun c hc =>
      ne_space_of_not_blank (isWhitespace_of_isDigit (isDigit_toDigits hc))
  have hname : ∀ c ∈ t.kind.name.toList, c ≠ ' ' := fun c hc =>
    ne_space_of_not_blank (Kind.not_blank_of_mem_name hc)
  have htext : ∀ d ∈ t.text.toList.head?, d ≠ ' ' := fun d hd =>
    ne_space_of_not_blank (h.not_blank (List.mem_of_mem_head? hd))
  have hgap : ∀ n rest, (∀ d ∈ rest.head?, d ≠ ' ') →
      (' ' :: (List.replicate n ' ' ++ rest)).dropWhile (· = ' ') = rest :=
    fun n _ h => dropWhile_spaces (n := n + 1) h
  -- From the left, each cut of the reader ends where a character of another sort stands.
  have hcolon : ':'.isDigit = false := rfl
  have hspace : ' '.isDigit = false := rfl
  simp only [Entry.ofRow, hrow, dropWhile_spaces (hnumber _ _), takeWhile_digits hcolon,
    dropWhile_digits hcolon, List.drop_succ_cons, List.drop_zero, takeWhile_digits hspace,
    dropWhile_digits hspace, hgap _ _ (head_append t.kind.name_ne_nil hname), takeWhile_name hname,
    dropWhile_name hname, hgap _ _ htext, Nat.ofDigitChars_ten_toDigits, String.ofList_toList]
  rfl

theorem not_mem_row (h : Word t.text.toList) : '\n' ∉ t.row.toList := by
  obtain ⟨i, j, k, hrow⟩ := t.exists_row
  have hname : '\n' ∉ t.kind.name.toList := fun hn => by
    simpa using Kind.not_blank_of_mem_name hn
  have htext : '\n' ∉ t.text.toList := fun hn => by simpa using h.not_blank hn
  simp [hrow, notMem_digits, hname, htext]

theorem ofTable_rows {ts : List Token} (h : ∀ t ∈ ts, Word t.text.toList) :
    Entry.ofTable (unlines (ts.map row)) = ts.map entry := by
  have hlines : ∀ r ∈ ts.map row, '\n' ∉ r.toList :=
    List.forall_mem_map.2 fun t ht => not_mem_row (h t ht)
  rw [Entry.ofTable, linesOf_unlines hlines, List.map_map]
  exact List.map_congr_left fun t ht => ofRow_row (h t ht)

end Token

theorem word_of_mem_tokenize {text : String} {ts : List Token} (h : tokenize text = .ok ts) :
    ∀ t ∈ ts, Word t.text.toList := by
  obtain ⟨finish, hscan⟩ := tokenize_eq_ok_iff.1 h
  obtain rfl : (Cursor.ofText text).scan.tokens = ts := congrArg Scan.tokens hscan
  exact fun t ht => (Cursor.whole_of_mem_scan ht).word

namespace Command

@[simp] theorem decode_utf8 (text : String) : decode (.ok text.toUTF8) = .ok text := by
  have hread : String.fromUTF8? text.toUTF8 = some text := by
    rw [String.fromUTF8?, String.toUTF8_eq_toByteArray, dif_pos text.isValidUTF8]
    rfl
  rw [decode, hread]

theorem run_tokens (input text : String) : (tokens input).run (.ok text.toUTF8) =
    .ofExcept ((tokenize text).map fun ts => unlines (ts.map Token.row)) := by
  rw [run, answer, decode_utf8]
  change Outcome.ofExcept ((tokenize text).bind fun ts => .ok (unlines (ts.map Token.row))) = _
  cases tokenize text <;> rfl

end Command

/-- The table of the tokens of a text has one line for each of them, from which its place, the name
of its kind and its text are read back, whatever they are; so texts of which these differ have
different tables. Of a text that stops within a comment nothing is written but the complaint. -/
theorem tokens_table (text : String) :
    (Command.tokens "-").input? = some "-" ∧
      (∀ ts, tokenize text = .ok ts → ∃ rows,
        (Command.tokens "-").run (.ok text.toUTF8) = ⟨0, unlines rows, ""⟩ ∧
          rows.length = ts.length ∧ (∀ row ∈ rows, '\n' ∉ row.toList) ∧
          Token.Entry.ofTable (unlines rows) = ts.map Token.entry) ∧
      (∀ text' ts ts', tokenize text = .ok ts → tokenize text' = .ok ts' →
        ts.map Token.entry ≠ ts'.map Token.entry →
          ((Command.tokens "-").run (.ok text.toUTF8)).output ≠
            ((Command.tokens "-").run (.ok text'.toUTF8)).output) ∧
      ∀ e, tokenize text = .error e →
        (Command.tokens "-").run (.ok text.toUTF8) = ⟨1, "", s!"Error: {e.message}\n"⟩ := by
  refine ⟨rfl, ?_, ?_, ?_⟩
  · intro ts h
    have hword := word_of_mem_tokenize h
    refine ⟨ts.map Token.row, ?_, List.length_map _, ?_, Token.ofTable_rows hword⟩
    · rw [Command.run_tokens, h]
      rfl
    · exact List.forall_mem_map.2 fun t ht => Token.not_mem_row (hword t ht)
  · intro text' ts ts' h h' hne houtput
    rw [Command.run_tokens, Command.run_tokens, h, h'] at houtput
    apply hne
    rw [← Token.ofTable_rows (word_of_mem_tokenize h),
      ← Token.ofTable_rows (word_of_mem_tokenize h')]
    exact congrArg Token.Entry.ofTable houtput
  · intro e h
    rw [Command.run_tokens, h]
    rfl

theorem tokens_table_invalid :
    (∃ rows, (Command.tokens "-").run (.ok "a:\x7b\n\x7d\u00a0 12".toUTF8) = ⟨0, unlines rows, ""⟩ ∧
      rows.length = 4 ∧ (∀ row ∈ rows, '\n' ∉ row.toList) ∧
      Token.Entry.ofTable (unlines rows) = [⟨1, 1, "Identifier", "a"⟩, ⟨1, 2, "Invalid", ":"⟩,
        ⟨2, 2, "Invalid", "\u00a0"⟩, ⟨2, 4, "Number", "12"⟩]) ∧
      ((Command.tokens "-").run (.ok "a:\x7b\n\x7d\u00a0 12".toUTF8)).output ≠
        ((Command.tokens "-").run (.ok "a".toUTF8)).output ∧
      (Command.tokens "-").run (.ok "a \x7b\n\x7b".toUTF8) =
        ⟨1, "", "Error: Lexical error at 1:3: unterminated comment\n"⟩ := by
  have h : tokenize "a:\x7b\n\x7d\u00a0 12" = .ok
      [.ofText "a" ⟨1, 1, 0, 1⟩, .ofText ":" ⟨1, 2, 1, 2⟩, .ofText "\u00a0" ⟨2, 2, 5, 7⟩,
        .ofText "12" ⟨2, 4, 8, 10⟩] :=
    ok_of_toOption (by decide +kernel)
  have ha : tokenize "a" = .ok [.ofText "a" ⟨1, 1, 0, 1⟩] := ok_of_toOption (by decide +kernel)
  have ho : tokenize "a \x7b\n\x7b" = .error (.unterminatedComment ⟨1, 3, 2⟩ ⟨2, 2, 5⟩) :=
    eq_error_of_map (f := fun _ => ()) (by decide +kernel)
  obtain ⟨-, hrows, hne, -⟩ := tokens_table "a:\x7b\n\x7d\u00a0 12"
  obtain ⟨-, -, -, herror⟩ := tokens_table "a \x7b\n\x7b"
  exact ⟨hrows _ h, hne "a" _ _ h ha (by decide), herror _ ho⟩

end TinyLanguage
