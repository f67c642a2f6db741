import TinyLanguage.Proofs.Token.Order
import TinyLanguage.Proofs.Token.Word

namespace TinyLanguage

open Token (Kind)

inductive Gap : List Char → Prop
  | nil : Gap []
  | blank {c : Char} {g : List Char} (hc : c = ' ' ∨ c = '\t' ∨ c = '\r' ∨ c = '\n') (hg : Gap g) :
    Gap (c :: g)
  | comment {body g : List Char} (hbody : '}' ∉ body) (hg : Gap g) : Gap ('{' :: (body ++ '}' :: g))

theorem isWhitespace_of_blank {c : Char} (hc : c = ' ' ∨ c = '\t' ∨ c = '\r' ∨ c = '\n') :
    c.isWhitespace ∧ c ≠ '{' := by
  rcases hc with rfl | rfl | rfl | rfl <;> decide

/-- The lexemes that stand whole between the texts `before` and `behind`, each with its kind. -/
inductive Munch (before : List Char) : List Char → List Char → Kind → Prop
  | letters {w behind : List Char} (hne : w ≠ []) (hw : ∀ c ∈ w, c.isAlpha)
    (hbefore : ∀ c ∈ before.getLast?, c.isAlpha = false)
    (hbehind : ∀ c ∈ behind.head?, c.isAlpha = false) :
    Munch before w behind ((Kind.keyword? (String.ofList w)).getD .identifier)
  | digits {w behind : List Char} (hne : w ≠ []) (hw : ∀ c ∈ w, c.isDigit)
    (hbefore : ∀ c ∈ before.getLast?, c.isDigit = false)
    (hbehind : ∀ c ∈ behind.head?, c.isDigit = false) : Munch before w behind .number
  | becomes {behind : List Char} : Munch before [':', '='] behind .becomes
  | colon {behind : List Char} (hbehind : behind.head? ≠ some '=') :
    Munch before [':'] behind .invalid
  | other {c : Char} {behind : List Char} (ha : c.isAlpha = false) (hd : c.isDigit = false)
    (hb : c.isWhitespace = false) (ho : c ≠ '{') (hc : c ≠ ':') :
    Munch before [c] behind ((Kind.symbol? (String.singleton c)).getD .invalid)

/-- The tokens cut what follows `before` into lexemes, each at its place, with gaps around them. -/
inductive Partition : List Char → List Char → List Token → Prop
  | gap {before g : List Char} (hg : Gap g) : Partition before g []
  | token {before g rest : List Char} {t : Token} {ts : List Token} (hg : Gap g)
    (hspan : t.span = .between (({} : Position).after (before ++ g))
      (({} : Position).after (before ++ g ++ t.text.toList)))
    (ht : Munch (before ++ g) t.text.toList rest t.kind)
    (hts : Partition (before ++ g ++ t.text.toList) rest ts) :
    Partition before (g ++ (t.text.toList ++ rest)) (t :: ts)

/-- The start of the comment that a text ends in, if it ends in one: outside comments an opening
brace starts one, and the next closing brace ends it. -/
def unclosed? (comment : Option Position) (p : Position) : List Char → Option Position
  | [] => comment
  | c :: cs =>
    match comment with
    | none => unclosed? (if c = '{' then some p else none) (p.advance c) cs
    | some start => unclosed? (if c = '}' then none else some start) (p.advance c) cs

/-- What stands in a text between the two ends of a span. -/
def Span.Marks (s : Span) (text part : String) : Prop :=
  ∃ before behind, text = before ++ part ++ behind ∧ s.start = before.utf8ByteSize ∧
    s.stop = (before ++ part).utf8ByteSize

namespace Token.Kind

theorem head_of_symbol {s : String} {k : Kind} (h : symbol? s = some k) :
    ∃ c cs, s.toList = c :: cs ∧ c.isAlpha = false ∧ c.isDigit = false := by
  have hk := List.mem_of_find?_eq_some h
  have hs := spelling_of_symbol h
  cases k with
  | plus | minus | star | slash | equals | less | leftParen | rightParen | semicolon | becomes =>
    cases hs
    exact ⟨_, _, rfl, rfl, rfl⟩
  | _ => exact absurd hk (by decide)

theorem letters_of_keyword {s : String} {k : Kind} (h : keyword? s = some k) :
    1 < s.toList.length ∧ ∀ c ∈ s.toList, c.isAlpha := by
  have hk := List.mem_of_find?_eq_some h
  have hs := spelling_of_keyword h
  cases k with
  | ifKw | thenKw | elseKw | endKw | repeatKw | untilKw | readKw | writeKw =>
    cases hs
    exact ⟨by decide, List.all_eq_true.1 (by decide)⟩
  | _ => exact absurd hk (by decide)

variable {w : List Char}

theorem classify_letters (hne : w ≠ []) (hw : ∀ c ∈ w, c.isAlpha) :
    classify (String.ofList w) = (keyword? (String.ofList w)).getD .identifier := by
  have hs : symbol? (String.ofList w) = none := by
    rw [Option.eq_none_iff_forall_ne_some]
    intro k hk
    obtain ⟨c, cs, hcs, hc, -⟩ := head_of_symbol hk
    rw [String.toList_ofList] at hcs
    have hc' := hw c (by simp [hcs])
    simp [hc] at hc'
  have ho : ofCharacters w = .identifier := by
    rw [ofCharacters, if_neg hne, if_pos (List.all_eq_true.2 hw)]
  rw [classify, hs, String.toList_ofList, ho, Option.orElse_eq_orElse, Option.orElse_eq_or,
    Option.or_none]

theorem classify_digits (hne : w ≠ []) (hw : ∀ c ∈ w, c.isDigit) :
    classify (String.ofList w) = .number := by
  obtain ⟨c, cs, rfl⟩ := List.exists_cons_of_ne_nil hne
  have hd : c.isDigit := hw c (by simp)
  have ha := isAlpha_of_isDigit hd
  have hk : keyword? (String.ofList (c :: cs)) = none := by
    rw [Option.eq_none_iff_forall_ne_some]
    intro k hk
    have hc := (letters_of_keyword hk).2 c (by simp)
    simp [ha] at hc
  have hs : symbol? (String.ofList (c :: cs)) = none := by
    rw [Option.eq_none_iff_forall_ne_some]
    intro k hk
    obtain ⟨c', cs', hcs, -, hc⟩ := head_of_symbol hk
    rw [String.toList_ofList] at hcs
    obtain ⟨rfl, -⟩ := List.cons.inj hcs
    simp [hd] at hc
  have ho : ofCharacters (c :: cs) = .number := by
    rw [ofCharacters, if_neg hne, if_neg (by simp [ha]), if_pos (List.all_eq_true.2 hw)]
  rw [classify, hk, hs, String.toList_ofList, ho]
  rfl

theorem classify_other {c : Char} (ha : c.isAlpha = false) (hd : c.isDigit = false) :
    classify (String.ofList [c]) = (symbol? (String.singleton c)).getD .invalid := by
  have hk : keyword? (String.ofList [c]) = none := by
    rw [Option.eq_none_iff_forall_ne_some]
    intro k hk
    have hlen := (letters_of_keyword hk).1
    simp at hlen
  have ho : ofCharacters [c] = .invalid := by
    rw [ofCharacters, if_neg (by simp), if_neg (by simp [ha]), if_neg (by simp [hd])]
  rw [classify, hk, String.toList_ofList, ho]
  rfl

end Token.Kind

theorem Token.ofText_eq (t : Token) : .ofText t.text t.span = t := by
  obtain ⟨kind, text, span, rfl⟩ := t
  rfl

/-- No run of letters and no run of digits goes on from one text to the other. -/
def Apart (before behind : List Char) : Prop :=
  ∀ c ∈ before.getLast?, ∀ d ∈ behind.head?,
    (c.isAlpha → d.isAlpha = false) ∧ (c.isDigit → d.isDigit = false)

theorem apart_nil (behind : List Char) : Apart [] behind := by
  simp [Apart]

section

variable {before w g behind : List Char}

theorem apart_concat {c : Char} (ha : c.isAlpha = false) (hd : c.isDigit = false) :
    Apart (before ++ [c]) behind := by
  intro d hd'
  rw [List.getLast?_concat] at hd'
  obtain rfl := Option.some.inj hd'
  simp [ha, hd]

theorem Apart.append (hne : w ≠ []) (h : Apart w behind) : Apart (before ++ w) behind := by
  intro c hc
  have hlast := List.getLast?_eq_some_getLast hne
  rw [List.getLast?_append, hlast, Option.some_or] at hc
  exact h c (by rwa [hlast])

theorem Word.apart (hw : Word w) (hp : Parted w behind) : Apart w behind := by
  intro c hc d hd
  have hpd := hp d hd
  have hmem := List.mem_of_getLast? hc
  cases hw with
  | letters hne h =>
    obtain ⟨a, as, rfl⟩ := List.exists_cons_of_ne_nil hne
    have ha : a.isAlpha := h a (by simp)
    rw [prolongs, if_pos ha] at hpd
    refine ⟨fun _ => hpd, fun hdigit => ?_⟩
    have hc' := h c hmem
    simp [isAlpha_of_isDigit hdigit] at hc'
  | digits hne h =>
    obtain ⟨a, as, rfl⟩ := List.exists_cons_of_ne_nil hne
    have ha : a.isDigit := h a (by simp)
    rw [prolongs, if_neg (by simp [isAlpha_of_isDigit ha]), if_pos ha] at hpd
    refine ⟨fun halpha => ?_, fun _ => hpd⟩
    simp [isAlpha_of_isDigit (h c hmem)] at halpha
  | becomes =>
    obtain rfl := Option.some.inj hc
    simp
  | mark ha hd' _ _ =>
    obtain rfl := Option.some.inj hc
    simp [ha, hd']

theorem Gap.apart (hg : Gap g) (h : Apart before (g ++ behind)) : Apart (before ++ g) behind := by
  induction hg generalizing before with
  | nil => simpa using h
  | @blank c g hc hg ih =>
    have hblank : Apart (before ++ [c]) (g ++ behind) := by
      rcases hc with rfl | rfl | rfl | rfl <;> exact apart_concat rfl rfl
    simpa using ih hblank
  | @comment body g hbody hg ih =>
    have hclose : Apart (before ++ '{' :: body ++ ['}']) (g ++ behind) := apart_concat rfl rfl
    simpa using ih hclose

/-- A word that is cut off as far as it goes, and in front of which nothing belongs to it, is
whole. -/
theorem Word.munch (hw : Word w) (hb : Apart before (w ++ behind)) (hp : Parted w behind) :
    Munch before w behind (Kind.classify (String.ofList w)) := by
  cases hw with
  | letters hne h =>
    obtain ⟨a, as, rfl⟩ := List.exists_cons_of_ne_nil hne
    have ha : a.isAlpha := h a (by simp)
    rw [Kind.classify_letters hne h]
    refine .letters hne h (fun c hc => ?_) fun d hd => ?_
    · cases hca : c.isAlpha with
      | false => rfl
      | true =>
        have hca' := (hb c hc a rfl).1 hca
        simp [ha] at hca'
    · simpa [prolongs, ha] using hp d hd
  | digits hne h =>
    obtain ⟨a, as, rfl⟩ := List.exists_cons_of_ne_nil hne
    have ha : a.isDigit := h a (by simp)
    rw [Kind.classify_digits hne h]
    refine .digits hne h (fun c hc => ?_) fun d hd => ?_
    · cases hcd : c.isDigit with
      | false => rfl
      | true =>
        have hcd' := (hb c hc a rfl).2 hcd
        simp [ha] at hcd'
    · simpa [prolongs, ha, isAlpha_of_isDigit ha] using hp d hd
  | becomes => exact .becomes
  | @mark c ha hd hblank ho =>
    by_cases hc : c = ':'
    · subst hc
      refine .colon fun he => ?_
      have hpe := hp '=' he
      simp [prolongs] at hpe
    · rw [Kind.classify_other ha hd]
      exact .other ha hd hblank ho hc

theorem Munch.word {k : Kind} (h : Munch before w behind k) : Word w := by
  cases h with
  | letters hne hw => exact .letters hne hw
  | digits hne hw => exact .digits hne hw
  | becomes => exact .becomes
  | colon => exact .mark rfl rfl rfl (by decide)
  | other ha hd hb ho => exact .mark ha hd hb ho

theorem Munch.parted {k : Kind} (h : Munch before w behind k) : Parted w behind := by
  intro d hd
  cases h with
  | letters hne hw _ hbehind =>
    obtain ⟨a, as, rfl⟩ := List.exists_cons_of_ne_nil hne
    simpa [prolongs, hw a (by simp)] using hbehind d hd
  | digits hne hw _ hbehind =>
    obtain ⟨a, as, rfl⟩ := List.exists_cons_of_ne_nil hne
    have ha : a.isDigit := hw a (by simp)
    simpa [prolongs, ha, isAlpha_of_isDigit ha] using hbehind d hd
  | becomes => simp [prolongs]
  | colon hbehind =>
    have hne : d ≠ '=' := by
      rintro rfl
      exact hbehind hd
    simpa [prolongs] using hne
  | other ha hd' _ _ hc => simp [prolongs, ha, hd', hc]

theorem Munch.classify {k : Kind} (h : Munch before w behind k) :
    Kind.classify (String.ofList w) = k := by
  cases h with
  | letters hne hw => exact Kind.classify_letters hne hw
  | digits hne hw => exact Kind.classify_digits hne hw
  | becomes | colon => decide
  | other ha hd => exact Kind.classify_other ha hd

/-- Of what stands around a lexeme only the characters next to it matter. -/
theorem Munch.congr {before' behind' : List Char} {k : Kind}
    (h : Munch before w behind k) (hb : ∀ c ∈ before'.getLast?, c ∈ before.getLast?)
    (hd : ∀ d ∈ behind'.head?, d ∈ behind.head?) : Munch before' w behind' k := by
  cases h with
  | letters hne hw hbefore hbehind =>
    exact .letters hne hw (fun c hc => hbefore c (hb c hc)) fun d hd' => hbehind d (hd d hd')
  | digits hne hw hbefore hbehind =>
    exact .digits hne hw (fun c hc => hbefore c (hb c hc)) fun d hd' => hbehind d (hd d hd')
  | becomes => exact .becomes
  | colon hbehind => exact .colon fun he => hbehind (hd '=' he)
  | other ha hd' hblank ho hc => exact .other ha hd' hblank ho hc

end

namespace Cursor

def Skipped : Option Position → List Char → Prop
  | none, g => Gap g
  | some _, g => ∃ body g', '}' ∉ body ∧ Gap g' ∧ g = body ++ '}' :: g'

theorem exists_skipped {comment : Option Position} {p : Position} {cs : List Char} {c : Cursor}
    (h : skip comment p cs = .ok c) : ∃ g, cs = g ++ c.rest ∧ c.place = p.after g ∧
      (∀ d ∈ c.rest.head?, d.isWhitespace = false ∧ d ≠ '{') ∧ Skipped comment g := by
  induction cs generalizing comment p with
  | nil =>
    cases comment with
    | none =>
      obtain rfl := Except.ok.inj h
      exact ⟨[], rfl, rfl, by simp, .nil⟩
    | some start => cases h
  | cons d ds ih =>
    cases comment with
    | none =>
      simp only [skip] at h
      split at h
      · rename_i hd
        subst hd
        obtain ⟨g, rfl, hplace, hhead, body, g', hbody, hg', rfl⟩ := ih h
        exact ⟨'{' :: (body ++ '}' :: g'), rfl, hplace, hhead, .comment hbody hg'⟩
      · rename_i hd
        split at h
        · rename_i hblank
          obtain ⟨g, rfl, hplace, hhead, hg⟩ := ih h
          exact ⟨d :: g, rfl, hplace, hhead, .blank (eq_of_isWhitespace hblank) hg⟩
        · rename_i hblank
          obtain rfl := Except.ok.inj h
          exact ⟨[], rfl, rfl, by simpa using ⟨by simpa using hblank, hd⟩, .nil⟩
    | some start =>
      simp only [skip] at h
      split at h
      · rename_i hd
        subst hd
        obtain ⟨g, rfl, hplace, hhead, hg⟩ := ih h
        exact ⟨'}' :: g, rfl, hplace, hhead, [], g, by simp, hg, rfl⟩
      · rename_i hd
        obtain ⟨g, rfl, hplace, hhead, body, g', hbody, hg', rfl⟩ := ih h
        refine ⟨d :: (body ++ '}' :: g'), rfl, hplace, hhead, d :: body, g', ?_, hg', rfl⟩
        simpa [eq_comm] using ⟨hd, hbody⟩

theorem skip_comment {start p : Position} {body cs : List Char} (hbody : '}' ∉ body) :
    skip (some start) p (body ++ '}' :: cs) = skip none ((p.after body).advance '}') cs := by
  induction body generalizing p with
  | nil => simp [skip]
  | cons c body ih =>
    rw [List.mem_cons, not_or] at hbody
    simp [skip, Ne.symm hbody.1, ih hbody.2]

theorem skip_gap {p : Position} {g cs : List Char} (hg : Gap g) :
    skip none p (g ++ cs) = skip none (p.after g) cs := by
  induction hg generalizing p with
  | nil => rfl
  | @blank c g hc hg ih =>
    simp [skip, isWhitespace_of_blank hc, ih]
  | @comment body g hbody hg ih => simp [skip, skip_comment hbody, ih]

theorem next_gap {p : Position} {g cs : List Char} (hg : Gap g) :
    (Cursor.mk p (g ++ cs)).next = (Cursor.mk (p.after g) cs).next := by
  simp [next, skip_gap hg]

theorem word_cut {c : Char} {cs : List Char} (hb : c.isWhitespace = false) (ho : c ≠ '{') :
    Word (cut c cs).1 ∧ Parted (cut c cs).1 (cut c cs).2 := by
  unfold cut
  split
  · rename_i ha
    refine ⟨.letters (by simp) fun d hd => ?_, fun d hd => ?_⟩
    · rcases List.mem_cons.1 hd with rfl | hd
      · exact ha
      · exact List.all_eq_true.1 List.all_takeWhile d hd
    · have hhead := List.head?_dropWhile_not Char.isAlpha cs
      rw [hd] at hhead
      simpa [prolongs, ha] using hhead
  · rename_i ha
    split
    · rename_i hdigit
      refine ⟨.digits (by simp) fun d hd => ?_, fun d hd => ?_⟩
      · rcases List.mem_cons.1 hd with rfl | hd
        · exact hdigit
        · exact List.all_eq_true.1 List.all_takeWhile d hd
      · have hhead := List.head?_dropWhile_not Char.isDigit cs
        rw [hd] at hhead
        simpa [prolongs, ha, hdigit] using hhead
    · rename_i hdigit
      split
      · exact ⟨.becomes, by simp [Parted, prolongs]⟩
      · rename_i hcolon
        refine ⟨.mark (by simpa using ha) (by simpa using hdigit) hb ho, fun d hd => ?_⟩
        cases cs with
        | nil => cases hd
        | cons e es =>
          obtain rfl := Option.some.inj hd
          have hne : ¬(c = ':' ∧ e = '=') := by
            rintro ⟨rfl, rfl⟩
            exact hcolon es rfl rfl
          simpa [prolongs, ha, hdigit] using hne

theorem exists_word {c d : Cursor} {t : Token} (h : c.next = .token t d) :
    ∃ g, Gap g ∧ Word t.text.toList ∧ Parted t.text.toList d.rest ∧
      c.rest = g ++ (t.text.toList ++ d.rest) ∧ d.place = c.place.after (g ++ t.text.toList) ∧
      t.span = .between (c.place.after g) (c.place.after (g ++ t.text.toList)) := by
  unfold next at h
  split at h
  · cases h
  · cases h
  · rename_i start e es hs
    obtain ⟨g, hrest, hplace, hhead, hg⟩ := exists_skipped hs
    obtain ⟨hblank, hopen⟩ := hhead e rfl
    have hcut : Word (cut e es).1 ∧ Parted (cut e es).1 (cut e es).2 := word_cut hblank hopen
    have happ := cut_append e es
    simp only [Step.token.injEq] at h
    obtain ⟨rfl, rfl⟩ := h
    have hstart : start = c.place.after g := hplace
    have htext (s : Span) : (Token.ofText (String.ofList (cut e es).1) s).text.toList =
      (cut e es).1 := String.toList_ofList
    rw [htext]
    refine ⟨g, hg, hcut.1, hcut.2, ?_, ?_, ?_⟩
    · rw [happ]
      exact hrest
    · rw [Position.after_append, hstart]
    · rw [Position.after_append, hstart]
      rfl

theorem exists_gap {c : Cursor} {finish : Position} (h : c.next = .finished finish) :
    Gap c.rest := by
  unfold next at h
  split at h
  · cases h
  · rename_i q hs
    obtain ⟨g, hrest, -, -, hg⟩ := exists_skipped hs
    rw [hrest, List.append_nil]
    exact hg
  · cases h

theorem unclosed_of_error {comment : Option Position} {p start finish : Position} {cs : List Char}
    (h : skip comment p cs = .error (start, finish)) : unclosed? comment p cs = some start := by
  induction cs generalizing comment p with
  | nil =>
    cases comment with
    | none => cases h
    | some s =>
      obtain ⟨rfl, rfl⟩ := Prod.mk.inj (Except.error.inj h)
      rfl
  | cons d ds ih =>
    cases comment with
    | some s => exact ih h
    | none =>
      rw [unclosed?]
      simp only [skip] at h
      split at h
      · rename_i hd
        rw [if_pos hd]
        exact ih h
      · rename_i hd
        split at h
        · rw [if_neg hd]
          exact ih h
        · cases h

theorem unclosed_append {p : Position} {w cs : List Char} (hw : '{' ∉ w) :
    unclosed? none p (w ++ cs) = unclosed? none (p.after w) cs := by
  induction w generalizing p with
  | nil => rfl
  | cons c w ih =>
    rw [List.mem_cons, not_or] at hw
    rw [List.cons_append, unclosed?, if_neg (Ne.symm hw.1), ih hw.2, Position.after_cons]

theorem unclosed_comment {start p : Position} {body cs : List Char} (hbody : '}' ∉ body) :
    unclosed? (some start) p (body ++ '}' :: cs) =
      unclosed? none ((p.after body).advance '}') cs := by
  induction body generalizing p with
  | nil => simp [unclosed?]
  | cons c body ih =>
    rw [List.mem_cons, not_or] at hbody
    simp [unclosed?, Ne.symm hbody.1, ih hbody.2]

theorem unclosed_gap {p : Position} {g cs : List Char} (hg : Gap g) :
    unclosed? none p (g ++ cs) = unclosed? none (p.after g) cs := by
  induction hg generalizing p with
  | nil => rfl
  | @blank c g hc hg ih =>
    simp [unclosed?, (isWhitespace_of_blank hc).2, ih]
  | @comment body g hbody hg ih => simp [unclosed?, unclosed_comment hbody, ih]

theorem unclosed_of_token {c d : Cursor} {t : Token} (h : c.next = .token t d) :
    unclosed? none c.place c.rest = unclosed? none d.place d.rest := by
  obtain ⟨g, hg, hw, -, hrest, hplace, -⟩ := exists_word h
  rw [hrest, hplace, unclosed_gap hg, unclosed_append hw.not_mem_brace, Position.after_append]

theorem unclosed_of_finished {c : Cursor} {finish : Position} (h : c.next = .finished finish) :
    unclosed? none c.place c.rest = none := by
  have hg : unclosed? none c.place (c.rest ++ []) = none := unclosed_gap (exists_gap h)
  rwa [List.append_nil] at hg

theorem unclosed_of_openComment {c : Cursor} {start finish : Position}
    (h : c.next = .openComment start finish) : unclosed? none c.place c.rest = some start := by
  unfold next at h
  split at h
  · rename_i hs
    obtain ⟨rfl, rfl⟩ := Step.openComment.inj h
    exact unclosed_of_error hs
  · cases h
  · cases h

theorem ending_scan (c : Cursor) : c.scan.ending =
    (unclosed? none c.place c.rest).elim (.complete (c.place.after c.rest))
      (fun start => .openComment start (c.place.after c.rest)) := by
  induction c using Cursor.induction with
  | token h ih =>
    obtain ⟨-, -, -, hafter⟩ := next_eq_token h
    rw [scan_of_token h, unclosed_of_token h, ← hafter, ← ih]
    rfl
  | finished h => rw [scan_of_finished h, unclosed_of_finished h, next_eq_finished h, Option.elim]
  | openComment h =>
    rw [scan_of_openComment h, unclosed_of_openComment h, (next_eq_openComment h).2, Option.elim]

/-- The tokens that a scan finds behind `before` cut the rest of the text, except for a comment that
it stops in. -/
theorem exists_partition {c : Cursor} {before : List Char}
    (hc : c.place = ({} : Position).after before) (hb : Apart before c.rest) :
    ∃ cs tail, c.rest = cs ++ tail ∧ Partition before cs c.scan.tokens ∧
      (unclosed? none c.place c.rest = none → tail = []) := by
  induction c using Cursor.induction generalizing before with
  | @token c d t hnext ih =>
    obtain ⟨g, hg, hw, hp, hrest, hplace, hspan⟩ := exists_word hnext
    rw [hc, ← Position.after_append, ← List.append_assoc] at hplace
    rw [hc, ← Position.after_append, ← Position.after_append, ← List.append_assoc] at hspan
    have hopen := unclosed_of_token hnext
    rw [hrest] at hb
    have hmunch := hw.munch (hg.apart hb) hp
    rw [String.ofList_toList, ← t.kind_eq] at hmunch
    obtain ⟨cs, tail, hd, hts, htail⟩ := ih hplace ((hw.apart hp).append hw.ne_nil)
    have hmunch : Munch (before ++ g) t.text.toList cs t.kind := by
      refine hmunch.congr (fun _ => id) fun e he => ?_
      rw [hd, List.head?_append, Option.mem_def.1 he]
      rfl
    rw [scan_of_token hnext]
    exact ⟨g ++ (t.text.toList ++ cs), tail, by simp [hrest, hd], .token hg hspan hmunch hts,
      fun h => htail (hopen.symm.trans h)⟩
  | finished hnext =>
    rw [scan_of_finished hnext]
    exact ⟨_, [], (List.append_nil _).symm, .gap (exists_gap hnext), fun _ => rfl⟩
  | openComment hnext =>
    rw [scan_of_openComment hnext, unclosed_of_openComment hnext]
    exact ⟨[], _, rfl, .gap .nil, nofun⟩

theorem partition_scan {c : Cursor} {before : List Char}
    (hc : c.place = ({} : Position).after before) (hb : Apart before c.rest)
    (h : unclosed? none c.place c.rest = none) : Partition before c.rest c.scan.tokens := by
  obtain ⟨cs, tail, hrest, hpart, htail⟩ := exists_partition hc hb
  rwa [hrest, htail h, List.append_nil]

theorem scan_of_partition {before cs : List Char} {ts : List Token} (h : Partition before cs ts) :
    (Cursor.mk (({} : Position).after before) cs).scan =
      ⟨ts, .complete (({} : Position).after (before ++ cs))⟩ := by
  induction h with
  | @gap before g hg =>
    have hnext : (Cursor.mk (({} : Position).after before) (g ++ [])).next = _ := next_gap hg
    rw [List.append_nil] at hnext
    rw [scan_congr hnext, scan_of_finished rfl, Position.after_append]
  | @token before g rest t ts hg hspan ht hts ih =>
    have hnext := @next_word (({} : Position).after (before ++ g)) _ _ ht.word ht.parted
    rw [← Position.after_append, ← hspan, String.ofList_toList, t.ofText_eq] at hnext
    rw [scan_congr (next_gap hg), ← Position.after_append, scan_of_token hnext, ih]
    simp [Scan.cons]

end Cursor

namespace Position

theorem offset_after (p : Position) (cs : List Char) :
    (p.after cs).offset = p.offset + (String.ofList cs).utf8ByteSize := by
  induction cs generalizing p with
  | nil => rfl
  | cons c cs ih =>
    rw [after_cons, ih, offset_advance, String.ofList_cons, String.utf8ByteSize_append,
      String.utf8ByteSize_singleton, Nat.add_assoc]

end Position

theorem Span.marks_between {text part : String} {before behind : List Char}
    (h : text.toList = before ++ part.toList ++ behind) :
    (Span.between (({} : Position).after before)
      (({} : Position).after (before ++ part.toList))).Marks text part := by
  refine ⟨String.ofList before, String.ofList behind, ?_, ?_, ?_⟩
  · rw [← String.toList_inj, h]
    simp
  · rw [start_between, Position.offset_after, Nat.zero_add]
  · rw [stop_between, Position.offset_after, Nat.zero_add, String.ofList_append,
      String.ofList_toList]

namespace Partition

variable {before cs : List Char} {ts : List Token}

theorem exists_place {t : Token} (h : Partition before cs ts) (ht : t ∈ ts) :
    ∃ front back, cs = front ++ (t.text.toList ++ back) ∧
      t.span = .between (({} : Position).after (before ++ front))
        (({} : Position).after (before ++ front ++ t.text.toList)) := by
  induction h with
  | gap => cases ht
  | @token before g rest u ts hg hspan hu hts ih =>
    rcases List.mem_cons.1 ht with rfl | ht
    · exact ⟨g, rest, rfl, hspan⟩
    · obtain ⟨front, back, rfl, hspan'⟩ := ih ht
      exact ⟨g ++ (u.text.toList ++ front), back, by simp, by simpa using hspan'⟩

theorem marks {text : String} {t : Token} (h : Partition before cs ts)
    (htext : text.toList = before ++ cs) (ht : t ∈ ts) : t.span.Marks text t.text := by
  obtain ⟨front, back, rfl, hspan⟩ := h.exists_place ht
  rw [hspan]
  exact Span.marks_between (by simpa using htext)

theorem ordered (h : Partition before cs ts) :
    (∀ t ∈ ts, (({} : Position).after before).offset ≤ t.span.start ∧ t.span.start < t.span.stop) ∧
      ts.Pairwise fun t u => t.span.stop ≤ u.span.start := by
  induction h with
  | gap => simp
  | @token before g rest t ts hg hspan ht hts ih =>
    obtain ⟨hall, hpairs⟩ := ih
    have hstart : t.span.start = (({} : Position).after (before ++ g)).offset := by rw [hspan]; rfl
    have hstop : t.span.stop = (({} : Position).after (before ++ g ++ t.text.toList)).offset := by
      rw [hspan]
      rfl
    have hle := (({} : Position).after before).offset_le_after g
    have hlt := (({} : Position).after (before ++ g)).offset_lt_after ht.word.ne_nil
    rw [← Position.after_append] at hle hlt
    refine ⟨?_, List.pairwise_cons.2 ⟨?_, hpairs⟩⟩
    · intro u hu
      rcases List.mem_cons.1 hu with rfl | hu
      · omega
      · have hall := hall u hu
        omega
    · intro u hu
      have hall := hall u hu
      omega

end Partition

namespace Scan

theorem ending_ofText (text : String) : (ofText text).ending =
    (unclosed? none {} text.toList).elim (.complete (({} : Position).after text.toList))
      (fun start => .openComment start (({} : Position).after text.toList)) :=
  (Cursor.ofText text).ending_scan

theorem ofText_eq_complete_iff {text : String} {ts : List Token} :
    (∃ finish, ofText text = ⟨ts, .complete finish⟩) ↔ Partition [] text.toList ts := by
  constructor
  · rintro ⟨finish, h⟩
    have hend := ending_ofText text
    cases hu : unclosed? none {} text.toList with
    | none =>
      have hpart := Cursor.partition_scan (c := .ofText text) rfl (apart_nil _) hu
      rwa [show (Cursor.ofText text).scan = ⟨ts, .complete finish⟩ from h] at hpart
    | some start =>
      rw [h, hu] at hend
      cases hend
  · intro h
    exact ⟨_, Cursor.scan_of_partition h⟩

end Scan

/-- Exactly the texts that do not end within a comment are cut into tokens, each in one way only. -/
theorem tokenize_partition (text : String) :
    (∀ e, tokenize text = .error e ↔ ∃ start, unclosed? none {} text.toList = some start ∧
      e = .lexical "unterminated comment" (.between start (({} : Position).after text.toList))) ∧
    (∀ ts, tokenize text = .ok ts ↔ Partition [] text.toList ts) ∧
    ∀ ts, tokenize text = .ok ts →
      (ts.Pairwise fun t u => t.span.stop ≤ u.span.start) ∧
      ∀ t ∈ ts, t.span.start < t.span.stop ∧ t.span.Marks text t.text ∧
        t.kind = Kind.classify t.text := by
  have hok : ∀ ts, tokenize text = .ok ts ↔ Partition [] text.toList ts := fun ts =>
    tokenize_eq_ok_iff.trans Scan.ofText_eq_complete_iff
  refine ⟨fun e => ?_, hok, fun ts h => ?_⟩
  · rw [tokenize, Scan.toExcept, Scan.ending_ofText]
    cases unclosed? none {} text.toList with
    | none => simp
    | some start => simp [Error.unterminatedComment, eq_comm]
  · have hpart := (hok ts).1 h
    obtain ⟨hall, hpairs⟩ := hpart.ordered
    exact ⟨hpairs, fun t ht => ⟨(hall t ht).2, hpart.marks rfl ht, t.kind_eq⟩⟩

theorem tokenize_partition_colon :
    ∃ ts, tokenize "ab1:é{=}:=" = .ok ts ∧
      ts.map Token.lexeme = [⟨.identifier, "ab"⟩, ⟨.number, "1"⟩, ⟨.invalid, ":"⟩, ⟨.invalid, "é"⟩,
        ⟨.becomes, ":="⟩] ∧
      ts.map Token.span = [⟨1, 1, 0, 2⟩, ⟨1, 3, 2, 3⟩, ⟨1, 4, 3, 4⟩, ⟨1, 5, 4, 6⟩, ⟨1, 9, 9, 11⟩] ∧
      (ts.Pairwise fun t u => t.span.stop ≤ u.span.start) ∧
      ∀ t ∈ ts, t.span.start < t.span.stop ∧ t.span.Marks "ab1:é{=}:=" t.text ∧
        t.kind = Kind.classify t.text := by
  have h : tokenize "ab1:é{=}:=" = .ok [.ofText "ab" ⟨1, 1, 0, 2⟩, .ofText "1" ⟨1, 3, 2, 3⟩,
      .ofText ":" ⟨1, 4, 3, 4⟩, .ofText "é" ⟨1, 5, 4, 6⟩, .ofText ":=" ⟨1, 9, 9, 11⟩] :=
    ok_of_toOption (by decide +kernel)
  exact ⟨_, h, by decide, rfl, (tokenize_partition _).2.2 _ h⟩

end TinyLanguage
