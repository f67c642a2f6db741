import TinyLanguage.Parser.Reader
import TinyLanguage.Proofs.Token.Session

namespace TinyLanguage.Reader

inductive Advances (r : Reader) : Except Error (Option Token) × Reader → Prop
  | token {t : Token} {d : Cursor} (h : r.cursor.next = .token t d) (hk : t.kind ≠ .invalid) :
    Advances r (.ok r.current, r.shift (some t) d)
  | finished {finish : Position} (h : r.cursor.next = .finished finish) :
    Advances r (.ok r.current, r.shift none ⟨finish, []⟩)
  | fault {e : Error} {c : Cursor} (h : r.cursor.scan.fault? = some e)
    (hc : c.scan.tokens <:+ r.cursor.scan.tokens) : Advances r (.error e, { r with cursor := c })

theorem advances (r : Reader) : r.Advances r.advance := by
  unfold advance
  cases h : r.cursor.next with
  | token t d =>
    rw [Cursor.read_of_token h]
    dsimp only
    split
    · rename_i hk
      refine .fault ?_ ?_
      · rw [Cursor.scan_of_token h]
        exact if_pos hk
      · rw [Cursor.scan_of_token h]
        exact List.suffix_cons t d.scan.tokens
    · rename_i hk
      exact .token h hk
  | finished finish =>
    rw [Cursor.read_of_finished h]
    exact .finished h
  | openComment start finish =>
    rw [Cursor.read_of_openComment h]
    refine .fault ?_ ?_
    · rw [Cursor.scan_of_openComment h]
      rfl
    · rw [Cursor.scan_of_finished rfl]
      exact List.nil_suffix

def ahead (r : Reader) : List Token :=
  r.current.toList ++ r.cursor.scan.tokens

def given (r : Reader) : Call → List Token
  | .advance => r.advance.1.toOption.join.toList
  | .deepen | .restore _ => []

def consumed (start : Reader) : List Call → List Token
  | [] => []
  | c :: calls => start.consumed calls ++ (start.after calls).given c

def Faultless (start : Reader) (calls : List Call) : Prop :=
  ∀ earlier, .advance :: earlier <:+ calls → ∃ t, (start.after earlier).advance.1 = .ok t

variable {r start : Reader} {c : Call} {calls : List Call}

theorem Faultless.of_cons (h : start.Faultless (c :: calls)) : start.Faultless calls :=
  fun earlier he => h earlier (he.trans (List.suffix_cons c calls))

theorem ahead_of_advance {t : Option Token} (h : r.advance.1 = .ok t) :
    t = r.current ∧ r.ahead = r.current.toList ++ r.advance.2.ahead := by
  cases ha : r.advance with
  | mk answer r' =>
    rw [ha] at h
    cases ha ▸ r.advances with
    | token hnext hk =>
      refine ⟨(Except.ok.inj h).symm, ?_⟩
      rw [ahead, ahead, Cursor.scan_of_token hnext]
      rfl
    | finished hnext =>
      refine ⟨(Except.ok.inj h).symm, ?_⟩
      rw [ahead, ahead, Cursor.scan_of_finished hnext, shift, Cursor.scan_of_finished rfl]
      rfl
    | fault hf hc => cases h

theorem advance_of_error {e : Error} (h : r.advance.1 = .error e) :
    r.cursor.scan.fault? = some e ∧ ∃ c : Cursor, r.advance.2 = { r with cursor := c } ∧
      c.scan.tokens <:+ r.cursor.scan.tokens := by
  cases ha : r.advance with
  | mk answer r' =>
    rw [ha] at h
    cases ha ▸ r.advances with
    | token hnext hk => cases h
    | finished hnext => cases h
    | fault hf hc => exact ⟨Except.error.inj h ▸ hf, _, rfl, hc⟩

@[simp] theorem depth_advance (r : Reader) : r.advance.2.depth = r.depth := by
  cases ha : r.advance with
  | mk answer r' => cases ha ▸ r.advances <;> rfl

theorem given_advance {t : Option Token} (h : r.advance.1 = .ok t) :
    r.given .advance = r.current.toList := by
  rw [given, h, (ahead_of_advance h).1]
  rfl

/-- No token is given away that was not ahead, and none twice. -/
theorem consumed_append_sublist (start : Reader) (calls : List Call) :
    (start.consumed calls ++ (start.after calls).ahead).Sublist start.ahead := by
  induction calls with
  | nil => exact List.Sublist.refl _
  | cons c calls ih =>
    refine List.Sublist.trans ?_ ih
    rw [consumed, List.append_assoc]
    refine List.Sublist.append_left ?_ _
    cases c with
    | advance =>
      cases h : (start.after calls).advance.1 with
      | ok t =>
        rw [given_advance h, (ahead_of_advance h).2]
        exact List.Sublist.refl _
      | error e =>
        obtain ⟨-, c, hc, hsuffix⟩ := advance_of_error h
        rw [given, h, after, serve, hc]
        exact List.Sublist.append_left hsuffix.sublist _
    | deepen | restore => exact List.Sublist.refl _

end TinyLanguage.Reader
