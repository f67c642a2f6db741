import TinyLanguage.Proofs.Token.Order
import TinyLanguage.Token.Lexeme

namespace TinyLanguage

namespace Scan

def prepend (ts : List Token) (s : Scan) : Scan :=
  { s with tokens := ts ++ s.tokens }

@[simp] theorem prepend_nil (s : Scan) : s.prepend [] = s := rfl

theorem prepend_append (ts us : List Token) (s : Scan) :
    s.prepend (ts ++ us) = (s.prepend us).prepend ts := by
  simp [prepend]

theorem fault_cons_eq_none {t : Token} {s : Scan} :
    (s.cons t).fault? = none ↔ t.kind ≠ .invalid := by
  simp [fault?, cons]

/-- Two scans that a parser cannot tell apart before it reads on: a token of the same kind comes
next in both or in neither, and both are at fault or neither is. -/
structure Alike (s s' : Scan) : Prop where
  kind : s.tokens.head?.map Token.kind = s'.tokens.head?.map Token.kind
  fault : s.fault? = none ↔ s'.fault? = none

theorem Alike.refl (s : Scan) : s.Alike s :=
  ⟨rfl, Iff.rfl⟩

theorem Alike.prepend {s s' : Scan} {ts ts' : List Token} (h : s.Alike s')
    (hts : ts.map Token.kind = ts'.map Token.kind) : (s.prepend ts).Alike (s'.prepend ts') := by
  cases ts with
  | nil =>
    obtain rfl := List.map_eq_nil_iff.1 hts.symm
    exact h
  | cons t ts =>
    obtain ⟨t', us, rfl, hk, -⟩ := List.map_eq_cons_iff.1 hts.symm
    refine ⟨by simp [Scan.prepend, hk], ?_⟩
    change (Scan.cons t (s.prepend ts)).fault? = none ↔ (Scan.cons t' (s'.prepend us)).fault? = none
    rw [fault_cons_eq_none, fault_cons_eq_none, hk]

@[simp] theorem places_prepend (ts : List Token) (s : Scan) :
    (s.prepend ts).places = ts.map Token.span ++ s.places := by
  simp [places, prepend]

theorem getElem?_places_prepend (ts : List Token) (s : Scan) (i : Nat) :
    (s.prepend ts).places[ts.length + i]? = s.places[i]? := by
  rw [places_prepend, ← List.length_map (f := Token.span), List.getElem?_append_right (by simp)]
  simp

theorem fault_of_valid {ts : List Token} {finish : Position}
    (h : ∀ t ∈ ts, t.kind ≠ .invalid) : (⟨ts, .complete finish⟩ : Scan).fault? = none := by
  cases ts with
  | nil => rfl
  | cons t ts => exact fault_cons_eq_none (s := ⟨ts, .complete finish⟩).2 (h t (by simp))

theorem fault_eq_some {s : Scan} {e : Error} (h : s.fault? = some e) :
    (∃ t us, s.tokens = t :: us ∧ t.kind = .invalid ∧ e = .invalidToken t) ∨
      ∃ start finish, s = ⟨[], .openComment start finish⟩ ∧
        e = .unterminatedComment start finish := by
  obtain ⟨ts, ending⟩ := s
  cases ts with
  | cons t us =>
    unfold fault? at h
    simp only at h
    split at h
    · rename_i hk
      exact .inl ⟨t, us, rfl, hk, (Option.some.inj h).symm⟩
    · cases h
  | nil =>
    cases ending with
    | complete finish => cases h
    | openComment start finish => exact .inr ⟨start, finish, rfl, (Option.some.inj h).symm⟩

theorem span_of_fault {s : Scan} {e : Error} (h : s.fault? = some e) :
    ∃ span, e.span? = some span ∧ s.places.head? = some span := by
  rcases fault_eq_some h with ⟨t, us, ht, -, rfl⟩ | ⟨start, finish, rfl, rfl⟩
  · exact ⟨t.span, rfl, by rw [places, ht]; rfl⟩
  · exact ⟨.between start finish, rfl, rfl⟩

theorem start_le_start {text : String} {us vs : List Token} {rest : Scan} {s s' : Span}
    (h : ofText text = rest.prepend (us ++ vs)) (hs : (rest.prepend vs).places.head? = some s)
    (hs' : rest.places.head? = some s') : s.start ≤ s'.start := by
  rw [List.head?_eq_getElem?] at hs hs'
  have hi : (ofText text).places[us.length + 0]? = some s := by
    rw [h, prepend_append, getElem?_places_prepend, hs]
  have hj : (ofText text).places[(us ++ vs).length + 0]? = some s' := by
    rw [h, getElem?_places_prepend, hs']
  rcases vs.eq_nil_or_concat with rfl | ⟨ws, t, rfl⟩
  · rw [List.append_nil, hi] at hj
    exact Nat.le_of_eq (congrArg Span.start (Option.some.inj hj))
  · exact Nat.le_of_lt (start_lt_start hi hj (by simp))

def Ending.isOpen : Ending → Bool
  | complete _ => false
  | openComment _ _ => true

/-- Two scans that differ in nothing but the places of what they find. -/
structure Agrees (s s' : Scan) : Prop where
  lexemes : s.tokens.map Token.lexeme = s'.tokens.map Token.lexeme
  ending : s.ending.isOpen = s'.ending.isOpen

variable {s s' : Scan} {ts : List Token} {e : Error}

theorem Agrees.symm (h : s.Agrees s') : s'.Agrees s :=
  ⟨h.lexemes.symm, h.ending.symm⟩

theorem Agrees.prepend (h : (s.prepend ts).Agrees s') :
    ∃ ts' rest, s' = rest.prepend ts' ∧ ts'.map Token.lexeme = ts.map Token.lexeme ∧
      s.Agrees rest := by
  obtain ⟨ts', us', htokens, hts, hus⟩ :=
    List.map_eq_append_iff.1 (h.lexemes.symm.trans List.map_append)
  refine ⟨ts', ⟨us', s'.ending⟩, ?_, hts, hus.symm, h.ending⟩
  rw [Scan.prepend, ← htokens]

/-- Two scans that agree begin with tokens that say the same, or with none. -/
theorem Agrees.head (h : s.Agrees s') :
    (∃ t t' us us', s.tokens = t :: us ∧ s'.tokens = t' :: us' ∧ t.lexeme = t'.lexeme) ∨
      s.tokens = [] ∧ s'.tokens = [] := by
  have hlex := h.lexemes
  cases ht : s.tokens with
  | nil =>
    rw [ht] at hlex
    exact .inr ⟨rfl, List.map_eq_nil_iff.1 hlex.symm⟩
  | cons t us =>
    rw [ht] at hlex
    obtain ⟨t', us', ht', htt, -⟩ := List.map_eq_cons_iff.1 hlex.symm
    exact .inl ⟨t, t', us, us', rfl, ht', htt.symm⟩

end Scan

/-- The same error, raised for what stands at the same index of two scans: a token, or what follows
the last one. -/
def Error.Moved (s s' : Scan) (e e' : Error) : Prop :=
  ∃ (i : Nat) (p p' : Span), s.places[i]? = some p ∧ s'.places[i]? = some p' ∧
    e.span? = some p ∧ e' = e.placedAt p'

namespace Scan

variable {s s' : Scan} {e e' : Error}

theorem moved_of_head {p p' : Span} (h : s.places.head? = some p)
    (h' : s'.places.head? = some p') (he : e.span? = some p) :
    Error.Moved s s' e (e.placedAt p') :=
  ⟨0, p, p', by rw [← h, List.head?_eq_getElem?], by rw [← h', List.head?_eq_getElem?], he, rfl⟩

theorem moved_prepend {ts ts' : List Token} (h : Error.Moved s s' e e')
    (hlen : ts.length = ts'.length) : Error.Moved (s.prepend ts) (s'.prepend ts') e e' := by
  obtain ⟨i, p, p', hp, hp', he, rfl⟩ := h
  refine ⟨ts.length + i, p, p', ?_, ?_, he, rfl⟩
  · rw [getElem?_places_prepend, hp]
  · rw [hlen, getElem?_places_prepend, hp']

theorem Agrees.exists_fault (h : s.Agrees s') (hf : s.fault? = some e) :
    ∃ e', s'.fault? = some e' ∧ Error.Moved s s' e e' := by
  rcases h.head with ⟨t, t', us, us', ht, ht', hlex⟩ | ⟨ht, ht'⟩
  · obtain ⟨hkind, htext⟩ := Lexeme.mk.inj hlex
    have hinvalid : t.kind = .invalid ∧ Error.invalidToken t = e := by
      simpa [fault?, ht] using hf
    obtain ⟨hk, rfl⟩ := hinvalid
    refine ⟨.invalidToken t', by simp [fault?, ht', ← hkind, hk], ?_⟩
    have hmoved : Error.invalidToken t' = (Error.invalidToken t).placedAt t'.span := by
      simp only [Error.invalidToken, Error.placedAt, htext]
    rw [hmoved]
    exact moved_of_head (p := t.span) (by simp [places, ht]) (by simp [places, ht']) rfl
  · obtain ⟨ts, ending⟩ := s
    obtain ⟨ts', ending'⟩ := s'
    obtain rfl : ts = [] := ht
    obtain rfl : ts' = [] := ht'
    cases ending with
    | complete finish => cases hf
    | openComment start finish =>
      obtain rfl := Option.some.inj hf
      cases ending' with
      | complete finish' => cases h.ending
      | openComment start' finish' =>
        exact ⟨.unterminatedComment start' finish', rfl, 0, .between start finish,
          .between start' finish', rfl, rfl, rfl, rfl⟩

theorem Agrees.alike (h : s.Agrees s') : s.Alike s' := by
  refine ⟨?_, ?_⟩
  · rcases h.head with ⟨t, t', us, us', ht, ht', hlex⟩ | ⟨ht, ht'⟩
    · have hkind : t.kind = t'.kind := congrArg Lexeme.kind hlex
      simp [ht, ht', hkind]
    · rw [ht, ht']
  · rw [Option.eq_none_iff_forall_ne_some, Option.eq_none_iff_forall_ne_some]
    constructor
    · intro hnone e he
      obtain ⟨e', he', -⟩ := h.symm.exists_fault he
      exact hnone e' he'
    · intro hnone e he
      obtain ⟨e', he', -⟩ := h.exists_fault he
      exact hnone e' he'

end Scan

end TinyLanguage
