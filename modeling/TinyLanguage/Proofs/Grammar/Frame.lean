import TinyLanguage.Proofs.Grammar.Balance
import TinyLanguage.Proofs.Grammar.Yield
import TinyLanguage.Proofs.Text.Translation

namespace TinyLanguage.Grammar

open Token.Kind

def Ends (ts : List Token) (s : Span) : Prop :=
  (ts.head?.map fun t => t.span.first) = some s.first ∧
    (ts.getLast?.map fun t => t.span.stop) = some s.stop

/-- Around the tokens of `core` stand opening parentheses in front and closing ones behind. -/
def Framed (ts core : List Token) (i j : Nat) : Prop :=
  ∃ opening closing : List Token, ts = opening ++ core ++ closing ∧
    opening.map Token.kind = .replicate i .leftParen ∧
    closing.map Token.kind = .replicate j .rightParen

def Rising (ts : List Token) : Prop :=
  ts.Pairwise fun t u => t.span.stop ≤ u.span.stop

def Successive (ts : List Token) : Prop :=
  (∀ t ∈ ts, t.span.start < t.span.stop) ∧ ts.Pairwise fun t u => t.span.stop ≤ u.span.start

theorem Successive.sublist {ts us : List Token} (h : Successive ts) (hus : us.Sublist ts) :
    Successive us :=
  ⟨fun t ht => h.1 t (hus.subset ht), h.2.sublist hus⟩

theorem Successive.rising {ts : List Token} (h : Successive ts) : Rising ts := by
  refine h.2.imp_of_mem fun _ hu htu => ?_
  have hlt := h.1 _ hu
  omega

theorem Ends.start_head {ts : List Token} {s : Span} (h : Ends ts s) :
    (ts.head?.map fun t => t.span.start) = some s.start := by
  have hoffset := congrArg (Option.map Position.offset) h.1
  rwa [Option.map_map] at hoffset

theorem Ends.mem_stop {ts : List Token} {s : Span} (h : Ends ts s) :
    ∃ t ∈ ts, t.span.stop = s.stop := by
  obtain ⟨t, ht, hstop⟩ := Option.map_eq_some_iff.1 h.2
  exact ⟨t, List.mem_of_getLast? ht, hstop⟩

theorem Ends.join {op : Operator} {x y : Expr Span} {ts us : List Token} (hx : Ends ts x.note)
    (hy : Ends us y.note) (hle : x.note.stop ≤ y.note.stop) (mid : List Token) :
    Ends (ts ++ mid ++ us) (Expr.join op x y).note := by
  obtain ⟨t, ht, hfirst⟩ := Option.map_eq_some_iff.1 hx.1
  obtain ⟨u, hu, hstop⟩ := Option.map_eq_some_iff.1 hy.2
  constructor
  · rw [List.append_assoc, List.head?_append, ht, Option.some_or, Option.map_some, hfirst]
    rfl
  · rw [List.getLast?_append, hu, Option.some_or, Option.map_some, hstop]
    exact congrArg some (Nat.max_eq_left hle).symm

theorem Framed.parens {ts core : List Token} {i j : Nat} {l r : Token} (h : Framed ts core i j)
    (hl : l.kind = .leftParen) (hr : r.kind = .rightParen) :
    Framed (l :: (ts ++ [r])) core (i + 1) (j + 1) := by
  obtain ⟨opening, closing, rfl, ho, hc⟩ := h
  refine ⟨l :: opening, closing ++ [r], by simp, ?_, ?_⟩
  · rw [List.map_cons, ho, hl, List.replicate_succ]
  · rw [List.map_append, hc, List.map_singleton, hr, List.replicate_succ']

theorem framed_self (ts : List Token) : Framed ts ts 0 0 :=
  ⟨[], [], by simp, rfl, rfl⟩

theorem Framed.subset {ts core : List Token} {i j : Nat} (h : Framed ts core i j) : core ⊆ ts := by
  obtain ⟨opening, closing, rfl, -, -⟩ := h
  intro t ht
  simp [ht]

/-- Between the parts of two operands stand the parentheses that are partners of those outside. -/
theorem Framed.join {ts us core core' : List Token} {o : Token} {i j i' j' : Nat}
    (ht : Framed ts core i j) (hu : Framed us core' i' j') :
    ∃ mid, Framed (ts ++ o :: us) (core ++ mid ++ core') i j' ∧
      (o.kind ≠ .leftParen ∧ o.kind ≠ .rightParen → unpaired (ts.map Token.kind) = (0, 0) →
        unpaired (us.map Token.kind) = (0, 0) →
          unpaired ((core ++ mid ++ core').map Token.kind) = (i, j')) := by
  obtain ⟨opening, closing, rfl, ho, hc⟩ := ht
  obtain ⟨opening', closing', rfl, ho', hc'⟩ := hu
  refine ⟨closing ++ o :: opening', ⟨opening, closing', by simp, ho, hc'⟩, ?_⟩
  intro hsign hts hus
  rw [List.append_assoc, List.map_append, ho] at hts
  rw [List.map_append, hc'] at hus
  have hleft := unpaired_of_leftParens hts
  have hright := unpaired_of_rightParens hus
  have hwhole : (core ++ (closing ++ o :: opening') ++ core').map Token.kind =
      (core ++ closing).map Token.kind ++ o.kind :: (opening' ++ core').map Token.kind := by simp
  rw [hwhole, unpaired_append, unpaired_cons_of_ne hsign.1 hsign.2, hleft, hright]
  simp [behind]

theorem Ends.stop_le {ts us core core' : List Token} {o : Token} {s r : Span} (hs : Ends core s)
    (hcore : core ⊆ ts) (hr : Ends core' r) (hcore' : core' ⊆ us) (h : Rising (ts ++ o :: us)) :
    s.stop ≤ r.stop := by
  obtain ⟨t, ht, hstop⟩ := hs.mem_stop
  obtain ⟨u, hu, hstop'⟩ := hr.mem_stop
  rw [← hstop, ← hstop']
  exact (List.pairwise_append.1 h).2.2 t (hcore ht) u (List.mem_cons_of_mem o (hcore' hu))

theorem Rising.left {ts us : List Token} (h : Rising (ts ++ us)) : Rising ts :=
  (List.pairwise_append.1 h).1

theorem Rising.right {ts us : List Token} (h : Rising (ts ++ us)) : Rising us :=
  (List.pairwise_append.1 h).2.1

theorem Rising.tail {t : Token} {ts : List Token} (h : Rising (t :: ts)) : Rising ts :=
  (List.pairwise_cons.1 h).2

section

variable {ts : List Token} {x : Expr Span}

/-- The span of an expression leaves out just parentheses at the two ends of its tokens. -/
def Covers (ts : List Token) (x : Expr Span) : Prop :=
  ∃ core i j, Framed ts core i j ∧ Ends core x.note

theorem covers_leaf {t : Token} (h : x.note = t.span) : Covers [t] x :=
  ⟨[t], 0, 0, framed_self [t], by simp [h], by simp [h]⟩

theorem Covers.join {op : Operator} {y : Expr Span} {us : List Token} {o : Token}
    (hx : Covers ts x) (hy : Covers us y) (h : Rising (ts ++ o :: us)) :
    Covers (ts ++ o :: us) (.join op x y) := by
  obtain ⟨core, i, j, hframe, hends⟩ := hx
  obtain ⟨core', i', j', hframe', hends'⟩ := hy
  obtain ⟨mid, hwhole, -⟩ := hframe.join hframe'
  exact ⟨_, i, j', hwhole,
    hends.join hends' (hends.stop_le hframe.subset hends' hframe'.subset h) mid⟩

end

mutual

theorem Factor.Yields.covers : {f : Factor} → {ts : List Token} → {x : Expr Span} →
    f.Yields ts x → Rising ts → Covers ts x
  | _, _, _, .number _, _ | _, _, _, .identifier _, _ => covers_leaf rfl
  | _, _, _, .parens hl he hr, h => by
    obtain ⟨core, i, j, hframe, hends⟩ := Expression.Yields.covers he h.tail.left
    exact ⟨core, i + 1, j + 1, hframe.parens hl hr, hends⟩

theorem Term.Yields.covers : {t : Term} → {ts : List Token} → {x : Expr Span} →
    t.Yields ts x → Rising ts → Covers ts x
  | _, _, _, .factor hf, h => Factor.Yields.covers hf h
  | _, _, _, .more ht _ hf, h =>
    (Term.Yields.covers ht h.left).join (Factor.Yields.covers hf h.right.tail) h

theorem Sum.Yields.covers : {s : Sum} → {ts : List Token} → {x : Expr Span} →
    s.Yields ts x → Rising ts → Covers ts x
  | _, _, _, .term ht, h => Term.Yields.covers ht h
  | _, _, _, .more hs _ ht, h =>
    (Sum.Yields.covers hs h.left).join (Term.Yields.covers ht h.right.tail) h

theorem Expression.Yields.covers : {e : Expression} → {ts : List Token} → {x : Expr Span} →
    e.Yields ts x → Rising ts → Covers ts x
  | _, _, _, .sum hs, h => Sum.Yields.covers hs h
  | _, _, _, .comparison hl _ hr, h =>
    (Sum.Yields.covers hl h.left).join (Sum.Yields.covers hr h.right.tail) h

end

inductive Bare : List Token → Expr Span → Prop
  | number {t : Token} (ht : t.kind = .number) : Bare [t] (.constant t.span t.text)
  | identifier {t : Token} (ht : t.kind = .identifier) : Bare [t] (.identifier t.span t.text)
  | join {e l r : Expression} {op : Operator} {ts us : List Token} {o : Token} {x y : Expr Span}
    (he : e.Yields (ts ++ o :: us) (.join op x y)) (hl : l.Yields ts x)
    (ho : o.kind ≠ .leftParen ∧ o.kind ≠ .rightParen) (hr : r.Yields us y) :
    Bare (ts ++ o :: us) (.join op x y)

theorem Bare.exists_yields {ts : List Token} {x : Expr Span} (h : Bare ts x) :
    ∃ e : Expression, e.Yields ts x := by
  cases h with
  | number ht => exact ⟨_, .sum (.term (.factor (.number ht)))⟩
  | identifier ht => exact ⟨_, .sum (.term (.factor (.identifier ht)))⟩
  | join he => exact ⟨_, he⟩

section

variable {t : Token}

theorem kind_ne_of_product {sign : ProductSign} (h : t.kind = sign.kind) :
    t.kind ≠ .leftParen ∧ t.kind ≠ .rightParen := by
  rw [h]
  cases sign <;> decide

theorem kind_ne_of_sum {sign : SumSign} (h : t.kind = sign.kind) :
    t.kind ≠ .leftParen ∧ t.kind ≠ .rightParen := by
  rw [h]
  cases sign <;> decide

theorem kind_ne_of_comparison {sign : ComparisonSign} (h : t.kind = sign.kind) :
    t.kind ≠ .leftParen ∧ t.kind ≠ .rightParen := by
  rw [h]
  cases sign <;> decide

end

mutual

theorem Factor.Yields.bare : {f : Factor} → {ts : List Token} → {x : Expr Span} →
    f.Yields ts x → ∃ us, us <:+: ts ∧ Bare us x
  | _, _, _, .number ht => ⟨_, List.infix_rfl, .number ht⟩
  | _, _, _, .identifier ht => ⟨_, List.infix_rfl, .identifier ht⟩
  | _, _, _, .parens _ he _ => by
    obtain ⟨us, hus, hbare⟩ := Expression.Yields.bare he
    exact ⟨us, hus.trans ⟨[_], [_], rfl⟩, hbare⟩

theorem Term.Yields.bare : {t : Term} → {ts : List Token} → {x : Expr Span} →
    t.Yields ts x → ∃ us, us <:+: ts ∧ Bare us x
  | _, _, _, .factor hf => Factor.Yields.bare hf
  | _, _, _, .more ht ho hf =>
    ⟨_, List.infix_rfl, .join (.sum (.term (.more ht ho hf))) (.sum (.term ht))
      (kind_ne_of_product ho) (.sum (.term (.factor hf)))⟩

theorem Sum.Yields.bare : {s : Sum} → {ts : List Token} → {x : Expr Span} →
    s.Yields ts x → ∃ us, us <:+: ts ∧ Bare us x
  | _, _, _, .term ht => Term.Yields.bare ht
  | _, _, _, .more hs ho ht =>
    ⟨_, List.infix_rfl, .join (.sum (.more hs ho ht)) (.sum hs) (kind_ne_of_sum ho)
      (.sum (.term ht))⟩

theorem Expression.Yields.bare : {e : Expression} → {ts : List Token} → {x : Expr Span} →
    e.Yields ts x → ∃ us, us <:+: ts ∧ Bare us x
  | _, _, _, .sum hs => Sum.Yields.bare hs
  | _, _, _, .comparison hl ho hr =>
    ⟨_, List.infix_rfl, .join (.comparison hl ho hr) (.sum hl) (kind_ne_of_comparison ho) (.sum hr)⟩

end

theorem Expression.Yields.unpaired {e : Expression} {ts : List Token} {x : Expr Span}
    (h : e.Yields ts x) : unpaired (ts.map Token.kind) = (0, 0) := by
  have hb := e.balanced
  rw [Balanced, h.lexemes, List.map_map] at hb
  exact hb

/-- The parentheses left out are those whose partners are among the tokens between. -/
theorem Bare.framed {ts : List Token} {x : Expr Span} (h : Bare ts x) (hrising : Rising ts) :
    ∃ core i j, Framed ts core i j ∧ Ends core x.note ∧
      Token.Kind.unpaired (core.map Token.kind) = (i, j) := by
  cases h with
  | number ht =>
    refine ⟨_, 0, 0, framed_self _, ⟨rfl, rfl⟩, ?_⟩
    rw [List.map_singleton, ht]
    rfl
  | identifier ht =>
    refine ⟨_, 0, 0, framed_self _, ⟨rfl, rfl⟩, ?_⟩
    rw [List.map_singleton, ht]
    rfl
  | @join e l r op ts us o x y he hl ho hr =>
    obtain ⟨core, i, j, hframe, hends⟩ := hl.covers hrising.left
    obtain ⟨core', i', j', hframe', hends'⟩ := hr.covers hrising.right.tail
    obtain ⟨mid, hwhole, hpairs⟩ := hframe.join hframe'
    exact ⟨_, i, j', hwhole,
      hends.join hends' (hends.stop_le hframe.subset hends' hframe'.subset hrising) mid,
      hpairs ho hl.unpaired hr.unpaired⟩

theorem ends_of_last {k u : Token} {ts : List Token} (hu : (k :: ts).getLast? = some u)
    (h : Rising (k :: ts)) : Ends (k :: ts) (k.span.extendTo u.span) := by
  refine ⟨rfl, ?_⟩
  have hle : k.span.stop ≤ u.span.stop := by
    rcases List.mem_cons.1 (List.mem_of_getLast? hu) with rfl | hmem
    · exact Nat.le_refl _
    · exact (List.pairwise_cons.1 h).1 u hmem
  rw [hu, Option.map_some, Span.stop_extendTo, Nat.max_eq_left hle]

theorem ends_of_ne_nil {k : Token} {ts : List Token} (hne : ts ≠ []) (before : List Token)
    (h : Rising (k :: (before ++ ts))) :
    Ends (k :: (before ++ ts)) (k.span.extendTo (lastSpan ts)) := by
  obtain ⟨us, u, rfl⟩ := (List.eq_nil_or_concat ts).resolve_left hne
  have hlast : lastSpan (us.concat u) = u.span := by simp [lastSpan]
  rw [hlast]
  exact ends_of_last (by simp [List.getLast?_cons]) h

theorem Statement.Yields.ends {s : Statement} {ts : List Token} {x : TinyLanguage.Statement Span}
    (h : s.Yields ts x) (hrising : Rising ts) : Ends ts x.note := by
  cases h with
  | ifThen | ifThenElse | read => exact ends_of_last (by simp [List.getLast?_cons]) hrising
  | @repeatUntil q c k k₁ ts us b x hk hq hk₁ hc =>
    have h := ends_of_ne_nil hc.ne_nil (ts ++ [k₁]) (by simpa using hrising)
    simpa [TinyLanguage.Statement.note] using h
  | @assign e t k ts x ht hk he => exact ends_of_ne_nil he.ne_nil [k] hrising
  | write hk he => exact ends_of_ne_nil he.ne_nil [] hrising

end TinyLanguage.Grammar
