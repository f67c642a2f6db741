import TinyLanguage.Proofs.Grammar.Frame
import TinyLanguage.Tree.Node

namespace TinyLanguage.Grammar

theorem Successive.right {ts us : List Token} (h : Successive (ts ++ us)) : Successive us :=
  h.sublist (List.sublist_append_right ts us)

/-- What reaches over some tokens starts no later and ends no earlier than any of them. -/
theorem Ends.bounds {ts : List Token} {s : Span} (h : Ends ts s) (hts : Successive ts) :
    ∀ t ∈ ts, s.start ≤ t.span.start ∧ t.span.stop ≤ s.stop := by
  obtain ⟨a, ha, hstart⟩ := Option.map_eq_some_iff.1 h.start_head
  obtain ⟨z, hz, hstop⟩ := Option.map_eq_some_iff.1 h.2
  obtain ⟨ws, rfl⟩ := List.head?_eq_some_iff.1 ha
  obtain ⟨vs, hvs⟩ := List.getLast?_eq_some_iff.1 hz
  intro t ht
  have hpos := hts.1 t ht
  constructor
  · rcases List.mem_cons.1 ht with rfl | hmem
    · exact Nat.le_of_eq hstart.symm
    · have hat := (List.pairwise_cons.1 hts.2).1 t hmem
      have ha := hts.1 a (by simp)
      omega
  · rw [hvs] at ht hts
    rcases List.mem_append.1 ht with hmem | hmem
    · have htz := (List.pairwise_append.1 hts.2).2.2 t hmem z (by simp)
      have hz := hts.1 z (by simp)
      omega
    · obtain rfl := List.mem_singleton.1 hmem
      exact Nat.le_of_eq hstop

theorem Ends.start_lt_stop {ts : List Token} {s : Span} (h : Ends ts s) (hts : Successive ts) :
    s.start < s.stop := by
  obtain ⟨t, ht, -⟩ := h.mem_stop
  have hbounds := h.bounds hts t ht
  have hpos := hts.1 t ht
  omega

/-- The spans reach over stretches of the tokens that follow each other. -/
inductive Spread : List Token → List Span → Prop
  | nil {ts : List Token} : Spread ts []
  | skip {t : Token} {ts : List Token} {ss : List Span} (h : Spread ts ss) : Spread (t :: ts) ss
  | cover {us ts : List Token} {s : Span} {ss : List Span} (hs : Ends us s) (h : Spread ts ss) :
    Spread (us ++ ts) (s :: ss)

namespace Spread

variable {ts us : List Token} {s : Span} {ss rs : List Span}

theorem skips (h : Spread ts ss) (us : List Token) : Spread (us ++ ts) ss := by
  induction us with
  | nil => exact h
  | cons u us ih => exact ih.skip

theorem append (h : Spread ts ss) (h' : Spread us rs) : Spread (ts ++ us) (ss ++ rs) := by
  induction h with
  | nil => exact h'.skips _
  | skip _ ih => exact ih.skip
  | cover hs _ ih =>
    rw [List.append_assoc]
    exact ih.cover hs

theorem append_cons (h : Spread ts ss) (t : Token) (h' : Spread us rs) :
    Spread (ts ++ t :: us) (ss ++ rs) :=
  h.append h'.skip

theorem of_ends (h : Ends ts s) : Spread ts [s] := by
  simpa using Spread.cover h (nil : Spread [] [])

theorem exists_mem (h : Spread ts ss) (hs : s ∈ ss) :
    ∃ t ∈ ts, ∃ u ∈ ts, t.span.start = s.start ∧ u.span.stop = s.stop := by
  induction h with
  | nil => cases hs
  | skip _ ih =>
    obtain ⟨t, ht, u, hu, hends⟩ := ih hs
    exact ⟨t, by simp [ht], u, by simp [hu], hends⟩
  | @cover us ts r ss hr _ ih =>
    rcases List.mem_cons.1 hs with rfl | hs
    · obtain ⟨t, ht, hstart⟩ := Option.map_eq_some_iff.1 hr.start_head
      obtain ⟨u, hu, hstop⟩ := hr.mem_stop
      exact ⟨t, List.mem_append_left _ (List.mem_of_head? ht), u, List.mem_append_left _ hu, hstart,
        hstop⟩
    · obtain ⟨t, ht, u, hu, hends⟩ := ih hs
      exact ⟨t, by simp [ht], u, by simp [hu], hends⟩

theorem ordered (h : Spread ts ss) (hts : Successive ts) :
    ss.Pairwise fun r s => r.stop ≤ s.start := by
  induction h with
  | nil => exact .nil
  | skip _ ih => exact ih (hts.sublist (List.sublist_cons_self _ _))
  | @cover us ts r ss hr h ih =>
    refine List.pairwise_cons.2 ⟨fun s hs => ?_, ih hts.right⟩
    obtain ⟨u, hu, hstop⟩ := hr.mem_stop
    obtain ⟨t, ht, -, -, hstart, -⟩ := h.exists_mem hs
    rw [← hstop, ← hstart]
    exact (List.pairwise_append.1 hts.2).2.2 u hu t ht

theorem within (h : Spread ts ss) {r : Span} (hr : Ends ts r) (hts : Successive ts) :
    ∀ s ∈ ss, r.start ≤ s.start ∧ s.stop ≤ r.stop := by
  intro s hs
  obtain ⟨t, ht, u, hu, hstart, hstop⟩ := h.exists_mem hs
  rw [← hstart, ← hstop]
  exact ⟨(hr.bounds hts t ht).1, (hr.bounds hts u hu).2⟩

end Spread

theorem Covers.spread {ts : List Token} {x : Expr Span} (h : Covers ts x) : Spread ts [x.note] := by
  obtain ⟨core, i, j, ⟨opening, closing, rfl, -, -⟩, hends⟩ := h
  rw [List.append_assoc]
  exact (Spread.cover hends .nil).skips opening

def chainSpans (cs : List (Node Span)) : List Span :=
  (cs.flatMap Node.chain).map Node.note

@[simp] theorem chainSpans_nil : chainSpans [] = [] := rfl

@[simp] theorem chainSpans_expression (x : Expr Span) (cs : List (Node Span)) :
    chainSpans (.expression x :: cs) = x.note :: chainSpans cs := rfl

@[simp] theorem chainSpans_statement (b : Block Span) (cs : List (Node Span)) :
    chainSpans (.statement b :: cs) = b.tails.map (fun c => c.head.note) ++ chainSpans cs := by
  simp [chainSpans, Node.chain, Node.note, Function.comp_def]

theorem Bare.spread {ts : List Token} {x : Expr Span} (h : Bare ts x) (hrising : Rising ts) :
    ∃ core, core <:+: ts ∧ Ends core x.note ∧ Spread core (chainSpans x.children) := by
  cases h with
  | number | identifier => exact ⟨_, List.infix_rfl, ⟨rfl, rfl⟩, .nil⟩
  | @join e l r op ts us o x y he hl ho hr =>
    obtain ⟨core, i, j, hframe, hends⟩ := hl.covers hrising.left
    obtain ⟨core', i', j', hframe', hends'⟩ := hr.covers hrising.right.tail
    obtain ⟨mid, ⟨opening, closing, hwhole, -, -⟩, -⟩ := hframe.join hframe'
    have hle := hends.stop_le hframe.subset hends' hframe'.subset hrising
    refine ⟨core ++ mid ++ core', ⟨opening, closing, hwhole.symm⟩, hends.join hends' hle mid, ?_⟩
    have hspread := (Spread.of_ends hends).append ((Spread.of_ends hends').skips mid)
    simpa [Expr.children, Expr.join] using hspread

theorem Expression.Yields.spread {e : Expression} {ts : List Token} {x : Expr Span}
    (h : e.Yields ts x) (hrising : Rising ts) : Spread ts [x.note] :=
  (h.covers hrising).spread

theorem Sequence.Yields.spread : {q : Sequence} → {ts : List Token} → {b : Block Span} →
    q.Yields ts b → Rising ts → Spread ts (b.tails.map fun c => c.head.note)
  | _, _, _, .last hs, h => .of_ends (hs.ends h)
  | _, _, _, @Sequence.Yields.cons _ _ k _ _ _ _ hs _ hq, h =>
    (Spread.of_ends (hs.ends h.left)).append_cons k (Sequence.Yields.spread hq h.right.tail)

/-- What a statement holds reaches over stretches of its tokens. -/
theorem Statement.Yields.spread {s : Statement} {ts : List Token}
    {x : TinyLanguage.Statement Span} (h : s.Yields ts x) (hrising : Rising ts) :
    Spread ts (chainSpans x.children) := by
  cases h with
  | @ifThen c t k k₁ k₂ ts us x b hk hc hk₁ ht hk₂ =>
    have hx := hc.spread hrising.tail.left
    have hb := ht.spread hrising.tail.right.tail.left
    have h := hx.append_cons k₁ (hb.append (.nil : Spread [k₂] []))
    simpa [TinyLanguage.Statement.children] using h.skip
  | @ifThenElse c t e k k₁ k₂ k₃ ts us vs x b b' hk hc hk₁ ht hk₂ he hk₃ =>
    have hx := hc.spread hrising.tail.left
    have hb := ht.spread hrising.tail.right.tail.left
    have hb' := he.spread hrising.tail.right.tail.right.tail.left
    have h := hx.append_cons k₁ (hb.append_cons k₂ (hb'.append (.nil : Spread [k₃] [])))
    simpa [TinyLanguage.Statement.children] using h.skip
  | @repeatUntil q c k k₁ ts us b x hk hq hk₁ hc =>
    have hb := hq.spread hrising.tail.left
    have hx := hc.spread hrising.tail.right.tail
    simpa [TinyLanguage.Statement.children] using (hb.append_cons k₁ hx).skip
  | assign ht hk he =>
    simpa [TinyLanguage.Statement.children] using (he.spread hrising.tail.tail).skip.skip
  | read => exact .nil
  | write hk he => simpa [TinyLanguage.Statement.children] using (he.spread hrising.tail).skip

end TinyLanguage.Grammar
