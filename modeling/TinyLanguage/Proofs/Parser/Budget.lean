import TinyLanguage.Proofs.Parser.Agreement

namespace TinyLanguage.Reader

open Routine

inductive Procedure where
  | sequence
  | statement
  | expression
  | sum
  | product
  | factor

variable {start : Reader} {α γ : Type} {b b' limit spare : Nat} {g : Gauge}

def Procedure.routine (g : Gauge) : Procedure → Routine start Draft
  | sequence => g.nested .sequence
  | statement => g.statement
  | expression => g.nested .expression
  | sum => g.chain .sum
  | product => g.chain .product
  | factor => g.factor

namespace Routine

/-- The routine comes to an end from where it starts, never beyond the limit, and where it has found
something it has given back all levels that it took. -/
def KeepsDepth (limit : Nat) (p : Routine start α) : Prop :=
  ∃ result run, p.outcome (.begin start) = some (result, run) ∧
    (∀ calls, calls <:+ run.calls → (start.after calls).depth ≤ limit) ∧
    ∀ a, result = .ok a → run.now.depth = start.depth

theorem Gauge.Suffices.mono (h : g.Suffices start b') (hb : b ≤ b') : g.Suffices start b :=
  h.imp_right (Nat.le_trans (Nat.add_le_add_left hb _))

theorem Serves.keepsDepth {view : γ → α} {p : Routine start α} {q : Parser γ}
    (hstart : start.depth ≤ limit)
    (h : Serves (start.depth + spare) limit (limit - start.depth) spare view p q) :
    p.KeepsDepth limit := by
  have hreg : (Run.begin start).Regular (start.depth + spare) limit :=
    Run.regular_begin hstart (Nat.le_add_right _ _)
  have hcount : start.depth + spare ≤ (Run.begin start).count + (start.depth + spare) :=
    Nat.le_add_left _ _
  cases h (.begin start) hreg (Nat.add_sub_cancel' hstart) hcount with
  | found h hreg' _ hdone _ =>
    exact ⟨_, _, h, fun calls hcalls => (hreg'.depth calls hcalls).1, fun _ _ => hdone.depth⟩
  | failed h hreg' _ _ _ =>
    refine ⟨_, _, h, fun calls hcalls => (hreg'.depth calls hcalls).1, ?_⟩
    rintro a ⟨⟩

end Routine

theorem Procedure.keepsDepth (p : Procedure) (hstart : start.depth ≤ g.limit)
    (hg : g.Suffices start (start.depth + 1)) :
    (p.routine g : Routine start Draft).KeepsDepth g.limit := by
  have hzero : g.Suffices start (start.depth + 0) := hg.mono (Nat.le_succ start.depth)
  cases p with
  | sequence => exact (sequence_serves hg _).keepsDepth hstart
  | statement =>
    exact (statement_serves (expression_serves hzero _) (sequence_serves hzero _)).keepsDepth hstart
  | expression => exact (expression_serves hg _).keepsDepth hstart
  | sum => exact (sum_serves hzero fun d _ => expression_serves hzero d).keepsDepth hstart
  | product => exact (product_serves hzero fun d _ => expression_serves hzero d).keepsDepth hstart
  | factor => exact (factor_serves (expression_serves hzero _)).keepsDepth hstart

end TinyLanguage.Reader

namespace TinyLanguage

open Reader Routine in
/-- Every procedure that finds its part leaves the depth as it was. In the run of a whole text the
depth stays within the limit and is at most one more than the number of tokens given away, since
each level comes with a token of its own. So it is enough to count to either of them, and nothing is
too deep where the limit exceeds the number of tokens. -/
theorem reader_depth (text : String) (limits : Limits) (largest : Nat) :
    (∀ (p : Procedure) (g : Gauge) (start : Reader), start.depth ≤ g.limit →
      g.Suffices start (start.depth + 1) → (p.routine g : Routine start Draft).KeepsDepth g.limit) ∧
    ((Gauge.mk limits.maxDepth largest).Suffices (ofText text) 1 → ∃ result run,
      Reader.parse largest text limits = some (result, run) ∧
      result = (parse text limits).map Block.draft ∧
      (∀ calls, calls <:+ run.calls →
        ((ofText text).after calls).depth ≤ limits.maxDepth ∧
        ((ofText text).after calls).depth ≤ ((ofText text).consumed calls).length + 1) ∧
      ((Scan.ofText text).tokens.length < limits.maxDepth →
        ∀ n span, result ≠ .error (.tooDeep n span))) := by
  refine ⟨fun p g start hstart hg => p.keepsDepth hstart hg, fun hg => ?_⟩
  obtain ⟨result, run, hrun, hresult, hreg, hdeep⟩ := parse_ends text hg
  refine ⟨result, run, hrun, hresult, hreg.depth, fun htokens n span h => ?_⟩
  have hcount : run.count ≤ (Scan.ofText text).tokens.length := run.count_le
  exact absurd (hdeep n span h) (Nat.not_le.2 (Nat.lt_of_le_of_lt hcount htokens))

open Reader Routine in
theorem reader_depth_sum :
    (Procedure.sum.routine ⟨9, 5⟩ :
      Routine { (ofText "a+b").advance.2 with depth := 1 } Draft).KeepsDepth 9 ∧
    ∃ run, Reader.parse 5 "write a+b" ⟨9, 20⟩ =
        some ((parse "write a+b" ⟨9, 20⟩).map Block.draft, run) ∧
      (∀ calls, calls <:+ run.calls → ((ofText "write a+b").after calls).depth ≤ 9 ∧
        ((ofText "write a+b").after calls).depth ≤
          ((ofText "write a+b").consumed calls).length + 1) ∧
      ∀ n span, (parse "write a+b" ⟨9, 20⟩).map Block.draft ≠ .error (.tooDeep n span) := by
  obtain ⟨hprocedure, hparse⟩ := reader_depth "write a+b" ⟨9, 20⟩ 5
  obtain ⟨_, run, hrun, rfl, hdepth, hdeep⟩ := hparse (.inr (by decide +kernel))
  exact ⟨hprocedure .sum _ _ (by decide) (.inr (by decide +kernel)), run, hrun, hdepth,
    hdeep (by decide +kernel)⟩

end TinyLanguage
