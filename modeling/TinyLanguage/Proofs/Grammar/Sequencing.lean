import TinyLanguage.Proofs.Grammar.Height
import TinyLanguage.Proofs.Grammar.Yield

namespace TinyLanguage

variable {α : Type}

def Block.statements (b : Block α) : List (Statement α) :=
  b.tails.map head

def Block.append : Block α → Block α → Block α
  | .last s, c => .cons s c
  | .cons s b, c => .cons s (b.append c)

theorem Block.statements_append : (b c : Block α) →
    (b.append c).statements = b.statements ++ c.statements
  | .last _, _ => rfl
  | .cons s b, c => congrArg (s :: ·) (b.statements_append c)

namespace Grammar

def Sequence.append : Sequence → Sequence → Sequence
  | .last s, q => .cons s q
  | .cons s p, q => .cons s (p.append q)

theorem Sequence.levels_append : (p q : Sequence) → (b : Nat) →
    (p.append q).levels b = p.levels b ++ (b + 1) :: q.levels b
  | .last _, _, _ => rfl
  | .cons s p, q, b => by simp [append, levels, p.levels_append q b]

theorem Sequence.need_append_le {p q : Sequence} {n : Nat} (hp : p.need ≤ n) (hq : q.need ≤ n) :
    (p.append q).need ≤ n := by
  rw [need_le_iff] at *
  have hpos := lt_of_levels hp
  rw [levels_append, List.forall_mem_append, List.forall_mem_cons]
  exact ⟨hp, by omega, hq⟩

theorem Sequence.Yields.append : {p : Sequence} → {ts : List Token} → {x : Block Span} →
    p.Yields ts x → {k : Token} → k.kind = .semicolon → {q : Sequence} → {us : List Token} →
    {y : Block Span} → q.Yields us y → (p.append q).Yields (ts ++ k :: us) (x.append y)
  | _, _, _, .last hs, _, hk, _, _, _, hq => .cons hs hk hq
  | _, _, _, .cons hs hk' hp, _, hk, _, _, _, hq => by
    rw [List.append_assoc, List.cons_append]
    exact .cons hs hk' (hp.append hk hq)

end Grammar

end TinyLanguage
