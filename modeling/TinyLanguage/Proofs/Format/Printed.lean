import TinyLanguage.Format.Catalogue
import TinyLanguage.Proofs.Grammar.Level
import TinyLanguage.Tree.Height

namespace TinyLanguage

variable {α : Type}

def Operator.kind : Operator → Token.Kind
  | .add => .plus
  | .subtract => .minus
  | .multiply => .star
  | .divide => .slash
  | .less => .less
  | .equal => .equals

def Operator.depth : Operator → Nat
  | .add | .subtract | .multiply | .divide => 2
  | .less | .equal => 1

namespace Grammar

def Expression.ofFactor (f : Factor) : Expression :=
  .sum (.term (.factor f))

def Expression.operation (l : Factor) (op : Operator) (r : Factor) : Expression :=
  match op with
  | .add => .sum (.more (.term (.factor l)) .plus (.factor r))
  | .subtract => .sum (.more (.term (.factor l)) .minus (.factor r))
  | .multiply => .sum (.term (.more (.factor l) .star r))
  | .divide => .sum (.term (.more (.factor l) .slash r))
  | .less => .comparison (.term (.factor l)) .less (.term (.factor r))
  | .equal => .comparison (.term (.factor l)) .equals (.term (.factor r))

@[simp] theorem Expression.lexemes_ofFactor (f : Factor) : (ofFactor f).lexemes = f.lexemes := rfl

@[simp] theorem Expression.tree_ofFactor (f : Factor) : (ofFactor f).tree = f.tree := rfl

@[simp] theorem Expression.levels_ofFactor (f : Factor) (b : Nat) :
    (ofFactor f).levels b = f.levels (b + 1) := rfl

@[simp] theorem Expression.lexemes_operation (l : Factor) (op : Operator) (r : Factor) :
    (operation l op r).lexemes = l.lexemes ++ .fixed op.kind :: r.lexemes := by
  cases op <;> rfl

@[simp] theorem Expression.tree_operation (l : Factor) (op : Operator) (r : Factor) :
    (operation l op r).tree = .binary () op l.tree r.tree := by
  cases op <;> rfl

@[simp] theorem Expression.levels_operation (l : Factor) (op : Operator) (r : Factor) (b : Nat) :
    (operation l op r).levels b =
      l.levels (b + 1) ++ (b + op.depth) :: r.levels (b + op.depth) := by
  cases op <;> rfl

end Grammar

open Grammar (Expression)

/-- The derivation of the text in which an expression is printed. -/
def Expr.printed : Expr α → Grammar.Factor
  | .constant _ s => .number s
  | .identifier _ x => .identifier x
  | .binary _ op l r => .parens (.operation l.printed op r.printed)

mutual

def Statement.printed : Statement α → Grammar.Statement
  | .ifThen _ c t => .ifThen (.ofFactor c.printed) t.printed
  | .ifThenElse _ c t e => .ifThenElse (.ofFactor c.printed) t.printed e.printed
  | .repeatUntil _ b c => .repeatUntil b.printed (.ofFactor c.printed)
  | .assign _ x e => .assign x (.ofFactor e.printed)
  | .read _ x => .read x
  | .write _ e => .write (.ofFactor e.printed)

def Block.printed : Block α → Grammar.Sequence
  | .last s => .last s.printed
  | .cons s b => .cons s.printed b.printed

end

theorem Expr.tree_printed (e : Expr α) : e.printed.tree = e.shape := by
  induction e with
  | constant | identifier => rfl
  | binary _ op l r ihl ihr =>
    rw [printed, Grammar.Factor.tree, Expression.tree_operation, ihl, ihr]
    rfl

mutual

theorem Statement.tree_printed : (s : Statement α) → s.printed.tree = s.shape
  | .ifThen _ c t => by
    simp [Statement.printed, Grammar.Statement.tree, Statement.shape, Statement.map,
      c.tree_printed, Expr.shape, Block.tree_printed t, Block.shape]
  | .ifThenElse _ c t e => by
    simp [Statement.printed, Grammar.Statement.tree, Statement.shape, Statement.map,
      c.tree_printed, Expr.shape, Block.tree_printed t, Block.tree_printed e, Block.shape]
  | .repeatUntil _ b c => by
    simp [Statement.printed, Grammar.Statement.tree, Statement.shape, Statement.map,
      c.tree_printed, Expr.shape, Block.tree_printed b, Block.shape]
  | .assign _ _ e | .write _ e => by
    simp [Statement.printed, Grammar.Statement.tree, Statement.shape, Statement.map,
      e.tree_printed, Expr.shape]
  | .read _ _ => rfl

theorem Block.tree_printed : (b : Block α) → b.printed.tree = b.shape
  | .last s => by
    rw [Block.printed, Grammar.Sequence.tree, Statement.tree_printed s]
    rfl
  | .cons s b => by
    rw [Block.printed, Grammar.Sequence.tree, Statement.tree_printed s, Block.tree_printed b]
    rfl

end

/-- How far the printed text of an expression reaches below the place where it stands. -/
def Expr.printedDepth : Expr α → Nat
  | .constant _ _ | .identifier _ _ => 0
  | .binary _ op l r => max (1 + l.printedDepth) (op.depth + r.printedDepth)

mutual

def Statement.printedDepth : Statement α → Nat
  | .ifThen _ c t => max (1 + c.printedDepth) t.printedDepth
  | .ifThenElse _ c t e => max (1 + c.printedDepth) (max t.printedDepth e.printedDepth)
  | .repeatUntil _ b c => max b.printedDepth (1 + c.printedDepth)
  | .assign _ _ e | .write _ e => 1 + e.printedDepth
  | .read _ _ => 0

def Block.printedDepth : Block α → Nat
  | .last s => 1 + s.printedDepth
  | .cons s b => max (1 + s.printedDepth) b.printedDepth

end

theorem foldr_max_append (ls ms : List Nat) :
    (ls ++ ms).foldr max 0 = max (ls.foldr max 0) (ms.foldr max 0) := by
  induction ls with
  | nil => simp
  | cons l ls ih => rw [List.cons_append, List.foldr_cons, ih, List.foldr_cons, Nat.max_assoc]

theorem Expr.foldr_levels (e : Expr α) (b : Nat) :
    (e.printed.levels b).foldr max 0 = b + e.printedDepth := by
  induction e generalizing b with
  | constant | identifier => simp [printed, Grammar.Factor.levels, printedDepth]
  | binary _ op l r ihl ihr =>
    simp only [printed, Grammar.Factor.levels, Expression.levels_operation, foldr_max_append,
      List.foldr_cons, List.foldr_nil, ihl, ihr, printedDepth]
    omega

mutual

theorem Statement.foldr_levels : (s : Statement α) → (b : Nat) →
    (s.printed.levels b).foldr max 0 = b + s.printedDepth
  | .ifThen _ c t, b => by
    have hc := c.foldr_levels (b + 1)
    have ht := Block.foldr_levels t b
    simp only [Statement.printed, Grammar.Statement.levels, Expression.levels_ofFactor,
      foldr_max_append, List.foldr_cons, List.foldr_nil, hc, ht, Statement.printedDepth]
    omega
  | .ifThenElse _ c t e, b => by
    have hc := c.foldr_levels (b + 1)
    have ht := Block.foldr_levels t b
    have he := Block.foldr_levels e b
    simp only [Statement.printed, Grammar.Statement.levels, Expression.levels_ofFactor,
      foldr_max_append, List.foldr_cons, List.foldr_nil, hc, ht, he, Statement.printedDepth]
    omega
  | .repeatUntil _ q c, b => by
    have hq := Block.foldr_levels q b
    have hc := c.foldr_levels (b + 1)
    simp only [Statement.printed, Grammar.Statement.levels, Expression.levels_ofFactor,
      foldr_max_append, List.foldr_cons, hq, hc, Statement.printedDepth]
    omega
  | .assign _ _ e, b | .write _ e, b => by
    have he := e.foldr_levels (b + 1)
    simp only [Statement.printed, Grammar.Statement.levels, Expression.levels_ofFactor,
      List.foldr_cons, he, Statement.printedDepth]
    omega
  | .read _ _, b => by
    simp [Statement.printed, Grammar.Statement.levels, Statement.printedDepth]

theorem Block.foldr_levels : (q : Block α) → (b : Nat) →
    (q.printed.levels b).foldr max 0 = b + q.printedDepth
  | .last s, b => by
    rw [Block.printed, Grammar.Sequence.levels, Statement.foldr_levels s, Block.printedDepth,
      Nat.add_assoc]
  | .cons s q, b => by
    have hs := Statement.foldr_levels s (b + 1)
    have hq := Block.foldr_levels q b
    simp only [Block.printed, Grammar.Sequence.levels, foldr_max_append, List.foldr_cons, hs, hq,
      Block.printedDepth]
    omega

end

theorem Block.need_printed (b : Block α) : b.printed.need = b.printedDepth := by
  rw [Grammar.Sequence.need, Block.foldr_levels, Nat.zero_add]

theorem Expr.printedDepth_le (e : Expr α) : e.printedDepth + 2 ≤ 2 * e.height := by
  induction e with
  | constant | identifier => exact Nat.le_refl 2
  | binary _ op l r ihl ihr =>
    have hop : op.depth ≤ 2 := by cases op <;> decide
    simp only [printedDepth, height]
    omega

mutual

theorem Statement.printedDepth_le : (s : Statement α) → s.printedDepth + 2 ≤ 2 * s.height
  | .ifThen _ c t => by
    have hc := c.printedDepth_le
    have ht := Block.printedDepth_le t
    simp only [Statement.printedDepth, Statement.height]
    omega
  | .ifThenElse _ c t e => by
    have hc := c.printedDepth_le
    have ht := Block.printedDepth_le t
    have he := Block.printedDepth_le e
    simp only [Statement.printedDepth, Statement.height]
    omega
  | .repeatUntil _ b c => by
    have hb := Block.printedDepth_le b
    have hc := c.printedDepth_le
    simp only [Statement.printedDepth, Statement.height]
    omega
  | .assign _ _ e | .write _ e => by
    have he := e.printedDepth_le
    simp only [Statement.printedDepth, Statement.height]
    omega
  | .read _ _ => Nat.le_refl 2

/-- Printing spends at most two levels on each level of the tree. -/
theorem Block.printedDepth_le : (b : Block α) → b.printedDepth + 1 ≤ 2 * b.height
  | .last s => by
    have hs := Statement.printedDepth_le s
    simp only [Block.printedDepth, Block.height]
    omega
  | .cons s b => by
    have hs := Statement.printedDepth_le s
    have hb := Block.printedDepth_le b
    simp only [Block.printedDepth, Block.height]
    omega

end

theorem Expr.height_le_printedDepth (e : Expr α) : e.height ≤ 1 + e.printedDepth := by
  induction e with
  | constant | identifier => exact Nat.le_refl 1
  | binary _ op l r ihl ihr =>
    have hop : 1 ≤ op.depth := by cases op <;> decide
    simp only [height, printedDepth]
    omega

mutual

theorem Statement.height_le_printedDepth : (s : Statement α) → s.height ≤ 1 + s.printedDepth
  | .ifThen _ c t => by
    have hc := c.height_le_printedDepth
    have ht := Block.height_le_printedDepth t
    simp only [Statement.height, Statement.printedDepth]
    omega
  | .ifThenElse _ c t e => by
    have hc := c.height_le_printedDepth
    have ht := Block.height_le_printedDepth t
    have he := Block.height_le_printedDepth e
    simp only [Statement.height, Statement.printedDepth]
    omega
  | .repeatUntil _ b c => by
    have hb := Block.height_le_printedDepth b
    have hc := c.height_le_printedDepth
    simp only [Statement.height, Statement.printedDepth]
    omega
  | .assign _ _ e | .write _ e => by
    have he := e.height_le_printedDepth
    simp only [Statement.height, Statement.printedDepth]
    omega
  | .read _ _ => Nat.le_refl 1

/-- In print each level of a tree is a level of its own. -/
theorem Block.height_le_printedDepth : (b : Block α) → b.height ≤ b.printedDepth
  | .last s => Statement.height_le_printedDepth s
  | .cons s b => by
    have hs := Statement.height_le_printedDepth s
    have hb := Block.height_le_printedDepth b
    simp only [Block.height, Block.printedDepth]
    omega

end

end TinyLanguage
