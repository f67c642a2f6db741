import TinyLanguage.Tree.Node

namespace TinyLanguage

namespace Operator

def name : Operator → String
  | add => "Add"
  | subtract => "Subtract"
  | multiply => "Multiply"
  | divide => "Divide"
  | less => "Less"
  | equal => "Equal"

end Operator

def Span.record (s : Span) : String :=
  s!"Span \x7b line: {s.line}, column: {s.column}, start: {s.start}, end: {s.stop} \x7d"

namespace Node

/-- The texts of names are letters and digits, so a quoted name needs no escapes. -/
def Kind.record : Kind → String
  | conditional => "If"
  | loop => "Repeat"
  | assign x => s!"Assign(\"{x}\")"
  | read x => s!"Read(\"{x}\")"
  | write => "Write"
  | operator op => s!"Op({op.name})"
  | constant s => s!"Const(\"{s}\")"
  | identifier x => s!"Id(\"{x}\")"

def recordOf (kind : Kind) (span : Span) (children : List String) (next : Option String) : String :=
  let next := match next with
    | none => "None"
    | some label => s!"Some(\"{label}\")"
  s!"SyntaxNode \x7b kind: {kind.record}, span: {span.record}, children: [" ++
    ", ".intercalate children ++ s!"], next: {next} \x7d"

end Node

def Expr.record : Expr Span → String
  | .binary a op l r => Node.recordOf (.operator op) a [l.record, r.record] none
  | e => Node.recordOf e.kind e.note [] none

mutual

def Statement.childRecords : Statement Span → List String
  | .ifThen _ c t => [c.record, t.record]
  | .ifThenElse _ c t e => [c.record, t.record, e.record]
  | .repeatUntil _ b c => [b.record, c.record]
  | .assign _ _ e | .write _ e => [e.record]
  | .read _ _ => []

/-- Tells the first statement of a block; of the others only the label of the second is told. -/
def Block.record : Block Span → String
  | .last s => Node.recordOf s.kind s.note s.childRecords none
  | .cons s b => Node.recordOf s.kind s.note s.childRecords (some b.head.kind.label)

end

def Node.record : Node Span → String
  | .expression e => e.record
  | .statement b => b.record

end TinyLanguage
