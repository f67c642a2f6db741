import TinyLanguage.Proofs.Format.Forest
import TinyLanguage.Proofs.Format.Graph

namespace TinyLanguage

open Format (indent unlines linesOf outlineLines)

mutual

def Branch.outline (level : Nat) : Branch → List (Nat × String)
  | .mk label below => (level, label) :: Branch.outlines (level + 1) below

def Branch.outlines (level : Nat) : List Branch → List (Nat × String)
  | [] => []
  | b :: bs => b.outline level ++ Branch.outlines level bs

end

namespace Branch

/-- Puts a label in front of what comes behind it, where `found k` starts at level `k`: what starts
one level deeper than the label is below it. -/
def put (entry : Nat × String) (found : Nat → List Branch) : Nat → List Branch := fun k =>
  if k < entry.1 then found k
  else if k = entry.1 then .mk entry.2 (found (k + 1)) :: found k
  else []

def ofOutline (entries : List (Nat × String)) : List Branch :=
  entries.foldr put (fun _ => []) 0

theorem outlines_append (level : Nat) (bs cs : List Branch) :
    outlines level (bs ++ cs) = outlines level bs ++ outlines level cs := by
  induction bs with
  | nil => rfl
  | cons b bs ih => rw [List.cons_append, outlines, outlines, ih, List.append_assoc]

mutual

/-- Nothing of what comes behind an outline starts deeper than it, so the outline takes nothing of
it for its own. -/
theorem foldr_outline : (b : Branch) → (level : Nat) → {found : Nat → List Branch} →
    (∀ k, level < k → found k = []) →
    (b.outline level).foldr put found = Function.update found level (b :: found level)
  | .mk label below, level, found, h => by
    have hdeeper : ∀ k, level + 1 < k → found k = [] := fun k hk => h k (Nat.lt_of_succ_lt hk)
    have hbelow := foldr_outlines below (level + 1) hdeeper
    rw [outline, List.foldr_cons, hbelow, h (level + 1) (Nat.lt_succ_self level), List.append_nil]
    funext k
    rcases Nat.lt_trichotomy k level with hk | rfl | hk
    · simp [put, hk, Function.update_of_ne (Nat.ne_of_lt hk),
        Function.update_of_ne (Nat.ne_of_lt (Nat.lt_succ_of_lt hk))]
    · simp [put]
    · simp [put, Nat.lt_asymm hk, Nat.ne_of_gt hk, h k hk]

theorem foldr_outlines : (bs : List Branch) → (level : Nat) → {found : Nat → List Branch} →
    (∀ k, level < k → found k = []) →
    (outlines level bs).foldr put found = Function.update found level (bs ++ found level)
  | [], level, found, _ => by simp [outlines]
  | b :: bs, level, found, h => by
    have hrest := foldr_outlines bs level h
    rw [outlines, List.foldr_append, hrest, foldr_outline b level, Function.update_self,
      Function.update_idem]
    · rfl
    · intro k hk
      rw [Function.update_of_ne (Nat.ne_of_gt hk), h k hk]

end

theorem ofOutline_outlines (bs : List Branch) : ofOutline (outlines 0 bs) = bs := by
  rw [ofOutline, foldr_outlines bs 0 fun _ _ => rfl, Function.update_self, List.append_nil]

def line (entry : Nat × String) : String :=
  indent entry.1 ++ entry.2

def ofLine (line : String) : Nat × String :=
  ((line.toList.takeWhile (· = ' ')).length / 2, .ofList (line.toList.dropWhile (· = ' ')))

def ofText (text : String) : List Branch :=
  ofOutline ((linesOf text).map ofLine)

theorem ofLine_line {entry : Nat × String} (h : ∀ c ∈ entry.2.toList.head?, c ≠ ' ') :
    ofLine (line entry) = entry := by
  have hspaces : ∀ c ∈ List.replicate (2 * entry.1) ' ', decide (c = ' ') = true := by simp
  have hlabel : ∀ c ∈ entry.2.toList.head?, decide (c = ' ') = false := by simpa using h
  rw [ofLine, line, String.toList_append, toList_indent, takeWhile_append_of_head hspaces hlabel,
    dropWhile_append_of_head hspaces hlabel, List.length_replicate,
    Nat.mul_div_cancel_left _ Nat.two_pos, String.ofList_toList]

/-- A forest is told from the text of its outline, if its labels do not start with spaces and are
not broken. -/
theorem ofText_outlines {bs : List Branch} (h : ∀ entry ∈ outlines 0 bs,
    (∀ c ∈ entry.2.toList.head?, c ≠ ' ') ∧ '\n' ∉ entry.2.toList) :
    ofText (unlines ((outlines 0 bs).map line)) = bs := by
  have hlines : ∀ l ∈ (outlines 0 bs).map line, '\n' ∉ l.toList := by
    rw [List.forall_mem_map]
    intro entry hentry
    simpa [line] using (h entry hentry).2
  have hread : ((outlines 0 bs).map line).map ofLine = outlines 0 bs := by
    rw [List.map_map]
    exact (List.map_congr_left fun entry hentry => ofLine_line (h entry hentry).1).trans
      (List.map_id _)
  rw [ofText, linesOf_unlines hlines, hread, ofOutline_outlines]

end Branch

variable {α β : Type}

namespace Node

def depth (path : List Step) : Nat :=
  path.countP (· ≠ .next)

def outlineAt (level : Nat) : Node α → List (Nat × Node α)
  | expression e => e.outline level
  | statement b => b.outline level

theorem outlineAt_eq (n : Node α) (level : Nat) : n.outlineAt level =
    (level, n) :: (n.children.flatMap (outlineAt (level + 1)) ++
      n.next?.toList.flatMap (outlineAt level)) := by
  cases n with
  | expression e =>
    cases e <;> simp [outlineAt, Expr.outline, children, Expr.children, next?]
  | statement b =>
    cases b with
    | last s =>
      cases s <;> simp [outlineAt, Block.outline, Statement.inner, children, Statement.children,
        next?, Block.tail?, Block.head]
    | cons s b =>
      cases s <;> simp [outlineAt, Block.outline, Statement.inner, children, Statement.children,
        next?, Block.tail?, Block.head]

theorem map_flatMap_outlineAt {ns : List (Node α)} {level : Nat}
    (h : ∀ n ∈ ns, (n.outlineAt level).map (fun x => (x.1, x.2.label)) =
      Branch.outlines level n.forest) :
    (ns.flatMap (outlineAt level)).map (fun x => (x.1, x.2.label)) =
      Branch.outlines level (ns.flatMap forest) := by
  induction ns with
  | nil => rfl
  | cons n ns ih =>
    rw [List.forall_mem_cons] at h
    rw [List.flatMap_cons, List.flatMap_cons, List.map_append, h.1, ih h.2,
      Branch.outlines_append]

theorem map_outlineAt (n : Node α) (level : Nat) :
    (n.outlineAt level).map (fun x => (x.1, x.2.label)) = Branch.outlines level n.forest := by
  induction n using Node.induction generalizing level with
  | step n hc hm =>
    have hchildren := map_flatMap_outlineAt fun c h => hc c h (level + 1)
    have hnext := @map_flatMap_outlineAt _ n.next?.toList level fun m h =>
      hm m (Option.mem_toList.1 h) level
    rw [outlineAt_eq, forest_step, List.map_cons, List.map_append, hchildren, hnext,
      Branch.outlines, Branch.outline]
    rfl

theorem depth_child (i : Nat) (path : List Step) : depth (.child i :: path) = depth path + 1 := by
  simp [depth]

theorem depth_next (path : List Step) : depth (.next :: path) = depth path := by
  simp [depth]

theorem outline_walkChildren {cs : List (Node α)} {level : Nat} (i : Nat)
    (h : ∀ c ∈ cs, c.outlineAt (level + 1) =
      c.walk.map fun w => (level + 1 + depth w.1, w.2)) :
    cs.flatMap (outlineAt (level + 1)) =
      (walkChildren i cs).map fun w => (level + depth w.1, w.2) := by
  induction cs generalizing i with
  | nil => rfl
  | cons c cs ih =>
    rw [List.forall_mem_cons] at h
    rw [List.flatMap_cons, walkChildren, List.map_append, List.map_map, h.1, ih (i + 1) h.2]
    congr 1
    refine List.map_congr_left fun w _ => ?_
    rw [Function.comp_apply, below, depth_child, Nat.add_assoc, Nat.add_comm 1]

theorem outline_walkNext {o : Option (Node α)} {level : Nat}
    (h : ∀ m ∈ o, m.outlineAt level = m.walk.map fun w => (level + depth w.1, w.2)) :
    o.toList.flatMap (outlineAt level) =
      (walkNext o).map fun w => (level + depth w.1, w.2) := by
  cases o with
  | none => rfl
  | some m =>
    rw [Option.toList_some, List.flatMap_singleton, walkNext, List.map_map, h m rfl]
    refine List.map_congr_left fun w _ => ?_
    rw [Function.comp_apply, below, depth_next]

/-- An outline goes through a tree as a walk does, and shows how far each way leads down. -/
theorem outlineAt_walk (n : Node α) (level : Nat) :
    n.outlineAt level = n.walk.map fun w => (level + depth w.1, w.2) := by
  induction n using Node.induction generalizing level with
  | step n hc hm =>
    rw [outlineAt_eq, walk_eq, List.map_cons, List.map_append,
      outline_walkChildren 0 fun c h => hc c h (level + 1),
      outline_walkNext fun m h => hm m h level]
    rfl

end Node

open Node (depth)

theorem outlineLines_walk (n : Node α) :
    outlineLines n = n.walk.map fun w => indent (depth w.1) ++ w.2.label := by
  have houtline : n.outline = n.outlineAt 0 := by cases n <;> rfl
  rw [outlineLines, houtline, n.outlineAt_walk, List.map_map]
  refine List.map_congr_left fun w _ => ?_
  simp

theorem outlineLines_forest (n : Node α) :
    outlineLines n = (Branch.outlines 0 n.forest).map Branch.line := by
  have houtline : n.outline = n.outlineAt 0 := by cases n <;> rfl
  rw [← n.map_outlineAt, List.map_map, outlineLines, houtline]
  rfl

theorem Node.Kind.head_label (k : Kind) : ∀ c ∈ k.label.toList.head?, c ≠ ' ' := by
  cases k <;> simp [label]

theorem Node.Legible.outlines {n : Node α} (hn : n.Legible) :
    ∀ entry ∈ Branch.outlines 0 n.forest,
      (∀ c ∈ entry.2.toList.head?, c ≠ ' ') ∧ '\n' ∉ entry.2.toList := by
  rw [← n.map_outlineAt, n.outlineAt_walk, List.map_map, List.forall_mem_map]
  intro w hw
  have hplain := (hn.follow (mem_walk.1 hw)).allows.plain
  exact ⟨w.2.kind.head_label, fun hmem => (hplain _ hmem).2.2 rfl⟩

theorem Node.Legible.notMem_outlineLines {n : Node α} (hn : n.Legible) :
    ∀ l ∈ outlineLines n, '\n' ∉ l.toList := by
  rw [outlineLines_forest, List.forall_mem_map]
  intro entry hentry
  simpa [Branch.line] using (hn.outlines entry hentry).2

theorem Node.Legible.ofText_outline {n : Node α} (hn : n.Legible) :
    Branch.ofText (unlines (outlineLines n)) = n.forest := by
  rw [outlineLines_forest]
  exact Branch.ofText_outlines hn.outlines

theorem outline_text_eq_iff {n : Node α} {m : Node β} (hn : n.Legible) (hm : m.Legible) :
    Format.outline.render n = Format.outline.render m ↔ n.forest = m.forest := by
  constructor
  · intro h
    rw [← hn.ofText_outline, ← hm.ofText_outline]
    exact congrArg Branch.ofText (Except.ok.inj h)
  · intro h
    rw [Format.render, Format.lines, outlineLines_forest, h, ← outlineLines_forest]
    rfl

/-- The outline of a parsed tree has one line for each node, indented as far as the way to the node
leads down. The forest in which each node has the chains of its children below it, put one behind
another, can be read off the indentation, and is all that an outline tells: of the form of the tree
nothing else is lost than in which block of a conditional a statement stands. -/
theorem outline_exact {text : String} {limits : Limits} {b : Block Span} {n : Node Span}
    {path : List Node.Step} (h : parse text limits = .ok b)
    (hn : (Node.statement b).follow? path = some n) :
    n.forest = n.chain.map (fun m => .mk m.label (m.children.flatMap Node.forest)) ∧
    (∃ lines : List String, Format.outline.render n = .ok (unlines lines) ∧
      lines = n.walk.map (fun w => indent (depth w.1) ++ w.2.label) ∧
      lines.length = n.count ∧ (∀ l ∈ lines, '\n' ∉ l.toList) ∧
      Branch.ofText (unlines lines) = n.forest) ∧
    ∀ text' limits' b' path' n', parse text' limits' = .ok b' →
      (Node.statement b').follow? path' = some n' →
        (Format.outline.render n' = Format.outline.render n ↔ n'.forest = n.forest) ∧
        (n'.forest = n.forest ↔ n'.shape.joined = n.shape.joined) := by
  have hlegible := Node.legible_of_parse h hn
  refine ⟨n.forest_eq, ⟨outlineLines n, rfl, outlineLines_walk n, ?_,
    hlegible.notMem_outlineLines, hlegible.ofText_outline⟩, ?_⟩
  · rw [outlineLines_walk, List.length_map, n.length_walk]
  · intro text' limits' b' path' n' h' hn'
    exact ⟨outline_text_eq_iff (Node.legible_of_parse h' hn') hlegible, Node.forest_eq_iff⟩

theorem outline_exact_alternative :
    ∃ b c, parse "if a then read x; write 1 else write 2 end" {} = .ok b ∧
      parse "if a then read x else write 1; write 2 end" {} = .ok c ∧ b.shape ≠ c.shape ∧
      Format.outline.render (.statement b) =
        .ok "if\n  id(a)\n  read(x)\n  write\n    const(1)\n  write\n    const(2)\n" ∧
      Format.outline.render (.statement c) = Format.outline.render (.statement b) := by
  have hb : parse "if a then read x; write 1 else write 2 end" {} =
      .ok (.last (.ifThenElse ⟨1, 1, 0, 42⟩ (.identifier ⟨1, 4, 3, 4⟩ "a")
        (.cons (.read ⟨1, 11, 10, 16⟩ "x")
          (.last (.write ⟨1, 19, 18, 25⟩ (.constant ⟨1, 25, 24, 25⟩ "1"))))
        (.last (.write ⟨1, 32, 31, 38⟩ (.constant ⟨1, 38, 37, 38⟩ "2"))))) :=
    ok_of_toOption (by decide +kernel)
  have hc : parse "if a then read x else write 1; write 2 end" {} =
      .ok (.last (.ifThenElse ⟨1, 1, 0, 42⟩ (.identifier ⟨1, 4, 3, 4⟩ "a")
        (.last (.read ⟨1, 11, 10, 16⟩ "x"))
        (.cons (.write ⟨1, 23, 22, 29⟩ (.constant ⟨1, 29, 28, 29⟩ "1"))
          (.last (.write ⟨1, 32, 31, 38⟩ (.constant ⟨1, 38, 37, 38⟩ "2")))))) :=
    ok_of_toOption (by decide +kernel)
  obtain ⟨-, -, hsame⟩ := @outline_exact _ _ _ _ [] hb rfl
  obtain ⟨htext, hforest⟩ := hsame _ _ _ [] _ hc rfl
  exact ⟨_, _, hb, hc, by decide, rfl, htext.2 (hforest.2 rfl)⟩

end TinyLanguage
