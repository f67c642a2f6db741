import TinyLanguage.Proofs.Format.Lines
import TinyLanguage.Proofs.Format.Recovery
import TinyLanguage.Proofs.Format.Sketch
import TinyLanguage.Proofs.Parser.Form

namespace TinyLanguage

variable {α β : Type}

open Format (unlines graphLines)
open TinyLanguage.Graph (Item Plain)

theorem plain_of_isAlpha {c : Char} (h : c.isAlpha) : Plain c := by
  refine ⟨?_, ?_, ?_⟩ <;> rintro rfl <;> revert h <;> decide

theorem plain_of_isDigit {c : Char} (h : c.isDigit) : Plain c := by
  refine ⟨?_, ?_, ?_⟩ <;> rintro rfl <;> revert h <;> decide

namespace Node

theorem plain_symbol (op : Operator) : ∀ c ∈ op.symbol.toList, Plain c := by
  cases op <;> simp [Operator.symbol, Plain]

theorem plain_append {s t : String} (hs : ∀ c ∈ s.toList, Plain c) (ht : ∀ c ∈ t.toList, Plain c) :
    ∀ c ∈ (s ++ t).toList, Plain c := by
  intro c hc
  rw [String.toList_append, List.mem_append] at hc
  exact hc.elim (hs c) (ht c)

theorem Kind.Allows.plain {k : Kind} {cs : List Category} (h : k.Allows cs) :
    ∀ c ∈ k.label.toList, Plain c := by
  have hclose : ∀ c ∈ ")".toList, Plain c := by simp [Plain]
  cases k with
  | conditional | loop | write => simp [label, Plain]
  | assign x | read x | identifier x =>
    have hx : ∀ c ∈ x.toList, Plain c := fun c hc => plain_of_isAlpha (h.1.2.1 c hc)
    exact plain_append (plain_append (by simp [Plain]) hx) hclose
  | constant s =>
    have hs : ∀ c ∈ s.toList, Plain c := fun c hc => plain_of_isDigit (h.1.2 c hc)
    exact plain_append (plain_append (by simp [Plain]) hs) hclose
  | operator op => exact plain_append (plain_append (by simp [Plain]) (plain_symbol op)) hclose

theorem Legible.plain_graph {n : Node α} (hn : n.Legible) : ∀ x ∈ n.graph, x.Plain := by
  intro x hx
  cases x with
  | child | next | sameRank => trivial
  | node id kind =>
    have hmem : (id, kind) ∈ n.graph.filterMap Item.declaration? :=
      List.mem_filterMap.2 ⟨_, hx, rfl⟩
    rw [n.draws_graph.declares, List.mem_map] at hmem
    obtain ⟨⟨path, m⟩, hm, h⟩ := hmem
    obtain ⟨-, rfl⟩ := Prod.mk.inj h
    exact (hn.follow (mem_walk.1 hm)).allows.plain

theorem heads_shape (id : Nat) (cs : List (Node α)) : heads id (cs.map shape) = heads id cs := by
  induction cs generalizing id with
  | nil => rfl
  | cons c cs ih => rw [List.map_cons, heads, heads, ih, count_shape]

theorem branches_shape {cs : List (Node α)}
    (h : ∀ c ∈ cs, ∀ former id, c.shape.graphFrom former id = c.graphFrom former id)
    (parent id : Nat) : branches parent id (cs.map shape) = branches parent id cs := by
  induction cs generalizing id with
  | nil => rfl
  | cons c cs ih =>
    rw [List.forall_mem_cons] at h
    rw [List.map_cons, branches, branches, h.1, ih h.2, count_shape]

theorem graphFrom_shape (n : Node α) (former : Option Nat) (id : Nat) :
    n.shape.graphFrom former id = n.graphFrom former id := by
  induction n using Node.induction generalizing former id with
  | step n hc hm =>
    have hnext : graphNext id (id + n.extent) (n.next?.map shape) =
        graphNext id (id + n.extent) n.next? := by
      cases hx : n.next? with
      | none => rfl
      | some m => exact hm m hx _ _
    rw [graphFrom_eq, graphFrom_eq, kind_shape, children_shape, next_shape, branches_shape hc,
      extent_shape, hnext, group, group, children_shape, heads_shape, List.length_map]

theorem graph_of_shape {n : Node α} {m : Node β} (h : n.shape = m.shape) : n.graph = m.graph := by
  rw [graph_eq, ← graphFrom_shape, h, graphFrom_shape, ← graph_eq]

end Node

theorem items_eq_of_lines {xs ys : List Item} (hx : ∀ x ∈ xs, x.Plain) (hy : ∀ y ∈ ys, y.Plain)
    (h : xs.map Item.line = ys.map Item.line) : xs = ys := by
  induction xs generalizing ys with
  | nil => exact (List.map_eq_nil_iff.1 h.symm).symm
  | cons x xs ih =>
    obtain ⟨y, ys', rfl, hline, hrest⟩ := List.map_eq_cons_iff.1 h.symm
    rw [List.forall_mem_cons] at hx hy
    rw [Item.line_injective hx.1 hy.1 hline.symm, ih hx.2 hy.2 hrest.symm]

theorem notMem_graphLines {n : Node α} (hn : n.Legible) : ∀ l ∈ graphLines n, '\n' ∉ l.toList := by
  intro l hl
  simp only [graphLines, List.mem_append, List.mem_cons, List.mem_map, List.not_mem_nil,
    or_false] at hl
  obtain ((rfl | rfl) | ⟨x, hx, rfl⟩) | rfl := hl
  · decide
  · decide
  · exact Item.notMem_line (hn.plain_graph x hx)
  · decide

/-- The drawing of a legible tree is told from its text. -/
theorem graph_eq_of_text {n : Node α} {m : Node β} (hn : n.Legible) (hm : m.Legible)
    (h : unlines (graphLines n) = unlines (graphLines m)) : n.graph = m.graph := by
  have hlines := unlines_injective (notMem_graphLines hn) (notMem_graphLines hm) h
  exact items_eq_of_lines hn.plain_graph hm.plain_graph
    (List.append_cancel_left (List.append_cancel_right hlines))

theorem graph_text_eq_iff {n : Node α} {m : Node β} (hn : n.Legible) (hm : m.Legible) :
    Format.graph.render n = Format.graph.render m ↔ n.shape = m.shape := by
  constructor
  · intro h
    have hgraph := graph_eq_of_text hn hm (Except.ok.inj h)
    have hdraws := m.draws_graph
    rw [← hgraph] at hdraws
    exact n.draws_graph.shape_eq hdraws
  · intro h
    have hgraph := Node.graph_of_shape h
    simp [Format.render, Format.lines, graphLines, hgraph]

/-- The text of a parsed tree has a line for each item of its drawing, in which labels stand as they
are, and two such texts are equal exactly if the trees have the same shape. Drawn node by node, with
a counter for the numbers, the tree has the same drawing. -/
theorem graph_exact {text : String} {limits : Limits} {b : Block Span} {n : Node Span}
    {path : List Node.Step} (h : parse text limits = .ok b)
    (hn : (Node.statement b).follow? path = some n) :
    ∃ items : List Item,
      Format.graph.render n = .ok (unlines (["graph ast \x7b", "  splines=true;"] ++
        items.map Item.line ++ ["\x7d"])) ∧
      Graph.Draws n items ∧ n.draft.drawing = items ∧
      (∀ id kind, Item.node id kind ∈ items → (Item.node id kind).line =
        s!"  n{id} [label=\"{kind.label}\", shape={Graph.shape kind.category}];") ∧
      ∀ text' limits' b' path' n', parse text' limits' = .ok b' →
        (Node.statement b').follow? path' = some n' →
          (Format.graph.render n' = Format.graph.render n ↔ n'.shape = n.shape) := by
  have hlegible := Node.legible_of_parse h hn
  refine ⟨n.graph, rfl, n.draws_graph, n.drawing_draft, ?_, ?_⟩
  · intro id kind hmem
    have hplain := hlegible.plain_graph _ hmem
    rw [Item.line, Graph.escape_eq hplain, String.ofList_toList]
  · intro text' limits' b' path' n' h' hn'
    exact graph_text_eq_iff (Node.legible_of_parse h' hn') hlegible

theorem graph_exact_alternative :
    ∃ b n, parse "read a; if a then write 1 else write 2; write a end" {} = .ok b ∧
      (Node.statement b).follow? [.next] = some n ∧ n.kind = .conditional ∧ n.count = 8 ∧
      ∃ items : List Item,
        Format.graph.render n = .ok (unlines (["graph ast \x7b", "  splines=true;"] ++
          items.map Item.line ++ ["\x7d"])) ∧
        Graph.Draws n items ∧ n.draft.drawing = items ∧
        (∀ id kind, Item.node id kind ∈ items → (Item.node id kind).line =
          s!"  n{id} [label=\"{kind.label}\", shape={Graph.shape kind.category}];") ∧
        ∀ text' limits' b' path' n', parse text' limits' = .ok b' →
          (Node.statement b').follow? path' = some n' →
            (Format.graph.render n' = Format.graph.render n ↔ n'.shape = n.shape) := by
  have h : parse "read a; if a then write 1 else write 2; write a end" {} =
      .ok (.cons (.read ⟨1, 1, 0, 6⟩ "a")
        (.last (.ifThenElse ⟨1, 9, 8, 51⟩ (.identifier ⟨1, 12, 11, 12⟩ "a")
          (.last (.write ⟨1, 19, 18, 25⟩ (.constant ⟨1, 25, 24, 25⟩ "1")))
          (.cons (.write ⟨1, 32, 31, 38⟩ (.constant ⟨1, 38, 37, 38⟩ "2"))
            (.last (.write ⟨1, 41, 40, 47⟩ (.identifier ⟨1, 47, 46, 47⟩ "a"))))))) :=
    ok_of_toOption (by decide +kernel)
  exact ⟨_, _, h, rfl, rfl, rfl, @graph_exact _ _ _ _ [.next] h rfl⟩

end TinyLanguage
