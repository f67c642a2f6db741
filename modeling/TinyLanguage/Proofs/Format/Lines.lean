import Mathlib.Data.List.Basic
import TinyLanguage.Proofs.Format.Source

namespace TinyLanguage

open Format (unlines)
open Node (Kind)

/-- A text is cut where its first part ends, if all of this part meets `p` and what follows starts
with a character that does not. -/
theorem append_inj_of_head {p : Char → Bool} {x y r s : List Char} (hx : ∀ c ∈ x, p c)
    (hy : ∀ c ∈ y, p c) (hr : ∀ d ∈ r.head?, p d = false) (hs : ∀ d ∈ s.head?, p d = false)
    (h : x ++ r = y ++ s) : x = y ∧ r = s := by
  have htake := congrArg (List.takeWhile p) h
  have hdrop := congrArg (List.dropWhile p) h
  rw [takeWhile_append_of_head hx hr, takeWhile_append_of_head hy hs] at htake
  rw [dropWhile_append_of_head hx hr, dropWhile_append_of_head hy hs] at hdrop
  exact ⟨htake, hdrop⟩

def Format.linesOf (text : String) : List String :=
  (text.toList.splitOn '\n').dropLast.map .ofList

theorem splitOn_unlines {ls : List String} (h : ∀ l ∈ ls, '\n' ∉ l.toList) :
    (unlines ls).toList.splitOn '\n' = ls.map String.toList ++ [[]] := by
  induction ls with
  | nil => rfl
  | cons l ls ih =>
    rw [List.forall_mem_cons] at h
    have hline : ∀ c ∈ l.toList, (c == '\n') = false := fun c hc => by
      simpa using ne_of_mem_of_not_mem hc h.1
    rw [toList_unlines_cons, List.splitOn, List.splitOnP_append_cons_of_forall_mem hline '\n' rfl]
    exact congrArg (l.toList :: ·) (ih h.2)

theorem linesOf_unlines {ls : List String} (h : ∀ l ∈ ls, '\n' ∉ l.toList) :
    Format.linesOf (unlines ls) = ls := by
  rw [Format.linesOf, splitOn_unlines h, List.dropLast_concat, List.map_map]
  exact (List.map_congr_left fun l _ => String.ofList_toList).trans ls.map_id

theorem unlines_injective {xs ys : List String} (hx : ∀ l ∈ xs, '\n' ∉ l.toList)
    (hy : ∀ l ∈ ys, '\n' ∉ l.toList) (h : unlines xs = unlines ys) : xs = ys := by
  rw [← linesOf_unlines hx, h, linesOf_unlines hy]

@[simp] theorem toList_toString (n : Nat) : (toString n).toList = Nat.toDigits 10 n :=
  Nat.toList_repr

theorem isDigit_toDigits {n : Nat} {c : Char} (h : c ∈ Nat.toDigits 10 n) : c.isDigit :=
  Nat.isDigit_of_mem_toDigits (by decide) (by decide) h

theorem notMem_digits (n : Nat) : '\n' ∉ Nat.toDigits 10 n := fun h =>
  absurd (isDigit_toDigits h) (by decide)

theorem digits_inj {a b : Nat} : Nat.toDigits 10 a = Nat.toDigits 10 b ↔ a = b := by
  constructor
  · intro h
    have hnat := congrArg (fun ds => Nat.ofDigitChars 10 ds 0) h
    rwa [Nat.ofDigitChars_ten_toDigits, Nat.ofDigitChars_ten_toDigits] at hnat
  · rintro rfl
    rfl

theorem digits_append_inj {a b : Nat} {c d : Char} {r s : List Char} (hc : c.isDigit = false)
    (hd : d.isDigit = false) : Nat.toDigits 10 a ++ c :: r = Nat.toDigits 10 b ++ d :: s ↔
      a = b ∧ c = d ∧ r = s := by
  constructor
  · intro h
    obtain ⟨hdigits, hrest⟩ := append_inj_of_head (fun _ => isDigit_toDigits)
      (fun _ => isDigit_toDigits) (by simpa using hc) (by simpa using hd) h
    exact ⟨digits_inj.1 hdigits, List.cons.inj hrest⟩
  · rintro ⟨rfl, rfl, rfl⟩
    rfl

theorem Operator.symbol_injective : Function.Injective symbol := by
  intro op op' h
  cases op <;> cases op' <;> simp [symbol] at h ⊢

theorem Node.Kind.label_injective : Function.Injective Kind.label := by
  intro k l h
  replace h := congrArg String.toList h
  cases k <;> cases l <;> simp_all [label, String.toList_inj, Operator.symbol_injective.eq_iff]

namespace Graph

def Plain (c : Char) : Prop :=
  c ≠ '"' ∧ c ≠ '\\' ∧ c ≠ '\n'

theorem escape_eq {label : List Char} (h : ∀ c ∈ label, Plain c) : escape label = label := by
  induction label with
  | nil => rfl
  | cons c cs ih =>
    rw [List.forall_mem_cons] at h
    obtain ⟨⟨hquote, hback, -⟩, hcs⟩ := h
    have hc : ¬ (c = '\\' ∨ c = '"') := by simp [hquote, hback]
    have hrest : cs.flatMap (fun c => if c = '\\' ∨ c = '"' then ['\\', c] else [c]) = cs := ih hcs
    rw [escape, List.flatMap_cons, if_neg hc, hrest]
    rfl

namespace Item

def Plain : Item → Prop
  | node _ kind => ∀ c ∈ kind.label.toList, Graph.Plain c
  | child _ _ | next _ _ | sameRank _ => True

theorem toList_node (id : Nat) (kind : Kind) : (node id kind).line.toList =
    ' ' :: ' ' :: 'n' :: (Nat.toDigits 10 id ++ ' ' :: ("[label=\"".toList ++
      (escape kind.label.toList ++ '"' :: (", shape=".toList ++
        ((shape kind.category).toList ++ "];".toList))))) := by
  simp [line]

theorem toList_child (i j : Nat) : (child i j).line.toList =
    ' ' :: ' ' :: 'n' :: (Nat.toDigits 10 i ++ ' ' :: ("-- n".toList ++
      (Nat.toDigits 10 j ++ ';' :: []))) := by
  simp [line]

theorem toList_next (i j : Nat) : (next i j).line.toList =
    ' ' :: ' ' :: 'n' :: (Nat.toDigits 10 i ++ ' ' :: ("-- n".toList ++
      (Nat.toDigits 10 j ++ ' ' :: "[tailport=e, headport=w, style=dashed];".toList))) := by
  simp [line]

def members (ids : List Nat) : List Char :=
  [' '].intercalate (ids.map fun id => 'n' :: (Nat.toDigits 10 id ++ [';']))

def others (ids : List Nat) : List Char :=
  ids.flatMap fun id => ' ' :: 'n' :: (Nat.toDigits 10 id ++ [';'])

theorem members_cons (i : Nat) (ids : List Nat) :
    members (i :: ids) = 'n' :: (Nat.toDigits 10 i ++ ';' :: others ids) := by
  induction ids generalizing i with
  | nil => simp [members, others]
  | cons j ids ih =>
    have hids : members (j :: ids) = 'n' :: (Nat.toDigits 10 j ++ ';' :: others ids) := ih j
    simp only [members, List.map_cons, List.intercalate_cons_cons] at hids ⊢
    simp [hids, others]

theorem others_injective : Function.Injective others := by
  intro ids
  induction ids with
  | nil =>
    intro ids' h
    cases ids' with
    | nil => rfl
    | cons j ids' => simp [others] at h
  | cons i ids ih =>
    intro ids' h
    cases ids' with
    | nil => simp [others] at h
    | cons j ids' =>
      have hcons : Nat.toDigits 10 i ++ ';' :: others ids =
          Nat.toDigits 10 j ++ ';' :: others ids' := by simpa [others] using h
      obtain ⟨rfl, -, hids⟩ := (digits_append_inj rfl rfl).1 hcons
      rw [ih hids]

theorem members_injective : Function.Injective members := by
  intro ids ids' h
  cases ids with
  | nil =>
    cases ids' with
    | nil => rfl
    | cons j ids' => simp [members] at h
  | cons i ids =>
    cases ids' with
    | nil => simp [members] at h
    | cons j ids' =>
      rw [members_cons, members_cons] at h
      obtain ⟨rfl, -, hids⟩ := (digits_append_inj rfl rfl).1 (List.cons.inj h).2
      rw [others_injective hids]

theorem toList_sameRank (ids : List Nat) : (sameRank ids).line.toList =
    ' ' :: ' ' :: '\x7b' :: (" rank=same; ".toList ++ (members ids ++ " \x7d".toList)) := by
  simp [line, members, Function.comp_def]

theorem line_injective {x y : Item} (hx : x.Plain) (hy : y.Plain) (h : x.line = y.line) :
    x = y := by
  replace h := congrArg String.toList h
  cases x with
  | node id kind =>
    cases y with
    | node id' kind' =>
      rw [toList_node, toList_node, escape_eq hx, escape_eq hy] at h
      simp only [List.cons.injEq, true_and] at h
      obtain ⟨rfl, -, hrest⟩ := (digits_append_inj rfl rfl).1 h
      have hlabel := (@append_inj_of_head (· ≠ '"') _ _ _ _ (by simpa using fun c hc => (hx c hc).1)
        (by simpa using fun c hc => (hy c hc).1) (by simp) (by simp)
        (List.append_cancel_left hrest)).1
      rw [Kind.label_injective (String.toList_injective hlabel)]
    | child | next => simp [toList_node, toList_child, toList_next, digits_append_inj] at h
    | sameRank => simp [toList_node, toList_sameRank] at h
  | child i j =>
    cases y with
    | child i' j' => simpa [toList_child, digits_append_inj, digits_inj] using h
    | node | next => simp [toList_node, toList_child, toList_next, digits_append_inj] at h
    | sameRank => simp [toList_child, toList_sameRank] at h
  | next i j =>
    cases y with
    | next i' j' => simpa [toList_next, digits_append_inj, digits_inj] using h
    | node | child => simp [toList_node, toList_child, toList_next, digits_append_inj] at h
    | sameRank => simp [toList_next, toList_sameRank] at h
  | sameRank ids =>
    cases y with
    | sameRank ids' =>
      rw [toList_sameRank, toList_sameRank] at h
      simp only [List.cons.injEq, true_and] at h
      rw [members_injective (List.append_cancel_right (List.append_cancel_left h))]
    | node => simp [toList_node, toList_sameRank] at h
    | child | next => simp [toList_child, toList_next, toList_sameRank] at h

theorem notMem_others (ids : List Nat) : '\n' ∉ others ids := by
  simp [others, notMem_digits]

theorem notMem_line {x : Item} (hx : x.Plain) : '\n' ∉ x.line.toList := by
  cases x with
  | node id kind =>
    have hlabel : '\n' ∉ kind.label.toList := fun h => (hx _ h).2.2 rfl
    have hshape : '\n' ∉ (shape kind.category).toList := by cases kind.category <;> decide
    simp [toList_node, escape_eq hx, notMem_digits, hlabel, hshape]
  | child i j => simp [toList_child, notMem_digits]
  | next i j => simp [toList_next, notMem_digits]
  | sameRank ids =>
    cases ids with
    | nil => simp [toList_sameRank, members]
    | cons i ids => simp [toList_sameRank, members_cons, notMem_digits, notMem_others]

end Item

end Graph

end TinyLanguage
