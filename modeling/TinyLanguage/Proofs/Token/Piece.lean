import TinyLanguage.Proofs.Text.Translation
import TinyLanguage.Proofs.Token.Spelling

namespace TinyLanguage

theorem Spells.gap {g cs : List Char} {ls : List Lexeme} (h : Spells cs ls) (hg : Gap g) :
    Spells (g ++ cs) ls := by
  intro p
  obtain ⟨ts, finish, hscan, hts⟩ := h (p.after g)
  exact ⟨ts, finish, (Cursor.scan_congr (Cursor.next_gap hg)).trans hscan, hts⟩

theorem Parted.congr {w cs ds : List Char} (h : Parted w cs) (hd : ds.head? = cs.head?) :
    Parted w ds := by
  rwa [Parted, hd]

theorem Gap.append {g g' : List Char} (hg : Gap g) (hg' : Gap g') : Gap (g ++ g') := by
  induction hg with
  | nil => exact hg'
  | blank hc _ ih => exact .blank hc ih
  | @comment body g hbody hg ih => simpa using Gap.comment hbody ih

theorem eq_of_utf8ByteSize {a b c d : String} (h : a ++ b = c ++ d)
    (hsize : a.utf8ByteSize = c.utf8ByteSize) : a = c ∧ b = d := by
  have hlist : a.toList ++ b.toList = c.toList ++ d.toList := by
    rw [← String.toList_append, h, String.toList_append]
  have hempty {x y : String} {as : List Char} (hx : x.toList = y.toList ++ as)
      (hxy : x.utf8ByteSize = y.utf8ByteSize) : as = [] := by
    have hx : x = y ++ .ofList as := by
      rw [← String.toList_inj, hx, String.toList_append, String.toList_ofList]
    have hzero : (String.ofList as).utf8ByteSize = 0 := by
      rw [hx, String.utf8ByteSize_append] at hxy
      omega
    rw [String.utf8ByteSize_eq_zero_iff] at hzero
    simpa using hzero
  rcases List.append_eq_append_iff.1 hlist with ⟨as, hc, hb⟩ | ⟨as, ha, hd⟩
  · obtain rfl := hempty hc hsize.symm
    exact ⟨String.toList_injective (by simpa using hc.symm), String.toList_injective hb⟩
  · obtain rfl := hempty ha hsize
    exact ⟨String.toList_injective (by simpa using ha), String.toList_injective hd.symm⟩

theorem Span.Marks.unique {s : Span} {text part part' : String} (h : s.Marks text part)
    (h' : s.Marks text part') : part = part' := by
  obtain ⟨before, behind, rfl, hstart, hstop⟩ := h
  obtain ⟨before', behind', heq, hstart', hstop'⟩ := h'
  obtain ⟨hboth, -⟩ := eq_of_utf8ByteSize heq (hstop.symm.trans hstop')
  exact (eq_of_utf8ByteSize hboth (hstart.symm.trans hstart')).2

namespace Token

def mapSpan (f : Span → Span) (t : Token) : Token :=
  { t with span := f t.span }

@[simp] theorem text_mapSpan (f : Span → Span) (t : Token) : (t.mapSpan f).text = t.text := rfl

@[simp] theorem lexeme_mapSpan (f : Span → Span) (t : Token) :
    (t.mapSpan f).lexeme = t.lexeme := rfl

@[simp] theorem span_mapSpan (f : Span → Span) (t : Token) : (t.mapSpan f).span = f t.span := rfl

theorem mapSpan_eq_self {f : Span → Span} {t : Token} (h : f t.span = t.span) :
    t.mapSpan f = t := by
  rw [mapSpan, h]

end Token

namespace Partition

variable {before cs ds : List Char} {ts us : List Token}

/-- A text is divided behind the last of some of its tokens, and each part is cut into its own. -/
theorem split (h : Partition before cs (ts ++ us)) :
    ∃ front back, cs = front ++ back ∧ Partition before front ts ∧
      Partition (before ++ front) back us ∧ (({} : Position).after (before ++ front)).offset =
        (ts.getLast?.map fun t => t.span.stop).getD (({} : Position).after before).offset := by
  induction ts generalizing before cs with
  | nil => exact ⟨[], cs, rfl, .gap .nil, by rwa [List.append_nil], by simp⟩
  | cons t ts ih =>
    cases h with
    | @token _ g rest _ _ hg hspan ht hts =>
      obtain ⟨front, back, rfl, hfront, hback, hstop⟩ := ih hts
      have hmunch : Munch (before ++ g) t.text.toList front t.kind := by
        refine ht.congr (fun _ => id) fun d hd => ?_
        rw [List.head?_append, Option.mem_def.1 hd]
        rfl
      have hend : t.span.stop = (({} : Position).after (before ++ g ++ t.text.toList)).offset := by
        rw [hspan]
        rfl
      refine ⟨g ++ (t.text.toList ++ front), back, by simp, .token hg hspan hmunch hfront,
        by simpa using hback, ?_⟩
      rw [← hend] at hstop
      rw [← List.append_assoc, ← List.append_assoc, hstop, List.getLast?_cons]
      cases ts.getLast? <;> rfl

theorem enter {t : Token} (h : Partition before cs (t :: ts)) :
    ∃ g rest, cs = g ++ rest ∧ Gap g ∧ t.span.first = ({} : Position).after (before ++ g) ∧
      Partition (before ++ g) rest (t :: ts) := by
  cases h with
  | @token _ g rest _ _ hg hspan ht hts =>
    refine ⟨g, _, rfl, hg, by rw [hspan]; rfl, ?_⟩
    rw [← List.append_nil (before ++ g)] at hspan ht hts
    exact .token .nil hspan ht hts

theorem spells (h : Partition before cs ts) {tail : List Char} {ls : List Lexeme}
    (hs : Spells tail ls) (hp : ∀ w, Parted w tail) :
    Spells (cs ++ tail) (ts.map Token.lexeme ++ ls) := by
  induction h with
  | gap hg => exact hs.gap hg
  | @token before g rest t ts hg hspan ht hts ih =>
    have hparted : Parted t.text.toList (rest ++ tail) := by
      cases rest with
      | nil => exact hp _
      | cons c rest => exact ht.parted.congr rfl
    have hword := ih.word ht.word hparted
    rw [String.ofList_toList, ← t.kind_eq] at hword
    rw [List.append_assoc, List.append_assoc]
    exact hword.gap hg

/-- The tokens of a text are those of every text in which it stands, counted from where it starts. -/
theorem relative (h : Partition (before ++ cs) ds ts) :
    Partition cs ds (ts.map (Token.mapSpan (Span.relativeTo (({} : Position).after before)))) := by
  generalize hall : before ++ cs = all at h
  induction h generalizing cs with
  | gap hg => exact .gap hg
  | @token all g rest t ts hg hspan ht hts ih =>
    subst hall
    rw [List.append_assoc before] at hspan ht
    have hbefore : ∀ c ∈ (cs ++ g).getLast?, c ∈ (before ++ (cs ++ g)).getLast? := by
      intro c hc
      rw [List.getLast?_append, Option.mem_def.1 hc]
      rfl
    rw [List.append_assoc before] at hspan
    refine @token cs g rest (t.mapSpan _) _ hg ?_ (ht.congr hbefore fun _ => id) (ih (by simp))
    rw [Token.span_mapSpan, hspan, Span.relativeTo_between]
    rfl

theorem map_movedTo (h : Partition (before ++ cs) ds ts) :
    (ts.map (Token.mapSpan (Span.relativeTo (({} : Position).after before)))).map
      (Token.mapSpan (Span.movedTo (({} : Position).after before))) = ts := by
  rw [List.map_map]
  refine (List.map_congr_left fun t ht => ?_).trans (List.map_id ts)
  obtain ⟨front, back, -, hspan⟩ := h.exists_place ht
  rw [List.append_assoc, List.append_assoc] at hspan
  change t.mapSpan (Span.movedTo _ ∘ Span.relativeTo _) = t
  apply Token.mapSpan_eq_self
  rw [Function.comp_apply, hspan, Span.relativeTo_between, Span.movedTo_between,
    ← Position.after_append, ← Position.after_append]

end Partition

end TinyLanguage
