import Lox.Syntax.Outline
import Lox.Token.Munch
import Mathlib.Data.List.TakeWhile

/-! Listings that can be read back. Where the names in an outline are words and no text holds a line
feed, the first line of an outline tells what sort it is of, and the indentation of the lines behind
it tells where it ends; so no two such outlines have the same listing. -/

namespace Lox
namespace Outline
variable {n m : Nat} {v w : String} {rest rest' : List String}

def Unbroken (s : String) : Prop := '\n' ∉ s.toList

/-- Letters, digits and underscores, at least one. -/
def Word (w : String) : Prop := w.toList ≠ [] ∧ ∀ c ∈ w.toList, Token.isWordPart c = true

instance (w : String) : Decidable (Word w) :=
  decidable_of_iff (w.toList ≠ [] ∧ w.toList.all Token.isWordPart = true)
    (and_congr_right fun _ => List.all_eq_true)

mutual

/-- Nothing in the outline could be taken for a part of its layout. Texts are free where they stand
behind the name of a field; as items of a list they are words. -/
def Readable : Outline → Prop
  | text value => Word value
  | list items => ReadableItems items
  | record fields => fields ≠ [] ∧ ReadableFields fields

def ReadableItems : List Outline → Prop
  | [] => True
  | item :: items => Readable item ∧ ReadableItems items

def ReadableFields : List (String × Outline) → Prop
  | [] => True
  | (name, .text value) :: fields => (Word name ∧ Unbroken value) ∧ ReadableFields fields
  | (name, value) :: fields => (Word name ∧ Readable value) ∧ ReadableFields fields

end

/-! ### Single lines -/

/-- The text does not begin with what could be indentation. -/
def Solid (w : String) : Prop := ∃ c cs, w.toList = c :: cs ∧ c ≠ ' '

theorem solid_dash : Solid "-" := ⟨'-', [], rfl, by decide⟩

theorem Solid.append (h : Solid w) (v : String) : Solid (w ++ v) := by
  obtain ⟨c, cs, hw, hc⟩ := h
  exact ⟨c, cs ++ v.toList, by rw [String.toList_append, hw, List.cons_append], hc⟩

theorem Word.solid (h : Word w) : Solid w := by
  obtain ⟨hsome, hword⟩ := h
  obtain ⟨c, cs, hw⟩ := List.exists_cons_of_ne_nil hsome
  refine ⟨c, cs, hw, ?_⟩
  rintro rfl
  exact absurd (hword ' ' (by rw [hw]; exact List.mem_cons_self)) (by decide)

theorem Word.not_mem {c : Char} (h : Word w) (hc : Token.isWordPart c = false) : c ∉ w.toList := by
  intro hmem
  rw [h.2 c hmem] at hc
  cases hc

theorem toList_indent (n : Nat) (w : String) :
    (indent n ++ w).toList = List.replicate (2 * n) ' ' ++ w.toList := by
  rw [String.toList_append, indent, String.toList_ofList]

/-- A line that is not blank tells how deep it is indented. -/
theorem indent_inj (hv : Solid v) (hw : Solid w) (h : indent n ++ v = indent m ++ w) :
    n = m ∧ v = w := by
  have hspaces : ∀ {n : Nat} {w : String}, Solid w →
      (indent n ++ w).toList.takeWhile (· = ' ') = List.replicate (2 * n) ' ' := by
    rintro n w ⟨c, cs, hw, hc⟩
    rw [toList_indent, hw, List.takeWhile_append_of_pos (by simp)]
    simp [hc]
  have hdepth : List.replicate (2 * n) ' ' = List.replicate (2 * m) ' ' := by
    rw [← hspaces hv, h, hspaces hw]
  have hlength := congrArg List.length hdepth
  rw [List.length_replicate, List.length_replicate] at hlength
  obtain rfl : n = m := by omega
  exact ⟨rfl, String.append_right_inj _ |>.1 h⟩

theorem blank_ne (hw : Solid w) : "" ≠ indent n ++ w := by
  obtain ⟨c, cs, hw, -⟩ := hw
  intro h
  have hlist := congrArg String.toList h
  rw [toList_indent, hw] at hlist
  simp at hlist

/-- The name of a field ends where the colon stands. -/
theorem field_inj {name name' : String} (hname : Word name) (hname' : Word name')
    (h : name ++ (":" ++ v) = name' ++ (":" ++ w)) : name = name' ∧ v = w := by
  have hcolon : ∀ {name v : String}, Word name →
      (name ++ (":" ++ v)).toList.takeWhile Token.isWordPart = name.toList := by
    intro name v hname
    rw [String.toList_append, List.takeWhile_append_of_pos hname.2, String.toList_append]
    have hstop : Token.isWordPart ':' = false := by decide
    simp [hstop]
  have hnames : name = name' := by
    rw [← String.toList_inj, ← hcolon hname (v := v), h, hcolon hname']
  subst hnames
  rw [String.append_right_inj, String.append_right_inj] at h
  exact ⟨rfl, h⟩

/-! ### Lines of outlines -/

inductive Shape
  | text
  | list
  | record
deriving DecidableEq

def shape : Outline → Shape
  | text _ => .text
  | list _ => .list
  | record _ => .record

/-- What sort of outline a line begins. -/
def Shape.ofLine (l : String) : Shape :=
  if ':' ∈ l.toList then .record
  else if l.toList.any Token.isWordPart then .text
  else .list

theorem ofLine_word (n : Nat) (hw : Word w) : Shape.ofLine (indent n ++ w) = .text := by
  have hcolon : ':' ∉ (indent n ++ w).toList := by
    rw [toList_indent, List.mem_append]
    rintro (h | h)
    · exact absurd (List.eq_of_mem_replicate h) (by decide)
    · exact hw.not_mem (by decide) h
  have hsome : (indent n ++ w).toList.any Token.isWordPart = true := by
    obtain ⟨c, cs, hc⟩ := List.exists_cons_of_ne_nil hw.1
    have hword := hw.2 c (by rw [hc]; exact List.mem_cons_self)
    rw [toList_indent, hc]
    simp [hword]
  rw [Shape.ofLine, if_neg hcolon, if_pos hsome]

theorem ofLine_blank : Shape.ofLine "" = .list := by decide

theorem ofLine_dash (n : Nat) : Shape.ofLine (indent n ++ "-") = .list := by
  have hlist : "-".toList = ['-'] := rfl
  have hspace : Token.isWordPart ' ' = false := by decide
  have hdash : Token.isWordPart '-' = false := by decide
  rw [Shape.ofLine, toList_indent, hlist]
  simp [hspace, hdash]

theorem ofLine_field (n : Nat) (name behind : String) :
    Shape.ofLine (indent n ++ (name ++ (":" ++ behind))) = .record := by
  have hcolon : ':' ∈ (indent n ++ (name ++ (":" ++ behind))).toList := by
    simp only [String.toList_append]
    simp
  rw [Shape.ofLine, if_pos hcolon]

/-- What stands behind the colon of a field, on its line and on lines of its own. -/
def behind (n : Nat) : Outline → String × List String
  | text value => (" " ++ value, [])
  | value => ("", lines (n + 1) value)

theorem fieldLines_cons (n : Nat) (name : String) (value : Outline)
    (fields : List (String × Outline)) :
    fieldLines n ((name, value) :: fields) =
      (indent n ++ (name ++ (":" ++ (behind n value).1))) ::
        ((behind n value).2 ++ fieldLines n fields) := by
  cases value with
  | text value =>
    have hcolon : ": " = ":" ++ " " := by decide
    rw [fieldLines, hcolon]
    simp only [behind, String.append_assoc, List.nil_append]
  | list items => simp [fieldLines, behind, String.append_assoc]
  | record fields => simp [fieldLines, behind, String.append_assoc]

theorem itemLines_cons (n : Nat) (item : Outline) (items : List Outline) :
    itemLines n (item :: items) =
      (indent n ++ "-") :: (lines (n + 1) item ++ itemLines n items) := by
  simp [itemLines]

theorem ReadableFields.value {name : String} {value : Outline} {fields : List (String × Outline)}
    (h : ReadableFields ((name, value) :: fields)) (n : Nat) :
    (∃ v, value = .text v) ∨ value.Readable ∧ behind n value = ("", lines (n + 1) value) := by
  cases value with
  | text value => exact .inl ⟨value, rfl⟩
  | list items => exact .inr ⟨h.1.2, rfl⟩
  | record fields => exact .inr ⟨h.1.2, rfl⟩

theorem ReadableFields.name {name : String} {value : Outline} {fields : List (String × Outline)}
    (h : ReadableFields ((name, value) :: fields)) : Word name ∧ ReadableFields fields := by
  cases value <;> exact ⟨h.1.1, h.2⟩

theorem head_lines (n : Nat) {o : Outline} (ho : o.Readable) :
    ∃ l ls, lines n o = l :: ls ∧ Shape.ofLine l = o.shape := by
  cases o with
  | text value => exact ⟨_, _, rfl, ofLine_word n ho⟩
  | list items =>
    cases items with
    | nil => exact ⟨_, _, rfl, ofLine_blank⟩
    | cons item items => exact ⟨_, _, itemLines_cons n item items, ofLine_dash n⟩
  | record fields =>
    cases fields with
    | nil => exact absurd rfl ho.1
    | cons field fields =>
      obtain ⟨name, value⟩ := field
      exact ⟨_, _, fieldLines_cons n name value fields, ofLine_field n name _⟩

/-- The lines go on with less indentation, if they go on. -/
def Outdented (n : Nat) (rest : List String) : Prop :=
  ∀ l ∈ rest.head?, ∃ m w, m < n ∧ Solid w ∧ l = indent m ++ w

theorem Outdented.ne (h : Outdented n rest) (hw : Solid w) (ls : List String) :
    rest ≠ (indent n ++ w) :: ls := by
  rintro rfl
  obtain ⟨m, v, hm, hv, heq⟩ := h _ rfl
  exact absurd (indent_inj hw hv heq).1 (by omega)

theorem Outdented.cons (hw : Solid w) (h : m < n) (ls : List String) :
    Outdented n ((indent m ++ w) :: ls) := by
  rintro l ⟨⟩
  exact ⟨m, w, h, hw, rfl⟩

theorem Outdented.mono (h : Outdented n rest) (hn : n ≤ m) : Outdented m rest := by
  intro l hl
  obtain ⟨k, w, hk, hw, heq⟩ := h l hl
  exact ⟨k, w, by omega, hw, heq⟩

theorem Outdented.items (h : Outdented n rest) (items : List Outline) :
    Outdented (n + 1) (itemLines n items ++ rest) := by
  cases items with
  | nil => exact h.mono (Nat.le_succ n)
  | cons item items =>
    rw [itemLines_cons]
    exact .cons solid_dash (Nat.lt_succ_self n) _

theorem Outdented.fields (h : Outdented n rest) {fields : List (String × Outline)}
    (hfields : ReadableFields fields) : Outdented (n + 1) (fieldLines n fields ++ rest) := by
  cases fields with
  | nil => exact h.mono (Nat.le_succ n)
  | cons field fields =>
    obtain ⟨name, value⟩ := field
    rw [fieldLines_cons]
    exact .cons (hfields.name.1.solid.append _) (Nat.lt_succ_self n) _

mutual

/-- An outline and what follows it can be told apart. -/
theorem lines_inj {n : Nat} {rest rest' : List String} (o o' : Outline) (ho : o.Readable)
    (ho' : o'.Readable) (hrest : Outdented n rest) (hrest' : Outdented n rest')
    (h : lines n o ++ rest = lines n o' ++ rest') : o = o' ∧ rest = rest' := by
  obtain ⟨l, ls, hl, hshape⟩ := head_lines n ho
  obtain ⟨l', ls', hl', hshape'⟩ := head_lines n ho'
  have hhead : l = l' := by
    rw [hl, hl'] at h
    exact List.head_eq_of_cons_eq h
  have hsame : o.shape = o'.shape := by rw [← hshape, ← hshape', hhead]
  cases o with
  | text value =>
    cases o' with
    | text value' =>
      simp only [lines, List.cons_append, List.nil_append, List.cons.injEq] at h
      exact ⟨congrArg text (indent_inj ho.solid ho'.solid h.1).2, h.2⟩
    | _ => cases hsame
  | list items =>
    cases o' with
    | list items' =>
      cases items with
      | nil =>
        cases items' with
        | nil => exact ⟨rfl, List.tail_eq_of_cons_eq h⟩
        | cons item items => exact absurd (List.head_eq_of_cons_eq h) (blank_ne solid_dash)
      | cons item items =>
        cases items' with
        | nil => exact absurd (List.head_eq_of_cons_eq h).symm (blank_ne solid_dash)
        | cons item' items' =>
          obtain ⟨hitems, hrests⟩ :=
            itemLines_inj (item :: items) (item' :: items') ho ho' hrest hrest' h
          exact ⟨congrArg list hitems, hrests⟩
    | _ => cases hsame
  | record fields =>
    cases o' with
    | record fields' =>
      cases fields with
      | nil => exact absurd rfl ho.1
      | cons field fields =>
        cases fields' with
        | nil => exact absurd rfl ho'.1
        | cons field' fields' =>
          obtain ⟨hfields, hrests⟩ :=
            fieldLines_inj (field :: fields) (field' :: fields') ho.2 ho'.2 hrest hrest' h
          exact ⟨congrArg record hfields, hrests⟩
    | _ => cases hsame

theorem itemLines_inj {n : Nat} {rest rest' : List String} (items items' : List Outline)
    (hi : ReadableItems items) (hi' : ReadableItems items') (hrest : Outdented n rest)
    (hrest' : Outdented n rest')
    (h : itemLines n items ++ rest = itemLines n items' ++ rest') :
    items = items' ∧ rest = rest' := by
  cases items with
  | nil =>
    cases items' with
    | nil => exact ⟨rfl, h⟩
    | cons item' items' =>
      rw [itemLines_cons] at h
      exact absurd h (hrest.ne solid_dash _)
  | cons item items =>
    cases items' with
    | nil =>
      rw [itemLines_cons] at h
      exact absurd h.symm (hrest'.ne solid_dash _)
    | cons item' items' =>
      rw [itemLines_cons, itemLines_cons] at h
      simp only [List.cons_append, List.append_assoc, List.cons.injEq, true_and] at h
      obtain ⟨rfl, hbehind⟩ :=
        lines_inj item item' hi.1 hi'.1 (hrest.items items) (hrest'.items items') h
      obtain ⟨rfl, hrests⟩ := itemLines_inj items items' hi.2 hi'.2 hrest hrest' hbehind
      exact ⟨rfl, hrests⟩

theorem fieldLines_inj {n : Nat} {rest rest' : List String}
    (fields fields' : List (String × Outline)) (hf : ReadableFields fields)
    (hf' : ReadableFields fields') (hrest : Outdented n rest) (hrest' : Outdented n rest')
    (h : fieldLines n fields ++ rest = fieldLines n fields' ++ rest') :
    fields = fields' ∧ rest = rest' := by
  cases fields with
  | nil =>
    cases fields' with
    | nil => exact ⟨rfl, h⟩
    | cons field' fields' =>
      obtain ⟨name', value'⟩ := field'
      rw [fieldLines_cons] at h
      exact absurd h (hrest.ne (hf'.name.1.solid.append _) _)
  | cons field fields =>
    obtain ⟨name, value⟩ := field
    cases fields' with
    | nil =>
      rw [fieldLines_cons] at h
      exact absurd h.symm (hrest'.ne (hf.name.1.solid.append _) _)
    | cons field' fields' =>
      obtain ⟨name', value'⟩ := field'
      obtain ⟨hname, hfields⟩ := hf.name
      obtain ⟨hname', hfields'⟩ := hf'.name
      rw [fieldLines_cons, fieldLines_cons] at h
      simp only [List.cons_append, List.append_assoc, List.cons.injEq] at h
      obtain ⟨hline, h⟩ := h
      obtain ⟨-, hcontent⟩ := indent_inj (hname.solid.append _) (hname'.solid.append _) hline
      obtain ⟨rfl, hbehind⟩ := field_inj hname hname' hcontent
      have hspace : ∀ v : String, " " ++ v ≠ "" := by
        intro v hv
        exact absurd (congrArg String.toList hv) (by simp [String.toList_append])
      rcases hf.value n with ⟨v, rfl⟩ | ⟨hvalue, hlines⟩ <;>
        rcases hf'.value n with ⟨v', rfl⟩ | ⟨hvalue', hlines'⟩
      · obtain ⟨rfl, hrests⟩ := fieldLines_inj fields fields' hfields hfields' hrest hrest' h
        rw [(String.append_right_inj _).1 hbehind]
        exact ⟨rfl, hrests⟩
      · rw [hlines'] at hbehind
        exact absurd hbehind (hspace v)
      · rw [hlines] at hbehind
        exact absurd hbehind.symm (hspace v')
      · rw [hlines, hlines'] at h
        obtain ⟨rfl, hmore⟩ := lines_inj value value' hvalue hvalue'
          (hrest.fields hfields) (hrest'.fields hfields') h
        obtain ⟨rfl, hrests⟩ := fieldLines_inj fields fields' hfields hfields' hrest hrest' hmore
        exact ⟨rfl, hrests⟩

end

/-! ### Listings -/

theorem Unbroken.append (hv : Unbroken v) (hw : Unbroken w) : Unbroken (v ++ w) := by
  rw [Unbroken, String.toList_append, List.mem_append, not_or]
  exact ⟨hv, hw⟩

theorem Word.unbroken (h : Word w) : Unbroken w := h.not_mem (by decide)

theorem unbroken_indent (n : Nat) : Unbroken (indent n) := by
  rw [Unbroken, indent, String.toList_ofList]
  intro h
  exact absurd (List.eq_of_mem_replicate h) (by decide)

theorem unbroken_dash (n : Nat) : Unbroken (indent n ++ "-") :=
  (unbroken_indent n).append (by simp [Unbroken])

theorem unbroken_field (n : Nat) {name : String} (hname : Word name) (hv : Unbroken v) :
    Unbroken (indent n ++ (name ++ (":" ++ v))) :=
  (unbroken_indent n).append (hname.unbroken.append (.append (by simp [Unbroken]) hv))

mutual

theorem unbroken_lines (n : Nat) (o : Outline) (ho : o.Readable) :
    ∀ l ∈ lines n o, Unbroken l := by
  cases o with
  | text value => simpa [lines] using (unbroken_indent n).append ho.unbroken
  | list items =>
    cases items with
    | nil => simp [lines, Unbroken]
    | cons item items => exact unbroken_itemLines n (item :: items) ho
  | record fields =>
    cases fields with
    | nil => simp [lines, Unbroken]
    | cons field fields => exact unbroken_fieldLines n (field :: fields) ho.2

theorem unbroken_itemLines (n : Nat) (items : List Outline) (hi : ReadableItems items) :
    ∀ l ∈ itemLines n items, Unbroken l := by
  cases items with
  | nil => simp [itemLines]
  | cons item items =>
    rw [itemLines_cons, List.forall_mem_cons, List.forall_mem_append]
    exact ⟨unbroken_dash n, unbroken_lines (n + 1) item hi.1, unbroken_itemLines n items hi.2⟩

theorem unbroken_fieldLines (n : Nat) (fields : List (String × Outline))
    (hf : ReadableFields fields) : ∀ l ∈ fieldLines n fields, Unbroken l := by
  cases fields with
  | nil => simp [fieldLines]
  | cons field fields =>
    obtain ⟨name, value⟩ := field
    obtain ⟨hname, hfields⟩ := hf.name
    have hbehind := unbroken_fieldLines n fields hfields
    rw [fieldLines_cons, List.forall_mem_cons, List.forall_mem_append]
    cases value with
    | text value =>
      exact ⟨unbroken_field n hname (.append (by simp [Unbroken]) hf.1.2), by simp [behind],
        hbehind⟩
    | list items =>
      exact ⟨unbroken_field n hname (by simp [behind, Unbroken]),
        unbroken_lines (n + 1) (.list items) hf.1.2, hbehind⟩
    | record fields =>
      exact ⟨unbroken_field n hname (by simp [behind, Unbroken]),
        unbroken_lines (n + 1) (.record fields) hf.1.2, hbehind⟩

end

/-- Outlines that can be read back have the same listing only if they are the same. -/
theorem render_inj {o o' : Outline} (ho : o.Readable) (ho' : o'.Readable) :
    o.render = o'.render ↔ o = o' := by
  refine ⟨fun h => ?_, fun h => h ▸ rfl⟩
  have hlines : ∀ {o : Outline}, o.Readable →
      List.splitOn '\n' o.render.toList = (lines 0 o).map String.toList := by
    intro o ho
    obtain ⟨l, ls, hl, -⟩ := head_lines 0 ho
    have hsome : (lines 0 o).map String.toList ≠ [] := by simp [hl]
    have hbreak : "\n".toList = ['\n'] := rfl
    rw [render, String.toList_intercalate, hbreak]
    refine List.splitOn_intercalate '\n' (fun cs hcs => ?_) hsome
    obtain ⟨l, hmem, rfl⟩ := List.mem_map.1 hcs
    exact unbroken_lines 0 o ho l hmem
  have hsame : lines 0 o = lines 0 o' := by
    apply List.map_inj_right (fun _ _ => String.toList_inj.1) |>.1
    rw [← hlines ho, h, hlines ho']
  have hend : Outdented 0 [] := by simp [Outdented]
  exact (lines_inj o o' ho ho' hend hend (by rw [hsame])).1

end Outline
end Lox
