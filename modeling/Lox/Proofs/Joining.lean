import Lox.Proofs.Renumbering
import Lox.Proofs.Tiling

/-! Texts put together. A line feed ends whatever piece a text without errors ends with, so that the
pieces of two texts with a line feed between them are those of the one and then those of the other,
further down. -/

namespace Lox

namespace Token

theorem takeWhile_stop {α : Type} {p : α → Bool} {a : α} (ha : p a = false) (l r : List α) :
    (l ++ a :: r).takeWhile p = l.takeWhile p := by
  induction l with
  | nil => simp [ha]
  | cons b l ih => simp only [List.cons_append, List.takeWhile_cons, ih]

theorem dropWhile_stop {α : Type} {p : α → Bool} {a : α} (ha : p a = false) (l r : List α) :
    (l ++ a :: r).dropWhile p = l.dropWhile p ++ a :: r := by
  induction l with
  | nil => simp [ha]
  | cons b l ih =>
    simp only [List.cons_append, List.dropWhile_cons, ih]
    split <;> rfl

/-- No token but a string goes on with this character. -/
structure Stop (b : Char) : Prop where
  digit : b.isDigit = false
  word : isWordPart b = false
  sign : b ∉ ['.', '=', '/']

theorem stop_of_isBlank {b : Char} (hb : isBlank b = true) : Stop b := by
  simp only [isBlank, Bool.or_eq_true, decide_eq_true_eq] at hb
  rcases hb with ((rfl | rfl) | rfl) | rfl
  all_goals exact ⟨by decide, by decide, by decide⟩

theorem splitFraction_stop {b : Char} (hb : Stop b) (text rest : List Char) :
    splitFraction (text ++ b :: rest) =
      ((splitFraction text).1, (splitFraction text).2 ++ b :: rest) := by
  have hdot : b ≠ '.' := fun h => hb.sign (by simp [h])
  fun_cases splitFraction text with
  | case1 d text hd =>
    simp [splitFraction, hd, takeWhile_stop hb.digit, dropWhile_stop hb.digit]
  | case2 d text hd => simp [splitFraction, hd]
  | case3 text hpoint =>
    rcases text with _ | ⟨c, _ | ⟨d, text⟩⟩
    · simp [splitFraction, hdot]
    · by_cases hc : c = '.'
      · simp [splitFraction, hc, hb.digit]
      · simp [splitFraction, hc]
    · have hc : c ≠ '.' := fun hc => hpoint d text (by rw [hc])
      simp [splitFraction, hc]

theorem closeString_append {text body left : List Char} (h : closeString text = some (body, left))
    (rest : List Char) : closeString (text ++ rest) = some (body, left ++ rest) := by
  obtain ⟨hbody, rfl⟩ := closeString_eq_some_iff.1 h
  exact closeString_eq_some_iff.2 ⟨hbody, by simp⟩

end Token

/-- The same piece taken off a longer text. -/
def Munched.before (m : Munched) (rest : List Char) : Munched := { m with rest := m.rest ++ rest }

namespace Token
variable (text rest : List Char)

section Stopped
variable {b : Char} (hb : Stop b)
include hb

theorem munchWord_stop : munchWord (text ++ b :: rest) = (munchWord text).before (b :: rest) := by
  simp only [munchWord, Munched.before, takeWhile_stop hb.word, dropWhile_stop hb.word]

theorem munchNumber_stop :
    munchNumber (text ++ b :: rest) = (munchNumber text).before (b :: rest) := by
  simp only [munchNumber, Munched.before, takeWhile_stop hb.digit, dropWhile_stop hb.digit,
    splitFraction_stop hb]

theorem munchSign_stop (c : Char) :
    munchSign c (text ++ b :: rest) = (munchSign c text).before (b :: rest) := by
  have hequal : b ≠ '=' := fun h => hb.sign (by simp [h])
  unfold munchSign
  cases Kind.extensibleSigns.lookup c with
  | none => cases Kind.signs.lookup c <;> rfl
  | some kinds =>
    cases text with
    | nil => simp [Munched.before, hequal]
    | cons d text =>
      by_cases hd : d = '='
      · subst hd
        rfl
      · simp [hd, Munched.before]

end Stopped

theorem munchString_append (hends : (munchString text).role ≠ .unterminated) :
    munchString (text ++ rest) = (munchString text).before rest := by
  unfold munchString at hends ⊢
  cases hclose : closeString text with
  | none =>
    rw [hclose] at hends
    exact absurd rfl hends
  | some p =>
    rw [closeString_append hclose]
    rfl

/-- What is no blank and ends at all ends before a blank, a comment only before a line feed. -/
theorem munch_stop {b c : Char} (hb : isBlank b = true) (hblank : isBlank c = false)
    (hends : (munch c text).role ≠ .unterminated)
    (hcomment : (munch c text).role = .comment → b = '\n') :
    munch c (text ++ b :: rest) = (munch c text).before (b :: rest) := by
  have hstop := stop_of_isBlank hb
  have hslash : b ≠ '/' := fun h => hstop.sign (by simp [h])
  have hhead : (text ++ b :: rest).head? = some '/' ↔ text.head? = some '/' := by
    cases text <;> simp [hslash]
  unfold munch at hends hcomment ⊢
  simp only [hblank, hhead, Bool.false_eq_true, if_false] at hends hcomment ⊢
  by_cases hslashes : c = '/' ∧ text.head? = some '/'
  · rw [if_pos hslashes] at hcomment
    rw [if_pos hslashes, if_pos hslashes, hcomment rfl, ← List.cons_append,
      takeWhile_stop (by decide), dropWhile_stop (by decide)]
    rfl
  simp only [if_neg hslashes] at hends ⊢
  by_cases hword : isWordStart c = true
  · simp only [if_pos hword]
    exact munchWord_stop (c :: text) rest hstop
  simp only [if_neg hword] at hends ⊢
  by_cases hdigit : c.isDigit = true
  · simp only [if_pos hdigit]
    exact munchNumber_stop (c :: text) rest hstop
  simp only [if_neg hdigit] at hends ⊢
  by_cases hquote : c = '"'
  · simp only [if_pos hquote] at hends ⊢
    exact munchString_append text _ hends
  · simp only [if_neg hquote]
    exact munchSign_stop text rest hstop c

theorem munch_role_ne_blank {c : Char} (hblank : isBlank c = false) :
    (munch c text).role ≠ .blank := by
  unfold munch munchString munchSign
  simp only [hblank, Bool.false_eq_true, if_false]
  repeat' split
  all_goals simp [munchWord, munchNumber]

end Token

namespace Position

def down (n : Nat) (p : Position) : Position := ⟨p.line + n, p.column⟩

theorem after_down (n : Nat) (p : Position) (text : List Char) :
    (p.down n).after text = (p.after text).down n := by
  induction text generalizing p with
  | nil => rfl
  | cons c text ih =>
    have hnext : (p.down n).next c = (p.next c).down n := by
      unfold next down
      split
      · simp only [Nat.add_right_comm]
      · rfl
    rw [after_cons, after_cons, hnext, ih]

end Position

namespace Piece

def isVisible (q : Piece) : Bool := q.role ≠ .blank

/-- The pieces of a text at a place that are no blanks. -/
def visible (p : Position) (text : List Char) : List Piece := (ofText p text).filter isVisible

variable (p : Position) {c : Char} (text rest : List Char)

theorem visible_nil : visible p [] = [] := by
  rw [visible, ofText_nil]
  rfl

theorem visible_blank (hc : Token.isBlank c = true) :
    visible p (c :: text) = visible (p.next c) text := by
  have hmunch (d : Char) (text : List Char) (hd : Token.isBlank d = true) :
      Token.munch d text = ⟨.blank, d :: text.takeWhile Token.isBlank,
        text.dropWhile Token.isBlank⟩ := by
    simp [Token.munch, hd]
  have hfirst : visible p (c :: text) = visible ((p.next c).after (text.takeWhile Token.isBlank))
      (text.dropWhile Token.isBlank) := by
    rw [visible, ofText_cons, hmunch c text hc]
    rfl
  cases text with
  | nil => exact hfirst
  | cons d text =>
    by_cases hd : Token.isBlank d = true
    · rw [hfirst, visible, visible, ofText_cons, hmunch d text hd]
      simp [hd, isVisible]
    · rw [hfirst]
      simp [hd]

theorem visible_munched (hc : Token.isBlank c = false) :
    visible p (c :: text) =
      ⟨(Token.munch c text).role, (Token.munch c text).text, p⟩ ::
        visible (p.after (Token.munch c text).text) (Token.munch c text).rest := by
  have hrole := Token.munch_role_ne_blank text hc
  rw [visible, ofText_cons, List.filter_cons_of_pos]
  · rfl
  · simpa [isVisible] using hrole

/-- Behind a line feed the pieces are those that stand there by themselves. -/
theorem visible_append (hends : ∀ q ∈ visible p text, q.role ≠ .unterminated) :
    visible p (text ++ '\n' :: rest) =
      visible p text ++ visible (p.after text) ('\n' :: rest) := by
  induction hn : text.length using Nat.strongRecOn generalizing p text with
  | ind n ih =>
    cases text with
    | nil =>
      rw [visible_nil]
      rfl
    | cons c text =>
      by_cases hc : Token.isBlank c = true
      · rw [visible_blank p text hc] at hends ⊢
        rw [List.cons_append, visible_blank p _ hc, Position.after_cons]
        exact ih text.length (by simp [← hn]) _ text hends rfl
      · have hc : Token.isBlank c = false := by simpa using hc
        rw [visible_munched p text hc] at hends ⊢
        have hrole := hends _ List.mem_cons_self
        have hrest := fun q hq => hends q (List.mem_cons_of_mem _ hq)
        have hsplit := Token.munch_split c text
        have hlength := Token.munch_rest_length c text
        have hstop := Token.munch_stop text rest (b := '\n') (by decide) hc hrole fun _ => rfl
        rw [List.cons_append, visible_munched p _ hc, hstop, ← hsplit, Position.after_append,
          List.cons_append]
        simp only [Munched.before]
        rw [ih _ (hn ▸ hlength) _ _ hrest rfl]

def renumber (φ : Nat → Nat) (q : Piece) : Piece :=
  { q with position := ⟨φ q.position.line, q.position.column⟩ }

theorem ofText_down (n : Nat) :
    ofText (p.down n) text = (ofText p text).map (renumber (· + n)) := by
  fun_induction ofText p text with
  | case1 => rw [ofText_nil, List.map_nil]
  | case2 p c text m ih =>
    rw [ofText_cons, List.map_cons, Position.after_down]
    exact congrArg _ ih

theorem visible_down (n : Nat) :
    visible (p.down n) text = (visible p text).map (renumber (· + n)) := by
  rw [visible, ofText_down, List.filter_map]
  rfl

theorem token?_renumber (φ : Nat → Nat) (q : Piece) :
    (q.renumber φ).token? = q.token?.map (Token.renumber φ) := by
  unfold token? renumber
  cases q.role <;> rfl

theorem error?_renumber (φ : Nat → Nat) (q : Piece) :
    (q.renumber φ).error? = q.error?.map (StaticError.renumber φ) := by
  unfold error? renumber
  cases q.role <;> rfl

theorem filterMap_visible {α : Type} {f : Piece → Option α}
    (hf : ∀ q, q.role = .blank → f q = none) :
    (ofText p text).filterMap f = (visible p text).filterMap f := by
  have hseen : (fun q => if isVisible q then f q else none) = f := by
    funext q
    by_cases hq : q.role = .blank
    · rw [hf q hq, ite_self]
    · simp [isVisible, hq]
  rw [visible, List.filterMap_filter, hseen]

theorem filterMap_moved {α : Type} {move : Piece → Piece} {f : Piece → Option α} {g : α → α}
    (hf : ∀ q, f (move q) = (f q).map g) (pieces : List Piece) :
    (pieces.map move).filterMap f = (pieces.filterMap f).map g := by
  rw [List.filterMap_map, List.map_filterMap, Function.comp_def]
  simp only [hf]

end Piece

/-- How many lines further down a text begins when it stands behind this one and a line feed. -/
def Text.height (text : String) : Nat := text.toList.count '\n' + 1

namespace Scan
variable {first second : String}

theorem tokens_of_visible (text : String) :
    (ofText text).tokens = (Piece.visible .start text.toList).filterMap Piece.token? :=
  Piece.filterMap_visible _ _ fun q hq => by rw [Piece.token?, hq]

theorem errors_of_visible (text : String) :
    (ofText text).errors = (Piece.visible .start text.toList).filterMap Piece.error? :=
  Piece.filterMap_visible _ _ fun q hq => by rw [Piece.error?, hq]

/-- Every string of the text has its end. -/
def Closed (s : Scan) : Prop := ∀ e ∈ s.errors, e.problem ≠ .unterminatedString

theorem closed_of_errors {s : Scan} (h : s.errors = []) : s.Closed := by
  intro e he
  rw [h] at he
  cases he

theorem Closed.visible (h : (ofText first).Closed) :
    ∀ q ∈ Piece.visible .start first.toList, q.role ≠ .unterminated := by
  intro q hq hrole
  refine h ⟨q.position.line, .somewhere, .unterminatedString⟩ ?_ rfl
  rw [errors_of_visible]
  exact List.mem_filterMap.2 ⟨q, hq, by rw [Piece.error?, hrole]⟩

theorem visible_join (h : (ofText first).Closed) :
    Piece.visible .start (first ++ "\n" ++ second).toList =
      Piece.visible .start first.toList ++
        (Piece.visible .start second.toList).map (Piece.renumber (· + Text.height first)) := by
  have hplace : (Position.start.after first.toList).next '\n' =
      Position.start.down (Text.height first) := by
    have hafter : Position.start.after first.toList = .behind first.toList :=
      Position.after_behind [] first.toList
    rw [hafter, Position.next_behind]
    simp [Position.behind, Position.down, Position.start, Text.height]
  have htext : (first ++ "\n" ++ second).toList = first.toList ++ '\n' :: second.toList := by
    simp
  rw [htext, Piece.visible_append _ _ _ h.visible, Piece.visible_blank _ _ (by decide), hplace,
    Piece.visible_down]

/-- Two texts with a line feed between them hold the tokens of the one and then, so many lines
further down, those of the other. -/
theorem tokens_join (h : (ofText first).Closed) :
    (ofText (first ++ "\n" ++ second)).tokens = (ofText first).tokens ++
      (ofText second).tokens.map (Token.renumber (· + Text.height first)) := by
  simp only [tokens_of_visible, visible_join h, List.filterMap_append]
  rw [Piece.filterMap_moved (Piece.token?_renumber _)]

theorem errors_join (h : (ofText first).errors = []) :
    (ofText (first ++ "\n" ++ second)).errors =
      (ofText second).errors.map (StaticError.renumber (· + Text.height first)) := by
  rw [errors_of_visible, visible_join (closed_of_errors h), List.filterMap_append,
    ← errors_of_visible first, h, List.nil_append, Piece.filterMap_moved (Piece.error?_renumber _),
    ← errors_of_visible]

end Scan
end Lox
