import Lox.Token
import Lox.Number.Decimal
/-!
The longest piece at the front of a text. `munch` takes it off and says what it is; `munch_split`
says that what it took and what it left are the text.
-/
namespace Lox

inductive Role
  | blank
  | comment
  | token (kind : Kind)
  | unexpected
  | unterminated
deriving DecidableEq

structure Munched where
  role : Role
  text : List Char
  rest : List Char

namespace Token

def isBlank (c : Char) : Bool := c = ' ' || c = '\t' || c = '\r' || c = '\n'

/-- Only the letters of ASCII and the underscore begin a word. -/
def isWordStart (c : Char) : Bool := c.isAlpha || c = '_'

def isWordPart (c : Char) : Bool := isWordStart c || c.isDigit

/-- The characters up to the first quote that no backslash escapes, and those behind that
quote. -/
def closeString : List Char → Option (List Char × List Char)
  | [] => none
  | '"' :: text => some ([], text)
  | ['\\'] => none
  | '\\' :: c :: text => (closeString text).map fun (body, rest) => ('\\' :: c :: body, rest)
  | c :: text => (closeString text).map fun (body, rest) => (c :: body, rest)

/-- The character that a backslash and `c` stand for; any unknown `c` stands for itself. -/
def escape : Char → Char
  | 'n' => '\n'
  | 't' => '\t'
  | c => c

/-- The text between the quotes of a string with its escapes replaced. -/
def decode : List Char → List Char
  | '\\' :: c :: text => escape c :: decode text
  | c :: text => c :: decode text
  | [] => []

/-- A point and the digits behind it, if at least one digit is; then what follows. -/
def splitFraction : List Char → List Char × List Char
  | '.' :: d :: text =>
    if d.isDigit then
      ('.' :: (d :: text).takeWhile Char.isDigit, (d :: text).dropWhile Char.isDigit)
    else ([], '.' :: d :: text)
  | text => ([], text)

/-- The double closest to the number written with these digits before and behind the point. -/
def numberOf (whole fraction : List Char) : Float :=
  Number.ofMagnitude false (Decimal.ofDigits whole fraction).magnitude

def munchNumber (text : List Char) : Munched :=
  let whole := text.takeWhile Char.isDigit
  let (point, rest) := splitFraction (text.dropWhile Char.isDigit)
  ⟨.token (.literal (.number (numberOf whole (point.drop 1)))), whole ++ point, rest⟩

def munchWord (text : List Char) : Munched :=
  let word := text.takeWhile isWordPart
  ⟨.token (Kind.ofWord (String.ofList word)), word, text.dropWhile isWordPart⟩

def munchString (text : List Char) : Munched :=
  match closeString text with
  | some (body, rest) =>
    ⟨.token (.literal (.string (String.ofList (decode body)))), '"' :: body ++ ['"'], rest⟩
  | none => ⟨.unterminated, '"' :: text, []⟩

def munchSign (c : Char) (text : List Char) : Munched :=
  match Kind.extensibleSigns.lookup c with
  | some (alone, paired) =>
    match text with
    | '=' :: rest => ⟨.token paired, [c, '='], rest⟩
    | _ => ⟨.token alone, [c], text⟩
  | none =>
    match Kind.signs.lookup c with
    | some kind => ⟨.token kind, [c], text⟩
    | none => ⟨.unexpected, [c], text⟩

def munch (c : Char) (text : List Char) : Munched :=
  if isBlank c then ⟨.blank, (c :: text).takeWhile isBlank, (c :: text).dropWhile isBlank⟩
  else if c = '/' ∧ text.head? = some '/' then
    ⟨.comment, (c :: text).takeWhile (· ≠ '\n'), (c :: text).dropWhile (· ≠ '\n')⟩
  else if isWordStart c then munchWord (c :: text)
  else if c.isDigit then munchNumber (c :: text)
  else if c = '"' then munchString text
  else munchSign c text

theorem closeString_split {text body rest : List Char} (h : closeString text = some (body, rest)) :
    body ++ '"' :: rest = text := by
  fun_induction closeString text generalizing body rest with
  | case1 => simp at h
  | case2 text => simp at h; simp [h]
  | case3 => simp at h
  | case4 c text ih =>
    obtain ⟨⟨b, r⟩, hb, he⟩ := Option.map_eq_some_iff.1 h
    cases he
    simp [ih hb]
  | case5 c text _ _ _ ih =>
    obtain ⟨⟨b, r⟩, hb, he⟩ := Option.map_eq_some_iff.1 h
    cases he
    simp [ih hb]

theorem splitFraction_split (text : List Char) :
    (splitFraction text).1 ++ (splitFraction text).2 = text := by
  fun_cases splitFraction text <;> simp [*]

theorem munchNumber_split (text : List Char) :
    (munchNumber text).text ++ (munchNumber text).rest = text := by
  simp [munchNumber, splitFraction_split]

theorem munchString_split (text : List Char) :
    (munchString text).text ++ (munchString text).rest = '"' :: text := by
  unfold munchString
  split
  · next body rest h => simp [← closeString_split h]
  · simp

theorem munchSign_split (c : Char) (text : List Char) :
    (munchSign c text).text ++ (munchSign c text).rest = c :: text := by
  unfold munchSign
  repeat' split
  all_goals simp

theorem munch_split (c : Char) (text : List Char) :
    (munch c text).text ++ (munch c text).rest = c :: text := by
  unfold munch
  repeat' split
  · exact List.takeWhile_append_dropWhile
  · exact List.takeWhile_append_dropWhile
  · exact List.takeWhile_append_dropWhile
  · exact munchNumber_split _
  · next h => subst h; exact munchString_split text
  · exact munchSign_split c text

theorem munch_text_ne_nil (c : Char) (text : List Char) : (munch c text).text ≠ [] := by
  unfold munch
  split
  · next h => simp [h]
  split
  · next h => simp [h.1]
  split
  · next h => simp [munchWord, isWordPart, h]
  split
  · next h => simp [munchNumber, h]
  split
  · unfold munchString; split <;> simp
  · unfold munchSign; repeat' split
    all_goals simp

theorem munch_rest_length (c : Char) (text : List Char) :
    (munch c text).rest.length < (c :: text).length := by
  have h := congrArg List.length (munch_split c text)
  have hp := List.length_pos_iff.2 (munch_text_ne_nil c text)
  simp only [List.length_append] at h
  omega

end Token
end Lox
