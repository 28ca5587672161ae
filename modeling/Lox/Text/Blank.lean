/-!
Blank characters and line ends of a text.
-/
namespace Lox.Text

/-- The characters that count as blank at the ends of a line: the white space of Unicode and the
four separators from U+001C on. -/
def isBlank (c : Char) : Bool :=
  let n := c.toNat
  (0x9 ≤ n && n ≤ 0xd) || (0x1c ≤ n && n ≤ 0x20) || n == 0x85 || n == 0xa0 || n == 0x1680 ||
    (0x2000 ≤ n && n ≤ 0x200a) || n == 0x2028 || n == 0x2029 || n == 0x202f || n == 0x205f ||
    n == 0x3000

theorem isBlank_of_isWhitespace {c : Char} (h : c.isWhitespace = true) : isBlank c = true := by
  simp only [Char.isWhitespace, Bool.or_eq_true, decide_eq_true_eq] at h
  rcases h with ((rfl | rfl) | rfl) | rfl <;> decide

def trimmed (line : String) : String :=
  String.ofList ((line.toList.dropWhile isBlank).reverse.dropWhile isBlank).reverse

/-- One line feed for each line end, whether it was written as a carriage return, a line feed or
both. -/
def unifyLineEnds : List Char → List Char
  | [] => []
  | '\r' :: '\n' :: text => '\n' :: unifyLineEnds text
  | '\r' :: text => '\n' :: unifyLineEnds text
  | c :: text => c :: unifyLineEnds text

theorem not_mem_unifyLineEnds (text : List Char) : '\r' ∉ unifyLineEnds text := by
  fun_induction unifyLineEnds text with
  | case1 => simp
  | case2 text ih => simpa using ih
  | case3 text _ ih => simpa using ih
  | case4 c text _ h ih => simpa [ih] using Ne.symm h

/-- The lines of a text that follows the characters `current`, newest first, of its first line. -/
def linesFrom (current : List Char) : List Char → List (List Char)
  | [] => if current = [] then [] else [current.reverse]
  | '\n' :: text => current.reverse :: linesFrom [] text
  | c :: text => linesFrom (c :: current) text

/-- The lines of a text, each without its line feed. What follows the last line feed is a line
only if it holds a character. -/
def lines (text : String) : List String := (linesFrom [] text.toList).map String.ofList

end Lox.Text
