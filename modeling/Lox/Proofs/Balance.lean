import Lox.Proofs.Joining
import Lox.Session.Dialogue
import Mathlib.Algebra.Ring.Int.Defs

/-! The braces of a line. Counted character by character, they are those of its tokens, even where
a string has no end; counted line by line, they are those of the tokens of all lines together, as
no token goes on over the end of a line whose strings are closed. -/

namespace Lox

/-- How many levels deeper a text is behind a token of this kind. -/
def Kind.braces : Kind → Int
  | leftBrace => 1
  | rightBrace => -1
  | _ => 0

def Role.braces : Role → Int
  | token kind => kind.braces
  | _ => 0

namespace Token

/-- The opening less the closing braces. -/
def openBraces (ts : List Token) : Int :=
  ts.countP (·.kind = .leftBrace) - ts.countP (·.kind = .rightBrace)

theorem openBraces_cons (t : Token) (ts : List Token) :
    openBraces (t :: ts) = t.kind.braces + openBraces ts := by
  unfold openBraces Kind.braces
  rw [List.countP_cons, List.countP_cons]
  cases t.kind
  all_goals simp
  all_goals omega

theorem openBraces_append (ts us : List Token) :
    openBraces (ts ++ us) = openBraces ts + openBraces us := by
  unfold openBraces
  rw [List.countP_append, List.countP_append]
  omega

theorem openBraces_renumber (φ : Nat → Nat) (ts : List Token) :
    openBraces (ts.map (renumber φ)) = openBraces ts := by
  unfold openBraces
  rw [List.countP_map, List.countP_map]
  rfl

end Token

namespace Braces
open Token
variable {c : Char} {text l rest : List Char} {kind : Kind}

/-- The characters that the count of a line minds. -/
def marks : List Char := ['"', '/', '{', '}']

theorem not_mem_marks_of {p : Char → Bool} (hp : marks.all (!p ·) = true) (h : p c = true) :
    c ∉ marks := by
  intro hmem
  have hfalse := List.all_eq_true.1 hp c hmem
  rw [h] at hfalse
  cases hfalse

theorem not_mem_marks_of_isBlank (h : isBlank c = true) : c ∉ marks :=
  not_mem_marks_of (p := isBlank) (by decide) h

theorem not_mem_marks_of_isWordPart (h : isWordPart c = true) : c ∉ marks :=
  not_mem_marks_of (p := isWordPart) (by decide) h

theorem not_mem_marks_of_isDigit (h : c.isDigit = true) : c ∉ marks :=
  not_mem_marks_of_isWordPart (by rw [isWordPart, h, Bool.or_true])

theorem braceBalance_slash (h : text.head? ≠ some '/') :
    braceBalance ('/' :: text) = braceBalance text := by
  cases text with
  | nil => rfl
  | cons d text =>
    have hd : d ≠ '/' := by simpa using h
    rw [braceBalance]
    all_goals simp [hd]

theorem braceBalance_unmarked (h : c ∉ marks) (text : List Char) :
    braceBalance (c :: text) = braceBalance text := by
  simp only [marks, List.mem_cons, List.not_mem_nil, or_false, not_or] at h
  obtain ⟨hquote, hslash, hopen, hclose⟩ := h
  rw [braceBalance]
  · exact fun _ h => absurd h hslash
  · exact hquote
  · exact hopen
  · exact hclose

theorem braceBalance_run (h : ∀ c ∈ l, c ∉ marks) (text : List Char) :
    braceBalance (l ++ text) = braceBalance text := by
  induction l with
  | nil => rfl
  | cons c l ih =>
    obtain ⟨hc, hl⟩ := List.forall_mem_cons.1 h
    rw [List.cons_append, braceBalance_unmarked hc, ih hl]

/-- Within a string nothing counts up to the quote that closes it. -/
theorem stringBraceBalance_eq (text : List Char) :
    stringBraceBalance text = ((closeString text).map fun p => braceBalance p.2).getD 0 := by
  fun_induction closeString text with
  | case1 => rfl
  | case2 text => rfl
  | case3 => rfl
  | case4 c text ih =>
    rw [stringBraceBalance, ih, Option.map_map]
    rfl
  | case5 c text hquote hend hescape ih =>
    rw [stringBraceBalance, ih, Option.map_map]
    · rfl
    · exact hquote
    · exact fun d line hc htext => hescape d line hc htext

theorem stringBraceBalance_closed {body : List Char} (h : Quotable body) (rest : List Char) :
    stringBraceBalance (body ++ '"' :: rest) = braceBalance rest := by
  rw [stringBraceBalance_eq, closeString_closed h]
  rfl

theorem stringBraceBalance_unterminated (h : Kind.NoneBegins ('"' :: text)) :
    stringBraceBalance text = 0 := by
  rw [stringBraceBalance_eq]
  cases hclose : closeString text with
  | none => rfl
  | some p =>
    obtain ⟨hbody, rfl⟩ := closeString_eq_some_iff.1 hclose
    refine absurd ?_ (h _ _ (.string hbody))
    exact ⟨p.2, by simp⟩

theorem marks_of_signs : ∀ p ∈ Kind.signs, p = ('{', .leftBrace) ∨ p = ('}', .rightBrace) ∨
    p = ('/', .slash) ∨ p.1 ∉ marks ∧ p.2.braces = 0 := by decide

theorem marks_of_extensibleSigns : ∀ p ∈ Kind.extensibleSigns,
    p.1 ∉ marks ∧ p.2.1.braces = 0 ∧ p.2.2.braces = 0 := by decide

theorem braceBalance_plain (hl : ∀ c ∈ l, c ∉ marks) (hzero : kind.braces = 0) :
    braceBalance (l ++ rest) = kind.braces + braceBalance rest := by
  rw [braceBalance_run hl, hzero, Int.zero_add]

theorem braceBalance_sign (h : (c, kind) ∈ Kind.signs) (happart : ¬['/', '/'] <+: c :: rest) :
    braceBalance (c :: rest) = kind.braces + braceBalance rest := by
  rcases marks_of_signs _ h with hp | hp | hp | ⟨hmark, hzero⟩
  · cases hp
    exact Int.add_comm _ _
  · cases hp
    rw [braceBalance]
    exact Int.sub_eq_add_neg.trans (Int.add_comm _ _)
  · cases hp
    rw [braceBalance_slash]
    · exact (Int.zero_add _).symm
    · intro hhead
      obtain ⟨more, rfl⟩ := List.head?_eq_some_iff.1 hhead
      exact happart ⟨more, rfl⟩
  · exact braceBalance_plain (List.forall_mem_singleton.2 hmark) hzero

/-- A token counts what its kind says, a slash only where it begins no comment. -/
theorem braceBalance_written (h : kind.Written l) (happart : ¬['/', '/'] <+: l ++ rest) :
    braceBalance (l ++ rest) = kind.braces + braceBalance rest := by
  cases h with
  | word listed =>
    have hwords : ∀ p ∈ Kind.words, p.2.braces = 0 := by decide
    obtain ⟨d, ds, hl, hd, hds⟩ := word_shape listed
    have hdpart : isWordPart d = true := by rw [isWordPart, hd]; rfl
    rw [hl]
    refine braceBalance_plain (List.forall_mem_cons.2 ⟨?_, ?_⟩) (hwords _ listed)
    · exact not_mem_marks_of_isWordPart hdpart
    · exact fun e he => not_mem_marks_of_isWordPart (hds e he)
  | name first others =>
    refine braceBalance_plain (List.forall_mem_cons.2 ⟨?_, ?_⟩) rfl
    · exact not_mem_marks_of_isWordPart ((isWordPart_iff _).2 (first.imp id .inl))
    · exact fun e he => not_mem_marks_of_isWordPart ((isWordPart_iff e).2 (others e he))
  | whole _ digits =>
    exact braceBalance_plain (fun d hd => not_mem_marks_of_isDigit (digits d hd)) rfl
  | fraction _ digits _ behind =>
    refine braceBalance_plain (List.forall_mem_append.2 ⟨?_, List.forall_mem_cons.2 ⟨?_, ?_⟩⟩) rfl
    · exact fun d hd => not_mem_marks_of_isDigit (digits d hd)
    · decide
    · exact fun d hd => not_mem_marks_of_isDigit (behind d hd)
  | string inside =>
    rw [List.cons_append, List.append_assoc, List.singleton_append, braceBalance,
      stringBraceBalance_closed inside]
    exact (Int.zero_add _).symm
  | sign listed => exact braceBalance_sign listed happart
  | alone listed =>
    obtain ⟨hmark, hzero, -⟩ := marks_of_extensibleSigns _ listed
    exact braceBalance_plain (List.forall_mem_singleton.2 hmark) hzero
  | paired listed =>
    obtain ⟨hmark, -, hzero⟩ := marks_of_extensibleSigns _ listed
    exact braceBalance_plain
      (List.forall_mem_cons.2 ⟨hmark, List.forall_mem_singleton.2 (by decide)⟩) hzero

theorem not_mem_marks_of_noneBegins (h : Kind.NoneBegins (c :: text)) (hquote : c ≠ '"') :
    c ∉ marks := by
  intro hmem
  have hlisted : marks.all fun d => d == '"' || (Kind.signs.lookup d).isSome := by decide
  rcases Bool.or_eq_true_iff.1 (List.all_eq_true.1 hlisted c hmem) with hc | hc
  · exact hquote (eq_of_beq hc)
  · obtain ⟨kind, hkind⟩ := Option.isSome_iff_exists.1 hc
    exact h kind [c] (.sign (mem_of_lookup hkind)) ⟨text, rfl⟩

/-- On one line, whatever is taken off the front counts what its role says. -/
theorem braceBalance_taken {m : Munched} (h : Taken (m.text ++ m.rest) m)
    (hline : '\n' ∉ m.text ++ m.rest) :
    braceBalance (m.text ++ m.rest) = m.role.braces + braceBalance m.rest := by
  cases h with
  | blank blanks =>
    rw [braceBalance_run fun d hd => not_mem_marks_of_isBlank (blanks d hd)]
    exact (Int.zero_add _).symm
  | @comment body rest inside ends =>
    have hrest : rest = [] := by
      cases rest with
      | nil => rfl
      | cons d rest =>
        cases ends d rfl
        exact absurd (List.mem_append_right _ List.mem_cons_self) hline
    subst hrest
    rfl
  | token written longest apart => exact braceBalance_written written apart
  | unexpected none_ _ quote =>
    rw [List.singleton_append] at none_ ⊢
    rw [braceBalance_unmarked (not_mem_marks_of_noneBegins none_ quote)]
    exact (Int.zero_add _).symm
  | unterminated none_ =>
    rw [List.append_nil] at none_ ⊢
    exact stringBraceBalance_unterminated none_

theorem openBraces_piece (q : Piece) (pieces : List Piece) :
    openBraces ((q :: pieces).filterMap Piece.token?) =
      q.role.braces + openBraces (pieces.filterMap Piece.token?) := by
  rw [List.filterMap_cons, Piece.token?]
  cases q.role with
  | token kind => exact openBraces_cons _ _
  | _ => exact (Int.zero_add _).symm

theorem openBraces_pieces (p : Position) (hline : '\n' ∉ text) :
    openBraces ((Piece.ofText p text).filterMap Piece.token?) = braceBalance text := by
  fun_induction Piece.ofText p text with
  | case1 => rfl
  | case2 p c text m ih =>
    have hsplit : m.text ++ m.rest = c :: text := munch_split c text
    rw [← hsplit] at hline
    have hrest := ih fun hmem => hline (List.mem_append_right _ hmem)
    rw [openBraces_piece, hrest, ← hsplit]
    exact (braceBalance_taken (hsplit ▸ munch_taken c text) hline).symm

end Braces

namespace Scan

theorem braceBalance_line {line : String} (hline : '\n' ∉ line.toList) :
    braceBalance line.toList = Token.openBraces (ofText line).tokens :=
  (Braces.openBraces_pieces .start hline).symm

/-- Only the last of the lines may end within a string. -/
theorem braceBalance_joined {lines : List String} (hlines : ∀ line ∈ lines, '\n' ∉ line.toList)
    (hclosed : ∀ line ∈ lines.dropLast, (ofText line).Closed) :
    (lines.map (braceBalance ·.toList)).sum =
      Token.openBraces (ofText ("\n".intercalate lines)).tokens := by
  induction lines with
  | nil => rw [String.intercalate_nil, ← braceBalance_line (by simp)]; rfl
  | cons line lines ih =>
    obtain ⟨hline, hlines⟩ := List.forall_mem_cons.1 hlines
    cases lines with
    | nil =>
      rw [String.intercalate_singleton, ← braceBalance_line hline]
      exact List.sum_singleton
    | cons next lines =>
      obtain ⟨hfirst, hothers⟩ := List.forall_mem_cons.1 hclosed
      rw [List.map_cons, List.sum_cons, ih hlines hothers, String.intercalate_cons_cons,
        tokens_join hfirst, Token.openBraces_append, Token.openBraces_renumber,
        braceBalance_line hline]

/-- Counted by its characters, the depth of an input is that of its tokens. -/
theorem braceBalance_eq :
    (∀ lines : List String, (∀ line ∈ lines, '\n' ∉ line.toList) →
      (∀ line ∈ lines, (ofText line).Closed) →
      (lines.map (braceBalance ·.toList)).sum =
        Token.openBraces (ofText ("\n".intercalate lines)).tokens) ∧
    ∀ line : String, '\n' ∉ line.toList →
      braceBalance line.toList = Token.openBraces (ofText line).tokens := by
  refine ⟨fun lines hlines hclosed => ?_, fun line hline => braceBalance_line hline⟩
  exact braceBalance_joined hlines fun line hline => hclosed line (List.dropLast_subset lines hline)

theorem quoted_braceBalance :
    let lines := ["fun f() \x7b // \x7b", "print \"\x7d\\\"\"; \x7d\x7d"]
    let line := "\x7b / print \"\x7d\\"
    (lines.map (braceBalance ·.toList)).sum =
        Token.openBraces (ofText ("\n".intercalate lines)).tokens ∧
      braceBalance line.toList = Token.openBraces (ofText line).tokens := by
  intro lines line
  have hclosed : ∀ line ∈ lines, (ofText line).errors = [] := by decide +kernel
  constructor
  · exact braceBalance_eq.1 lines (by decide) fun line hline =>
      closed_of_errors (hclosed line hline)
  · exact braceBalance_eq.2 line (by decide)

end Scan
end Lox
