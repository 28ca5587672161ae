import Lox.Proofs.Lexemes
import Lox.Token.Scan

/-! Texts tiled by tokens. A tiling lays tokens over a text, each as long as any that could stand
there, and leaves nothing between them but blanks, comments and what it complains about. A scan is
the tiling of its text, and each of its places is that of the text in front. -/

namespace Lox

/-- The place behind a text: one line further for each line feed, and the column counted from the
last of them. -/
def Position.behind (text : List Char) : Position :=
  ⟨1 + text.count '\n', 1 + (text.reverse.takeWhile (· ≠ '\n')).length⟩

theorem Position.next_behind (before : List Char) (c : Char) :
    (behind before).next c = behind (before ++ [c]) := by
  by_cases hc : c = '\n'
  · simp [next, behind, hc]
    omega
  · simp [next, behind, hc, Nat.add_comm]

theorem Position.after_behind (before text : List Char) :
    (behind before).after text = behind (before ++ text) := by
  induction text generalizing before with
  | nil => simp
  | cons c text ih => rw [after_cons, next_behind, ih, List.append_assoc, List.singleton_append]

/-- Behind the text `before`, the tokens and the errors are those of what is left. -/
inductive Tiling : (before left : List Char) → List Token → List StaticError → Prop
  | done {before : List Char} : Tiling before [] [] []
  | blank {before left : List Char} {ts : List Token} {es : List StaticError} {c : Char}
    (blank : c = ' ' ∨ c = '\t' ∨ c = '\r' ∨ c = '\n') (rest : Tiling (before ++ [c]) left ts es) :
    Tiling before (c :: left) ts es
  | comment {before body left : List Char} {ts : List Token} {es : List StaticError}
    (inside : '\n' ∉ body) (ends : ∀ c ∈ left.head?, c = '\n')
    (rest : Tiling (before ++ '/' :: '/' :: body) left ts es) :
    Tiling before ('/' :: '/' :: body ++ left) ts es
  | token {before lexeme left : List Char} {ts : List Token} {es : List StaticError} {kind : Kind}
    (written : kind.Written lexeme) (longest : Kind.Longest lexeme (lexeme ++ left))
    (apart : ¬['/', '/'] <+: lexeme ++ left) (rest : Tiling (before ++ lexeme) left ts es) :
    Tiling before (lexeme ++ left) (⟨kind, String.ofList lexeme, .behind before⟩ :: ts) es
  | unexpected {before left : List Char} {ts : List Token} {es : List StaticError} {c : Char}
    (blank : Token.isBlank c = false) (quote : c ≠ '"') (none_ : Kind.NoneBegins (c :: left))
    (rest : Tiling (before ++ [c]) left ts es) :
    Tiling before (c :: left) ts
      (⟨(Position.behind before).line, .somewhere, .unexpectedCharacter⟩ :: es)
  | unterminated {before left : List Char} (none_ : Kind.NoneBegins ('"' :: left)) :
    Tiling before ('"' :: left) []
      [⟨(Position.behind before).line, .somewhere, .unterminatedString⟩]

namespace Tiling
variable {before left run : List Char} {ts : List Token} {es : List StaticError}

theorem blanks (hrun : ∀ c ∈ run, Token.isBlank c = true)
    (rest : Tiling (before ++ run) left ts es) : Tiling before (run ++ left) ts es := by
  induction run generalizing before with
  | nil => simpa using rest
  | cons c run ih =>
    have hc := hrun c List.mem_cons_self
    apply Tiling.blank
    · simpa [Token.isBlank, or_assoc] using hc
    · apply ih
      · intro d hd
        exact hrun d (List.mem_cons_of_mem c hd)
      · simpa using rest

theorem of_nil (h : Tiling before [] ts es) : ts = [] ∧ es = [] := by
  generalize hleft : ([] : List Char) = left at h
  cases h with
  | done => exact ⟨rfl, rfl⟩
  | token written =>
    have hlexeme := (List.append_eq_nil_iff.1 hleft.symm).1
    exact absurd hlexeme (Token.ne_nil_of_written written)
  | blank => cases hleft
  | comment => cases hleft
  | unexpected => cases hleft
  | unterminated => cases hleft

/-- Taking a piece off the front of a text lays the next tile. -/
theorem munched {text : List Char} {m : Munched} {pieces : List Piece}
    (taken : Token.Taken text m) (hsplit : m.text ++ m.rest = text)
    (rest : Tiling (before ++ m.text) m.rest (pieces.filterMap Piece.token?)
      (pieces.filterMap Piece.error?)) :
    let all : List Piece := ⟨m.role, m.text, .behind before⟩ :: pieces
    Tiling before text (all.filterMap Piece.token?) (all.filterMap Piece.error?) := by
  subst hsplit
  cases taken with
  | blank hblanks => exact blanks hblanks rest
  | comment inside ends => exact .comment inside ends rest
  | token written longest apart => exact .token written longest apart rest
  | unexpected none_ blank quote => exact .unexpected blank quote none_ rest
  | unterminated none_ =>
    obtain ⟨htokens, herrors⟩ := of_nil rest
    rw [List.append_nil] at none_ ⊢
    show Tiling before _ (pieces.filterMap Piece.token?) (_ :: pieces.filterMap Piece.error?)
    rw [htokens, herrors]
    exact .unterminated none_

theorem pieces (before text : List Char) :
    Tiling before text ((Piece.ofText (.behind before) text).filterMap Piece.token?)
      ((Piece.ofText (.behind before) text).filterMap Piece.error?) := by
  generalize hp : Position.behind before = p
  fun_induction Piece.ofText p text generalizing before with
  | case1 => exact .done
  | case2 p c text m ih =>
    subst hp
    have hrest := ih (before ++ m.text) (Position.after_behind before m.text).symm
    exact munched (Token.munch_taken c text) (Token.munch_split c text) hrest

theorem lexeme_ne_empty (h : Tiling before left ts es) : ∀ t ∈ ts, t.lexeme ≠ "" := by
  induction h with
  | done => simp
  | blank _ _ ih => exact ih
  | comment _ _ _ ih => exact ih
  | token written _ _ _ ih =>
    intro t ht
    rcases List.mem_cons.1 ht with rfl | ht
    · simpa using Token.ne_nil_of_written written
    · exact ih t ht
  | unexpected _ _ _ _ ih => exact ih
  | unterminated => simp

end Tiling

/-- A scan tiles its text, and it ends where the text does. -/
theorem Scan.ofText_tiling (text : String) :
    Tiling [] text.toList (Scan.ofText text).tokens (Scan.ofText text).errors ∧
      (∀ t ∈ (Scan.ofText text).tokens, t.lexeme ≠ "") ∧
      (Scan.ofText text).finish = .behind text.toList := by
  have htiling := Tiling.pieces [] text.toList
  exact ⟨htiling, htiling.lexeme_ne_empty, Position.after_behind [] text.toList⟩

end Lox
