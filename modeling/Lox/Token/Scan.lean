import Lox.Token.Munch
import Lox.Problem
/-!
Texts as tokens. A text is cut into pieces that tile it; the tokens and the lexical errors are
read off the pieces.
-/
namespace Lox

structure Piece where
  role : Role
  text : List Char
  position : Position

namespace Piece

def ofText (p : Position) : List Char → List Piece
  | [] => []
  | c :: text =>
    let m := Token.munch c text
    ⟨m.role, m.text, p⟩ :: ofText (p.after m.text) m.rest
termination_by text => text.length
decreasing_by exact Token.munch_rest_length c text

theorem ofText_nil (p : Position) : ofText p [] = [] := by rw [ofText]

theorem ofText_cons (p : Position) (c : Char) (text : List Char) :
    ofText p (c :: text) =
      ⟨(Token.munch c text).role, (Token.munch c text).text, p⟩ ::
        ofText (p.after (Token.munch c text).text) (Token.munch c text).rest := by
  rw [ofText]

/-- Joined in order, the pieces are the text. -/
theorem flatMap_text_ofText (p : Position) (text : List Char) :
    (ofText p text).flatMap Piece.text = text := by
  fun_induction ofText p text with
  | case1 => rfl
  | case2 p c text m ih => simpa [ih] using Token.munch_split c text

def token? (p : Piece) : Option Token :=
  match p.role with
  | .token kind => some ⟨kind, String.ofList p.text, p.position⟩
  | _ => none

def error? (p : Piece) : Option StaticError :=
  match p.role with
  | .unexpected => some ⟨p.position.line, .somewhere, .unexpectedCharacter⟩
  | .unterminated => some ⟨p.position.line, .somewhere, .unterminatedString⟩
  | _ => none

end Piece

structure Scan where
  tokens : List Token
  errors : List StaticError
  finish : Position

def Scan.ofText (text : String) : Scan :=
  let pieces := Piece.ofText .start text.toList
  ⟨pieces.filterMap Piece.token?, pieces.filterMap Piece.error?, Position.start.after text.toList⟩

end Lox
