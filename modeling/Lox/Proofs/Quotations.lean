import Lox.Proofs.Tiling

/-! Quotations. A text can be quoted in many ways, since a character may stand for itself or be
escaped. Each of them is scanned as one string that stands for the text, and scanning goes on just
behind its closing quote. -/

namespace Lox
namespace Token

/-- What can be escaped, and the letter that is written for it behind the backslash. -/
def escapes : List (Char × Char) := [('\n', 'n'), ('\t', 't'), ('"', '"'), ('\\', '\\')]

/-- The text may be written so between quotes: a quote or a backslash has to be escaped, a line feed
or a tab can be. -/
inductive Encodes : (value body : List Char) → Prop
  | nil : Encodes [] []
  | plain {c : Char} {value body : List Char} (quote : c ≠ '"') (backslash : c ≠ '\\')
    (rest : Encodes value body) : Encodes (c :: value) (c :: body)
  | escaped {c letter : Char} {value body : List Char} (listed : (c, letter) ∈ escapes)
    (rest : Encodes value body) : Encodes (c :: value) ('\\' :: letter :: body)

theorem escape_of_listed {c letter : Char} (h : (c, letter) ∈ escapes) : escape letter = c := by
  have hall : ∀ p ∈ escapes, escape p.2 = p.1 := by decide
  exact hall _ h

theorem encodes_exists (value : List Char) : ∃ body, Encodes value body := by
  induction value with
  | nil => exact ⟨[], .nil⟩
  | cons c value ih =>
    obtain ⟨body, hbody⟩ := ih
    by_cases hquote : c = '"'
    · have hlisted : (c, '"') ∈ escapes := by
        rw [hquote]
        decide
      exact ⟨_, .escaped hlisted hbody⟩
    by_cases hbackslash : c = '\\'
    · have hlisted : (c, '\\') ∈ escapes := by
        rw [hbackslash]
        decide
      exact ⟨_, .escaped hlisted hbody⟩
    exact ⟨_, .plain hquote hbackslash hbody⟩

namespace Encodes
variable {value body : List Char}

theorem quotable (h : Encodes value body) : Quotable body := by
  induction h with
  | nil => exact .nil
  | plain quote backslash _ ih => exact .plain quote backslash ih
  | escaped _ _ ih => exact .escaped _ ih

theorem decode_eq (h : Encodes value body) : decode body = value := by
  induction h with
  | nil => rfl
  | @plain c value body _ backslash _ ih =>
    have hstep : decode (c :: body) = c :: decode body := by
      rw [decode]
      exact fun _ _ hc _ => backslash hc
    rw [hstep, ih]
  | escaped listed _ ih => rw [decode, escape_of_listed listed, ih]

end Encodes

end Token

theorem Piece.ofText_quoted {body : List Char} (inside : Quotable body) (p : Position)
    (rest : List Char) :
    let lexeme := '"' :: (body ++ ['"'])
    ofText p (lexeme ++ rest) =
      ⟨.token (.literal (.string (String.ofList (Token.decode body)))), lexeme, p⟩ ::
        ofText (p.after lexeme) rest := by
  intro lexeme
  have htext : lexeme ++ rest = '"' :: (body ++ '"' :: rest) := by simp [lexeme]
  have hmunch : Token.munch '"' (body ++ '"' :: rest) = Token.munchString (body ++ '"' :: rest) :=
    rfl
  rw [htext, ofText_cons, hmunch, Token.munchString_closed inside]

/-- Every text can be quoted. However it is, and whatever stands around it, the quotation is scanned
as one string that stands for the text; nothing is reported for it, and scanning goes on behind
its closing quote, as many lines further as it holds line feeds. -/
theorem Scan.ofText_encoded (value : List Char) :
    (∃ body, Token.Encodes value body) ∧
      ∀ body, Token.Encodes value body → ∀ before rest : List Char,
        let kind := Kind.literal (.string (String.ofList value))
        let lexeme := '"' :: (body ++ ['"'])
        let behind := Piece.ofText (.behind lexeme) rest
        Piece.ofText (.behind before) (lexeme ++ rest) =
            ⟨.token kind, lexeme, .behind before⟩ ::
              Piece.ofText (.behind (before ++ lexeme)) rest ∧
          Scan.ofText (String.ofList (lexeme ++ rest)) =
            ⟨⟨kind, String.ofList lexeme, .start⟩ :: behind.filterMap Piece.token?,
              behind.filterMap Piece.error?, .behind (lexeme ++ rest)⟩ := by
  refine ⟨Token.encodes_exists value, fun body h before rest => ?_⟩
  intro kind lexeme behind
  have hpieces (before : List Char) : Piece.ofText (.behind before) (lexeme ++ rest) =
      ⟨.token kind, lexeme, .behind before⟩ :: Piece.ofText (.behind (before ++ lexeme)) rest := by
    rw [Piece.ofText_quoted h.quotable, h.decode_eq, Position.after_behind]
  have hfinish : Position.start.after (lexeme ++ rest) = .behind (lexeme ++ rest) :=
    Position.after_behind [] (lexeme ++ rest)
  refine ⟨hpieces before, ?_⟩
  have hstart : Piece.ofText .start (lexeme ++ rest) =
      ⟨.token kind, lexeme, .start⟩ :: behind := hpieces []
  rw [ofText, String.toList_ofList, hstart, hfinish]
  rfl

/-- A line feed that is written as it is, and a backslash in front of a quote. -/
theorem Scan.ofText_backslashes :
    Token.Encodes ['\n', '\\', '"'] ['\n', '\\', '\\', '\\', '"'] ∧
      (ofText "\"\n\\\\\\\"\" //").tokens =
        [⟨.literal (.string "\n\\\""), "\"\n\\\\\\\"\"", .start⟩] ∧
      (ofText "\"\n\\\\\\\"\" //").errors = [] := by
  have hencodes : Token.Encodes ['\n', '\\', '"'] ['\n', '\\', '\\', '\\', '"'] :=
    .plain (by decide) (by decide) (.escaped (by decide) (.escaped (by decide) .nil))
  have hscan := ((Scan.ofText_encoded ['\n', '\\', '"']).2 _ hencodes [] [' ', '/', '/']).2
  refine ⟨hencodes, (congrArg Scan.tokens hscan).trans ?_, (congrArg Scan.errors hscan).trans ?_⟩
  · decide +kernel
  · decide +kernel

end Lox
