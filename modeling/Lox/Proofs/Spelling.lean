import Lox.Proofs.Conduct
import Lox.Token.Scan

/-! Spelling. The tokens of a text are spelled like their kinds: no name is a keyword, and each
keyword is written with its own word. So the names in the trees of a text are never keywords. -/

namespace Lox
namespace Token

/-- Words have the kind that their letters give them. -/
def Spelled (t : Token) : Prop :=
  t.kind = .identifier ∨ (∃ w, t.kind = .keyword w) → Kind.ofWord t.lexeme = t.kind

theorem lexeme_ne_of_names {t : Token} (h : t.Names Spelled) {word : String} {w : Keyword}
    (hw : Kind.ofWord word = .keyword w) : t.lexeme ≠ word := by
  intro he
  have hk := h.good (Or.inl h.kind)
  rw [he, hw, h.kind] at hk
  cases hk

theorem lexeme_ne_this {t : Token} (h : t.Names Spelled) : t.lexeme ≠ "this" :=
  lexeme_ne_of_names h (w := .this) rfl

theorem lexeme_ne_super {t : Token} (h : t.Names Spelled) : t.lexeme ≠ "super" :=
  lexeme_ne_of_names h (w := .super) rfl

end Token

namespace Kind

theorem mem_words_of_ofWord {word : String} {w : Keyword} (h : ofWord word = keyword w) :
    (word, keyword w) ∈ words := by
  unfold ofWord at h
  cases hl : words.lookup word with
  | none => rw [hl] at h; cases h
  | some k =>
    rw [hl] at h
    cases h
    obtain ⟨l₁, l₂, he, -⟩ := List.lookup_eq_some_iff.1 hl
    rw [he]
    simp

theorem eq_this_of_ofWord {word : String} (h : ofWord word = keyword .this) : word = "this" := by
  simpa [words] using mem_words_of_ofWord h

theorem eq_super_of_ofWord {word : String} (h : ofWord word = keyword .super) : word = "super" := by
  simpa [words] using mem_words_of_ofWord h

end Kind

namespace Token

theorem lexeme_this {t : Token} (h : t.Spelled) (hk : t.kind = .keyword .this) :
    t.lexeme = "this" :=
  Kind.eq_this_of_ofWord ((h (.inr ⟨_, hk⟩)).trans hk)

theorem lexeme_super {t : Token} (h : t.Spelled) (hk : t.kind = .keyword .super) :
    t.lexeme = "super" :=
  Kind.eq_super_of_ofWord ((h (.inr ⟨_, hk⟩)).trans hk)

end Token

namespace Kind

/-- Neither names nor keywords. -/
def isSign : Kind → Bool
  | identifier | keyword _ => false
  | _ => true

theorem isSign_of_lookup_signs {c : Char} {k : Kind} (h : signs.lookup c = some k) : k.isSign := by
  obtain ⟨l₁, l₂, he, -⟩ := List.lookup_eq_some_iff.1 h
  have hm : (c, k) ∈ signs := by rw [he]; simp
  have hall : ∀ p ∈ signs, p.2.isSign := by decide
  exact hall _ hm

theorem isSign_of_lookup_extensibleSigns {c : Char} {p : Kind × Kind}
    (h : extensibleSigns.lookup c = some p) : p.1.isSign ∧ p.2.isSign := by
  obtain ⟨l₁, l₂, he, -⟩ := List.lookup_eq_some_iff.1 h
  have hm : (c, p) ∈ extensibleSigns := by rw [he]; simp
  have hall : ∀ q ∈ extensibleSigns, q.2.1.isSign ∧ q.2.2.isSign := by decide
  exact hall _ hm

end Kind

namespace Token

theorem isSign_of_munchNumber {text : List Char} {k : Kind}
    (h : (munchNumber text).role = .token k) : k.isSign := by
  cases h
  rfl

theorem isSign_of_munchString {text : List Char} {k : Kind}
    (h : (munchString text).role = .token k) : k.isSign := by
  unfold munchString at h
  split at h <;> cases h
  rfl

theorem isSign_of_munchSign {c : Char} {text : List Char} {k : Kind}
    (h : (munchSign c text).role = .token k) : k.isSign := by
  unfold munchSign at h
  split at h
  · next alone paired he =>
    have hs := Kind.isSign_of_lookup_extensibleSigns he
    split at h <;> cases h
    · exact hs.2
    · exact hs.1
  · split at h <;> cases h
    exact Kind.isSign_of_lookup_signs ‹_›

theorem munch_word {c : Char} {text : List Char} {k : Kind} (h : (munch c text).role = .token k)
    (hk : k.isSign = false) : Kind.ofWord (String.ofList (munch c text).text) = k := by
  unfold munch at h ⊢
  split at h
  · cases h
  split at h
  · cases h
  split at h
  · next hb hc hw =>
    cases h
    simp [hb, hc, hw, munchWord]
  split at h
  · rw [isSign_of_munchNumber h] at hk; cases hk
  split at h
  · rw [isSign_of_munchString h] at hk; cases hk
  · rw [isSign_of_munchSign h] at hk; cases hk

end Token

theorem Piece.token?_spelled {p : Position} {text : List Char} {piece : Piece} {t : Token}
    (hp : piece ∈ ofText p text) (ht : piece.token? = some t) : t.Spelled := by
  fun_induction ofText p text with
  | case1 => cases hp
  | case2 p c text m ih =>
    rcases List.mem_cons.1 hp with rfl | hp
    · intro hk
      unfold token? at ht
      split at ht <;> cases ht
      next k hr =>
      refine Token.munch_word hr ?_
      rcases hk with hk | ⟨w, hk⟩ <;> (cases hk; rfl)
    · exact ih hp

theorem Scan.ofText_spelled (text : String) : ∀ t ∈ (Scan.ofText text).tokens, t.Spelled := by
  intro t ht
  obtain ⟨piece, hp, he⟩ := List.mem_filterMap.1 ht
  exact Piece.token?_spelled hp he

def Conduct.any : Conduct where
  goes _ _ := True
  fails _ _ := True
  refl _ := trivial
  trans _ _ := trivial
  fails_of_goes _ _ := trivial
  takes _ _ _ := trivial
  protests _ _ _ := trivial
  stops _ _ := trivial

namespace Parse
variable {T : Token → Prop} {tokens : List Token}

theorem program_apt (h : ∀ t ∈ tokens, T t) : Stmt.AptList T (Parse.program tokens).value := by
  have hn := (Parser.conforms_nested (c := .any) (T := T) (fun _ _ _ => trivial)
    tokens.length).declaration
  have hp := Parser.conforms_program hn tokens.length ⟨tokens, []⟩ h
  unfold Parse.program EStateM.run
  cases he : Parser.program (Parser.nestedDeclaration tokens.length) tokens.length ⟨tokens, []⟩ with
  | ok ss s => simp only [he] at hp ⊢; exact hp.2.2
  | error e s => simp only [he]; trivial

theorem program_regular (h : ∀ t ∈ tokens, T t) :
    Stmt.RegularList T (Parse.program tokens).value :=
  Stmt.regularList_of_aptList _ (program_apt h)

theorem expression_regular (h : ∀ t ∈ tokens, T t) :
    Expr.Regular? T (Parse.expression tokens).value := by
  have hp := Parser.conforms_soleExpression (c := .any) tokens.length ⟨tokens, []⟩ h
  intro e' he'
  unfold Parse.expression EStateM.run at he'
  cases he : Parser.soleExpression tokens.length ⟨tokens, []⟩ with
  | ok e s => simp only [he] at hp he'; cases he'; exact Expr.regular_of_apt _ hp.2.2
  | error e s => simp only [he] at he'; cases he'

end Parse
end Lox
