import Lox.Proofs.Formatting
import Lox.Proofs.Outlines
import Lox.Proofs.Relexing
import Lox.Proofs.Spelling

/-! The words of listings. Literals, strings apart, and tokens are what their texts say, and those
texts keep to a line. -/

namespace Lox

/-! ### Numbers in listings -/

namespace Notation
open Outline
variable {f : Notation} {k : Magnitude} {d : Decimal}

theorem unbroken_of_isDigit {ds : List Char} (h : ∀ c ∈ ds, c.isDigit = true) :
    Unbroken (String.ofList ds) := by
  rw [Unbroken, String.toList_ofList]
  exact fun hmem => absurd (h _ hmem) (by decide)

theorem unbroken_of_fixed {s : String} {q : ℚ} (h : Numeral.Fixed s.toList q) : Unbroken s := by
  intro hmem
  rcases h.chars _ hmem with h | h
  · exact absurd h (by decide)
  · exact absurd h (by decide)

theorem unbroken_exponent (e : Int) : Unbroken (listed.exponent e) := by
  have hdigits : ∀ c ∈ Nat.toDigits 10 e.natAbs, c.isDigit = true := fun _ hc =>
    Nat.isDigit_of_mem_toDigits (by decide) (by decide) hc
  have hsign : Unbroken (if e < 0 then "-" else listed.plusSign) := by
    split_ifs
    · simp [Unbroken]
    · simp [Unbroken, listed]
  refine .append (.append (by simp [Unbroken, listed]) hsign) (unbroken_of_isDigit ?_)
  exact List.forall_mem_append.2 ⟨isDigit_of_mem_replicate, hdigits⟩

theorem unbroken_decimal (hd : 0 < d.digits) : Unbroken (listed.decimal d) := by
  have hne := Decimal.significant_ne_nil hd
  rw [decimal_eq]
  split_ifs
  · exact unbroken_of_fixed
      (plain_fixed listed_standard.wholeEnd hne d.significant_isDigit d.place)
  · obtain ⟨s, hs, hfixed⟩ :=
      scientific_fixed listed_standard.digitEnd hne d.significant_isDigit d.place
    rw [hs]
    exact (unbroken_of_fixed hfixed).append (unbroken_exponent _)

theorem unbroken_magnitude (hk : k ≤ Magnitude.infinite) : Unbroken (listed.magnitude k) := by
  rcases Nat.lt_or_eq_of_le hk with hlt | rfl
  · rcases Nat.eq_zero_or_pos k with rfl | hpos
    · exact unbroken_of_fixed (magnitude_zero_fixed listed_standard.wholeEnd)
    · rw [magnitude, if_neg hpos.ne', if_neg hlt.ne]
      exact unbroken_decimal (Magnitude.shortest_digits_pos hk hpos)
  · simp [magnitude_infinite, Unbroken, listed]

theorem unbroken_write (x : Float) : Unbroken (listed.write x) := by
  rcases Nat.lt_or_ge Magnitude.infinite (Number.magnitude x) with hx | hx
  · rw [Number.write_nan hx]
    simp [Unbroken, listed]
  · rw [Number.write_eq, signed_of_le _ _ hx]
    refine .append ?_ (unbroken_magnitude hx)
    split_ifs <;> simp [Unbroken]

/-- What is written for a double is a number or one of three words. -/
theorem write_cases (hf : f.Standard) (x : Float) :
    (∃ q, Numeral.value? (f.write x) = some q) ∨
      f.write x ∈ [f.notANumber, f.infinity, "-" ++ f.infinity] := by
  rcases Nat.lt_trichotomy Magnitude.infinite (Number.magnitude x) with hx | hx | hx
  · exact .inr (by simp [Number.write_nan hx])
  · refine .inr ?_
    rw [Number.write_eq, ← hx, signed_of_le _ _ (Nat.le_refl _), magnitude_infinite]
    split_ifs <;> simp
  · exact .inl ⟨_, signed_read hf _ hx⟩

end Notation

namespace Literal

def isString : Literal → Bool
  | string _ => true
  | _ => false

theorem unbroken_listed {value : Literal} (h : value.isString = false) :
    Outline.Unbroken value.listed := by
  cases value with
  | nil => simp [listed, Outline.Unbroken]
  | bool value => cases value <;> simp [listed, Outline.Unbroken]
  | number x => exact Notation.unbroken_write x
  | string => cases h

theorem listed_number_ne (x : Float) : (number x).listed ∉ ["None", "True", "False"] := by
  have hnone : ∀ word ∈ ["None", "True", "False"], Numeral.value? word = none ∧
      word ∉ [Notation.listed.notANumber, Notation.listed.infinity,
        "-" ++ Notation.listed.infinity] := by
    decide +kernel
  intro hmem
  obtain ⟨hvalue, hword⟩ := hnone _ hmem
  rcases Notation.write_cases Notation.listed_standard x with ⟨q, hq⟩ | h
  · rw [listed, hq] at hvalue
    cases hvalue
  · exact hword h

/-- Strings apart, literals that are shown alike are the same. -/
theorem listed_inj {v w : Literal} (hv : v.isString = false) (hw : w.isString = false)
    (h : v.listed = w.listed) : v = w := by
  have hne : ∀ {x : Float} {w : Literal}, (number x).listed = w.listed → w.isString = false →
      ∃ y, w = number y := by
    intro x w h hw
    have hx := listed_number_ne x
    rw [h] at hx
    cases w with
    | nil => simp [listed] at hx
    | bool value => cases value <;> simp [listed] at hx
    | number y => exact ⟨y, rfl⟩
    | string => cases hw
  cases v with
  | number x =>
    obtain ⟨y, rfl⟩ := hne h hw
    rw [(Number.write_inj Notation.listed_standard).1 h]
  | string => cases hv
  | nil =>
    cases w with
    | nil => rfl
    | bool value => cases value <;> exact absurd h (by decide)
    | number y =>
      obtain ⟨_, h⟩ := hne h.symm hv
      cases h
    | string => cases hw
  | bool v =>
    cases w with
    | nil => cases v <;> exact absurd h (by decide)
    | bool w => cases v <;> cases w <;> first | rfl | exact absurd h (by decide)
    | number y =>
      obtain ⟨_, h⟩ := hne h.symm hv
      cases h
    | string => cases hw

end Literal

/-! ### Tokens in listings -/

namespace Kind.Written
variable {kind : Kind} {l : List Char}

theorem isWordPart (h : identifier.Written l) : l ≠ [] ∧ ∀ c ∈ l, Token.isWordPart c = true := by
  have hwords : ∀ p ∈ words, p.2 ≠ identifier := by decide
  have hsigns : ∀ p ∈ signs, p.2 ≠ identifier := by decide
  have hextensible : ∀ p ∈ extensibleSigns, p.2.1 ≠ identifier ∧ p.2.2 ≠ identifier := by decide
  generalize hk : identifier = kind at h
  cases h with
  | word listed => exact absurd hk.symm (hwords _ listed)
  | name first others =>
    refine ⟨List.cons_ne_nil _ _, List.forall_mem_cons.2 ⟨?_, fun c hc => ?_⟩⟩
    · rw [Token.isWordPart_iff, ← or_assoc]
      exact .inl first
    · exact (Token.isWordPart_iff c).2 (others c hc)
  | sign listed => exact absurd hk.symm (hsigns _ listed)
  | alone listed => exact absurd hk.symm (hextensible _ listed).1
  | paired listed => exact absurd hk.symm (hextensible _ listed).2
  | _ => cases hk

theorem unbroken (h : kind.Written l) (hk : kind.isOperator) : '\n' ∉ l := by
  have hsigns : ∀ p ∈ signs, p.1 ≠ '\n' := by decide
  have hextensible : ∀ p ∈ extensibleSigns, p.1 ≠ '\n' := by decide
  cases h with
  | word listed =>
    obtain ⟨d, ds, hl, hd, hds⟩ := Token.word_shape listed
    rw [hl, List.mem_cons, not_or]
    refine ⟨?_, fun hmem => absurd (hds _ hmem) (by decide)⟩
    rintro rfl
    exact absurd hd (by decide)
  | sign listed => simpa using (hsigns _ listed).symm
  | alone listed => simpa using (hextensible _ listed).symm
  | paired listed => simpa using (hextensible _ listed).symm
  | _ => cases hk

theorem mem_words {w : Keyword} (h : (keyword w).Written l) :
    (String.ofList l, keyword w) ∈ words := by
  have hsigns : ∀ p ∈ signs, p.2.isSign := by decide
  have hextensible : ∀ p ∈ extensibleSigns, p.2.1.isSign ∧ p.2.2.isSign := by decide
  generalize hk : keyword w = kind at h ⊢
  cases h with
  | word listed => rwa [String.ofList_toList]
  | sign listed =>
    cases hk
    exact absurd (hsigns _ listed) Bool.false_ne_true
  | alone listed =>
    cases hk
    exact absurd (hextensible _ listed).1 Bool.false_ne_true
  | paired listed =>
    cases hk
    exact absurd (hextensible _ listed).2 Bool.false_ne_true
  | _ => cases hk

theorem rightParen (h : Kind.rightParen.Written l) : l = [')'] := by
  have hwords : ∀ p ∈ words, p.2 ≠ Kind.rightParen := by decide
  have hsigns : ∀ p ∈ signs, p.2 = Kind.rightParen → p.1 = ')' := by decide
  have hextensible : ∀ p ∈ extensibleSigns,
      p.2.1 ≠ Kind.rightParen ∧ p.2.2 ≠ Kind.rightParen := by decide
  generalize hk : Kind.rightParen = kind at h
  cases h with
  | word listed => exact absurd hk.symm (hwords _ listed)
  | sign listed => exact congrArg ([·]) (hsigns _ listed hk.symm)
  | alone listed => exact absurd hk.symm (hextensible _ listed).1
  | paired listed => exact absurd hk.symm (hextensible _ listed).2
  | _ => cases hk

end Kind.Written

namespace Token
variable {t u : Token}

/-- The token without its place. -/
def nowhere (t : Token) : Token := { t with position := ⟨0, 0⟩ }

theorem nowhere_eq (hk : t.kind = u.kind) (hl : t.lexeme = u.lexeme) : t.nowhere = u.nowhere := by
  rw [nowhere, nowhere, hk, hl]

/-- The characters of a token say what it is. -/
theorem nowhere_of_lexeme (ht : t.Legible) (hu : u.Legible) (h : t.lexeme = u.lexeme) :
    t.nowhere = u.nowhere := by
  obtain ⟨c, cs, hl, -, hmunch⟩ := reads_of_written ht
  obtain ⟨c', cs', hl', -, hmunch'⟩ := reads_of_written hu
  rw [← h, hl] at hl'
  cases hl'
  rw [hmunch] at hmunch'
  exact nowhere_eq (Role.token.inj (congrArg Munched.role hmunch')) h

theorem nowhere_of_keyword {w : Keyword} (ht : t.Legible ∧ t.kind = .keyword w)
    (hu : u.Legible ∧ u.kind = .keyword w) : t.nowhere = u.nowhere := by
  have hunique : ∀ p ∈ Kind.words, ∀ q ∈ Kind.words, p.2 = q.2 → p.1 = q.1 := by decide
  have hword : ∀ {t : Token}, t.Legible ∧ t.kind = .keyword w →
      (t.lexeme, .keyword w) ∈ Kind.words := by
    rintro t ⟨ht, hk⟩
    rw [Legible, hk] at ht
    simpa using ht.mem_words
  exact nowhere_eq (ht.2.trans hu.2.symm) (hunique _ (hword ht) _ (hword hu) rfl)

theorem nowhere_of_rightParen (ht : t.Legible ∧ t.kind = .rightParen)
    (hu : u.Legible ∧ u.kind = .rightParen) : t.nowhere = u.nowhere := by
  have hsign : ∀ {t : Token}, t.Legible ∧ t.kind = .rightParen → t.lexeme.toList = [')'] := by
    rintro t ⟨ht, hk⟩
    rw [Legible, hk] at ht
    exact ht.rightParen
  exact nowhere_eq (ht.2.trans hu.2.symm) (String.toList_inj.1 ((hsign ht).trans (hsign hu).symm))

theorem word_of_names (h : t.Names Legible) : Outline.Word t.lexeme := by
  have hwritten := h.good
  rw [Legible, h.kind] at hwritten
  exact hwritten.isWordPart

theorem unbroken_of_operates (h : t.Operates Legible) : Outline.Unbroken t.lexeme :=
  h.good.unbroken h.kind

end Token
end Lox
