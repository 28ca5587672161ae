import Lox.Proofs.Doubles
import Lox.Value

/-! Printed numbers. Numbers are equal exactly when they are printed alike, and a number is printed
in a normal form of what the listings show of it. -/

namespace Lox
namespace Number
variable {f : Notation} {x y : Float}

theorem write_eq (f : Notation) (x : Float) :
    f.write x = f.signed (isNegative x) (magnitude x) := rfl

theorem toList_write (hx : magnitude x ≤ Magnitude.infinite) :
    (f.write x).toList =
      (if isNegative x then ['-'] else []) ++ (f.magnitude (magnitude x)).toList := by
  rw [write_eq, Notation.signed_of_le _ _ hx, String.toList_append]
  split_ifs <;> rfl

theorem write_nan (hx : Magnitude.infinite < magnitude x) : f.write x = f.notANumber :=
  if_pos hx

/-- No two doubles are written alike. -/
theorem write_inj (hf : f.Standard) : f.write x = f.write y ↔ x = y := by
  refine ⟨fun h => ?_, fun h => h ▸ rfl⟩
  rcases Nat.lt_or_ge Magnitude.infinite (magnitude x) with hx | hx <;>
    rcases Nat.lt_or_ge Magnitude.infinite (magnitude y) with hy | hy
  · rw [eq_nan hx, eq_nan hy]
  · rw [write_nan hx, write_eq] at h
    exact absurd h (Notation.signed_ne_notANumber hf _ hy)
  · rw [write_nan hy, write_eq] at h
    exact absurd h.symm (Notation.signed_ne_notANumber hf _ hx)
  · obtain ⟨hsign, hmagnitude⟩ := Notation.signed_inj hf hx hy h
    exact eq_of_magnitude hsign hmagnitude

end Number

namespace Value
variable {ρ ε : Type} (x y : Float)

theorem equal_number : equal (.number x : Value ρ ε) (.number y) = true ↔ x = y :=
  decide_eq_true_iff

/-- Numbers are compared by identity: numbers that are none are the same, and zeros of different
signs are not. -/
theorem equal_number_eq :
    equal (.number x : Value ρ ε) (.number y) =
      if x.isNaN || y.isNaN then x.isNaN && y.isNaN
      else x == y && Number.isNegative x == Number.isNegative y := by
  rw [Bool.eq_iff_iff, equal_number, Float.isNaN_eq_decide_eq_nan, Float.isNaN_eq_decide_eq_nan]
  by_cases hx : x = Float.nan
  · simp [hx, eq_comm]
  by_cases hy : y = Float.nan
  · simp [hx, hy]
  have hzero : Number.isNegative 0 = false := by decide +kernel
  have hminus : Number.isNegative (-0) = true := by decide +kernel
  rw [decide_eq_false hx, decide_eq_false hy, if_neg (by simp), Bool.and_eq_true,
    Float.beq_iff_ne_nan_and_eq, beq_iff_eq]
  constructor
  · rintro rfl
    exact ⟨⟨hx, hx, .inl rfl⟩, rfl⟩
  · rintro ⟨⟨-, -, h | ⟨rfl, rfl⟩ | ⟨rfl, rfl⟩⟩, hsign⟩
    · exact h
    · rw [hzero, hminus] at hsign
      cases hsign
    · rw [hzero, hminus] at hsign
      cases hsign

/-- Numbers are equal if and only if they are printed the same. -/
theorem equal_iff_text :
    equal (.number x : Value ρ ε) (.number y) = true ↔
      text (.number x : Value ρ ε) = text (.number y : Value ρ ε) :=
  (equal_number x y).trans (Number.write_inj Notation.printed_standard).symm

end Value

namespace Number
variable {x : Float}

theorem significant_length_le (d : Decimal) (h : 0 ≤ d.exponent) :
    (d.significant.length : Int) ≤ d.place + 1 := by
  have hlength := (List.rdropWhile_prefix (· = '0') (Nat.toDigits 10 d.digits)).length_le
  unfold Decimal.place Decimal.significant
  omega

theorem Plain.bounds (hx : Plain x) : magnitude x < Magnitude.infinite ∧ 0 < magnitude x := by
  obtain ⟨hlow, hhigh⟩ := plain_iff.1 hx
  exact ⟨Nat.lt_of_lt_of_le hhigh (Decimal.magnitude_le_infinite _),
    Nat.lt_of_lt_of_le (by decide +kernel) hlow⟩

/-- The shortest decimal lies in the range of the plain form exactly where the double does. -/
theorem plain_iff_place (hlt : magnitude x < Magnitude.infinite) (hpos : 0 < magnitude x) :
    Plain x ↔ -3 ≤ (Magnitude.shortest (magnitude x)).place ∧
      (Magnitude.shortest (magnitude x)).place < 7 := by
  have hlow : Magnitude.shortest (Decimal.magnitude ⟨1, -3⟩) = ⟨1, -3⟩ := by decide +kernel
  have hhigh : Magnitude.shortest (Decimal.magnitude ⟨1, 7⟩) = ⟨1, 7⟩ := by decide +kernel
  rw [plain_iff, Magnitude.le_place_shortest_iff hlow hlt.le hpos, ← Int.not_le,
    Magnitude.le_place_shortest_iff hhigh hlt.le hpos, Nat.not_le]

theorem printed_eq (hlt : magnitude x < Magnitude.infinite) (hpos : 0 < magnitude x) :
    let d := Magnitude.shortest (magnitude x)
    (Plain x → Notation.printed.magnitude (magnitude x) =
      Notation.printed.plain d.significant d.place) ∧
    (¬Plain x → Notation.printed.magnitude (magnitude x) =
      Notation.printed.scientific d.significant d.place) := by
  intro d
  rw [Notation.magnitude, if_neg hpos.ne', if_neg hlt.ne, Notation.decimal_eq,
    plain_iff_place hlt hpos]
  exact ⟨fun h => if_pos h, fun h => if_neg h⟩

/-- Zeros and numbers in the range of the plain form are printed in digits and at most a point. -/
theorem printed_fixed (hx : (x == 0) = true ∨ Plain x) :
    Numeral.Fixed (Notation.printed.magnitude (magnitude x)).toList
      (Magnitude.shortest (magnitude x)).value := by
  rcases hx with hx | hx
  · rw [beq_zero_iff.1 hx]
    exact Notation.magnitude_zero_fixed Notation.printed_standard.wholeEnd
  · obtain ⟨hlt, hpos⟩ := hx.bounds
    rw [(printed_eq hlt hpos).1 hx, ← Decimal.significant_value]
    exact Notation.plain_fixed Notation.printed_standard.wholeEnd
      (Decimal.significant_ne_nil (Magnitude.shortest_digits_pos hlt.le hpos))
      (Decimal.significant_isDigit _) _

/-- A whole number that is printed plainly has no digits behind the point. -/
theorem shortest_whole (hx : Plain x) {n : Int} (hn : value x = n) :
    0 ≤ (Magnitude.shortest (magnitude x)).exponent := by
  obtain ⟨hlt, hpos⟩ := hx.bounds
  have hunits : Magnitude.units (magnitude x) = n.natAbs * Magnitude.one := by
    have hone : (0 : ℚ) < Magnitude.one := Nat.cast_pos.2 Magnitude.one_pos
    have habs : |value x| = Magnitude.units (magnitude x) / Magnitude.one := by
      have hvalue : 0 ≤ Magnitude.value (magnitude x) :=
        div_nonneg (Nat.cast_nonneg _) hone.le
      have hsign : |(if isNegative x then -1 else 1 : ℚ)| = 1 := by split_ifs <;> simp
      rw [value, abs_mul, hsign, one_mul, abs_of_nonneg hvalue, Magnitude.value]
    rw [hn, eq_div_iff hone.ne', ← Int.cast_abs, Int.abs_eq_natAbs, Int.cast_natCast] at habs
    exact_mod_cast habs.symm
  have hlower : Magnitude.units 0 < Magnitude.units (magnitude x) :=
    (Magnitude.units_lt_units_iff (by decide) hlt.le).2 hpos
  have hupper : Magnitude.units (magnitude x) < 10 ^ 7 * Magnitude.one := by
    have hlimit : Magnitude.units (Decimal.magnitude ⟨1, 7⟩) = 10 ^ 7 * Magnitude.one := by
      decide +kernel
    rw [← hlimit]
    exact (Magnitude.units_lt_units_iff hlt.le (Decimal.magnitude_le_infinite _)).2
      (plain_iff.1 hx).2
  rw [hunits] at hlower hupper
  have hsome : 0 < n.natAbs := Nat.pos_of_mul_pos_right (Nat.zero_lt_of_lt hlower)
  have hsmall : n.natAbs < 10 ^ 7 := Nat.lt_of_mul_lt_mul_right hupper
  exact Magnitude.shortest_whole hlt.le hunits hsome (hsmall.trans (by decide))

/-- What is printed for a number that is finite and not zero stands for the number that is listed.
Outside the range of the plain form it is in scientific form; inside, it has no exponent, and no
point if the number is whole. -/
theorem write_printed (hfinite : x.isFinite = true) (hzero : (x == 0) = false) :
    (∃ q : ℚ, Numeral.value? (Notation.printed.write x) = some q ∧
      Numeral.value? (Notation.listed.write x) = some q) ∧
    (¬Plain x → ∃ sign ∈ ["", "-"], ∃ s, Numeral.Scientific s ∧
      Notation.printed.write x = sign ++ s) ∧
    (Plain x → (∀ c ∈ (Notation.printed.write x).toList, Numeral.isMark c = false) ∧
      ((∃ n : Int, value x = n) → '.' ∉ (Notation.printed.write x).toList)) := by
  have hlt := isFinite_iff.1 hfinite
  have hpos : 0 < magnitude x := by
    rw [← Bool.not_eq_true, beq_zero_iff] at hzero
    exact Nat.pos_of_ne_zero hzero
  have hdigits := Magnitude.shortest_digits_pos hlt.le hpos
  have hne := Decimal.significant_ne_nil hdigits
  obtain ⟨hplain, hscientific⟩ := printed_eq hlt hpos
  refine ⟨⟨_, Notation.signed_read Notation.printed_standard _ hlt,
    Notation.signed_read Notation.listed_standard _ hlt⟩, fun hx => ?_, fun hx => ?_⟩
  · refine ⟨if isNegative x then "-" else "", by split_ifs <;> simp, _, ?_,
      Notation.signed_of_le _ _ hlt.le⟩
    rw [hscientific hx]
    exact Notation.scientific_printed (Decimal.significant_head? hdigits)
      (Decimal.significant_getLast _) hne (Decimal.significant_isDigit _) _
  · have hfixed := printed_fixed (.inr hx)
    rw [toList_write hlt.le]
    constructor
    · intro c hc
      rcases List.mem_append.1 hc with hc | hc
      · split_ifs at hc <;> simp_all [Numeral.isMark]
      · simpa using hfixed.unmarked c hc
    · rintro ⟨n, hn⟩ hc
      have hwhole := shortest_whole hx hn
      have hpoint := Notation.plain_isDigit (f := .printed) rfl hne
        (Decimal.significant_isDigit _) (significant_length_le _ hwhole)
      rw [← hplain hx] at hpoint
      rcases List.mem_append.1 hc with hc | hc
      · split_ifs at hc <;> simp_all
      · exact absurd (hpoint _ hc) (by decide)

/-- Ten million is the least number that is printed with an exponent, and a whole one just below
is printed without a point. -/
theorem write_printed_tenMillion :
    (∃ sign ∈ ["", "-"], ∃ s, Numeral.Scientific s ∧ Notation.printed.write 1e7 = sign ++ s) ∧
      ∀ c ∈ (Notation.printed.write (-9999999)).toList, Numeral.isMark c = false :=
  ⟨(write_printed (by decide +kernel) (by decide +kernel)).2.1 (by decide +kernel),
    ((write_printed (by decide +kernel) (by decide +kernel)).2.2 (by decide +kernel)).1⟩

end Number
end Lox
