import Lox.Number.Decimal
import Lox.Proofs.Rounding
import Mathlib.Algebra.Order.Field.Power
import Mathlib.Data.Rat.Cast.Order
import Mathlib.Tactic.FieldSimp
import Mathlib.Tactic.Positivity

/-! Decimals that read back. The magnitude that a decimal names depends on nothing but the number
that the decimal stands for, and the shortest decimal of a magnitude names that magnitude. -/

namespace Lox

namespace Decimal

/-- The number that a decimal stands for. -/
def value (d : Decimal) : ℚ := d.digits * 10 ^ d.exponent

/-- The place of the first digit. -/
def place (d : Decimal) : Int := d.exponent + (Nat.toDigits 10 d.digits).length - 1

end Decimal

namespace Magnitude
variable {k : Magnitude} {d : Decimal} {p q : ℚ} {n m : Nat}

/-- The number that a finite magnitude stands for. -/
def value (k : Magnitude) : ℚ := k.units / one

/-- The magnitude closest to a number that is not negative. -/
def closest (q : ℚ) : Magnitude := nearest q.num.natAbs q.den

theorem closest_div (hm : 0 < m) : closest (n / m) = nearest n m := by
  apply nearest_congr (Rat.den_pos _) hm
  have hratio : ((n / m : ℚ).num : ℚ) / (n / m : ℚ).den = n / m := Rat.num_div_den _
  have hnum : 0 ≤ (n / m : ℚ).num := Rat.num_nonneg.2 (by positivity)
  generalize (n / m : ℚ).num = a at *
  have hden := Rat.den_pos (n / m : ℚ)
  generalize (n / m : ℚ).den = b at *
  rw [div_eq_div_iff (by positivity) (by positivity)] at hratio
  obtain ⟨a, rfl⟩ := Int.eq_ofNat_of_zero_le hnum
  exact_mod_cast hratio

theorem closest_mono (hp : 0 ≤ p) (h : p ≤ q) : closest p ≤ closest q := by
  apply nearest_mono (Rat.den_pos _) (Rat.den_pos _)
  have hnum := Rat.num_nonneg.2 hp
  have hnum' := Rat.num_nonneg.2 (hp.trans h)
  have hle := (Rat.le_iff p q).1 h
  zify
  rwa [abs_of_nonneg hnum, abs_of_nonneg hnum']

theorem closest_value (hk : k ≤ infinite) : closest k.value = k := by
  rw [value, closest_div one_pos, nearest_units hk]

end Magnitude

namespace Decimal
variable {d d' : Decimal} {p : Int}

theorem value_nonneg (d : Decimal) : 0 ≤ d.value := by
  unfold value
  positivity

/-- The magnitude that a decimal names is the one closest to its number. -/
theorem magnitude_eq_closest (d : Decimal) : d.magnitude = Magnitude.closest d.value := by
  unfold magnitude value
  split_ifs with h
  · obtain ⟨e, he⟩ := Int.eq_ofNat_of_zero_le h
    rw [← Magnitude.closest_div Nat.one_pos, he, Int.toNat_natCast]
    simp
  · obtain ⟨e, he⟩ := Int.eq_ofNat_of_zero_le (by omega : 0 ≤ -d.exponent)
    have hexponent : d.exponent = -e := by omega
    rw [he, Int.toNat_natCast, hexponent, Nat.pow_eq,
      ← Magnitude.closest_div (Nat.pow_pos (by decide))]
    simp [div_eq_mul_inv]

theorem magnitude_le_infinite (d : Decimal) : d.magnitude ≤ Magnitude.infinite := by
  rw [magnitude_eq_closest]
  exact Magnitude.nearest_le_infinite _ _

theorem magnitude_mono (h : d.value ≤ d'.value) : d.magnitude ≤ d'.magnitude := by
  rw [magnitude_eq_closest, magnitude_eq_closest]
  exact Magnitude.closest_mono d.value_nonneg h

theorem magnitude_congr (h : d.value = d'.value) : d.magnitude = d'.magnitude := by
  rw [magnitude_eq_closest, magnitude_eq_closest, h]

theorem lt_length_toDigits_iff {n m : Nat} (hn : 0 < n) :
    m < (Nat.toDigits 10 n).length ↔ 10 ^ m ≤ n := by
  rcases Nat.eq_zero_or_pos m with rfl | hm
  · exact iff_of_true Nat.length_toDigits_pos hn
  · rw [← Nat.not_le, Nat.length_toDigits_le_iff (by decide) hm, Nat.not_lt]

theorem le_place_iff (hd : 0 < d.digits) : p ≤ d.place ↔ (10 : ℚ) ^ p ≤ d.value := by
  have hlength : 0 < (Nat.toDigits 10 d.digits).length := Nat.length_toDigits_pos
  have hshift : (10 : ℚ) ^ p = 10 ^ (p - d.exponent) * 10 ^ d.exponent := by
    rw [← zpow_add₀ (by norm_num), Int.sub_add_cancel]
  rw [value, hshift, mul_le_mul_iff_left₀ (by positivity)]
  rcases Int.lt_or_le (p - d.exponent) 0 with hneg | hnonneg
  · have hsmall : (10 : ℚ) ^ (p - d.exponent) ≤ 1 := zpow_le_one_of_nonpos₀ (by norm_num) hneg.le
    have hdigits : (1 : ℚ) ≤ d.digits := by exact_mod_cast hd
    refine iff_of_true ?_ (hsmall.trans hdigits)
    unfold place
    omega
  · obtain ⟨m, hm⟩ := Int.eq_ofNat_of_zero_le hnonneg
    have hpow : (10 : ℚ) ^ (m : ℤ) ≤ d.digits ↔ 10 ^ m ≤ d.digits := by
      rw [zpow_natCast]
      exact_mod_cast Iff.rfl
    rw [hm, hpow, ← lt_length_toDigits_iff hd]
    unfold place
    omega

end Decimal

namespace Magnitude
variable {k : Magnitude} {d : Decimal} {p : Int} {n : Nat}

/-! ### The shortest decimal -/

theorem onGrid_eq (k : Magnitude) (p : Int) :
    k.onGrid p =
      let n := (k.ratio p).1
      let m := (k.ratio p).2
      if Decimal.magnitude ⟨n / m, p⟩ = k then
        if Decimal.magnitude ⟨n / m + 1, p⟩ = k then some ⟨divRound n m, p⟩ else some ⟨n / m, p⟩
      else if Decimal.magnitude ⟨n / m + 1, p⟩ = k then some ⟨n / m + 1, p⟩ else none :=
  rfl

/-- Rounding chooses one of the two neighbours, so that all that a grid may offer reads back. -/
theorem onGrid_spec (h : k.onGrid p = some d) : d.exponent = p ∧ d.magnitude = k := by
  rw [onGrid_eq] at h
  generalize (k.ratio p).1 = n at h
  generalize (k.ratio p).2 = m at h
  dsimp only at h
  split_ifs at h with hbelow habove habove
  · cases h
    refine ⟨rfl, ?_⟩
    rcases divRound_eq_or n m with hround | hround
    · rw [hround]
      exact hbelow
    · rw [hround]
      exact habove
  · cases h
    exact ⟨rfl, hbelow⟩
  · cases h
    exact ⟨rfl, habove⟩

theorem one_cast : (one : ℚ) = 2 ^ places := by
  unfold one
  generalize places = e
  rw [Nat.pow_eq]
  push_cast
  rfl

theorem exact_value (k : Magnitude) : k.exact.value = k.value := by
  unfold exact Decimal.value value
  rw [one_cast]
  generalize k.units = u
  generalize places = e
  have hten : (10 : ℚ) ^ e = 2 ^ e * 5 ^ e := by rw [← mul_pow]; norm_num
  simp only [Nat.pow_eq, Nat.cast_mul, Nat.cast_pow, Nat.cast_ofNat, zpow_neg, zpow_natCast, hten]
  field_simp

theorem exact_magnitude (hk : k ≤ infinite) : k.exact.magnitude = k := by
  rw [Decimal.magnitude_eq_closest, exact_value, closest_value hk]

/-- The shortest decimal reads back. -/
theorem shortest_magnitude (hk : k ≤ infinite) : k.shortest.magnitude = k := by
  unfold shortest
  cases hfound : (List.range 17).findSome? fun i : Nat => k.onGrid (k.leadingPlace - i) with
  | none => exact exact_magnitude hk
  | some d =>
    obtain ⟨i, -, hgrid⟩ := List.exists_of_findSome?_eq_some hfound
    exact (onGrid_spec hgrid).2

theorem closest_zero : closest 0 = 0 := by decide +kernel

theorem shortest_zero : shortest 0 = ⟨0, -324⟩ := by decide +kernel

theorem shortest_digits_pos (hk : k ≤ infinite) (hpos : 0 < k) : 0 < k.shortest.digits := by
  apply Nat.pos_of_ne_zero
  intro hzero
  have hmagnitude := shortest_magnitude hk
  rw [Decimal.magnitude_eq_closest, Decimal.value, hzero, Nat.cast_zero, zero_mul, closest_zero]
    at hmagnitude
  exact absurd hpos (hmagnitude ▸ Nat.lt_irrefl 0)

/-- Magnitudes with the same shortest decimal are the same. -/
theorem shortest_inj {j : Magnitude} (hj : j ≤ infinite) (hk : k ≤ infinite)
    (h : j.shortest.value = k.shortest.value) : j = k := by
  rw [← shortest_magnitude hj, ← shortest_magnitude hk]
  exact Decimal.magnitude_congr h

/-- A power of ten that is a shortest decimal bounds the magnitudes whose decimals it bounds. -/
theorem le_place_shortest_iff (hp : shortest (Decimal.magnitude ⟨1, p⟩) = ⟨1, p⟩)
    (hk : k ≤ infinite) (hpos : 0 < k) :
    p ≤ k.shortest.place ↔ Decimal.magnitude ⟨1, p⟩ ≤ k := by
  have hvalue : Decimal.value ⟨1, p⟩ = 10 ^ p := by simp [Decimal.value]
  rw [Decimal.le_place_iff (shortest_digits_pos hk hpos), ← hvalue]
  constructor
  · intro h
    rw [← shortest_magnitude hk]
    exact Decimal.magnitude_mono h
  · intro h
    by_contra hlt
    have hle := Decimal.magnitude_mono (le_of_not_ge hlt)
    rw [shortest_magnitude hk] at hle
    have heq : k = Decimal.magnitude ⟨1, p⟩ := Nat.le_antisymm hle h
    rw [heq, hp] at hlt
    exact hlt le_rfl

/-! ### Whole numbers -/

theorem leadingPlace_lt_iff {m : Nat} (hm : 0 < decimalPlaces + m) (hk : k.units = n * one) :
    k.leadingPlace < m ↔ n < 10 ^ m := by
  have hquotient : k.units * Nat.pow 10 decimalPlaces / one = n * 10 ^ decimalPlaces := by
    rw [hk, Nat.pow_eq, Nat.mul_right_comm, Nat.mul_div_cancel _ one_pos]
  have hpow : 0 < 10 ^ decimalPlaces := Nat.pow_pos (by decide)
  have hlength : (Nat.toDigits 10 (n * 10 ^ decimalPlaces)).length ≤ decimalPlaces + m ↔
      n < 10 ^ m := by
    rw [Nat.length_toDigits_le_iff (by decide) hm, Nat.pow_add, Nat.mul_comm (10 ^ decimalPlaces),
      Nat.mul_lt_mul_right hpow]
  rw [← hlength, leadingPlace, hquotient]
  omega

/-- The grid of whole numbers offers a whole number. -/
theorem onGrid_zero (hk : k ≤ infinite) (hunits : k.units = n * one) :
    ∃ d, k.onGrid 0 = some d := by
  have hbelow : Decimal.magnitude ⟨k.units / one, 0⟩ = k := by
    have hvalue : Decimal.value ⟨k.units / one, 0⟩ = k.value := by
      have hone : (one : ℚ) ≠ 0 := by exact_mod_cast one_pos.ne'
      rw [Decimal.value, value, hunits, Nat.mul_div_cancel _ one_pos]
      push_cast
      field_simp
    rw [Decimal.magnitude_eq_closest, hvalue, closest_value hk]
  have hratio : k.ratio 0 = (k.units, one) := by simp [ratio]
  rw [onGrid_eq, hratio]
  dsimp only
  rw [if_pos hbelow]
  split_ifs
  · exact ⟨_, rfl⟩
  · exact ⟨_, rfl⟩

/-- The shortest decimal of a whole number of at most seventeen digits is whole. -/
theorem shortest_whole (hk : k ≤ infinite) (hunits : k.units = n * one) (hpos : 0 < n)
    (hn : n < 10 ^ 17) : 0 ≤ k.shortest.exponent := by
  have hlow : ¬k.leadingPlace < (0 : Nat) := by
    rw [leadingPlace_lt_iff (by decide) hunits]
    omega
  have hhigh := (leadingPlace_lt_iff (m := 17) (by decide) hunits).2 hn
  obtain ⟨e, he⟩ := Int.eq_ofNat_of_zero_le (Int.not_lt.1 hlow)
  unfold shortest
  obtain ⟨whole, hwhole⟩ := onGrid_zero hk hunits
  cases hfound : (List.range 17).findSome? fun i : Nat => k.onGrid (k.leadingPlace - i) with
  | none =>
    have hnone := List.findSome?_eq_none_iff.1 hfound e (List.mem_range.2 (by omega))
    simp [he, hwhole] at hnone
  | some d =>
    obtain ⟨before, i, behind, hrange, hgrid, hbefore⟩ := List.findSome?_eq_some_iff.1 hfound
    have hi : i ≤ e := by
      have hsorted := List.pairwise_lt_range (n := 17)
      have hmem : e ∈ List.range 17 := List.mem_range.2 (by omega)
      rw [hrange, List.pairwise_append, List.pairwise_cons] at hsorted
      rw [hrange, List.mem_append, List.mem_cons] at hmem
      rcases hmem with hmem | rfl | hmem
      · have hnone := hbefore e hmem
        simp [he, hwhole] at hnone
      · exact Nat.le_refl _
      · exact Nat.le_of_lt (hsorted.2.1.1 e hmem)
    rw [Option.getD_some, (onGrid_spec hgrid).1]
    omega

end Magnitude
end Lox
