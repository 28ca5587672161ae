import Lox.Number.Magnitude
import Mathlib.Data.Nat.Log
import Mathlib.Tactic.Linarith
import Mathlib.Tactic.Ring

/-! Rounding to the closest magnitude. Rounding keeps the order of ratios and depends on nothing
else of them, and it gives back every ratio that is a magnitude. -/

namespace Lox
variable {n d n' d' m : Nat}

/-- A ratio rounds to at most `m` up to half a unit above it, and at that half if `m` is even. -/
theorem divRound_le_iff (hd : 0 < d) :
    divRound n d ≤ m ↔ 2 * n < (2 * m + 1) * d ∨ 2 * n = (2 * m + 1) * d ∧ m % 2 = 0 := by
  have hn : d * (n / d) + n % d = n := Nat.div_add_mod n d
  have hr : n % d < d := Nat.mod_lt n hd
  have hhalf : (2 * m + 1) * d = 2 * (d * m) + d := by ring
  unfold divRound
  dsimp only
  generalize n / d = q at *
  generalize n % d = r at *
  rw [hhalf]
  rcases Nat.lt_trichotomy m q with h | rfl | h
  · have hgap : d * (m + 1) ≤ d * q := Nat.mul_le_mul_left d h
    rw [Nat.mul_succ] at hgap
    split_ifs <;> omega
  · split_ifs <;> omega
  · have hgap : d * (q + 1) ≤ d * m := Nat.mul_le_mul_left d h
    rw [Nat.mul_succ] at hgap
    split_ifs <;> omega

theorem divRound_mono (hd : 0 < d) (hd' : 0 < d') (h : n * d' ≤ n' * d) :
    divRound n d ≤ divRound n' d' := by
  have hself : divRound n' d' ≤ divRound n' d' := Nat.le_refl _
  rw [divRound_le_iff hd'] at hself
  rw [divRound_le_iff hd]
  generalize divRound n' d' = m at *
  rcases hself with hlt | ⟨heq, heven⟩
  · left
    nlinarith
  · have hle : 2 * n * d' ≤ (2 * m + 1) * d * d' := by nlinarith
    rcases Nat.lt_or_eq_of_le (Nat.le_of_mul_le_mul_right hle hd') with hlt | heq
    · exact .inl hlt
    · exact .inr ⟨heq, heven⟩

/-- A whole ratio is not changed. -/
theorem divRound_mul_self (hd : 0 < d) : divRound (m * d) d = m := by
  simp [divRound, Nat.mul_div_cancel m hd, hd]

theorem divRound_le (hd : 0 < d) (h : n ≤ m * d) : divRound n d ≤ m := by
  rw [← divRound_mul_self (m := m) hd]
  exact divRound_mono hd hd (Nat.mul_le_mul_right d h)

theorem le_divRound (hd : 0 < d) (h : m * d ≤ n) : m ≤ divRound n d := by
  rw [← divRound_mul_self (m := m) hd]
  exact divRound_mono hd hd (Nat.mul_le_mul_right d h)

theorem divRound_eq_or (n d : Nat) : divRound n d = n / d ∨ divRound n d = n / d + 1 := by
  unfold divRound
  dsimp only
  split_ifs <;> omega

namespace Magnitude
variable {k : Magnitude}

theorem binade_eq : binade = 2 ^ 52 := rfl

theorem one_pos : 0 < one := by
  unfold one
  generalize places = p
  exact Nat.two_pow_pos p

/-- The scale of a magnitude close to the ratio. -/
def scaleOf (n d : Nat) : Nat := Nat.log2 (n / d) - 52

/-- The magnitude close to a ratio of units, were there no last one. -/
def unbounded (n d : Nat) : Nat := scaleOf n d * binade + divRound n (d * 2 ^ scaleOf n d)

theorem nearest_eq (n d : Nat) : nearest n d = min infinite (unbounded (n * one) d) := rfl

theorem nearest_le_infinite (n d : Nat) : nearest n d ≤ infinite := Nat.min_le_left _ _

/-- The bounds of a ratio on its scale. Only the lowest scale reaches down to zero. -/
theorem scaleOf_bounds (hd : 0 < d) :
    n < 2 ^ 53 * (d * 2 ^ scaleOf n d) ∧
      (0 < scaleOf n d → 2 ^ 52 * (d * 2 ^ scaleOf n d) ≤ n) := by
  have hrange : ∀ t, 2 ^ t * (d * 2 ^ scaleOf n d) = 2 ^ (t + scaleOf n d) * d := by
    intro t
    rw [pow_add]
    ring
  rw [hrange, hrange, ← Nat.div_lt_iff_lt_mul hd, ← Nat.le_div_iff_mul_le hd]
  unfold scaleOf
  generalize n / d = q
  constructor
  · exact Nat.lt_of_lt_of_le Nat.lt_log2_self (Nat.pow_le_pow_right (by decide) (by omega))
  · intro hs
    have hq : q ≠ 0 := by
      rintro rfl
      exact absurd hs (by decide)
    rw [Nat.add_sub_cancel' (by omega)]
    exact Nat.log2_self_le hq

theorem unbounded_le (hd : 0 < d) : unbounded n d ≤ (scaleOf n d + 2) * binade := by
  have hscale : 0 < d * 2 ^ scaleOf n d := Nat.mul_pos hd (Nat.two_pow_pos _)
  have hround := divRound_le hscale (Nat.le_of_lt (scaleOf_bounds hd).1)
  have hbinade := binade_eq
  unfold unbounded
  rw [Nat.add_mul]
  omega

theorem le_unbounded (hd : 0 < d) (hs : 0 < scaleOf n d) :
    (scaleOf n d + 1) * binade ≤ unbounded n d := by
  have hscale : 0 < d * 2 ^ scaleOf n d := Nat.mul_pos hd (Nat.two_pow_pos _)
  have hround := le_divRound hscale ((scaleOf_bounds hd).2 hs)
  have hbinade := binade_eq
  unfold unbounded
  rw [Nat.add_mul]
  omega

theorem div_le_div_of_mul_le (hd : 0 < d) (hd' : 0 < d') (h : n * d' ≤ n' * d) :
    n / d ≤ n' / d' := by
  rw [Nat.le_div_iff_mul_le hd']
  apply Nat.le_of_mul_le_mul_right _ hd
  calc n / d * d' * d = n / d * d * d' := Nat.mul_right_comm ..
    _ ≤ n * d' := Nat.mul_le_mul_right d' (Nat.div_mul_le_self n d)
    _ ≤ n' * d := h

theorem unbounded_mono (hd : 0 < d) (hd' : 0 < d') (h : n * d' ≤ n' * d) :
    unbounded n d ≤ unbounded n' d' := by
  have hscale : scaleOf n d ≤ scaleOf n' d' := by
    have hlog := Nat.log_mono_right (b := 2) (div_le_div_of_mul_le hd hd' h)
    rw [← Nat.log2_eq_log_two, ← Nat.log2_eq_log_two] at hlog
    unfold scaleOf
    omega
  rcases Nat.lt_or_eq_of_le hscale with hlt | heq
  · have hgap : (scaleOf n d + 2) * binade ≤ (scaleOf n' d' + 1) * binade :=
      Nat.mul_le_mul_right binade (by omega)
    exact (unbounded_le hd).trans (hgap.trans (le_unbounded hd' (by omega)))
  · unfold unbounded
    rw [heq]
    apply Nat.add_le_add_left
    have hpow := Nat.two_pow_pos (scaleOf n' d')
    apply divRound_mono (Nat.mul_pos hd hpow) (Nat.mul_pos hd' hpow)
    calc n * (d' * 2 ^ scaleOf n' d') = n * d' * 2 ^ scaleOf n' d' := (Nat.mul_assoc ..).symm
      _ ≤ n' * d * 2 ^ scaleOf n' d' := Nat.mul_le_mul_right _ h
      _ = n' * (d * 2 ^ scaleOf n' d') := Nat.mul_assoc ..

theorem nearest_mono (hd : 0 < d) (hd' : 0 < d') (h : n * d' ≤ n' * d) :
    nearest n d ≤ nearest n' d' := by
  rw [nearest_eq, nearest_eq]
  apply min_le_min_left
  apply unbounded_mono hd hd'
  calc n * one * d' = n * d' * one := Nat.mul_right_comm ..
    _ ≤ n' * d * one := Nat.mul_le_mul_right one h
    _ = n' * one * d := Nat.mul_right_comm ..

/-- Rounding depends on the ratio only. -/
theorem nearest_congr (hd : 0 < d) (hd' : 0 < d') (h : n * d' = n' * d) :
    nearest n d = nearest n' d' :=
  Nat.le_antisymm (nearest_mono hd hd' h.le) (nearest_mono hd' hd h.ge)

theorem significand_of_lt (h : k < binade) : significand k = k := if_pos h

theorem significand_of_le (h : binade ≤ k) : significand k = binade + k % binade :=
  if_neg (Nat.not_lt_of_ge h)

theorem scale_significand (k : Magnitude) : scale k * binade + significand k = k := by
  unfold scale
  rcases Nat.lt_or_ge k binade with h | h
  · simp [significand_of_lt h, Nat.div_eq_of_lt h]
  · have hk : binade * (k / binade) + k % binade = k := Nat.div_add_mod k binade
    obtain ⟨e, he⟩ := Nat.exists_eq_add_of_le (Nat.div_pos h (by decide : 0 < binade))
    rw [he] at hk ⊢
    rw [significand_of_le h, Nat.add_sub_cancel_left]
    linarith

theorem significand_lt (k : Magnitude) : significand k < 2 ^ 53 := by
  have hbinade := binade_eq
  rcases Nat.lt_or_ge k binade with h | h
  · rw [significand_of_lt h]
    omega
  · have hmod := Nat.mod_lt k (by decide : binade > 0)
    rw [significand_of_le h]
    omega

theorem le_significand (hk : binade ≤ k) : 2 ^ 52 ≤ significand k := by
  rw [significand_of_le hk, binade_eq]
  exact Nat.le_add_right _ _

theorem units_eq (k : Magnitude) : units k = significand k * 2 ^ scale k := rfl

theorem log2_units (k : Magnitude) : Nat.log2 (units k) - 52 = scale k := by
  rcases Nat.lt_or_ge k binade with h | h
  · have hunits : units k < 2 ^ 52 := by
      rw [units_eq, scale, significand, if_pos h, Nat.div_eq_of_lt h]
      rw [binade_eq] at h
      omega
    have hlog : Nat.log2 (units k) < 52 ∨ units k = 0 := by
      by_cases h0 : units k = 0
      · exact .inr h0
      · exact .inl ((Nat.log2_lt h0).2 hunits)
    have hscale : scale k = 0 := by rw [scale, Nat.div_eq_of_lt h]
    rcases hlog with hlog | hzero
    · omega
    · rw [hzero, hscale]
      decide
  · have hpow := Nat.two_pow_pos (scale k)
    have hlow := Nat.mul_le_mul_right (2 ^ scale k) (le_significand h)
    have hhigh := Nat.mul_lt_mul_of_pos_right (significand_lt k) hpow
    rw [← units_eq, ← pow_add] at hlow hhigh
    have hne : units k ≠ 0 := by
      have := Nat.two_pow_pos (52 + scale k)
      omega
    have hlog : Nat.log2 (units k) = 52 + scale k := by
      rw [Nat.log2_eq_iff hne]
      exact ⟨hlow, by rwa [Nat.add_right_comm]⟩
    omega

/-- A magnitude is the closest one to itself. -/
theorem nearest_units (hk : k ≤ infinite) : nearest k.units one = k := by
  have hscale : scaleOf (k.units * one) one = scale k := by
    rw [scaleOf, Nat.mul_div_cancel _ one_pos, log2_units]
  have hround : divRound (k.units * one) (one * 2 ^ scale k) = significand k := by
    have hunits : k.units * one = significand k * (one * 2 ^ scale k) := by
      rw [units_eq]
      ring
    rw [hunits]
    exact divRound_mul_self (Nat.mul_pos one_pos (Nat.two_pow_pos _))
  rw [nearest_eq, unbounded, hscale, hround, scale_significand]
  exact Nat.min_eq_right hk

theorem units_lt_units_iff {j : Magnitude} (hj : j ≤ infinite) (hk : k ≤ infinite) :
    j.units < k.units ↔ j < k := by
  have hmono : ∀ {j k : Magnitude}, j ≤ infinite → k ≤ infinite → j.units ≤ k.units → j ≤ k := by
    intro j k hj hk h
    have hround := nearest_mono one_pos one_pos (Nat.mul_le_mul_right one h)
    rwa [nearest_units hj, nearest_units hk] at hround
  constructor
  · intro h
    apply Nat.lt_of_le_of_ne (hmono hj hk h.le)
    rintro rfl
    exact absurd h (Nat.lt_irrefl _)
  · intro h
    by_contra hle
    exact absurd (hmono hk hj (Nat.le_of_not_lt hle)) (Nat.not_le_of_lt h)

end Magnitude
end Lox
