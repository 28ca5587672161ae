import Lox.Proofs.Numerals
import Mathlib

/-! Doubles as signs and magnitudes. The model of doubles that comparison and negation are defined
by is the sign with the magnitude, so that the order of doubles is the order of magnitudes. -/

namespace Lox
open Float.Model

namespace Number
variable {x y : Float} {k : Nat} {negative : Bool}

theorem toNat_unpackMantissa (b : BitVec (Format.numBits Format.binary64)) :
    (UnpackedFloat.unpackMantissa b).toNat = b.toNat % Magnitude.binade := by
  rw [UnpackedFloat.unpackMantissa_def, BitVec.extractLsb'_toNat]
  rfl

theorem toNat_unpackExponent (b : BitVec (Format.numBits Format.binary64)) :
    (UnpackedFloat.unpackExponent b).toNat =
      b.toNat / Magnitude.binade % 2048 := by
  rw [UnpackedFloat.unpackExponent_def, BitVec.extractLsb'_toNat, Nat.shiftRight_eq_div_pow]
  rfl

theorem toNat_unpackSign (b : BitVec (Format.numBits Format.binary64)) :
    (UnpackedFloat.unpackSign b).toNat = b.toNat / signBit % 2 := by
  rw [UnpackedFloat.unpackSign_def, BitVec.extractLsb'_toNat, Nat.shiftRight_eq_div_pow]
  rfl

def sign (negative : Bool) : UnpackedFloat.Sign := if negative then .negative else .positive

theorem significand_pos (hk : k ≠ 0) : 0 < Magnitude.significand k := by
  rcases Nat.lt_or_ge k Magnitude.binade with h | h
  · rw [Magnitude.significand_of_lt h]
    exact Nat.pos_of_ne_zero hk
  · exact Nat.lt_of_lt_of_le (by decide) (Magnitude.le_significand h)

/-- The double of a sign and a magnitude in the model of doubles. -/
def unpacked (s : UnpackedFloat.Sign) (k : Magnitude) : UnpackedFloat :=
  if Magnitude.infinite < k then .notANumber
  else if k = Magnitude.infinite then .infinity s
  else if h : k = 0 then .zero s
  else .finite s k.significand (k.scale - Magnitude.places) (significand_pos h)

/-- The fields of a double below its sign make up its magnitude. -/
theorem magnitude_fields (b : BitVec (Format.numBits Format.binary64)) :
    b.toNat % signBit =
      (UnpackedFloat.unpackExponent b).toNat * Magnitude.binade +
        (UnpackedFloat.unpackMantissa b).toNat := by
  rw [toNat_unpackMantissa, toNat_unpackExponent]
  simp only [signBit, Magnitude.binade]
  omega

theorem sign_ofBitVec (b : BitVec (Format.numBits Format.binary64)) :
    UnpackedFloat.Sign.ofBitVec (UnpackedFloat.unpackSign b) =
      sign (decide (signBit ≤ b.toNat)) := by
  have hlt : b.toNat < 2 ^ 64 := b.isLt
  have hsign : UnpackedFloat.unpackSign b = 0#1 ↔ ¬signBit ≤ b.toNat := by
    rw [← BitVec.toNat_inj, toNat_unpackSign]
    simp only [BitVec.toNat_zero, signBit]
    omega
  unfold UnpackedFloat.Sign.ofBitVec sign
  by_cases h : signBit ≤ b.toNat
  · simp [hsign, h]
  · simp [hsign, h]

theorem finite_congr {s : UnpackedFloat.Sign} {m m' : Nat} {e e' : Int} (hm : 0 < m) (hm' : 0 < m')
    (h : m = m') (he : e = e') : UnpackedFloat.finite s m e hm = .finite s m' e' hm' := by
  subst h he
  rfl

theorem toNat_leading_append (m : BitVec 52) : (1#1 ++ m).toNat = Magnitude.binade + m.toNat := by
  rw [BitVec.toNat_append, ← Nat.shiftLeft_add_eq_or_of_lt m.isLt]
  rfl

theorem unpacked_finite {s : UnpackedFloat.Sign} (hk : k ≠ 0) (hlt : k < Magnitude.infinite) :
    unpacked s k = .finite s (Magnitude.significand k) (Magnitude.scale k - Magnitude.places)
      (significand_pos hk) := by
  rw [unpacked, if_neg (Nat.lt_asymm hlt), if_neg hlt.ne, dif_neg hk]

theorem fields_lt {e m : Nat} (he : e < 2047) (hm : m < Magnitude.binade) :
    e * Magnitude.binade + m < Magnitude.infinite :=
  calc e * Magnitude.binade + m < e * Magnitude.binade + Magnitude.binade :=
        Nat.add_lt_add_left hm _
    _ = (e + 1) * Magnitude.binade := (Nat.succ_mul _ _).symm
    _ ≤ 2047 * Magnitude.binade := Nat.mul_le_mul_right _ he

theorem scale_fields {e m : Nat} (hm : m < Magnitude.binade) :
    Magnitude.scale (e * Magnitude.binade + m) = e - 1 := by
  have hquotient : (e * Magnitude.binade + m) / Magnitude.binade = e := by
    rw [Nat.add_comm, Nat.add_mul_div_right _ _ (by decide), Nat.div_eq_of_lt hm, Nat.zero_add]
  rw [Magnitude.scale, hquotient]

theorem significand_fields {e m : Nat} (he : 0 < e) (hm : m < Magnitude.binade) :
    Magnitude.significand (e * Magnitude.binade + m) = Magnitude.binade + m := by
  have hle : Magnitude.binade ≤ e * Magnitude.binade + m :=
    (Nat.le_mul_of_pos_left _ he).trans (Nat.le_add_right _ _)
  rw [Magnitude.significand_of_le hle, Nat.add_comm (e * _), Nat.add_mul_mod_self_right,
    Nat.mod_eq_of_lt hm]

/-- In the model, too, a double is its sign and its magnitude. -/
theorem unpack_eq (b : BitVec (Format.numBits Format.binary64)) :
    UnpackedFloat.unpack Format.binary64 b =
      unpacked (sign (decide (signBit ≤ b.toNat))) (b.toNat % signBit) := by
  have hm : (UnpackedFloat.unpackMantissa b).toNat < Magnitude.binade :=
    (UnpackedFloat.unpackMantissa b).isLt
  have he : (UnpackedFloat.unpackExponent b).toNat < 2048 :=
    (UnpackedFloat.unpackExponent b).isLt
  have hones : UnpackedFloat.unpackExponent b = -1#_ ↔
      (UnpackedFloat.unpackExponent b).toNat = 2047 := by
    rw [← BitVec.toNat_inj]
    rfl
  have hnone : UnpackedFloat.unpackExponent b = 0#_ ↔
      (UnpackedFloat.unpackExponent b).toNat = 0 := by
    rw [← BitVec.toNat_inj]
    rfl
  have hzero : UnpackedFloat.unpackMantissa b = 0#_ ↔
      (UnpackedFloat.unpackMantissa b).toNat = 0 := by
    rw [← BitVec.toNat_inj]
    rfl
  have hbias : (Format.exponentBias .binary64 : Int) = 1023 := rfl
  have hplaces : (Magnitude.places : Int) = 1074 := rfl
  rw [magnitude_fields]
  unfold UnpackedFloat.unpack
  simp only [sign_ofBitVec, hones, hnone, hzero, hbias]
  generalize sign (decide (signBit ≤ b.toNat)) = s
  by_cases hall : (UnpackedFloat.unpackExponent b).toNat = 2047
  · rw [if_pos hall]
    split_ifs with hm0
    · rw [hall, hm0]
      rfl
    · rw [hall, unpacked, if_pos]
      exact Nat.lt_add_of_pos_right (Nat.pos_of_ne_zero hm0)
  rw [if_neg hall]
  by_cases hlow : (UnpackedFloat.unpackExponent b).toNat = 0
  · rw [if_pos hlow]
    split_ifs with hm0
    · rw [hlow, hm0]
      rfl
    · rw [unpacked_finite (by omega) (fields_lt (by omega) hm)]
      apply finite_congr
      · rw [hlow, Nat.zero_mul, Nat.zero_add, Magnitude.significand_of_lt hm]
      · rw [scale_fields hm, hlow]
        omega
  · have hpos := Nat.mul_pos (Nat.pos_of_ne_zero hlow) (by decide : 0 < Magnitude.binade)
    rw [if_neg hlow, unpacked_finite (by omega) (fields_lt (by omega) hm)]
    apply finite_congr
    · rw [significand_fields (Nat.pos_of_ne_zero hlow) hm]
      exact toNat_leading_append _
    · rw [scale_fields hm]
      omega

theorem unpack_toModel (x : Float) :
    x.toModel.unpack = unpacked (sign (isNegative x)) (magnitude x) :=
  unpack_eq x.toBits.toBitVec

theorem toNat_toBits (x : Float) :
    x.toBits.toNat = (if isNegative x then signBit else 0) + magnitude x := by
  have hlt : x.toBits.toNat < 2 ^ 64 := x.toBits.toNat_lt
  unfold isNegative magnitude signBit
  generalize x.toBits.toNat = n at hlt ⊢
  by_cases h : 0x8000000000000000 ≤ n
  · rw [decide_eq_true h, if_pos rfl]
    omega
  · rw [decide_eq_false h, if_neg Bool.false_ne_true]
    omega

/-- A double is its sign and its magnitude. -/
theorem eq_of_magnitude (hs : isNegative x = isNegative y) (hk : magnitude x = magnitude y) :
    x = y := by
  rw [← Float.toBits_inj, ← UInt64.toNat_inj, toNat_toBits, toNat_toBits, hs, hk]

/-- The double with a model. -/
def packed (f : UnpackedFloat) : Float := .ofModel (Float.Model.pack f)

theorem isNaNBits_eq_false {b : BitVec (Format.numBits Format.binary64)}
    (hb : b.toNat % signBit ≤ Magnitude.infinite) :
    UnpackedFloat.isNaNBits b = false := by
  have hzero : UnpackedFloat.unpackMantissa b = 0#_ ↔
      (UnpackedFloat.unpackMantissa b).toNat = 0 := by
    rw [← BitVec.toNat_inj]
    rfl
  rw [magnitude_fields] at hb
  unfold UnpackedFloat.isNaNBits
  rw [decide_eq_false_iff_not]
  rintro ⟨hones, hsome⟩
  rw [ne_eq, hzero] at hsome
  have hall : (UnpackedFloat.unpackExponent b).toNat = 2047 := by
    rw [hones]
    rfl
  rw [hall] at hb
  exact hsome (Nat.eq_zero_of_le_zero (Nat.le_of_add_le_add_left hb))

theorem packed_unpacked (hk : k ≤ Magnitude.infinite) :
    isNegative (packed (unpacked (sign negative) k)) = negative ∧
      magnitude (packed (unpacked (sign negative) k)) = k := by
  have hlt : k < signBit := Nat.lt_of_le_of_lt hk (by decide)
  obtain ⟨b, hb⟩ : ∃ b : BitVec 64, b.toNat = (if negative then signBit else 0) + k := by
    refine ⟨BitVec.ofNat 64 ((if negative then signBit else 0) + k), ?_⟩
    rw [BitVec.toNat_ofNat, Nat.mod_eq_of_lt]
    simp only [signBit] at hlt ⊢
    split_ifs <;> omega
  have hsign : decide (signBit ≤ b.toNat) = negative := by
    rw [hb]
    cases negative with
    | false => simpa using hlt
    | true => simp
  have hmagnitude : b.toNat % signBit = k := by
    rw [hb]
    cases negative <;> simp [Nat.mod_eq_of_lt hlt]
  have hunpack := unpack_eq b
  rw [hsign, hmagnitude] at hunpack
  have hbits : (packed (unpacked (sign negative) k)).toBits.toNat = b.toNat := by
    have hpack := @UnpackedFloat.pack_unpack .binary64 b
    rw [isNaNBits_eq_false (hmagnitude ▸ hk), if_neg Bool.false_ne_true, hunpack] at hpack
    show (UnpackedFloat.pack Format.binary64 (unpacked (sign negative) k)).toNat = b.toNat
    rw [hpack]
  unfold isNegative magnitude
  rw [hbits]
  exact ⟨hsign, hmagnitude⟩

theorem ofMagnitude_eq (hk : k ≤ Magnitude.infinite) :
    ofMagnitude negative k = packed (unpacked (sign negative) k) := by
  have hlt : k < signBit := Nat.lt_of_le_of_lt hk (by decide)
  have hbits : (UInt64.ofNat (if negative then signBit + k else k)).toBitVec.toNat =
      if negative then signBit + k else k := by
    show (UInt64.ofNat _).toNat = _
    rw [UInt64.toNat_ofNat', Nat.mod_eq_of_lt]
    simp only [signBit] at hlt ⊢
    split_ifs <;> omega
  show packed (UnpackedFloat.unpack Format.binary64 _) = _
  rw [unpack_eq, hbits]
  cases negative with
  | false =>
    have hsign : ¬signBit ≤ k := Nat.not_le_of_lt hlt
    simp [hsign, Nat.mod_eq_of_lt hlt]
  | true => simp [Nat.mod_eq_of_lt hlt]

theorem isNegative_ofMagnitude (hk : k ≤ Magnitude.infinite) :
    isNegative (ofMagnitude negative k) = negative := by
  rw [ofMagnitude_eq hk]
  exact (packed_unpacked hk).1

theorem magnitude_ofMagnitude (hk : k ≤ Magnitude.infinite) :
    magnitude (ofMagnitude negative k) = k := by
  rw [ofMagnitude_eq hk]
  exact (packed_unpacked hk).2

theorem ofMagnitude_magnitude (hx : magnitude x ≤ Magnitude.infinite) :
    ofMagnitude (isNegative x) (magnitude x) = x :=
  eq_of_magnitude (isNegative_ofMagnitude hx) (magnitude_ofMagnitude hx)

/-! ### Negation and order -/

/-- A function of the model that keeps what a double is and changes at most its sign. -/
theorem unpacked_neg (s : UnpackedFloat.Sign) (k : Nat) : (unpacked s k).neg = unpacked (-s) k := by
  unfold unpacked
  split_ifs <;> rfl

theorem unpacked_abs (s : UnpackedFloat.Sign) (k : Nat) :
    (unpacked s k).abs = unpacked .positive k := by
  unfold unpacked
  split_ifs <;> rfl

theorem neg_ofMagnitude (hk : k ≤ Magnitude.infinite) :
    -ofMagnitude negative k = ofMagnitude (!negative) k := by
  have hneg : -sign negative = sign !negative := by cases negative <;> rfl
  rw [@ofMagnitude_eq k (!negative) hk, ← hneg, ← unpacked_neg]
  show packed (ofMagnitude negative k).toModel.unpack.neg = _
  rw [unpack_toModel, isNegative_ofMagnitude hk, magnitude_ofMagnitude hk]

theorem eq_nan (hx : Magnitude.infinite < magnitude x) : x = Float.nan := by
  have hnan : x.isNaN = true := by
    show x.toModel.unpack.isNaN = true
    rw [unpack_toModel, unpacked, if_pos hx]
    rfl
  rwa [Float.isNaN_eq_decide_eq_nan, decide_eq_true_eq] at hnan

theorem abs_eq (hx : magnitude x ≤ Magnitude.infinite) :
    x.abs = ofMagnitude false (magnitude x) := by
  show packed x.toModel.unpack.abs = _
  rw [unpack_toModel, unpacked_abs, ofMagnitude_eq hx]
  rfl

/-- A magnitude of a greater scale is greater. -/
theorem lt_of_scale_lt {j k : Nat} (h : Magnitude.scale j < Magnitude.scale k) : j < k := by
  have hj : Magnitude.scale j * Magnitude.binade + Magnitude.significand j = j :=
    Magnitude.scale_significand j
  have hk : Magnitude.scale k * Magnitude.binade + Magnitude.significand k = k :=
    Magnitude.scale_significand k
  have hlt : Magnitude.significand j < Magnitude.binade + Magnitude.binade :=
    Magnitude.significand_lt j
  have hle : Magnitude.binade ≤ Magnitude.significand k := by
    rcases Nat.lt_or_ge k Magnitude.binade with hsmall | hlarge
    · have hzero : Magnitude.scale k = 0 := by rw [Magnitude.scale, Nat.div_eq_of_lt hsmall]
      omega
    · exact Magnitude.le_significand hlarge
  have hgap := Nat.mul_le_mul_right Magnitude.binade (Nat.succ_le_of_lt h)
  rw [Nat.succ_mul] at hgap
  omega

/-- Magnitudes are ordered by their scales, those of one scale by their significands. -/
theorem compare_scale_significand (j k : Nat) :
    (compare (Magnitude.scale j : Int) (Magnitude.scale k)).then
      (compare (Magnitude.significand j) (Magnitude.significand k)) = compare j k := by
  rcases Nat.lt_trichotomy (Magnitude.scale j) (Magnitude.scale k) with h | h | h
  · have hint : (Magnitude.scale j : Int) < Magnitude.scale k := by exact_mod_cast h
    rw [compare_lt_iff_lt.2 hint, compare_lt_iff_lt.2 (lt_of_scale_lt h)]
    rfl
  · have hj : Magnitude.scale j * Magnitude.binade + Magnitude.significand j = j :=
      Magnitude.scale_significand j
    have hk : Magnitude.scale k * Magnitude.binade + Magnitude.significand k = k :=
      Magnitude.scale_significand k
    rw [h] at hj ⊢
    rw [compare_eq_iff_eq.2 rfl, Ordering.eq_then]
    rcases Nat.lt_trichotomy (Magnitude.significand j) (Magnitude.significand k) with hs | hs | hs
    · rw [compare_lt_iff_lt.2 hs, compare_lt_iff_lt.2 (by omega)]
    · rw [compare_eq_iff_eq.2 hs, compare_eq_iff_eq.2 (by omega)]
    · rw [compare_gt_iff_gt.2 hs, compare_gt_iff_gt.2 (by omega)]
  · have hint : (Magnitude.scale k : Int) < Magnitude.scale j := by exact_mod_cast h
    rw [compare_gt_iff_gt.2 hint, compare_gt_iff_gt.2 (lt_of_scale_lt h)]
    rfl

theorem compare_sub_right (a b c : Int) : compare (a - c) (b - c) = compare a b := by
  rcases Int.lt_trichotomy a b with h | h | h
  · rw [compare_lt_iff_lt.2 h, compare_lt_iff_lt.2 (by omega)]
  · rw [compare_eq_iff_eq.2 h, compare_eq_iff_eq.2 (by omega)]
  · rw [compare_gt_iff_gt.2 h, compare_gt_iff_gt.2 (by omega)]

theorem unpacked_infinite (s : UnpackedFloat.Sign) :
    unpacked s Magnitude.infinite = .infinity s := rfl

theorem unpacked_zero (s : UnpackedFloat.Sign) : unpacked s 0 = .zero s := rfl

/-- What a magnitude that is a number may be. -/
theorem magnitude_cases (hk : k ≤ Magnitude.infinite) :
    k = 0 ∨ (k ≠ 0 ∧ k < Magnitude.infinite) ∨ k = Magnitude.infinite := by
  have hpos : (0 : Nat) < Magnitude.infinite := by decide
  omega

/-- Doubles without a sign are ordered like their magnitudes. -/
theorem compare_unpacked {j k : Nat} (hj : j ≤ Magnitude.infinite) (hk : k ≤ Magnitude.infinite) :
    (unpacked .positive j).compare (unpacked .positive k) = some (compare j k) := by
  rcases magnitude_cases hj with rfl | ⟨hj, hjlt⟩ | rfl <;>
    rcases magnitude_cases hk with rfl | ⟨hk, hklt⟩ | rfl
  · rfl
  · rw [unpacked_zero, unpacked_finite hk hklt, compare_lt_iff_lt.2 (Nat.pos_of_ne_zero hk)]
    rfl
  · rfl
  · rw [unpacked_zero, unpacked_finite hj hjlt, compare_gt_iff_gt.2 (Nat.pos_of_ne_zero hj)]
    rfl
  · rw [unpacked_finite hj hjlt, unpacked_finite hk hklt, ← compare_scale_significand,
      ← compare_sub_right _ _ Magnitude.places]
    rfl
  · rw [unpacked_infinite, unpacked_finite hj hjlt, compare_lt_iff_lt.2 hjlt]
    rfl
  · rfl
  · rw [unpacked_infinite, unpacked_finite hk hklt, compare_gt_iff_gt.2 hklt]
    rfl
  · rfl

theorem le_iff_compare : x ≤ y ↔ (x.toModel.unpack.compare y.toModel.unpack).any (·.isLE) = true :=
  decide_eq_true_iff

theorem lt_iff_compare : x < y ↔ x.toModel.unpack.compare y.toModel.unpack = some .lt :=
  decide_eq_true_iff.trans beq_iff_eq

/-- The order of two doubles that are no negative ones. -/
theorem ofMagnitude_le_iff {j k : Nat} (hj : j ≤ Magnitude.infinite) (hk : k ≤ Magnitude.infinite) :
    ofMagnitude false j ≤ ofMagnitude false k ↔ j ≤ k := by
  rw [le_iff_compare, unpack_toModel, unpack_toModel, isNegative_ofMagnitude hj,
    isNegative_ofMagnitude hk, magnitude_ofMagnitude hj, magnitude_ofMagnitude hk]
  show ((unpacked .positive j).compare (unpacked .positive k)).any _ = true ↔ _
  rw [compare_unpacked hj hk, Option.any_some, Nat.isLE_compare]

theorem ofMagnitude_lt_iff {j k : Nat} (hj : j ≤ Magnitude.infinite) (hk : k ≤ Magnitude.infinite) :
    ofMagnitude false j < ofMagnitude false k ↔ j < k := by
  rw [lt_iff_compare, unpack_toModel, unpack_toModel, isNegative_ofMagnitude hj,
    isNegative_ofMagnitude hk, magnitude_ofMagnitude hj, magnitude_ofMagnitude hk]
  show (unpacked .positive j).compare (unpacked .positive k) = _ ↔ _
  rw [compare_unpacked hj hk, Option.some_inj, compare_lt_iff_lt]

theorem isFinite_iff : x.isFinite = true ↔ magnitude x < Magnitude.infinite := by
  show x.toModel.unpack.isFinite = true ↔ _
  rw [unpack_toModel]
  by_cases hle : magnitude x ≤ Magnitude.infinite
  · rcases magnitude_cases hle with h | ⟨h, hlt⟩ | h
    · rw [h]
      exact iff_of_true rfl (by decide)
    · rw [unpacked_finite h hlt]
      exact iff_of_true rfl hlt
    · rw [h]
      exact iff_of_false Bool.false_ne_true (Nat.lt_irrefl _)
  · rw [eq_nan (Nat.lt_of_not_le hle)]
    decide +kernel

/-- Both zeros are equal to zero. -/
theorem beq_zero_iff : (x == 0) = true ↔ magnitude x = 0 := by
  have hzero : (0 : Float).toModel.unpack = .zero .positive := unpack_toModel 0
  show (x.toModel.unpack.compare (0 : Float).toModel.unpack == some .eq) = true ↔ _
  rw [unpack_toModel, hzero, beq_iff_eq]
  by_cases hle : magnitude x ≤ Magnitude.infinite
  · rcases magnitude_cases hle with h | ⟨h, hlt⟩ | h
    · rw [h]
      exact iff_of_true rfl rfl
    · rw [unpacked_finite h hlt]
      refine iff_of_false ?_ h
      cases isNegative x <;> simp [sign, UnpackedFloat.compare]
    · rw [h, unpacked_infinite]
      refine iff_of_false ?_ (by decide)
      cases isNegative x <;> simp [sign, UnpackedFloat.compare]
  · rw [eq_nan (Nat.lt_of_not_le hle)]
    decide +kernel

/-- The doubles of this size are printed without an exponent. -/
def Plain (x : Float) : Prop := 1e-3 ≤ x.abs ∧ x.abs < 1e7

instance (x : Float) : Decidable (Plain x) := inferInstanceAs (Decidable (_ ∧ _))

theorem plain_iff :
    Plain x ↔ Decimal.magnitude ⟨1, -3⟩ ≤ magnitude x ∧ magnitude x < Decimal.magnitude ⟨1, 7⟩ := by
  have hlow : (1e-3 : Float) = ofMagnitude false (Decimal.magnitude ⟨1, -3⟩) := by decide +kernel
  have hhigh : (1e7 : Float) = ofMagnitude false (Decimal.magnitude ⟨1, 7⟩) := by decide +kernel
  unfold Plain
  by_cases hle : magnitude x ≤ Magnitude.infinite
  · rw [abs_eq hle, hlow, hhigh,
      ofMagnitude_le_iff (Decimal.magnitude_le_infinite _) hle,
      ofMagnitude_lt_iff hle (Decimal.magnitude_le_infinite _)]
  · rw [eq_nan (Nat.lt_of_not_le hle)]
    decide +kernel

/-- The exact number that a finite double is. -/
def value (x : Float) : ℚ := (if isNegative x then -1 else 1) * Magnitude.value (magnitude x)

/-- In the model the same number is a significand times a power of two. -/
theorem value_eq {s : UnpackedFloat.Sign} {m : Nat} {e : Int} {hm : 0 < m}
    (hx : x.toModel.unpack = .finite s m e hm) : value x = s.apply m * 2 ^ e := by
  rw [unpack_toModel] at hx
  unfold unpacked at hx
  split_ifs at hx
  cases hx
  have hscale : (2 : ℚ) ^ ((Magnitude.scale (magnitude x) : Int) - Magnitude.places) =
      2 ^ Magnitude.scale (magnitude x) / 2 ^ Magnitude.places := by
    rw [zpow_sub₀ (by norm_num), zpow_natCast, zpow_natCast]
  rw [value, Magnitude.value, Magnitude.units_eq, Magnitude.one_cast, hscale]
  generalize Magnitude.places = p
  generalize Magnitude.scale (magnitude x) = t
  push_cast
  cases isNegative x with
  | false => simp [sign, UnpackedFloat.Sign.apply, mul_div_assoc]
  | true => simp [sign, UnpackedFloat.Sign.apply, mul_div_assoc]

end Number
end Lox
