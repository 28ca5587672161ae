import Lox.Number.Notation
import Lox.Proofs.Decimals
import Lox.Proofs.Lexemes
import Mathlib.Data.List.DropRight

/-! Written numbers. A reader of numbers in decimal digits, with or without a point, an exponent and
a sign, reads whatever is written for a decimal as the number that the decimal stands for, so that
no two magnitudes are written alike. -/

namespace Lox

namespace Decimal
/-- The decimal with these digits, the first of them at place `e`. -/
def leading (digits : List Char) (e : Int) : Decimal :=
  ⟨Nat.ofDigitChars 10 digits 0, e + 1 - digits.length⟩

theorem leading_value (digits : List Char) (e : Int) :
    (leading digits e).value = (leading digits 0).value * 10 ^ e := by
  simp only [leading, value]
  rw [mul_assoc, ← zpow_add₀ (by norm_num)]
  congr 2
  omega

/-- Zeros behind the last digit do not change the number. -/
theorem leading_append_zeros (digits : List Char) (n : Nat) (e : Int) :
    (leading (digits ++ List.replicate n '0') e).value = (leading digits e).value := by
  have hshift : e + 1 - digits.length = n + (e + 1 - (digits.length + n)) := by omega
  simp only [leading, value, Nat.ofDigitChars_append, Nat.ofDigitChars_replicate_zero,
    List.length_append, List.length_replicate, Nat.cast_add]
  rw [hshift, zpow_add₀ (by norm_num), zpow_natCast]
  push_cast
  ring

/-- Zeros in front of the first digit do not either. -/
theorem leading_zeros_append (digits : List Char) (n : Nat) (e : Int) :
    (leading (List.replicate n '0' ++ digits) (e + n)).value = (leading digits e).value := by
  simp only [leading, value, Nat.ofDigitChars_append, Nat.ofDigitChars_replicate_zero,
    List.length_append, List.length_replicate, Nat.mul_zero]
  congr 2
  omega

/-- Digits with a point among them have the last one before it at place zero. -/
theorem ofDigits_value (whole fraction : List Char) :
    (ofDigits whole fraction).value = (leading (whole ++ fraction) (whole.length - 1)).value := by
  simp only [ofDigits, leading, value, List.length_append]
  congr 2
  omega

/-- The digits up to the last that is not zero. -/
def significant (d : Decimal) : List Char := (Nat.toDigits 10 d.digits).rdropWhile (· = '0')

variable {d : Decimal}

theorem toDigits_eq_significant (d : Decimal) :
    ∃ n, Nat.toDigits 10 d.digits = d.significant ++ List.replicate n '0' := by
  have hzeros : ∀ c ∈ (Nat.toDigits 10 d.digits).rtakeWhile (· = '0'), c = '0' := by
    intro c hc
    simpa using List.mem_rtakeWhile_imp hc
  refine ⟨((Nat.toDigits 10 d.digits).rtakeWhile (· = '0')).length, ?_⟩
  rw [← List.eq_replicate_of_mem hzeros]
  exact List.rdropWhile_append_rtakeWhile.symm

theorem significant_value (d : Decimal) : (leading d.significant d.place).value = d.value := by
  obtain ⟨n, hn⟩ := d.toDigits_eq_significant
  rw [← leading_append_zeros _ n, ← hn]
  simp only [leading, value, place, Nat.ofDigitChars_ten_toDigits]
  congr 2
  omega

theorem significant_isDigit (d : Decimal) : ∀ c ∈ d.significant, c.isDigit = true := by
  intro c hc
  have hmem := (List.rdropWhile_prefix _ _).subset hc
  exact Nat.isDigit_of_mem_toDigits (by decide) (by decide) hmem

theorem significant_ne_nil (hd : 0 < d.digits) : d.significant ≠ [] := by
  intro hnil
  obtain ⟨n, hn⟩ := d.toDigits_eq_significant
  have hzero := Nat.ofDigitChars_ten_toDigits (n := d.digits)
  rw [hn, hnil, List.nil_append, Nat.ofDigitChars_replicate_zero, Nat.mul_zero] at hzero
  omega

theorem significant_getLast (d : Decimal) : d.significant.getLast? ≠ some '0' := by
  intro hlast
  obtain ⟨before, hbefore⟩ := List.getLast?_eq_some_iff.1 hlast
  have hne : d.significant ≠ [] := by simp [hbefore]
  have hnot : ¬decide (d.significant.getLast hne = '0') = true :=
    List.rdropWhile_last_not _ _ hne
  simp [hbefore] at hnot

theorem head?_toDigits {n : Nat} (hn : 0 < n) : (Nat.toDigits 10 n).head? ≠ some '0' := by
  induction n using Nat.strongRecOn with
  | ind n ih =>
    rcases Nat.lt_or_ge n 10 with h | h
    · rw [Nat.toDigits_of_lt_base h]
      simp [hn.ne']
    · rw [Nat.toDigits_of_base_le (by decide) h, List.head?_append_of_ne_nil _ Nat.toDigits_ne_nil]
      exact ih _ (by omega) (by omega)

theorem significant_head? (hd : 0 < d.digits) : d.significant.head? ≠ some '0' := by
  obtain ⟨n, hn⟩ := d.toDigits_eq_significant
  have hhead := head?_toDigits hd
  rwa [hn, List.head?_append_of_ne_nil _ (significant_ne_nil hd)] at hhead

end Decimal

namespace Numeral
variable {s t : List Char} {q : ℚ} {c : Char} {e : Int} {n : Nat}

/-- A text of digits, with at most one point among them, and the number it stands for. -/
inductive Fixed : List Char → ℚ → Prop
  | whole {ds : List Char} (some_ : ds ≠ []) (digits : ∀ d ∈ ds, d.isDigit) :
    Fixed ds (Decimal.ofDigits ds []).value
  | fraction {ds es : List Char} (some_ : ds ≠ []) (digits : ∀ d ∈ ds, d.isDigit)
    (someBehind : es ≠ []) (digitsBehind : ∀ d ∈ es, d.isDigit) :
    Fixed (ds ++ '.' :: es) (Decimal.ofDigits ds es).value

def fixed? (s : List Char) : Option ℚ :=
  let whole := s.takeWhile Char.isDigit
  if whole = [] then none
  else match s.dropWhile Char.isDigit with
    | [] => some (Decimal.ofDigits whole []).value
    | '.' :: fraction =>
      if fraction ≠ [] ∧ fraction.all Char.isDigit then
        some (Decimal.ofDigits whole fraction).value
      else none
    | _ => none

def natural? (s : List Char) : Option Nat :=
  if s ≠ [] ∧ s.all Char.isDigit then some (Nat.ofDigitChars 10 s 0) else none

def integer? : List Char → Option Int
  | '-' :: s => (natural? s).map fun n : Nat => -(n : Int)
  | '+' :: s => (natural? s).map fun n : Nat => (n : Int)
  | s => (natural? s).map fun n : Nat => (n : Int)

def isMark (c : Char) : Bool := c = 'e' || c = 'E'

/-- The number that a text without a sign denotes. An exponent stands behind an `e`. -/
def unsigned? (s : List Char) : Option ℚ :=
  match s.dropWhile (!isMark ·) with
  | [] => fixed? s
  | _ :: behind => do
    let q ← fixed? (s.takeWhile (!isMark ·))
    let e ← integer? behind
    return q * 10 ^ e

/-- The number that a text denotes. -/
def value? (s : String) : Option ℚ :=
  match s.toList with
  | '-' :: s => (unsigned? s).map fun q => -q
  | s => unsigned? s

/-- A number in scientific form: one digit before the point that is not zero, behind it a lone zero
or digits of which the last is not zero, and then the exponent. -/
def Scientific (s : String) : Prop :=
  ∃ (d : Char) (fraction : List Char) (e : Int), (d.isDigit = true ∧ d ≠ '0') ∧
    (fraction = ['0'] ∨
      fraction ≠ [] ∧ (∀ c ∈ fraction, c.isDigit = true) ∧ fraction.getLast? ≠ some '0') ∧
    s = String.ofList (d :: '.' :: fraction) ++ "E" ++ toString e

theorem fixed?_of_fixed (h : Fixed s q) : fixed? s = some q := by
  cases h with
  | whole some_ digits =>
    rw [fixed?, List.takeWhile_eq_self_iff.2 digits, List.dropWhile_eq_nil_iff.2 digits]
    simp [some_]
  | fraction some_ digits someBehind digitsBehind =>
    obtain ⟨hwhole, hrest⟩ := Token.takeWhile_isDigit_fraction _ digits
    rw [fixed?, hwhole, hrest]
    have hall := List.all_eq_true.2 digitsBehind
    simp [some_, someBehind, hall]

theorem Fixed.chars (h : Fixed s q) : ∀ c ∈ s, c.isDigit = true ∨ c = '.' := by
  cases h with
  | whole _ digits => exact fun c hc => .inl (digits c hc)
  | fraction _ digits _ digitsBehind =>
    intro c hc
    rcases List.mem_append.1 hc with hc | hc
    · exact .inl (digits c hc)
    rcases List.mem_cons.1 hc with rfl | hc
    · exact .inr rfl
    · exact .inl (digitsBehind c hc)

theorem Fixed.unmarked (h : Fixed s q) : ∀ c ∈ s, (!isMark c) = true := by
  intro c hc
  rcases h.chars c hc with hdigit | rfl
  · by_contra hmark
    have hmark : c = 'e' ∨ c = 'E' := by simpa [isMark, ← or_iff_not_imp_left] using hmark
    rcases hmark with rfl | rfl
    · exact absurd hdigit (by decide)
    · exact absurd hdigit (by decide)
  · decide

theorem unsigned?_fixed (h : Fixed s q) : unsigned? s = some q := by
  rw [unsigned?, List.dropWhile_eq_nil_iff.2 h.unmarked]
  exact fixed?_of_fixed h

theorem unsigned?_marked (h : Fixed s q) (hc : isMark c = true) (he : integer? t = some e) :
    unsigned? (s ++ c :: t) = some (q * 10 ^ e) := by
  have hmark : (c :: t).dropWhile (!isMark ·) = c :: t := by simp [hc]
  have hnone : (c :: t).takeWhile (!isMark ·) = [] := by simp [hc]
  rw [unsigned?, List.dropWhile_append_of_pos h.unmarked, hmark,
    List.takeWhile_append_of_pos h.unmarked, hnone, List.append_nil, fixed?_of_fixed h]
  dsimp only
  rw [he]
  rfl

theorem natural?_padded (m n : Nat) :
    natural? (List.replicate m '0' ++ Nat.toDigits 10 n) = some n := by
  have hdigits : ∀ c ∈ List.replicate m '0' ++ Nat.toDigits 10 n, c.isDigit = true := by
    intro c hc
    rcases List.mem_append.1 hc with hc | hc
    · rw [List.eq_of_mem_replicate hc]
      decide
    · exact Nat.isDigit_of_mem_toDigits (by decide) (by decide) hc
  rw [natural?, if_pos ⟨by simp, List.all_eq_true.2 hdigits⟩, Nat.ofDigitChars_append,
    Nat.ofDigitChars_replicate_zero, Nat.mul_zero, Nat.ofDigitChars_ten_toDigits]

theorem integer?_natural (h : natural? s = some n) : integer? s = some (n : Int) := by
  have hdigits : s.all Char.isDigit = true := by
    by_contra hs
    rw [natural?, if_neg (by simp [hs])] at h
    cases h
  have hhead : ∀ c t, s = c :: t → c.isDigit = true := by
    rintro c t rfl
    exact List.all_eq_true.1 hdigits c List.mem_cons_self
  rw [integer?, h]
  · rfl
  · intro t hs
    exact absurd (hhead _ _ hs) (by decide)
  · intro t hs
    exact absurd (hhead _ _ hs) (by decide)

theorem fixed?_minus (s : List Char) : fixed? ('-' :: s) = none := by
  have hminus : ('-' : Char).isDigit = false := by decide
  simp [fixed?, hminus]

/-- A text with a sign in front of it denotes nothing without it. -/
theorem unsigned?_minus (s : List Char) : unsigned? ('-' :: s) = none := by
  have hminus : (!isMark '-') = true := by decide
  have hdrop : ('-' :: s).dropWhile (!isMark ·) = s.dropWhile (!isMark ·) := by simp [hminus]
  have htake : ('-' :: s).takeWhile (!isMark ·) = '-' :: s.takeWhile (!isMark ·) := by
    simp [hminus]
  rw [unsigned?, hdrop, htake, fixed?_minus, fixed?_minus]
  cases s.dropWhile (!isMark ·) with
  | nil => rfl
  | cons c t => rfl

theorem head?_of_unsigned? (h : unsigned? s = some q) : s.head? ≠ some '-' := by
  intro hhead
  obtain ⟨t, rfl⟩ := List.head?_eq_some_iff.1 hhead
  rw [unsigned?_minus] at h
  cases h

theorem value?_unsigned {text : String} (h : text.toList.head? ≠ some '-') :
    value? text = unsigned? text.toList := by
  unfold value?
  split
  · next s hs =>
    rw [hs] at h
    exact absurd rfl h
  · rfl

theorem value?_minus (text : String) :
    value? ("-" ++ text) = (unsigned? text.toList).map fun q => -q := by
  have hlist : ("-" ++ text).toList = '-' :: text.toList := by
    rw [String.toList_append]
    rfl
  rw [value?, hlist]
  rfl

end Numeral

namespace Notation
open Decimal Numeral
variable {f : Notation} {digits : List Char} {e : Int} {d : Decimal} {j k : Magnitude}

/-- Whatever the notation shows a number with is read as a number, and its other words are not. -/
structure Standard (f : Notation) : Prop where
  wholeEnd : f.wholeEnd ∈ ["", ".0"]
  digitEnd : f.digitEnd ∈ ["", ".0"]
  exponentMark : f.exponentMark ∈ ["e", "E"]
  plusSign : f.plusSign ∈ ["", "+"]
  infinity : unsigned? f.infinity.toList = none
  notANumber : unsigned? f.notANumber.toList = none
  distinct : f.infinity ≠ f.notANumber
  unsigned : ∀ word ∈ [f.infinity, f.notANumber], word.toList.head? ≠ some '-'

theorem printed_standard : printed.Standard where
  wholeEnd := by decide
  digitEnd := by decide
  exponentMark := by decide
  plusSign := by decide
  infinity := by decide +kernel
  notANumber := by decide +kernel
  distinct := by decide
  unsigned := by decide

theorem listed_standard : listed.Standard where
  wholeEnd := by decide
  digitEnd := by decide
  exponentMark := by decide
  plusSign := by decide
  infinity := by decide +kernel
  notANumber := by decide +kernel
  distinct := by decide
  unsigned := by decide

theorem isDigit_of_mem_replicate {n : Nat} : ∀ c ∈ List.replicate n '0', c.isDigit = true := by
  intro c hc
  rw [List.eq_of_mem_replicate hc]
  decide

/-- Digits and one of the two ends of a whole number. -/
theorem fixed_ended {ending : String} (hend : ending ∈ ["", ".0"]) (hne : digits ≠ [])
    (hdigits : ∀ c ∈ digits, c.isDigit = true) (he : e + 1 = digits.length) :
    Fixed (digits ++ ending.toList) (leading digits e).value := by
  have hplace : e = digits.length - 1 := by omega
  simp only [List.mem_cons, List.not_mem_nil, or_false] at hend
  rcases hend with rfl | rfl
  · have hvalue := ofDigits_value digits []
    rw [List.append_nil, ← hplace] at hvalue
    rw [← hvalue, String.toList_empty, List.append_nil]
    exact .whole hne hdigits
  · have hvalue := ofDigits_value digits ['0']
    rw [← hplace] at hvalue
    have hzero := leading_append_zeros digits 1 e
    rw [← hzero, List.replicate_one, ← hvalue]
    exact .fraction hne hdigits (by decide) (isDigit_of_mem_replicate (n := 1))

theorem plain_fixed (hend : f.wholeEnd ∈ ["", ".0"]) (hne : digits ≠ [])
    (hdigits : ∀ c ∈ digits, c.isDigit = true) (e : Int) :
    Fixed (f.plain digits e).toList (leading digits e).value := by
  unfold plain
  dsimp only
  split_ifs with hneg hlength
  · obtain ⟨n, hn⟩ := Int.eq_ofNat_of_zero_le (by omega : 0 ≤ -e - 1)
    have hplace : (0 : Int) = e + (n + 1 : Nat) := by omega
    have hvalue := ofDigits_value ['0'] (List.replicate n '0' ++ digits)
    rw [List.singleton_append, ← List.cons_append, ← List.replicate_succ, List.length_singleton,
      Nat.cast_one, Int.sub_self, hplace, leading_zeros_append] at hvalue
    simp only [hn, Int.toNat_natCast, String.toList_append, String.toList_ofList]
    rw [← hvalue]
    show Fixed (['0'] ++ '.' :: (List.replicate n '0' ++ digits)) _
    have hsome : List.replicate n '0' ++ digits ≠ [] := by simp [hne]
    exact Fixed.fraction (by decide) (isDigit_of_mem_replicate (n := 1)) hsome
      (List.forall_mem_append.2 ⟨isDigit_of_mem_replicate, hdigits⟩)
  · obtain ⟨n, rfl⟩ := Int.eq_ofNat_of_zero_le (Int.not_lt.1 hneg)
    simp only [Int.toNat_natCast] at hlength ⊢
    rw [String.toList_append, String.toList_ofList, ← leading_append_zeros digits]
    apply fixed_ended hend
    · simp [hne]
    · exact List.forall_mem_append.2 ⟨hdigits, isDigit_of_mem_replicate⟩
    · rw [List.length_append, List.length_replicate]
      omega
  · obtain ⟨n, rfl⟩ := Int.eq_ofNat_of_zero_le (Int.not_lt.1 hneg)
    simp only [Int.toNat_natCast] at hlength ⊢
    have hvalue := ofDigits_value (digits.take (n + 1)) (digits.drop (n + 1))
    have hplace : ((digits.take (n + 1)).length : Int) - 1 = n := by
      rw [List.length_take_of_le (by omega)]
      omega
    rw [List.take_append_drop, hplace] at hvalue
    simp only [String.toList_append, String.toList_ofList, List.append_assoc]
    rw [← hvalue]
    refine Fixed.fraction ?_ (fun c hc => hdigits c (List.mem_of_mem_take hc)) ?_
      fun c hc => hdigits c (List.mem_of_mem_drop hc)
    · simp [hne]
    · exact mt List.drop_eq_nil_iff.1 hlength

theorem exponent_read (hf : f.Standard) (e : Int) :
    ∃ c t, (f.exponent e).toList = c :: t ∧ isMark c = true ∧ integer? t = some e := by
  have hmark : ∃ c, f.exponentMark.toList = [c] ∧ isMark c = true := by
    have hmark := hf.exponentMark
    simp only [List.mem_cons, List.not_mem_nil, or_false] at hmark
    rcases hmark with h | h
    · exact ⟨'e', by rw [h]; rfl, rfl⟩
    · exact ⟨'E', by rw [h]; rfl, rfl⟩
  obtain ⟨c, hc, hmark⟩ := hmark
  have hread := natural?_padded (f.exponentWidth - (Nat.toDigits 10 e.natAbs).length) e.natAbs
  unfold exponent
  dsimp only
  generalize List.replicate _ '0' ++ Nat.toDigits 10 e.natAbs = s at hread ⊢
  have hminus : "-".toList = ['-'] := rfl
  have hplus : "+".toList = ['+'] := rfl
  have hsign : integer? ((if e < 0 then "-" else f.plusSign).toList ++ s) = some e := by
    split_ifs with hneg
    · rw [hminus, List.singleton_append, integer?, hread, Option.map_some]
      congr 1
      omega
    · have habs : (e.natAbs : Int) = e := by omega
      have hsigns := hf.plusSign
      simp only [List.mem_cons, List.not_mem_nil, or_false] at hsigns
      rcases hsigns with h | h
      · rw [h, String.toList_empty, List.nil_append, integer?_natural hread, habs]
      · rw [h, hplus, List.singleton_append, integer?, hread, Option.map_some, habs]
  refine ⟨c, _, ?_, hmark, hsign⟩
  simp only [String.toList_append, String.toList_ofList, hc, List.cons_append, List.nil_append]

theorem scientific_fixed (hend : f.digitEnd ∈ ["", ".0"]) (hne : digits ≠ [])
    (hdigits : ∀ c ∈ digits, c.isDigit = true) (e : Int) :
    ∃ s : String, f.scientific digits e = s ++ f.exponent e ∧
      Fixed s.toList (leading digits 0).value := by
  cases digits with
  | nil => exact absurd rfl hne
  | cons d digits =>
  cases digits with
  | nil =>
    refine ⟨_, rfl, ?_⟩
    rw [String.toList_append, String.toList_ofList]
    exact fixed_ended hend hne hdigits (by simp)
  | cons d' digits =>
    obtain ⟨hd, hbehind⟩ := List.forall_mem_cons.1 hdigits
    have hvalue := ofDigits_value [d] (d' :: digits)
    rw [List.length_singleton, Nat.cast_one, Int.sub_self] at hvalue
    refine ⟨_, rfl, ?_⟩
    simp only [String.toList_append, String.toList_ofList, List.append_assoc]
    show Fixed ([d] ++ '.' :: d' :: digits) (leading ([d] ++ d' :: digits) 0).value
    rw [← hvalue]
    exact .fraction (List.cons_ne_nil _ _) (List.forall_mem_singleton.2 hd)
      (List.cons_ne_nil _ _) hbehind

theorem decimal_eq (f : Notation) (d : Decimal) :
    f.decimal d =
      if f.plainFrom ≤ d.place ∧ d.place < f.plainBelow then f.plain d.significant d.place
      else f.scientific d.significant d.place :=
  rfl

theorem decimal_read (hf : f.Standard) (hd : 0 < d.digits) :
    unsigned? (f.decimal d).toList = some d.value := by
  have hne := significant_ne_nil hd
  rw [decimal_eq, ← significant_value d]
  split_ifs
  · exact unsigned?_fixed (plain_fixed hf.wholeEnd hne d.significant_isDigit _)
  · obtain ⟨s, hs, hfixed⟩ := scientific_fixed hf.digitEnd hne d.significant_isDigit d.place
    obtain ⟨c, t, htext, hc, he⟩ := exponent_read hf d.place
    rw [hs, String.toList_append, htext, leading_value]
    exact unsigned?_marked hfixed hc he

theorem magnitude_zero (f : Notation) : f.magnitude 0 = f.plain ['0'] 0 := rfl

theorem magnitude_zero_fixed (hend : f.wholeEnd ∈ ["", ".0"]) :
    Fixed (f.magnitude 0).toList (Magnitude.shortest 0).value := by
  have hvalue : (leading ['0'] 0).value = (Magnitude.shortest 0).value := by
    rw [Magnitude.shortest_zero]
    simp [leading, value, Nat.ofDigitChars]
  rw [magnitude_zero, ← hvalue]
  exact plain_fixed hend (by decide) (isDigit_of_mem_replicate (n := 1)) 0

/-- A finite magnitude is written as its shortest decimal. -/
theorem magnitude_read (hf : f.Standard) (hk : k < Magnitude.infinite) :
    unsigned? (f.magnitude k).toList = some k.shortest.value := by
  rcases Nat.eq_zero_or_pos k with rfl | hpos
  · exact unsigned?_fixed (magnitude_zero_fixed hf.wholeEnd)
  · rw [magnitude, if_neg hpos.ne', if_neg hk.ne]
    exact decimal_read hf (Magnitude.shortest_digits_pos hk.le hpos)

theorem magnitude_infinite (f : Notation) : f.magnitude Magnitude.infinite = f.infinity := rfl

/-- No two magnitudes are written alike. -/
theorem magnitude_inj (hf : f.Standard) (hj : j ≤ Magnitude.infinite) (hk : k ≤ Magnitude.infinite)
    (h : f.magnitude j = f.magnitude k) : j = k := by
  have hinfinite : ∀ {i : Magnitude}, i < Magnitude.infinite →
      f.magnitude i ≠ f.magnitude Magnitude.infinite := by
    intro i hi heq
    have hread := magnitude_read hf hi
    rw [heq, magnitude_infinite, hf.infinity] at hread
    cases hread
  rcases Nat.lt_or_eq_of_le hj with hj' | rfl <;> rcases Nat.lt_or_eq_of_le hk with hk' | rfl
  · have hread := magnitude_read hf hj'
    rw [h, magnitude_read hf hk'] at hread
    exact Magnitude.shortest_inj hj hk (Option.some.inj hread).symm
  · exact absurd h (hinfinite hj')
  · exact absurd h.symm (hinfinite hk')
  · rfl

theorem head?_magnitude (hf : f.Standard) (hk : k ≤ Magnitude.infinite) :
    (f.magnitude k).toList.head? ≠ some '-' := by
  rcases Nat.lt_or_eq_of_le hk with hk | rfl
  · exact head?_of_unsigned? (magnitude_read hf hk)
  · rw [magnitude_infinite]
    exact hf.unsigned _ List.mem_cons_self

/-! ### The two forms of printed numbers -/

theorem exponent_printed (e : Int) : printed.exponent e = "E" ++ toString e := by
  have hwidth : 1 - (Nat.toDigits 10 e.natAbs).length = 0 := by
    have hlength : 0 < (Nat.toDigits 10 e.natAbs).length := Nat.length_toDigits_pos
    omega
  have hdigits : printed.exponent e =
      "E" ++ (if e < 0 then "-" else "") ++ toString e.natAbs := by
    unfold exponent
    dsimp only [printed]
    rw [hwidth, List.replicate_zero, List.nil_append, Nat.toString_eq_ofList_toDigits]
  rw [hdigits]
  cases e with
  | ofNat n =>
    have hsign : ¬Int.ofNat n < 0 := Int.not_lt.2 (Int.natCast_nonneg n)
    rw [if_neg hsign, String.append_empty]
    rfl
  | negSucc n =>
    rw [if_pos (Int.negSucc_lt_zero n)]
    rfl

theorem scientific_printed (hhead : digits.head? ≠ some '0') (hlast : digits.getLast? ≠ some '0')
    (hne : digits ≠ []) (hdigits : ∀ c ∈ digits, c.isDigit = true) (e : Int) :
    Scientific (printed.scientific digits e) := by
  cases digits with
  | nil => exact absurd rfl hne
  | cons d digits =>
  obtain ⟨hd, hbehind⟩ := List.forall_mem_cons.1 hdigits
  have hnonzero : d ≠ '0' := by simpa using hhead
  cases digits with
  | nil =>
    refine ⟨d, ['0'], e, ⟨hd, hnonzero⟩, .inl rfl, ?_⟩
    have hend : String.ofList [d] ++ ".0" = String.ofList [d, '.', '0'] := by
      rw [show ".0" = String.ofList ['.', '0'] from rfl, ← String.ofList_append]
      rfl
    show String.ofList [d] ++ ".0" ++ printed.exponent e = _
    rw [hend, exponent_printed, String.append_assoc]
  | cons d' digits =>
    refine ⟨d, d' :: digits, e, ⟨hd, hnonzero⟩, .inr ⟨List.cons_ne_nil _ _, hbehind, ?_⟩, ?_⟩
    · simpa using hlast
    · have hpoint : String.ofList [d] ++ "." ++ String.ofList (d' :: digits) =
          String.ofList (d :: '.' :: d' :: digits) := by
        rw [show "." = String.ofList ['.'] from rfl, ← String.ofList_append, ← String.ofList_append]
        rfl
      show String.ofList [d] ++ "." ++ String.ofList (d' :: digits) ++ printed.exponent e = _
      rw [hpoint, exponent_printed, String.append_assoc]

theorem plain_isDigit (hend : f.wholeEnd = "") (hne : digits ≠ [])
    (hdigits : ∀ c ∈ digits, c.isDigit = true) (he : (digits.length : Int) ≤ e + 1) :
    ∀ c ∈ (f.plain digits e).toList, c.isDigit = true := by
  have hlength := List.length_pos_iff.2 hne
  obtain ⟨n, rfl⟩ := Int.eq_ofNat_of_zero_le (by omega : 0 ≤ e)
  unfold plain
  dsimp only
  rw [if_neg (by omega), if_pos (by omega), hend, String.append_empty, String.toList_ofList]
  exact List.forall_mem_append.2 ⟨hdigits, isDigit_of_mem_replicate⟩

/-! ### Signs -/

/-- What is written for the double of a sign and a magnitude. -/
def signed (f : Notation) (negative : Bool) (k : Magnitude) : String :=
  if Magnitude.infinite < k then f.notANumber
  else (if negative then "-" else "") ++ f.magnitude k

variable {negative other : Bool}

theorem signed_of_le (f : Notation) (negative : Bool) (hk : k ≤ Magnitude.infinite) :
    f.signed negative k = (if negative then "-" else "") ++ f.magnitude k :=
  if_neg (Nat.not_lt_of_ge hk)

theorem signed_read (hf : f.Standard) (negative : Bool) (hk : k < Magnitude.infinite) :
    value? (f.signed negative k) =
      some (if negative then -k.shortest.value else k.shortest.value) := by
  rw [signed_of_le f negative hk.le]
  cases negative with
  | false =>
    rw [if_neg Bool.false_ne_true, if_neg Bool.false_ne_true, String.empty_append,
      value?_unsigned (head?_magnitude hf hk.le)]
    exact magnitude_read hf hk
  | true =>
    rw [if_pos rfl, if_pos rfl, value?_minus, magnitude_read hf hk]
    rfl

theorem ne_minus_append {text behind : String} (h : text.toList.head? ≠ some '-') :
    text ≠ "-" ++ behind := by
  rintro rfl
  rw [String.toList_append] at h
  exact absurd rfl h

theorem signed_ne_notANumber (hf : f.Standard) (negative : Bool) (hk : k ≤ Magnitude.infinite) :
    f.notANumber ≠ f.signed negative k := by
  rw [signed_of_le f negative hk]
  cases negative with
  | true => exact ne_minus_append (hf.unsigned _ (by simp))
  | false =>
    intro h
    rw [if_neg Bool.false_ne_true, String.empty_append] at h
    rcases Nat.lt_or_eq_of_le hk with hk | rfl
    · have hread := magnitude_read hf hk
      rw [← h, hf.notANumber] at hread
      cases hread
    · exact hf.distinct h.symm

/-- No two doubles are written alike. -/
theorem signed_inj (hf : f.Standard) (hj : j ≤ Magnitude.infinite) (hk : k ≤ Magnitude.infinite)
    (h : f.signed negative j = f.signed other k) : negative = other ∧ j = k := by
  rw [signed_of_le f negative hj, signed_of_le f other hk] at h
  cases negative <;> cases other
  · simp only [Bool.false_eq_true, if_false, String.empty_append] at h
    exact ⟨rfl, magnitude_inj hf hj hk h⟩
  · simp only [Bool.false_eq_true, if_false, if_true, String.empty_append] at h
    exact absurd h (ne_minus_append (head?_magnitude hf hj))
  · simp only [Bool.false_eq_true, if_false, if_true, String.empty_append] at h
    exact absurd h.symm (ne_minus_append (head?_magnitude hf hk))
  · simp only [if_true, String.append_right_inj] at h
    exact ⟨rfl, magnitude_inj hf hj hk h⟩

end Notation
end Lox
