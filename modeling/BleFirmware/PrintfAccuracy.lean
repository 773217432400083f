import BleFirmware.PrintfDouble
import BleFirmware.PrintfFloatCall

/-!
# The accuracy of decimal notation

What `get_components` makes of a double differs from it by half of the last digit at most,
and by the rounding of one product. A text in decimal notation reads as a number that is
as close to the argument.
-/

namespace BleFirmware.PrintfAccuracy
open Rounding Binary64 OutputGadget PrintfSyntax PrintfInteger PrintfStandard PrintfCalls
open PrintfDecimal PrintfDirective PrintfReading PrintfFloatReading PrintfZeros PrintfFloatCall
open PrintfDouble

variable {x : Float}

theorem abs_round_scaled_sub_le {f power : ℚ} (hnonneg : 0 ≤ f) (hlt : f < 1) (hpower : 1 ≤ power) :
    |grid.round (f * power) - f * power| ≤ power / 2^53 := by
  have hround := Grid.abs_round_sub_le grid (f * power)
  by_cases hzero : f * power = 0
  · rw [hzero, Grid.round_zero, sub_zero, abs_zero]
    positivity
  · have hlast := Grid.two_zpow_lastExp_le grid hzero
    have habs : |f * power| ≤ power := by
      rw [abs_of_nonneg (mul_nonneg hnonneg (by linarith))]
      exact mul_le_of_le_one_left (by linarith) hlt.le
    have hdigits : (2 : ℚ)^(1 - grid.digits : ℤ) = 1 / 2^52 := by
      have hexp : (1 - grid.digits : ℤ) = -(52 : ℕ) := rfl
      rw [hexp, zpow_neg, zpow_natCast, one_div]
    have hmin : (2 : ℚ)^grid.minExp ≤ 1 / 2^52 := by
      have hle : (2 : ℚ)^grid.minExp ≤ 2^(-(52 : ℕ) : ℤ) := Grid.two_zpow_le (by decide)
      rwa [zpow_neg, zpow_natCast, ← one_div] at hle
    rw [hdigits] at hlast
    have hbound : max (|f * power| * (1 / 2^52)) (2^grid.minExp) ≤ power * (1 / 2^52) := by
      refine max_le ?_ ?_
      · exact mul_le_mul_of_nonneg_right habs (by positivity)
      · exact hmin.trans (le_mul_of_one_le_left (by positivity) hpower)
    linarith

theorem components_error (hx : x.isFinite = true) (hlt : |val x| < 2^63)
    (i : Fin powersOf10Size) :
    |(((getComponents x i).integral + (getComponents x i).fractional / 10^i.val : ℚ) - (|val x|))| ≤
      1/2 / 10^i.val + 1/2^53 := by
  obtain ⟨-, -, hsum⟩ := getComponents_rounded hx hlt i
  have hpos : (0 : ℚ) < 10^i.val := by positivity
  have hone : (1 : ℚ) ≤ 10^i.val := one_le_pow₀ (by norm_num)
  have hround := abs_roundEven_sub_le (⌊|val x|⌋ * 10^i.val +
    grid.round (Int.fract |val x| * 10^i.val))
  have hproduct := abs_round_scaled_sub_le (Int.fract_nonneg |val x|) (Int.fract_lt_one |val x|)
    hone
  rw [← hsum] at hround
  push_cast at hround
  have hsplit : (⌊|val x|⌋ : ℚ) * 10^i.val + Int.fract |val x| * 10^i.val = |val x| * 10^i.val := by
    rw [← add_mul, Int.floor_add_fract]
  have hscaled : ((getComponents x i).integral + (getComponents x i).fractional / 10^i.val : ℚ) -
      |val x| = ((getComponents x i).integral * 10^i.val + (getComponents x i).fractional -
        |val x| * 10^i.val) / 10^i.val := by
    field_simp
  have hbound : (1/2 / 10^i.val + 1/2^53 : ℚ) = (1/2 + 10^i.val / 2^53) / 10^i.val := by
    field_simp
  rw [hscaled, abs_div, abs_of_pos hpos, hbound]
  refine div_le_div_of_nonneg_right ?_ hpos.le
  rw [← hsplit]
  rw [abs_le] at hround hproduct ⊢
  constructor <;> linarith

theorem signed_val (x : Float) : signed (getSignBit x) |val x| = val x := by
  obtain ⟨hpositive, hnegative⟩ := sign_bit x
  unfold signed getSignBit
  by_cases hbit : x.toBits >>> 63 = 0
  · rw [hbit, abs_of_nonneg (hpositive hbit)]
    rfl
  · rw [if_pos (bne_iff_ne.mpr hbit), abs_of_nonpos (hnegative hbit), neg_neg]

theorem abs_signed_sub (negative : Bool) (a b : ℚ) :
    |signed negative a - signed negative b| = |a - b| := by
  cases negative with
  | true =>
    change |-a - -b| = |a - b|
    rw [neg_sub_neg, abs_sub_comm]
  | false => rfl

theorem numberValue_error (hx : x.isFinite = true) (hlt : |val x| < 2^63) {i : Fin powersOf10Size}
    {precision : UInt32} (hi : precision.toNat = i.val) :
    |numberValue (getComponents x i) precision - val x| ≤ 1/2 / 10^i.val + 1/2^53 := by
  have hsign : (getComponents x i).isNegative = getSignBit x := rfl
  have herror := components_error hx hlt i
  rw [← abs_signed_sub (getSignBit x), signed_val] at herror
  rwa [numberValue, hsign, hi]

variable {number : Components} {precision width : UInt32} {flags : PrintfFlags} {z : ℕ}

theorem length_fractionRow_le {fractional : ℕ} (hlt : fractional < 10^precision.toNat)
    (flags : PrintfFlags) :
    (fractionRow fractional precision flags).length ≤ precision.toNat + 1 := by
  cases hpoint : pointPrinted fractional precision flags with
  | false =>
    rw [fractionRow_of_not hpoint]
    exact Nat.zero_le _
  | true =>
    by_cases hprecision : precision = 0
    · rw [fractionRow, if_pos hpoint, if_neg (not_not.mpr hprecision)]
      exact Nat.le_add_left 1 _
    · obtain ⟨⟨k, hk, -⟩, -, hdigits⟩ := trimmed_spec flags hlt hprecision
      rw [fractionRow_of_ne hprecision hpoint]
      simp only [List.length_append, List.length_replicate, List.length_singleton]
      omega

/-- A sign, ten digits, a point and twenty more fill the buffer. -/
theorem decimalFits_of_le (hproper : Proper number precision) (hintegral : number.integral < 10^10)
    (hprecision : precision.toNat + z ≤ 20)
    (hwidth : flags.zeropad = true → width.toNat ≤ printfIntegerBufferSize) :
    DecimalFits number precision width flags z := by
  have hsize : printfIntegerBufferSize = 32 := rfl
  have hfraction := length_fractionRow_le hproper.toNat_lt flags
  have hwhole := length_shown_le hintegral (by decide)
  have hsign := length_signText_le number.isNegative flags
  unfold DecimalFits decimalRow
  simp only [List.length_append, List.length_replicate, zerosWidth_toNat]
  by_cases hpad : flags.zeropad = true ∧ ¬ flags.left = true
  · have hlimit := hwidth hpad.1
    rw [if_pos hpad, if_pos hpad]
    omega
  · rw [if_neg hpad]
    omega

theorem integral_lt (hx : x.isFinite = true) (hle : |val x| ≤ 10^9) (i : Fin powersOf10Size) :
    (getComponents x i).integral < 10^10 := by
  obtain ⟨hnonneg, -, -⟩ := getComponents_rounded hx (hle.trans_lt (by norm_num)) i
  have herror := (abs_le.mp (components_error hx (hle.trans_lt (by norm_num)) i)).2
  have hfraction : (0 : ℚ) ≤ (getComponents x i).fractional / 10^i.val :=
    div_nonneg (by exact_mod_cast hnonneg) (by positivity)
  have hhalf : (1/2 / 10^i.val : ℚ) ≤ 1/2 :=
    div_le_self (by norm_num) (one_le_pow₀ (by norm_num))
  have hlt : ((getComponents x i).integral : ℚ) < 10^10 := by linarith
  exact_mod_cast hlt

def digitsBehind (s : Specifier Float) : ℕ := if s.flags.precision then s.precision.toNat else 6

theorem floatParts_double (hx : x.isFinite = true) (hle : |val x| ≤ 10^9) {s : Specifier Float}
    (hdigits : digitsBehind s ≤ 20) {flags : PrintfFlags}
    (hflags : flags.precision = s.flags.precision) :
    ∃ (i : Fin powersOf10Size) (q : UInt32), i.val = min (digitsBehind s) 17 ∧ q.toNat = i.val ∧
      floatParts doubleArithmetic x s.precision flags false =
        some (⟨getComponents x i, q, 0, true⟩, digitsBehind s - 17) := by
  have hrange := (beyondNotation_iff hx).mpr hle
  have hasked : (if !flags.precision then defaultFloatPrecision else s.precision).toNat =
      digitsBehind s := by
    rw [hflags, digitsBehind]
    cases s.flags.precision <;> rfl
  unfold floatParts
  rw [hrange, Bool.and_false, if_neg Bool.false_ne_true]
  dsimp only
  generalize (if !flags.precision then defaultFloatPrecision else s.precision) = precision at *
  obtain ⟨hq, hzeros⟩ := limitPrecision_spec (n := printfIntegerBufferSize) precision .empty
    (Nat.sub_le _ _)
  have hnil : IntegerBuffer.empty.chars = [] := rfl
  have hcount : min (precision.toNat - 17) (printfIntegerBufferSize - ([] : CString).length) =
      digitsBehind s - 17 := by
    have hsize : printfIntegerBufferSize - ([] : CString).length = 32 := rfl
    omega
  rw [hnil, hcount] at hq hzeros
  have hlt : (limitPrecision printfIntegerBufferSize precision .empty).1.toNat <
      powersOf10Size := by
    have hsize : powersOf10Size = 18 := rfl
    omega
  have hlen : (limitPrecision printfIntegerBufferSize precision .empty).2.len =
      digitsBehind s - 17 := by
    rw [IntegerBuffer.len, hzeros, List.nil_append, List.length_replicate]
  refine ⟨⟨_, hlt⟩, _, ?_, rfl, ?_⟩
  · dsimp only
    omega
  · rw [if_neg Bool.false_ne_true, hlen, powerIndex, dif_pos hlt]
    rfl

theorem adaptExp_of_apply {f : Fields} {format : CString} {args : List (VaArg Float)}
    {s : Specifier Float} (h : f.apply format args = .ok s) : s.flags.adaptExp = false := by
  obtain ⟨t, ht, rfl⟩ := apply_unsized h
  refine Eq.trans ?_ ht.adaptExp
  cases f.length <;> rfl

theorem floatFlags_fixed {c : UInt8} (hc : c = charOf 'f' ∨ c = charOf 'F') (flags : PrintfFlags) :
    prefersExponential c = false ∧ (floatFlags c flags).adaptExp = flags.adaptExp ∧
      (floatFlags c flags).precision = flags.precision ∧
        (floatFlags c flags).zeropad = flags.zeropad := by
  have hprefers : prefersExponential c = false := decide_eq_false (not_not.mpr hc)
  unfold floatFlags
  rw [if_pos hc]
  split_ifs <;> exact ⟨hprefers, rfl, rfl, rfl⟩

/-- `%f` and `%F` print a number in the range of decimal notation with all digits that the
table has, the last one rounded. -/
theorem vsnprintf_double_accurate {fields : Fields} {c : UInt8} {closed : fields.Closed [c]}
    (hc : c = charOf 'f' ∨ c = charOf 'F') {args rest : List (VaArg Float)} {s : Specifier Float}
    (hs : fields.apply [] args = .ok s) (harg : floatArgument s = .ok (x, rest))
    (hx : x.isFinite = true) (hle : |val x| ≤ 10^9) (hdigits : digitsBehind s ≤ 20)
    (hwidth : s.flags.zeropad = true → s.width.toNat ≤ printfIntegerBufferSize) {m : UInt32}
    (hroom : max printfIntegerBufferSize s.width.toNat < usableSize m) (cells : Buffer UInt8)
    (p : ℕ) :
    ∃ r text, vsnprintf (libraryFloat doubleArithmetic) cells (some p) m
        (Item.directive fields c closed).text args = some (.ok r) ∧
      r.output.cells.cells p (text.length + 1) = (text ++ [0]).map some ∧ 0 ∉ text ∧
      |readFloat text - val x| ≤ 1/2 / 10^(min (digitsBehind s) 17) + 1/2^53 := by
  have hmem : c ∈ floatSpecifiers := by
    obtain rfl | rfl := hc <;> decide
  have hlarge : |val x| < 2^63 := hle.trans_lt (by norm_num)
  obtain ⟨hprefers, hadapt, hprecision, hzeropad⟩ := floatFlags_fixed hc s.flags
  obtain ⟨i, q, hi, hq, hparts⟩ := floatParts_double hx hle hdigits hprecision
  obtain ⟨hlow, hhigh, -⟩ := getComponents_rounded hx hlarge i
  have hproper : Proper (getComponents x i) q := ⟨hlow, by rw [hq]; exact hhigh⟩
  have hfits : DecimalFits (getComponents x i) q s.width (floatFlags c s.flags)
      (digitsBehind s - 17) :=
    decimalFits_of_le hproper (integral_lt hx hle i) (by omega) (by rwa [hzeropad])
  have hfinite := not_special_of_le hx hle
  have hlength : (libraryFloat doubleArithmetic x s.precision s.width (floatFlags c s.flags)
      (prefersExponential c)).length < usableSize m := by
    obtain ⟨buf, -, htext⟩ := floatText_parts hfinite hparts s.width
    rw [hprefers, libraryFloat, htext, Option.getD_some, exponentialText_decimal]
    exact (length_decimalText _ _ _ _ _).trans_lt hroom
  obtain ⟨r, buf, hbuf, hr, hcells, hzero⟩ := vsnprintf_float hmem hs harg hfinite
    (hprefers ▸ hparts) hlength cells p
  refine ⟨r, _, hr, hcells, hzero, ?_⟩
  have hshown : shownValue (getComponents x i) q (floatFlags c s.flags) (digitsBehind s - 17) =
      numberValue (getComponents x i) q := by
    rw [shownValue_eq_iff hproper]
    -- a point is printed, or the precision is zero
    by_cases hzero : digitsBehind s = 0
    · exact Or.inr (Or.inr (by omega))
    · have hne : q ≠ 0 := by
        rintro rfl
        have hnone : (0 : UInt32).toNat = 0 := rfl
        omega
      left
      rw [pointPrinted, if_pos hne, hadapt, adaptExp_of_apply hs]
      simp
  rw [exponentialText_decimal, readFloat_decimalText hproper hbuf hfits, hshown, ← hi]
  exact numberValue_error hx hlarge hq

def threeFields : Fields := ⟨[], .omitted, .number ("3".toList.map charOf), .omitted⟩

theorem threeFields_closed : threeFields.Closed [charOf 'f'] := by decide

def threeSpecifier (x : Float) : Specifier Float := ⟨{ precision := true }, 0, 3, [], [.double x]⟩

theorem vsnprintf_double_accurate_pi :
    ∃ r text, vsnprintf (libraryFloat doubleArithmetic) Buffer.empty (some 0) 64
        (Item.directive threeFields (charOf 'f') threeFields_closed).text [.double 3.14159] =
          some (.ok r) ∧
      r.output.cells.cells 0 (text.length + 1) = (text ++ [0]).map some ∧ 0 ∉ text ∧
      |readFloat text - val 3.14159| ≤ 1/2 / 10^3 + 1/2^53 :=
  vsnprintf_double_accurate (s := threeSpecifier 3.14159) (Or.inl rfl) rfl rfl (by decide +kernel)
    ((beyondNotation_iff (by decide +kernel)).mp (by decide +kernel)) (by decide)
    (fun h => absurd h (by decide)) (by decide) Buffer.empty 0

/-- The product with 100 is rounded to 6.5, so a number above 0.065 is printed as 0.06. -/
example : floatText doubleArithmetic 0.065 2 0 { precision := true } false =
    some ("0.06".toList.map charOf) := by decide +kernel

end BleFirmware.PrintfAccuracy
