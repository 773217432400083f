import BleFirmware.PrintfDecimalRow
import BleFirmware.PrintfReading
import Mathlib.Algebra.Order.Field.Rat
import Mathlib.Tactic.FieldSimp

/-!
# Reading floating point numbers back

The reader takes a sign, digits with or without a point, and an exponent, and gives a
rational number. A text that fits into the buffer reads as its components, except where
zeros stand for a part of the precision and no point is printed behind the digits.
-/

namespace BleFirmware.PrintfFloatReading
open PrintfSyntax PrintfInteger PrintfStandard PrintfDirective PrintfDecimal PrintfReading

def decimal : Alphabet UInt8 := digitAlphabet 10 false (by decide)

def readRow (cs : CString) : ℕ := (decimal.read cs).getD 0

def readFraction (text : CString) : CString × CString :=
  if deref text = charOf '.' then (text.tail.takeWhile isDigit, text.tail.dropWhile isDigit)
  else ([], text)

def readExponent (text : CString) : ℤ :=
  if deref text = charOf 'e' ∨ deref text = charOf 'E' then readInteger decimal text.tail else 0

def signed (negative : Bool) (value : ℚ) : ℚ := if negative then -value else value

def readFloat (text : CString) : ℚ :=
  let r := readSign (skipSpaces text)
  let whole := r.2.takeWhile isDigit
  let f := readFraction (r.2.dropWhile isDigit)
  signed r.1 ((readRow (whole ++ f.1) : ℚ) / 10^f.1.length) * 10^readExponent f.2

theorem digitValue_of_isDigit {c : UInt8} (h : isDigit c = true) : ∃ d, digitValue c = some d := by
  have hbounds : charOf '0' ≤ c ∧ c ≤ charOf '9' := by simpa [isDigit] using h
  exact ⟨_, if_pos hbounds⟩

theorem readSign_digits (negative : Bool) (flags : PrintfFlags) (j : ℕ) {whole : CString}
    (hne : whole ≠ []) (hwhole : Digits whole) (rest : CString) :
    readSign (skipSpaces (List.replicate j (charOf ' ') ++
      (signText negative flags ++ (whole ++ rest)))) = (negative, whole ++ rest) := by
  obtain ⟨d, hd⟩ := digitValue_of_isDigit (isDigit_deref hne hwhole rest)
  exact readSign_signText negative flags j hd

variable {whole frac rest : CString}

theorem readFloat_point (negative : Bool) (flags : PrintfFlags) (j : ℕ) (hne : whole ≠ [])
    (hwhole : Digits whole) (hfrac : Digits frac) (hrest : isDigit (deref rest) = false) :
    readFloat (List.replicate j (charOf ' ') ++ (signText negative flags ++
      (whole ++ (charOf '.' :: (frac ++ rest))))) =
        signed negative ((readRow (whole ++ frac) : ℚ) / 10^frac.length) * 10^readExponent rest := by
  have hdot : isDigit (charOf '.') = false := by decide
  have hstop : isDigit (deref (charOf '.' :: (frac ++ rest))) = false := hdot
  obtain ⟨htake, hdrop⟩ := takeWhile_digits hwhole hstop
  obtain ⟨htake', hdrop'⟩ := takeWhile_digits hfrac hrest
  have hfraction : readFraction (charOf '.' :: (frac ++ rest)) = (frac, rest) := by
    rw [readFraction, if_pos deref_cons, List.tail_cons, htake', hdrop']
  rw [readFloat, readSign_digits negative flags j hne hwhole]
  dsimp only
  rw [htake, hdrop, hfraction]

theorem readFloat_whole (negative : Bool) (flags : PrintfFlags) (j : ℕ) (hne : whole ≠ [])
    (hwhole : Digits whole) (hrest : isDigit (deref rest) = false)
    (hdot : deref rest ≠ charOf '.') :
    readFloat (List.replicate j (charOf ' ') ++ (signText negative flags ++ (whole ++ rest))) =
      signed negative (readRow whole : ℚ) * 10^readExponent rest := by
  obtain ⟨htake, hdrop⟩ := takeWhile_digits hwhole hrest
  have hfraction : readFraction rest = ([], rest) := if_neg hdot
  rw [readFloat, readSign_digits negative flags j hne hwhole]
  dsimp only
  rw [htake, hdrop, hfraction, List.append_nil, List.length_nil, pow_zero, div_one]

theorem readFrom_shown (v value : ℕ) :
    decimal.readFrom v (shown value).reverse = some (v * 10^(shown value).length + value) := by
  by_cases hzero : value = 0
  · subst hzero
    exact decimal.readFrom_symbol v (by decide : 0 < 10)
  · have hdigits := decimal.readFrom_digits (by decide : 1 < 10) v value
    rw [← shown_of_ne_zero hzero, digitChars, List.length_map]
    exact hdigits

theorem digits_replicate (k : ℕ) : Digits (List.replicate k (charOf '0')) :=
  List.forall_mem_replicate.mpr (Or.inr (by decide))

theorem digits_shown (value : ℕ) : Digits (shown value).reverse := by
  have hdigit : ∀ d < 10, isDigit (digitChar false d) = true := by decide
  intro c hc
  rw [List.mem_reverse, shown, List.mem_cons] at hc
  obtain rfl | hc := hc
  · exact hdigit _ (Nat.mod_lt _ (by decide))
  · obtain ⟨d, hd, rfl⟩ := List.mem_map.mp hc
    exact hdigit d (Nat.digits_lt_base (by decide) hd)

theorem Digits.append {xs ys : CString} (hx : Digits xs) (hy : Digits ys) : Digits (xs ++ ys) :=
  List.forall_mem_append.mpr ⟨hx, hy⟩

theorem readFrom_zeros (v k : ℕ) :
    decimal.readFrom v (List.replicate k (charOf '0')) = some (v * 10^k) :=
  decimal.readFrom_zeros v k

theorem fractionRow_point {fractional : ℕ} {precision : UInt32} {flags : PrintfFlags}
    (hlt : fractional < 10^precision.toNat)
    (hpoint : pointPrinted fractional precision flags = true) :
    ∃ frac, (fractionRow fractional precision flags).reverse = charOf '.' :: frac ∧ Digits frac ∧
      ∃ n : ℕ, (∀ v, decimal.readFrom v frac = some (v * 10^frac.length + n)) ∧
        (n : ℚ) / 10^frac.length = fractional / 10^precision.toNat := by
  by_cases hprecision : precision = 0
  · subst hprecision
    have hzero : fractional = 0 := Nat.lt_one_iff.mp hlt
    subst hzero
    refine ⟨[], ?_, fun c hc => absurd hc List.not_mem_nil, 0, fun v => ?_, by simp⟩
    · rw [fractionRow, if_pos hpoint]
      rfl
    · rw [List.length_nil, pow_zero, Nat.mul_one]
      rfl
  · obtain ⟨⟨k, hk, hvalue⟩, -, hdigits⟩ := trimmed_spec flags hlt hprecision
    rw [fractionRow_of_ne hprecision hpoint]
    generalize trimmed fractional precision flags = r at *
    refine ⟨List.replicate (r.1.toNat - (shown r.2).length) (charOf '0') ++ (shown r.2).reverse, ?_,
      Digits.append (digits_replicate _) (digits_shown _), r.2, fun v => ?_, ?_⟩
    · simp
    · rw [Alphabet.readFrom_append, readFrom_zeros, Option.bind_some, readFrom_shown,
        List.length_append, List.length_replicate, List.length_reverse, pow_add, Nat.mul_assoc]
    · have hlen : (List.replicate (r.1.toNat - (shown r.2).length) (charOf '0') ++
          (shown r.2).reverse).length = r.1.toNat := by
        rw [List.length_append, List.length_replicate, List.length_reverse]
        omega
      rw [hlen, hvalue, ← hk, pow_add]
      push_cast
      field_simp

theorem fractional_of_not_point {fractional : ℕ} {precision : UInt32} {flags : PrintfFlags}
    (hlt : fractional < 10^precision.toNat)
    (hpoint : pointPrinted fractional precision flags = false) : fractional = 0 := by
  unfold pointPrinted at hpoint
  by_cases hprecision : precision = 0
  · subst hprecision
    exact Nat.lt_one_iff.mp hlt
  · rw [if_pos hprecision] at hpoint
    simp only [Bool.or_eq_false_iff, decide_eq_false_iff_not, Nat.not_lt] at hpoint
    exact Nat.le_zero.mp hpoint.1.1

variable {number : Components} {precision width : UInt32} {flags : PrintfFlags} {z : ℕ}

def numberValue (number : Components) (precision : UInt32) : ℚ :=
  signed number.isNegative (number.integral + number.fractional / 10^precision.toNat)

/-- Without a point the zeros behind the digits count. -/
def shownValue (number : Components) (precision : UInt32) (flags : PrintfFlags) (z : ℕ) : ℚ :=
  signed number.isNegative
    (if pointPrinted number.fractional.toNat precision flags then
      number.integral + number.fractional / 10^precision.toNat
    else number.integral * 10^z)

theorem decimalRow_reverse (number : Components) (precision width : UInt32) (flags : PrintfFlags)
    (z : ℕ) : ∃ m, (decimalRow number precision width flags (List.replicate z (charOf '0'))).reverse =
      signText number.isNegative flags ++
        (List.replicate m (charOf '0') ++ (shown number.integral).reverse ++
          ((fractionRow number.fractional.toNat precision flags).reverse ++
            List.replicate z (charOf '0'))) := by
  unfold decimalRow
  dsimp only
  generalize (if flags.zeropad ∧ ¬ flags.left then _ else 0) = m
  refine ⟨m, ?_⟩
  simp only [List.reverse_append, List.reverse_replicate, reverse_signText, List.append_assoc]

theorem readRow_whole (m value : ℕ) :
    decimal.readFrom 0 (List.replicate m (charOf '0') ++ (shown value).reverse) = some value := by
  rw [Alphabet.readFrom_append, readFrom_zeros, Option.bind_some, readFrom_shown, Nat.zero_mul,
    Nat.zero_mul, Nat.zero_add]

theorem readFloat_row (hproper : Proper number precision) (width : UInt32) (z j : ℕ)
    {rest : CString} (hrest : isDigit (deref rest) = false) (hdot : deref rest ≠ charOf '.') :
    readFloat (List.replicate j (charOf ' ') ++
      ((decimalRow number precision width flags (List.replicate z (charOf '0'))).reverse ++ rest)) =
        shownValue number precision flags z * 10^readExponent rest := by
  obtain ⟨m, hrow⟩ := decimalRow_reverse number precision width flags z
  have hwhole : Digits (List.replicate m (charOf '0') ++ (shown number.integral).reverse) :=
    Digits.append (digits_replicate _) (digits_shown _)
  have hne : List.replicate m (charOf '0') ++ (shown number.integral).reverse ≠ [] := by
    simp [shown]
  rw [hrow]
  unfold shownValue
  have hcast : (number.fractional : ℚ) = (number.fractional.toNat : ℕ) := by
    rw [← Int.cast_natCast, Int.toNat_of_nonneg hproper.1]
  cases hpoint : pointPrinted number.fractional.toNat precision flags with
  | true =>
    obtain ⟨frac, hfraction, hfrac, n, hread, hvalue⟩ := fractionRow_point hproper.toNat_lt hpoint
    have hzeros : Digits (frac ++ List.replicate z (charOf '0')) :=
      Digits.append hfrac (digits_replicate z)
    have hparts := readFloat_point number.isNegative flags j hne hwhole hzeros hrest
    have htotal : readRow (List.replicate m (charOf '0') ++ (shown number.integral).reverse ++
        (frac ++ List.replicate z (charOf '0'))) =
          (number.integral * 10^frac.length + n) * 10^z := by
      rw [readRow, Alphabet.read, Alphabet.readFrom_append, readRow_whole, Option.bind_some,
        Alphabet.readFrom_append, hread, Option.bind_some, readFrom_zeros, Option.getD_some]
    rw [htotal, List.length_append, List.length_replicate] at hparts
    rw [hfraction]
    simp only [List.append_assoc, List.cons_append] at hparts ⊢
    rw [hparts, if_pos trivial, hcast, ← hvalue, pow_add]
    congr 2
    push_cast
    field_simp
  | false =>
    have hall : Digits (List.replicate m (charOf '0') ++ (shown number.integral).reverse ++
        List.replicate z (charOf '0')) := Digits.append hwhole (digits_replicate z)
    have hparts := readFloat_whole number.isNegative flags j (by simp [shown]) hall hrest hdot
    have htotal : readRow (List.replicate m (charOf '0') ++ (shown number.integral).reverse ++
        List.replicate z (charOf '0')) = number.integral * 10^z := by
      rw [readRow, Alphabet.read, Alphabet.readFrom_append, readRow_whole, Option.bind_some,
        readFrom_zeros, Option.getD_some]
    rw [htotal] at hparts
    rw [fractionRow_of_not hpoint, List.reverse_nil, List.nil_append]
    simp only [List.append_assoc] at hparts ⊢
    rw [hparts, if_neg Bool.false_ne_true]
    push_cast
    rfl

theorem signed_inj {negative : Bool} {a b : ℚ} : signed negative a = signed negative b ↔ a = b := by
  cases negative with
  | true => exact neg_inj
  | false => exact Iff.rfl

theorem shownValue_eq_iff (hproper : Proper number precision) (z : ℕ) :
    shownValue number precision flags z = numberValue number precision ↔
      pointPrinted number.fractional.toNat precision flags = true ∨ number.integral = 0 ∨ z = 0 := by
  rw [shownValue, numberValue, signed_inj]
  cases hpoint : pointPrinted number.fractional.toNat precision flags with
  | true => simp
  | false =>
    have hzero := fractional_of_not_point hproper.toNat_lt hpoint
    have hnone : number.fractional = 0 := le_antisymm (Int.toNat_eq_zero.mp hzero) hproper.1
    rw [hnone, Int.cast_zero, if_neg Bool.false_ne_true, zero_div, add_zero,
      or_iff_right Bool.false_ne_true]
    by_cases hzero : number.integral = 0
    · simp [hzero]
    · have hne : (number.integral : ℚ) ≠ 0 := Nat.cast_ne_zero.mpr hzero
      rw [mul_eq_left₀ hne, or_iff_right hzero]
      constructor
      · intro hten
        by_contra hz
        have hone := (pow_eq_one_iff_of_nonneg (by norm_num : (0 : ℚ) ≤ 10) hz).mp hten
        norm_num at hone
      · rintro rfl
        exact pow_zero _

variable {buf : IntegerBuffer}

theorem fieldText_pads (chars : CString) (n : ℕ) (flags : PrintfFlags) :
    ∃ j k, fieldText chars n flags =
      List.replicate j (charOf ' ') ++ (chars ++ List.replicate k (charOf ' ')) := by
  unfold fieldText
  dsimp only
  cases flags.left with
  | true => exact ⟨0, n - chars.length, by simp⟩
  | false =>
    cases flags.zeropad with
    | true => exact ⟨0, 0, by simp⟩
    | false => exact ⟨n - chars.length, 0, by simp⟩

theorem spaces_end (k : ℕ) : isDigit (deref (List.replicate k (charOf ' '))) = false ∧
    deref (List.replicate k (charOf ' ')) ≠ charOf '.' ∧
      readExponent (List.replicate k (charOf ' ')) = 0 := by
  cases k with
  | zero => exact ⟨by decide, by decide, if_neg (by decide)⟩
  | succ k =>
    have hspace : ¬ (charOf ' ' = charOf 'e' ∨ charOf ' ' = charOf 'E') := by decide
    exact ⟨(by decide : isDigit (charOf ' ') = false), (by decide : charOf ' ' ≠ charOf '.'),
      if_neg hspace⟩

def DecimalFits (number : Components) (precision width : UInt32) (flags : PrintfFlags) (z : ℕ) :
    Prop :=
  (decimalRow number precision (zerosWidth number.isNegative width flags) flags
    (List.replicate z (charOf '0'))).length ≤ printfIntegerBufferSize

theorem readFloat_decimalText (hproper : Proper number precision)
    (hbuf : buf.chars = List.replicate z (charOf '0'))
    (hfits : DecimalFits number precision width flags z) :
    readFloat (decimalText number precision width flags buf) =
      shownValue number precision flags z := by
  have hroom : (decimalRow number precision (zerosWidth number.isNegative width flags) flags
      buf.chars).length ≤ printfIntegerBufferSize := by rw [hbuf]; exact hfits
  have hchars := finishDecimal_chars hproper hroom
  rw [hbuf] at hchars
  obtain ⟨j, k, hpads⟩ := fieldText_pads (decimalRow number precision
    (zerosWidth number.isNegative width flags) flags (List.replicate z (charOf '0'))).reverse
      (zerosWidth number.isNegative width flags).toNat flags
  obtain ⟨hdigit, hdot, hexponent⟩ := spaces_end k
  rw [decimalText, hchars, hpads, readFloat_row hproper _ z j hdigit hdot, hexponent, zpow_zero, mul_one]

def exponentFlags : PrintfFlags := { zeropad := true, plus := true }

theorem regular_exponent (negative : Bool) : Regular negative 10 0 exponentFlags where
  base_mem := Or.inr (Or.inr (Or.inl rfl))
  precision_eq _ := rfl
  zeropad_eq h := absurd h Bool.false_ne_true
  hash_base h := absurd h Bool.false_ne_true
  hash_sign h := absurd h Bool.false_ne_true
  pointer_eq := rfl

theorem standardChars_exponent (value : ℕ) (negative : Bool) (w : ℕ) :
    ∃ m, standardChars value negative 10 0 w exponentFlags =
      signText negative exponentFlags ++
        (List.replicate m (charOf '0') ++ (digitChars 10 false value).reverse) := by
  obtain ⟨m, hm⟩ := standardDigits_row value 10 0 exponentFlags (widthZeros w exponentFlags
    (signText negative exponentFlags).length (standardDigits value 10 0 exponentFlags).length)
  refine ⟨m, ?_⟩
  have hhash : ¬ (exponentFlags.hash = true ∧ value ≠ 0) := fun h => Bool.false_ne_true h.1
  rw [standardChars, if_neg hhash, List.append_nil, List.append_assoc]
  exact congrArg (signText negative exponentFlags ++ ·) hm

theorem standardChars_exponent_fits {value : ℕ} (hvalue : value < 2^64) (negative : Bool) {w : ℕ}
    (hw : w ≤ printfIntegerBufferSize) :
    (standardChars value negative 10 0 w exponentFlags).length ≤ printfIntegerBufferSize := by
  have hsign := length_signText_le negative exponentFlags
  have hlen := length_digitChars_le (k := 20) (hvalue.trans (by decide))
  have hdigits : (standardDigits value 10 0 exponentFlags).length ≤ 21 := by
    have hzeros (d : ℕ) : precisionZeros 0 exponentFlags d ≤ 1 := Nat.sub_le _ _
    have hall : standardDigits value 10 0 exponentFlags =
        List.replicate (precisionZeros 0 exponentFlags (digitChars 10 false value).reverse.length)
          (charOf '0') ++ (digitChars 10 false value).reverse := by
      unfold standardDigits
      exact if_neg fun h => Bool.false_ne_true h.1
    have hone := hzeros (digitChars 10 false value).reverse.length
    rw [hall, List.length_append, List.length_replicate, List.length_reverse]
    rw [List.length_reverse] at hone
    omega
  have hhash : ¬ (exponentFlags.hash = true ∧ value ≠ 0) := fun h => Bool.false_ne_true h.1
  have hpad : exponentFlags.zeropad = true ∧ ¬ exponentFlags.left = true :=
    ⟨rfl, Bool.false_ne_true⟩
  have hsize : printfIntegerBufferSize = 32 := rfl
  simp only [standardChars, if_neg hhash, List.append_nil, List.length_append, List.length_replicate,
    widthZeros, if_pos hpad]
  omega

theorem integerText_exponent {e : ℤ} (he : e.natAbs < 2^64) {w : UInt32}
    (hw : w.toNat ≤ printfIntegerBufferSize) :
    ∃ m, integerText (absForPrinting e) (e < 0) 10 0 w exponentFlags =
      signText (e < 0) exponentFlags ++
        (List.replicate m (charOf '0') ++ (digitChars 10 false e.natAbs).reverse) := by
  have habs := absForPrinting_toNat he
  have hzero : ¬ (absForPrinting e = 0 ∧ (10 : ℕ) = 2 ∧ exponentFlags.hash = true ∧
      exponentFlags.precision = true) := fun h => Bool.false_ne_true h.2.2.1
  have htext := integerText_standard (regular_exponent (e < 0)) w hzero
    (by rw [habs]; exact standardChars_exponent_fits he _ hw)
  have hwide : w.toNat ≤ (standardChars e.natAbs (e < 0) 10 0 w.toNat exponentFlags).length :=
    standardChars_width _ _ _ _ _ ⟨rfl, Bool.false_ne_true⟩
  obtain ⟨m, hm⟩ := standardChars_exponent e.natAbs (e < 0) w.toNat
  have hnone : (0 : UInt32).toNat = 0 := rfl
  refine ⟨m, ?_⟩
  rw [htext, habs, hnone, ← hm, standardText, Nat.sub_eq_zero_of_le hwide]
  rfl

theorem readInteger_exponent {e : ℤ} (he : e.natAbs < 2^64) {w : UInt32}
    (hw : w.toNat ≤ printfIntegerBufferSize) (k : ℕ) :
    readInteger decimal (integerText (absForPrinting e) (e < 0) 10 0 w exponentFlags ++
      List.replicate k (charOf ' ')) = e := by
  obtain ⟨m, hstandard⟩ := integerText_exponent he hw
  have hrow := row_digits 10 false (by decide) (by decide) m e.natAbs
  have hparts := readInteger_parts hrow (e < 0) exponentFlags 0 k (Or.inl rfl) fun _ => rfl
  rw [hstandard, List.append_assoc]
  refine hparts.trans ?_
  split_ifs with hneg
  · have hlt := of_decide_eq_true hneg
    omega
  · have hge : ¬ e < 0 := fun hlt => hneg (decide_eq_true hlt)
    omega

theorem fieldText_front (chars : CString) {n : ℕ} {flags : PrintfFlags}
    (h : flags.left = true → n = 0) :
    ∃ j, fieldText chars n flags = List.replicate j (charOf ' ') ++ chars := by
  unfold fieldText
  dsimp only
  cases hleft : flags.left with
  | true => exact ⟨0, by simp [h hleft]⟩
  | false =>
    cases flags.zeropad with
    | true => exact ⟨0, by simp⟩
    | false => exact ⟨n - chars.length, by simp⟩

variable {e : Exponential}

theorem exponentText_end (e : Exponential) (flags : PrintfFlags) (k : ℕ) :
    isDigit (deref (exponentText e flags ++ List.replicate k (charOf ' '))) = false ∧
      deref (exponentText e flags ++ List.replicate k (charOf ' ')) ≠ charOf '.' := by
  have hupper : isDigit (charOf 'E') = false ∧ charOf 'E' ≠ charOf '.' := by decide
  have hlower : isDigit (charOf 'e') = false ∧ charOf 'e' ≠ charOf '.' := by decide
  unfold exponentText
  split_ifs
  · exact hupper
  · exact hlower

theorem exp10PartWidth_bound (hfall : e.fallBack = false) :
    (exp10PartWidth e - 1).toNat ≤ printfIntegerBufferSize := by
  unfold exp10PartWidth
  rw [hfall, if_neg Bool.false_ne_true]
  split_ifs <;> decide

theorem readExponent_exponentText (hfall : e.fallBack = false)
    (he : e.flooredExp10.natAbs < 2^64) (flags : PrintfFlags) (k : ℕ) :
    readExponent (exponentText e flags ++ List.replicate k (charOf ' ')) = e.flooredExp10 := by
  have hread := readInteger_exponent he (exp10PartWidth_bound hfall) k
  unfold exponentText
  split_ifs
  · exact (if_pos (Or.inr rfl)).trans hread
  · exact (if_pos (Or.inl rfl)).trans hread

def exponentialValue (e : Exponential) : ℚ :=
  numberValue e.components e.precision * if e.fallBack then 1 else 10^e.flooredExp10

theorem readFloat_exponentialText
    (hproper : Proper e.components e.precision) (he : e.flooredExp10.natAbs < 2^64)
    (hbuf : buf.chars = List.replicate z (charOf '0'))
    (hfits : DecimalFits e.components e.precision (decimalPartWidth e width flags) flags z) :
    readFloat (exponentialText e width flags buf) =
      shownValue e.components e.precision flags z * if e.fallBack then 1 else 10^e.flooredExp10 := by
  unfold exponentialText
  dsimp only
  cases hfall : e.fallBack with
  | true => rw [if_pos rfl, if_pos rfl, mul_one, readFloat_decimalText hproper hbuf hfits]
  | false =>
    rw [if_neg Bool.false_ne_true, if_neg Bool.false_ne_true]
    have hroom : (decimalRow e.components e.precision (zerosWidth e.components.isNegative
        (decimalPartWidth e width flags) flags) flags buf.chars).length ≤
          printfIntegerBufferSize := by rw [hbuf]; exact hfits
    have hchars := finishDecimal_chars hproper hroom
    rw [hbuf] at hchars
    have hnopad : flags.left = true → (zerosWidth e.components.isNegative
        (decimalPartWidth e width flags) flags).toNat = 0 := by
      intro hleft
      have hzero : decimalPartWidth e width flags = 0 := by
        unfold decimalPartWidth
        rw [hleft, if_pos (by simpa using exp10PartWidth_ne hfall)]
      exact Nat.le_zero.mp (hzero ▸ zerosWidth_le _ _ _)
    obtain ⟨j, hfront⟩ := fieldText_front (decimalRow e.components e.precision
      (zerosWidth e.components.isNegative (decimalPartWidth e width flags) flags) flags
        (List.replicate z (charOf '0'))).reverse hnopad
    obtain ⟨k, hpad⟩ : ∃ k, (if flags.left = true then List.replicate (width.toNat -
        (decimalText e.components e.precision (decimalPartWidth e width flags) flags buf ++
          exponentText e flags).length) (charOf ' ') else []) = List.replicate k (charOf ' ') := by
      split_ifs
      · exact ⟨_, rfl⟩
      · exact ⟨0, rfl⟩
    obtain ⟨hdigit, hdot⟩ := exponentText_end e flags k
    rw [hpad, decimalText, hchars, hfront, List.append_assoc, List.append_assoc,
      readFloat_row hproper _ z j hdigit hdot, readExponent_exponentText hfall he]

variable {F : Type} {fa : FloatArithmetic F} {value : F} {preferExponential : Bool}

/-- What a finite number is printed from, a number in decimal notation without an exponent,
and the zeros that stand for a part of its precision. -/
def floatParts (fa : FloatArithmetic F) (value : F) (precision : UInt32) (flags : PrintfFlags)
    (preferExponential : Bool) : Option (Exponential × ℕ) :=
  if !preferExponential && fa.beyondNotation value then do
    let e ← exponential fa value (adaptPrecision flags precision) flags.adaptExp
    some (e, 0)
  else do
    let precision := if !flags.precision then defaultFloatPrecision else precision
    let r := limitPrecision printfIntegerBufferSize precision .empty
    if preferExponential then do
      let e ← exponential fa value (adaptPrecision flags r.1) flags.adaptExp
      some (e, r.2.len)
    else do
      let i ← powerIndex r.1
      some (⟨fa.getComponents value i, r.1, 0, true⟩, r.2.len)

theorem exponentialText_decimal (number : Components) (precision width : UInt32)
    (flags : PrintfFlags) (buf : IntegerBuffer) :
    exponentialText ⟨number, precision, 0, true⟩ width flags buf =
      decimalText number precision width flags buf := by
  have hwidth : decimalPartWidth ⟨number, precision, 0, true⟩ width flags = width := by
    have hnone : exp10PartWidth ⟨number, precision, 0, true⟩ = 0 := rfl
    unfold decimalPartWidth
    rw [hnone]
    by_cases hzero : width = 0
    · simp [hzero]
    · have hpos : 0 < width := UInt32.lt_iff_toNat_lt.mpr (OutputGadget.toNat_pos hzero)
      simp [hpos]
  unfold exponentialText
  rw [hwidth]
  rfl

theorem limitPrecision_len (precision : UInt32) :
    (limitPrecision printfIntegerBufferSize precision .empty).2.chars =
      List.replicate (limitPrecision printfIntegerBufferSize precision .empty).2.len (charOf '0') := by
  have hchars := (limitPrecision_spec precision .empty
    (n := printfIntegerBufferSize) (Nat.sub_le _ _)).2
  have hnil : IntegerBuffer.empty.chars = [] := rfl
  rw [hnil, List.nil_append] at hchars
  rw [IntegerBuffer.len, hchars, List.length_replicate]

theorem floatText_parts (hfinite : ¬ (fa.isNan value ∨ fa.belowMin value ∨ fa.aboveMax value))
    {z : ℕ} (hparts : floatParts fa value precision flags preferExponential = some (e, z))
    (width : UInt32) :
    ∃ buf : IntegerBuffer, buf.chars = List.replicate z (charOf '0') ∧
      floatText fa value precision width flags preferExponential =
        some (exponentialText e width flags buf) := by
  obtain ⟨hnan, hbelow, habove⟩ : ¬ fa.isNan value ∧ ¬ fa.belowMin value ∧ ¬ fa.aboveMax value := by
    simpa only [not_or] using hfinite
  rw [floatText, if_neg hnan, if_neg hbelow, if_neg habove]
  unfold floatParts at hparts
  by_cases hbeyond : (!preferExponential && fa.beyondNotation value) = true
  · rw [if_pos hbeyond] at hparts ⊢
    cases hindex : exponential fa value (adaptPrecision flags precision) flags.adaptExp with
    | none => simp [hindex] at hparts
    | some i =>
      rw [hindex] at hparts
      obtain ⟨rfl, rfl⟩ := Prod.mk.inj (Option.some.inj hparts)
      exact ⟨.empty, rfl, rfl⟩
  rw [if_neg hbeyond] at hparts ⊢
  have hlen := limitPrecision_len (if !flags.precision then defaultFloatPrecision else precision)
  dsimp only at hparts ⊢
  generalize limitPrecision printfIntegerBufferSize
    (if !flags.precision then defaultFloatPrecision else precision) .empty = r at *
  cases preferExponential with
  | true =>
    rw [if_pos rfl] at hparts ⊢
    cases hindex : exponential fa value (adaptPrecision flags r.1) flags.adaptExp with
    | none => simp [hindex] at hparts
    | some i =>
      rw [hindex] at hparts
      obtain ⟨rfl, rfl⟩ := Prod.mk.inj (Option.some.inj hparts)
      exact ⟨r.2, hlen, rfl⟩
  | false =>
    rw [if_neg Bool.false_ne_true] at hparts ⊢
    cases hindex : powerIndex r.1 with
    | none => simp [hindex] at hparts
    | some i =>
      rw [hindex] at hparts
      obtain ⟨rfl, rfl⟩ := Prod.mk.inj (Option.some.inj hparts)
      exact ⟨r.2, hlen, by rw [exponentialText_decimal]; rfl⟩

/-- What fits into the buffer reads as its number, exactly if a point is printed, or there
are no digits in front of it but zeros, or no zero stands for a part of the precision. -/
theorem readFloat_exponentialText_iff
    (hproper : Proper e.components e.precision) (he : e.flooredExp10.natAbs < 2^64)
    (hbuf : buf.chars = List.replicate z (charOf '0'))
    (hfits : DecimalFits e.components e.precision (decimalPartWidth e width flags) flags z) :
    readFloat (exponentialText e width flags buf) = exponentialValue e ↔
      pointPrinted e.components.fractional.toNat e.precision flags = true ∨
        e.components.integral = 0 ∨ z = 0 := by
  rw [readFloat_exponentialText hproper he hbuf hfits, exponentialValue,
    ← shownValue_eq_iff hproper z]
  refine mul_left_inj' ?_
  split_ifs
  · exact one_ne_zero
  · exact zpow_ne_zero _ (by norm_num)

def twelve : FloatArithmetic Unit where
  isNan _ := false
  belowMin _ := false
  aboveMax _ := false
  beyondNotation _ := false
  getComponents _ _ := ⟨12, 0, false⟩
  flooredExp10 _ := 1
  normalizedComponents _ i := ⟨1, 2 * 10^(i.val - 1), false⟩
  equalsPower n i := n = 10^i.val

def adaptFlags : PrintfFlags := { precision := true, adaptExp := true }

/-- `%.20g` has three zeros beyond the table and prints no point. -/
example : floatText twelve () 20 0 adaptFlags true = some ("12000".toList.map charOf) := rfl

end BleFirmware.PrintfFloatReading
