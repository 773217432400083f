import BleFirmware.PrintfMeaning
import BleFirmware.PrintfStandard

/-!
# The floating point numbers of `printf.c`

The arithmetic is a parameter: the tests of a value, its exponent, and its components for
a precision. From these the characters are made, in a buffer of the size of the integers'
one, and a precision beyond the table of powers is first cut down by zeros.
-/

namespace BleFirmware
open PrintfInteger PrintfStandard

/-- `floating_point_components`. The integral part comes from an absolute value; the fraction
of a normalized number can be below zero. -/
structure Components where
  integral : ℕ
  fractional : ℤ
  isNegative : Bool
  deriving DecidableEq

structure Exponential where
  components : Components
  precision : UInt32
  flooredExp10 : ℤ
  fallBack : Bool
  deriving DecidableEq

def powersOf10Size : ℕ := 18

def maxSupportedPrecision : UInt32 := 17

def defaultFloatPrecision : UInt32 := 6

/-- The arithmetic. The components are for a precision that the table of powers has. -/
structure FloatArithmetic (F : Type) where
  isNan : F → Bool
  belowMin : F → Bool
  aboveMax : F → Bool
  beyondNotation : F → Bool
  getComponents : F → Fin powersOf10Size → Components
  flooredExp10 : F → ℤ
  /-- The components of the value without this exponent. -/
  normalizedComponents : F → Fin powersOf10Size → Components
  equalsPower : ℕ → Fin powersOf10Size → Bool

/-- The trailing zeros that `%g` skips; the number bounds the rounds. -/
def skipZeros : ℕ → UInt32 → ℕ → UInt32 × ℕ
  | 0, count, fractional => (count, fractional)
  | n+1, count, fractional =>
    if fractional % 10 ≠ 0 then (count, fractional) else skipZeros n (count - 1) (fractional / 10)

/-- The character of a last digit, which is none of the digits for a number below zero. -/
def fractionChar (fractional : ℤ) : UInt8 := charOf '0' + UInt8.ofInt (fractional.tmod 10)

def putFraction : ℕ → ℤ → UInt32 → IntegerBuffer → IntegerBuffer × UInt32
  | 0, _, count, buf => (buf, count)
  | n+1, fractional, count, buf =>
    if buf.len < printfIntegerBufferSize then
      let buf := buf.push (fractionChar fractional)
      if fractional.tdiv 10 = 0 then (buf, count - 1)
      else putFraction n (fractional.tdiv 10) (count - 1) buf
    else (buf, count)

def putCount : ℕ → UInt32 → IntegerBuffer → IntegerBuffer
  | 0, _, buf => buf
  | n+1, count, buf =>
    if buf.len < printfIntegerBufferSize ∧ 0 < count then
      putCount n (count - 1) (buf.push (charOf '0'))
    else buf

def putFractionalPart (buf : IntegerBuffer) (fractional : ℤ) (precision : UInt32)
    (flags : PrintfFlags) : IntegerBuffer :=
  if precision ≠ 0 then
    let r : UInt32 × ℤ :=
      if flags.adaptExp && !flags.hash && 0 < fractional then
        (skipZeros fractional.toNat precision fractional.toNat).map id Nat.cast
      else (precision, fractional)
    if 0 < r.2 || !flags.adaptExp || flags.hash then
      let s := putFraction printfIntegerBufferSize r.2 r.1 buf
      (putCount printfIntegerBufferSize s.2 s.1).push (charOf '.')
    else buf
  else if flags.hash then buf.push (charOf '.')
  else buf

/-- The work on the buffer of `print_broken_up_decimal`. The digits in front of the point are
those of the loop of `print_integer`. -/
def finishDecimal (number : Components) (precision width : UInt32) (flags : PrintfFlags)
    (buf : IntegerBuffer) : IntegerBuffer :=
  let buf := putFractionalPart buf number.fractional precision flags
  let buf := putDigits 10 false printfIntegerBufferSize number.integral buf
  let buf :=
    if !flags.left && flags.zeropad then padZeros width printfIntegerBufferSize buf else buf
  putSign buf number.isNegative flags

def printBrokenUpDecimal (number : Components) (g : OutputGadget) (precision width : UInt32)
    (flags : PrintfFlags) (buf : IntegerBuffer) : OutputGadget :=
  let width := zerosWidth number.isNegative width flags
  outRev g (finishDecimal number precision width flags buf).chars width flags

def powerIndex (precision : UInt32) : Option (Fin powersOf10Size) :=
  if h : precision.toNat < powersOf10Size then some ⟨precision.toNat, h⟩ else none

/-- The components in decimal notation. A number that was rounded up to the next power of ten
has one digit less behind the point. `none` where the table is read behind its end. -/
def fallBackComponents {F : Type} (fa : FloatArithmetic F) (value : F) (precision : UInt32)
    (flooredExp10 : ℤ) : Option Exponential := do
  let i ← powerIndex precision
  let components := fa.getComponents value i
  if -1 ≤ flooredExp10 then
    let j ← powerIndex (flooredExp10 + 1).toNat.toUInt32
    if fa.equalsPower components.integral j then
      some ⟨components, if 0 < precision then precision - 1 else precision, flooredExp10 + 1, true⟩
    else some ⟨components, precision, flooredExp10, true⟩
  else some ⟨components, precision, flooredExp10, true⟩

def exponentComponents {F : Type} (fa : FloatArithmetic F) (value : F)
    (i : Fin powersOf10Size) : Components :=
  if fa.flooredExp10 value = 0 then fa.getComponents value i else fa.normalizedComponents value i

def rollOver (flooredExp10 : ℤ) (components : Components) : ℤ × Components :=
  if 10 ≤ components.integral then
    (flooredExp10 + 1, { components with integral := 1, fractional := 0 })
  else (flooredExp10, components)

/-- `print_exponential_number` in front of its output, for a precision of digits behind the
point. -/
def exponential {F : Type} (fa : FloatArithmetic F) (value : F) (precision : UInt32)
    (adaptExp : Bool) : Option Exponential := do
  let i ← powerIndex precision
  let original := fa.flooredExp10 value
  let r := rollOver original (exponentComponents fa value i)
  if adaptExp && -4 ≤ r.1 && r.1 < precision.toNat + 1 then
    let precision := if r.1 < precision.toNat then (precision.toNat - r.1).toNat.toUInt32 else 0
    fallBackComponents fa value precision original
  else some ⟨r.2, precision, r.1, false⟩

def exp10PartWidth (e : Exponential) : UInt32 :=
  if e.fallBack then 0 else if e.flooredExp10.natAbs < 100 then 4 else 5

def decimalPartWidth (e : Exponential) (width : UInt32) (flags : PrintfFlags) : UInt32 :=
  if flags.left && exp10PartWidth e != 0 then 0
  else if exp10PartWidth e < width then width - exp10PartWidth e else 0

def printExponentialNumber (e : Exponential) (g : OutputGadget) (width : UInt32)
    (flags : PrintfFlags) (buf : IntegerBuffer) : OutputGadget :=
  let startPos := g.pos
  let g := printBrokenUpDecimal e.components g e.precision (decimalPartWidth e width flags) flags buf
  if !e.fallBack then
    let g := putcharViaGadget g (if flags.uppercase then charOf 'E' else charOf 'e')
    let g := printInteger g (absForPrinting e.flooredExp10) (e.flooredExp10 < 0) 10 0
      (exp10PartWidth e - 1) { zeropad := true, plus := true }
    if flags.left then padRight startPos width width.toNat g else g
  else g

/-- The zeros that stand for digits beyond the table; the buffer bounds the rounds. -/
def limitPrecision : ℕ → UInt32 → IntegerBuffer → UInt32 × IntegerBuffer
  | 0, precision, buf => (precision, buf)
  | n+1, precision, buf =>
    if buf.len < printfIntegerBufferSize ∧ maxSupportedPrecision < precision then
      limitPrecision n (precision - 1) (buf.push (charOf '0'))
    else (precision, buf)

def adaptPrecision (flags : PrintfFlags) (precision : UInt32) : UInt32 :=
  if flags.adaptExp then if 1 < precision then precision - 1 else 0 else precision

/-- `none` where the table is read behind its end. -/
def printFloatingPoint {F : Type} (fa : FloatArithmetic F) (g : OutputGadget) (value : F)
    (precision width : UInt32) (flags : PrintfFlags) (preferExponential : Bool) :
    Option OutputGadget :=
  if fa.isNan value then some (outRev g ("nan".toList.map charOf) width flags)
  else if fa.belowMin value then some (outRev g ("fni-".toList.map charOf) width flags)
  else if fa.aboveMax value then
    some (outRev g ((if flags.plus then "fni+" else "fni").toList.map charOf) width flags)
  else if !preferExponential && fa.beyondNotation value then do
    let e ← exponential fa value (adaptPrecision flags precision) flags.adaptExp
    some (printExponentialNumber e g width flags .empty)
  else do
    let precision := if !flags.precision then defaultFloatPrecision else precision
    let r := limitPrecision printfIntegerBufferSize precision .empty
    if preferExponential then do
      let e ← exponential fa value (adaptPrecision flags r.1) flags.adaptExp
      some (printExponentialNumber e g width flags r.2)
    else do
      let i ← powerIndex r.1
      some (printBrokenUpDecimal (fa.getComponents value i) g r.1 width flags r.2)

namespace PrintfDecimal
open OutputGadget

variable {F : Type} {fa : FloatArithmetic F}

theorem limitPrecision_spec {n : ℕ} (precision : UInt32) (buf : IntegerBuffer)
    (hn : printfIntegerBufferSize - buf.chars.length ≤ n) :
    let z := min (precision.toNat - 17) (printfIntegerBufferSize - buf.chars.length)
    (limitPrecision n precision buf).1.toNat = precision.toNat - z ∧
      (limitPrecision n precision buf).2.chars = buf.chars ++ List.replicate z (charOf '0') := by
  induction n generalizing precision buf with
  | zero =>
    have hzero : printfIntegerBufferSize - buf.chars.length = 0 := Nat.le_zero.mp hn
    simp [limitPrecision, hzero]
  | succ n ih =>
    rw [limitPrecision]
    have hseventeen : maxSupportedPrecision.toNat = 17 := rfl
    by_cases hmore : buf.len < printfIntegerBufferSize ∧ maxSupportedPrecision < precision
    · have hroom : buf.chars.length < printfIntegerBufferSize := hmore.1
      have hlt : 17 < precision.toNat := UInt32.lt_iff_toNat_lt.mp hmore.2
      have hpush := push_chars hroom (charOf '0')
      have hpred : (precision - 1).toNat = precision.toNat - 1 :=
        toNat_pred (by rintro rfl; exact absurd hlt (by decide))
      have hlen : (buf.push (charOf '0')).chars.length = buf.chars.length + 1 := by
        rw [hpush, List.length_append, List.length_singleton]
      obtain ⟨hnat, hchars⟩ := ih (precision - 1) (buf.push (charOf '0')) (by omega)
      rw [hlen, hpred] at hnat hchars
      have hmin : min (precision.toNat - 17) (printfIntegerBufferSize - buf.chars.length) =
          min (precision.toNat - 1 - 17) (printfIntegerBufferSize - (buf.chars.length + 1)) + 1 := by
        omega
      rw [if_pos hmore, hmin]
      refine ⟨by omega, ?_⟩
      rw [hchars, hpush, List.replicate_succ, List.append_assoc, List.singleton_append]
    · have hzero : min (precision.toNat - 17) (printfIntegerBufferSize - buf.chars.length) = 0 := by
        obtain hfull | hle := not_and_or.mp hmore
        · have hlen : buf.len = buf.chars.length := rfl
          omega
        · have hge := Nat.le_of_not_lt (mt UInt32.lt_iff_toNat_lt.mpr hle)
          omega
      rw [if_neg hmore, hzero]
      simp

theorem powerIndex_isSome_iff (precision : UInt32) :
    (powerIndex precision).isSome ↔ precision.toNat ≤ 17 := by
  unfold powerIndex
  split_ifs with h
  · exact iff_of_true rfl (Nat.le_of_lt_succ h)
  · exact iff_of_false Bool.false_ne_true (fun hle => h (Nat.lt_succ_of_le hle))

theorem adaptPrecision_le_iff (flags : PrintfFlags) (precision : UInt32) :
    (adaptPrecision flags precision).toNat ≤ 17 ↔
      precision.toNat ≤ 17 + if flags.adaptExp then 1 else 0 := by
  unfold adaptPrecision
  split_ifs with hadapt hone
  · have hlt : 1 < precision.toNat := UInt32.lt_iff_toNat_lt.mp hone
    rw [toNat_pred (by rintro rfl; exact absurd hlt (by decide))]
    omega
  · have hle := Nat.le_of_not_lt (mt UInt32.lt_iff_toNat_lt.mpr hone)
    have hle' : precision.toNat ≤ 1 := hle
    exact iff_of_true (Nat.zero_le _) (by omega)
  · rw [Nat.add_zero]

theorem isSome_bind_some {α β : Type} (o : Option α) (f : α → β) :
    (o.bind fun a => some (f a)).isSome = o.isSome := by
  cases o <;> rfl

theorem toNat_toUInt32 {n : ℕ} (h : n < 2^32) : n.toUInt32.toNat = n :=
  UInt32.toNat_ofNat_of_lt' h

theorem fallBackComponents_isSome_iff (fa : FloatArithmetic F) (value : F) (precision : UInt32)
    {e : ℤ} (he : e ≤ 17) :
    (fallBackComponents fa value precision e).isSome ↔ precision.toNat ≤ 17 ∧ e ≠ 17 := by
  rw [← powerIndex_isSome_iff, fallBackComponents]
  cases powerIndex precision with
  | none => exact iff_of_false Bool.false_ne_true fun h => Bool.false_ne_true h.1
  | some i =>
    rw [Option.isSome_some, and_iff_right rfl, Option.bind_eq_bind, Option.bind_some]
    dsimp only
    by_cases hlow : -1 ≤ e
    · have hindex : (powerIndex (e + 1).toNat.toUInt32).isSome ↔ e ≠ 17 := by
        rw [powerIndex_isSome_iff, toNat_toUInt32 (by omega)]
        omega
      rw [if_pos hlow, ← hindex]
      cases powerIndex (e + 1).toNat.toUInt32 with
      | none => rfl
      | some j =>
        rw [Option.bind_some]
        split_ifs <;> rfl
    · rw [if_neg hlow]
      exact iff_of_true rfl (by omega)

/-- The decimal notation of `%g` reads the table at the digits behind its point, and at the
digits in front of it. -/
def Covered (fa : FloatArithmetic F) (value : F) (precision : UInt32) : Prop :=
  ∀ i ∈ powerIndex precision,
    let e := (rollOver (fa.flooredExp10 value) (exponentComponents fa value i)).1
    e ≤ precision.toNat → -4 ≤ e → precision.toNat - e ≤ 17 ∧ fa.flooredExp10 value ≠ 17

theorem rollOver_le (e : ℤ) (components : Components) : e ≤ (rollOver e components).1 := by
  unfold rollOver
  split_ifs
  · exact Int.le_add_one le_rfl
  · exact le_rfl

theorem exponential_isSome_iff (fa : FloatArithmetic F) (value : F) (precision : UInt32)
    (adaptExp : Bool) :
    (exponential fa value precision adaptExp).isSome ↔
      precision.toNat ≤ 17 ∧ (adaptExp → Covered fa value precision) := by
  rw [← powerIndex_isSome_iff, exponential, Covered]
  cases hindex : powerIndex precision with
  | none => exact iff_of_false Bool.false_ne_true fun h => Bool.false_ne_true h.1
  | some i =>
    have hprecision := (powerIndex_isSome_iff precision).mp (hindex ▸ rfl)
    have hle := rollOver_le (fa.flooredExp10 value) (exponentComponents fa value i)
    rw [Option.isSome_some, and_iff_right rfl, Option.bind_eq_bind, Option.bind_some]
    simp only [Option.mem_some_iff, forall_eq']
    generalize rollOver (fa.flooredExp10 value) (exponentComponents fa value i) = r at *
    cases adaptExp with
    | false => exact iff_of_true rfl nofun
    | true =>
      simp only [Bool.true_and, Bool.and_eq_true, decide_eq_true_eq, forall_const]
      by_cases hfall : -4 ≤ r.1 ∧ r.1 < precision.toNat + 1
      · have hcount : (if r.1 < precision.toNat then (precision.toNat - r.1).toNat.toUInt32
            else 0).toNat = (precision.toNat - r.1).toNat := by
          split_ifs
          · exact toNat_toUInt32 (by omega)
          · rw [Int.toNat_of_nonpos (by omega)]
            rfl
        rw [if_pos hfall, fallBackComponents_isSome_iff fa value _ (by omega), hcount]
        constructor
        · intro hcover _ _
          exact ⟨by omega, hcover.2⟩
        · intro h
          obtain ⟨hcover, hne⟩ := h (by omega) hfall.1
          exact ⟨by omega, hne⟩
      · rw [if_neg hfall]
        exact iff_of_true rfl fun hhigh hlow => absurd ⟨hlow, by omega⟩ hfall

def cutPrecision (flags : PrintfFlags) (precision : UInt32) : UInt32 :=
  (limitPrecision printfIntegerBufferSize
    (if !flags.precision then defaultFloatPrecision else precision) .empty).1

theorem cutPrecision_le_iff (flags : PrintfFlags) (precision : UInt32) (k : ℕ) (hk : k ≤ 1) :
    (cutPrecision flags precision).toNat ≤ 17 + k ↔
      flags.precision = false ∨ precision.toNat ≤ 49 + k := by
  have hlimit (precision : UInt32) :
      (limitPrecision printfIntegerBufferSize precision .empty).1.toNat =
        precision.toNat - min (precision.toNat - 17) 32 :=
    (limitPrecision_spec precision .empty (Nat.sub_le _ _)).1
  rw [cutPrecision, hlimit]
  cases flags.precision with
  | true =>
    simp only [Bool.not_true, Bool.false_eq_true, if_false, Bool.true_eq_false, false_or]
    omega
  | false =>
    have hdefault : defaultFloatPrecision.toNat = 6 := rfl
    simp only [Bool.not_false, if_true, hdefault, true_or, iff_true]
    omega

/-- A number that is finite reads the table of powers only within its bounds exactly if its
precision is at most 17 where it is too large for decimal notation, and else at most 49, or
left out. With `%g` it is one more, and the decimal notation has to be covered. -/
theorem table_in_bounds_iff (fa : FloatArithmetic F) (g : OutputGadget) (value : F)
    (precision width : UInt32) (flags : PrintfFlags) (preferExponential : Bool) :
    (printFloatingPoint fa g value precision width flags preferExponential).isSome ↔
      (fa.isNan value ∨ fa.belowMin value ∨ fa.aboveMax value) ∨
        if !preferExponential && fa.beyondNotation value then
          precision.toNat ≤ 17 + (if flags.adaptExp then 1 else 0) ∧
            (flags.adaptExp → Covered fa value (adaptPrecision flags precision))
        else
          (flags.precision = false ∨
            precision.toNat ≤ 49 + if preferExponential && flags.adaptExp then 1 else 0) ∧
            (preferExponential → flags.adaptExp →
              Covered fa value (adaptPrecision flags (cutPrecision flags precision))) := by
  by_cases hspecial : fa.isNan value ∨ fa.belowMin value ∨ fa.aboveMax value
  · refine iff_of_true ?_ (Or.inl hspecial)
    unfold printFloatingPoint
    obtain h | h | h := hspecial
    · rw [if_pos h]
      rfl
    · split_ifs <;> rfl
    · split_ifs <;> rfl
  obtain ⟨hnan, hbelow, habove⟩ : ¬ fa.isNan value ∧ ¬ fa.belowMin value ∧ ¬ fa.aboveMax value := by
    simpa only [not_or] using hspecial
  rw [or_iff_right hspecial, printFloatingPoint, if_neg hnan, if_neg hbelow, if_neg habove]
  by_cases hbeyond : (!preferExponential && fa.beyondNotation value) = true
  · rw [if_pos hbeyond, if_pos hbeyond, ← adaptPrecision_le_iff]
    exact (Bool.eq_iff_iff.mp (isSome_bind_some _ _)).trans (exponential_isSome_iff fa value _ _)
  rw [if_neg hbeyond, if_neg hbeyond]
  cases preferExponential with
  | true =>
    have hcut := cutPrecision_le_iff flags precision (if flags.adaptExp then 1 else 0)
      (by split_ifs <;> decide)
    rw [if_pos rfl, Bool.true_and, ← hcut, ← adaptPrecision_le_iff]
    simp only [forall_const]
    exact (Bool.eq_iff_iff.mp (isSome_bind_some _ _)).trans (exponential_isSome_iff fa value _ _)
  | false =>
    have hcut := cutPrecision_le_iff flags precision 0 zero_le_one
    have hnone : (false = true → flags.adaptExp = true →
        Covered fa value (adaptPrecision flags (cutPrecision flags precision))) ↔ True :=
      iff_true_intro nofun
    rw [Bool.false_and, if_neg Bool.false_ne_true, if_neg Bool.false_ne_true, hnone, and_true,
      ← hcut]
    exact (Bool.eq_iff_iff.mp (isSome_bind_some _ _)).trans (powerIndex_isSome_iff _)

def decimalText (number : Components) (precision width : UInt32) (flags : PrintfFlags)
    (buf : IntegerBuffer) : CString :=
  let width := zerosWidth number.isNegative width flags
  fieldText (finishDecimal number precision width flags buf).chars.reverse width.toNat flags

theorem printBrokenUpDecimal_eq (number : Components) (g : OutputGadget) (precision width : UInt32)
    (flags : PrintfFlags) (buf : IntegerBuffer) :
    printBrokenUpDecimal number g precision width flags buf =
      g.puts (decimalText number precision width flags buf) :=
  outRev_eq ((IntegerBuffer.length_le _).trans_lt (by decide)) _ _ _

def exponentText (e : Exponential) (flags : PrintfFlags) : CString :=
  (if flags.uppercase then charOf 'E' else charOf 'e') ::
    integerText (absForPrinting e.flooredExp10) (e.flooredExp10 < 0) 10 0 (exp10PartWidth e - 1)
      { zeropad := true, plus := true }

def exponentialText (e : Exponential) (width : UInt32) (flags : PrintfFlags)
    (buf : IntegerBuffer) : CString :=
  let front := decimalText e.components e.precision (decimalPartWidth e width flags) flags buf
  if e.fallBack then front
  else
    let text := front ++ exponentText e flags
    text ++ if flags.left then List.replicate (width.toNat - text.length) (charOf ' ') else []

theorem length_fieldText (chars : CString) (width : ℕ) (flags : PrintfFlags) :
    (fieldText chars width flags).length ≤ max chars.length width := by
  unfold fieldText
  cases flags.left <;> cases flags.zeropad <;> simp <;> omega

theorem zerosWidth_le (negative : Bool) (width : UInt32) (flags : PrintfFlags) :
    (zerosWidth negative width flags).toNat ≤ width.toNat := by
  rw [zerosWidth_toNat]
  split_ifs
  · exact Nat.sub_le _ _
  · exact le_rfl

theorem length_decimalText (number : Components) (precision width : UInt32) (flags : PrintfFlags)
    (buf : IntegerBuffer) :
    (decimalText number precision width flags buf).length ≤
      max printfIntegerBufferSize width.toNat := by
  refine (length_fieldText _ _ _).trans (max_le_max ?_ (zerosWidth_le _ _ _))
  rw [List.length_reverse]
  exact IntegerBuffer.length_le _

theorem length_integerText (value : UInt64) (negative : Bool) (base : ℕ) (precision width : UInt32)
    (flags : PrintfFlags) :
    (integerText value negative base precision width flags).length ≤
      max printfIntegerBufferSize width.toNat := by
  refine (length_fieldText _ _ _).trans (max_le_max ?_ (zerosWidth_le _ _ _))
  rw [List.length_reverse]
  exact IntegerBuffer.length_le _

theorem length_exponentText {e : Exponential} (h : e.fallBack = false) (flags : PrintfFlags) :
    (exponentText e flags).length ≤ 33 := by
  have hwidth : (exp10PartWidth e - 1).toNat ≤ printfIntegerBufferSize := by
    unfold exp10PartWidth
    rw [h, if_neg Bool.false_ne_true]
    split_ifs <;> decide
  have hdigits := length_integerText (absForPrinting e.flooredExp10) (e.flooredExp10 < 0) 10 0
    (exp10PartWidth e - 1) { zeropad := true, plus := true }
  rw [max_eq_left hwidth] at hdigits
  exact Nat.succ_le_succ hdigits

theorem exp10PartWidth_ne {e : Exponential} (h : e.fallBack = false) : exp10PartWidth e ≠ 0 := by
  unfold exp10PartWidth
  rw [h, if_neg Bool.false_ne_true]
  split_ifs <;> decide

theorem printExponentialNumber_eq (e : Exponential) (g : OutputGadget) (width : UInt32)
    (flags : PrintfFlags) (buf : IntegerBuffer) :
    printExponentialNumber e g width flags buf = g.puts (exponentialText e width flags buf) := by
  unfold printExponentialNumber exponentialText
  dsimp only
  cases hfall : e.fallBack with
  | true =>
    rw [printBrokenUpDecimal_eq]
    rfl
  | false =>
    have hputs : printInteger
        (putcharViaGadget (printBrokenUpDecimal e.components g e.precision
          (decimalPartWidth e width flags) flags buf)
            (if flags.uppercase then charOf 'E' else charOf 'e'))
          (absForPrinting e.flooredExp10) (e.flooredExp10 < 0) 10 0 (exp10PartWidth e - 1)
            { zeropad := true, plus := true } =
        g.puts (decimalText e.components e.precision (decimalPartWidth e width flags) flags buf ++
          exponentText e flags) := by
      rw [printInteger_eq, printBrokenUpDecimal_eq, puts_append]
      rfl
    rw [hputs]
    simp only [Bool.not_false, if_true, Bool.false_eq_true, if_false]
    cases hleft : flags.left with
    | false => simp
    | true =>
      -- the fraction is not padded in front of the exponent
      have hzero : decimalPartWidth e width flags = 0 := by
        unfold decimalPartWidth
        rw [hleft, if_pos (by simpa using exp10PartWidth_ne hfall)]
      have hfront := length_decimalText e.components e.precision (decimalPartWidth e width flags)
        flags buf
      have hexponent := length_exponentText hfall flags
      rw [hzero] at hfront ⊢
      have hshort : (decimalText e.components e.precision 0 flags buf ++
          exponentText e flags).length < 2^32 := by
        have hbound : max printfIntegerBufferSize (0 : UInt32).toNat = 32 := rfl
        rw [List.length_append]
        omega
      have hpos : ((g.puts (decimalText e.components e.precision 0 flags buf ++
          exponentText e flags)).pos - g.pos).toNat =
            (decimalText e.components e.precision 0 flags buf ++ exponentText e flags).length := by
        rw [puts_pos, UInt32.add_comm, UInt32.add_sub_cancel, UInt32.toNat_ofNat_of_lt' hshort]
      rw [if_pos rfl, if_pos rfl, padRight_eq hpos (Nat.sub_le _ _)]
      exact (puts_append ..).symm

def floatText (fa : FloatArithmetic F) (value : F) (precision width : UInt32) (flags : PrintfFlags)
    (preferExponential : Bool) : Option CString :=
  if fa.isNan value then some (fieldText ("nan".toList.map charOf) width.toNat flags)
  else if fa.belowMin value then some (fieldText ("-inf".toList.map charOf) width.toNat flags)
  else if fa.aboveMax value then
    some (fieldText ((if flags.plus then "+inf" else "inf").toList.map charOf) width.toNat flags)
  else if !preferExponential && fa.beyondNotation value then do
    let e ← exponential fa value (adaptPrecision flags precision) flags.adaptExp
    some (exponentialText e width flags .empty)
  else do
    let precision := if !flags.precision then defaultFloatPrecision else precision
    let r := limitPrecision printfIntegerBufferSize precision .empty
    if preferExponential then do
      let e ← exponential fa value (adaptPrecision flags r.1) flags.adaptExp
      some (exponentialText e width flags r.2)
    else do
      let i ← powerIndex r.1
      some (decimalText (fa.getComponents value i) r.1 width flags r.2)

theorem printFloatingPoint_eq (fa : FloatArithmetic F) (g : OutputGadget) (value : F)
    (precision width : UInt32) (flags : PrintfFlags) (preferExponential : Bool) :
    printFloatingPoint fa g value precision width flags preferExponential =
      (floatText fa value precision width flags preferExponential).map g.puts := by
  have hword {buf : CString} (hbuf : buf.length < 2^32) :
      some (outRev g buf width flags) =
        (some (fieldText buf.reverse width.toNat flags)).map g.puts :=
    congrArg some (outRev_eq hbuf g width flags)
  unfold printFloatingPoint floatText
  by_cases hnan : fa.isNan value
  · rw [if_pos hnan, if_pos hnan]
    exact hword (by decide)
  by_cases hbelow : fa.belowMin value
  · rw [if_neg hnan, if_neg hnan, if_pos hbelow, if_pos hbelow]
    exact hword (by decide)
  by_cases habove : fa.aboveMax value
  · rw [if_neg hnan, if_neg hnan, if_neg hbelow, if_neg hbelow, if_pos habove, if_pos habove]
    cases flags.plus <;> exact hword (by decide)
  rw [if_neg hnan, if_neg hnan, if_neg hbelow, if_neg hbelow, if_neg habove, if_neg habove]
  dsimp only
  split_ifs
  all_goals
    simp only [bind, Option.map_bind, printExponentialNumber_eq, printBrokenUpDecimal_eq]
    rfl

end PrintfDecimal

end BleFirmware
