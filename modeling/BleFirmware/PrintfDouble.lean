import BleFirmware.Base.Double
import BleFirmware.PrintfDecimal

/-!
# The doubles of `printf.c`

A `double` is a `Float`, whose operations are those of IEEE 754. Of a number
`get_components` takes the digits in front of the point and those of a precision behind
it; the decimal exponent is estimated by a series and corrected by a power of ten.
-/

namespace BleFirmware

/-- The conversion to an integer type that has room for the number. -/
def toInteger (x : Float) : ℤ := x.toModel.toInt64.toInt

def toDouble (n : ℤ) : Float := .ofModel (.ofInt n)

def dblMax : Float := 1.7976931348623157e308

def dblMax10Exp : ℤ := 308

def floatNotationThreshold : Float := 1e9

def powersOf10 : Vector Float powersOf10Size :=
  #v[1e00, 1e01, 1e02, 1e03, 1e04, 1e05, 1e06, 1e07, 1e08, 1e09, 1e10, 1e11, 1e12, 1e13, 1e14,
    1e15, 1e16, 1e17]

def getSignBit (x : Float) : Bool := x.toBits >>> 63 != 0

def getExp2 (x : Float) : ℤ := ((x.toBits >>> 52) &&& 0x7FF).toNat - 1023

def sign (negative : Bool) (x : Float) : Float := if negative then -x else x

def getComponents (number : Float) (precision : Fin powersOf10Size) : Components :=
  let isNegative := getSignBit number
  let absNumber := sign isNegative number
  let integral := toInteger absNumber
  let scaledRemainder := (absNumber - toDouble integral) * powersOf10[precision]
  let fractional := toInteger scaledRemainder
  let remainder := scaledRemainder - toDouble fractional
  let fractional :=
    if 0.5 < remainder || remainder == 0.5 && fractional % 2 = 1 then fractional + 1
    else fractional
  let r := if powersOf10[precision] ≤ toDouble fractional then (integral + 1, 0)
    else (integral, fractional)
  let integral :=
    if precision.val = 0 then
      let remainder := absNumber - toDouble r.1
      if remainder == 0.5 && r.1 % 2 = 1 then r.1 + 1 else r.1
    else r.1
  ⟨integral.toNat, r.2, isNegative⟩

structure ScalingFactor where
  rawFactor : Float
  multiply : Bool

def applyScaling (num : Float) (normalization : ScalingFactor) : Float :=
  if normalization.multiply then num * normalization.rawFactor else num / normalization.rawFactor

def unapplyScaling (normalized : Float) (normalization : ScalingFactor) : Float :=
  if normalization.multiply then normalized / normalization.rawFactor
  else normalized * normalization.rawFactor

def updateNormalization (sf : ScalingFactor) (extraMultiplicativeFactor : Float) : ScalingFactor :=
  if sf.multiply then ⟨sf.rawFactor * extraMultiplicativeFactor, true⟩
  else if (getExp2 extraMultiplicativeFactor).natAbs < (getExp2 sf.rawFactor).natAbs then
    ⟨sf.rawFactor / extraMultiplicativeFactor, false⟩
  else ⟨extraMultiplicativeFactor / sf.rawFactor, true⟩

def getNormalizedComponents (negative : Bool) (precision : Fin powersOf10Size)
    (nonNormalized : Float) (normalization : ScalingFactor) (flooredExp10 : ℤ) : Components :=
  let scaled := applyScaling nonNormalized normalization
  let closeToRepresentationExtremum := dblMax10Exp - 1 ≤ -flooredExp10 + precision.val
  if closeToRepresentationExtremum then getComponents (sign negative scaled) precision
  else
    let integral := toInteger scaled
    let remainder := nonNormalized - unapplyScaling (toDouble integral) normalization
    let precPowerOf10 := powersOf10[precision]
    let accountForPrecision := updateNormalization normalization precPowerOf10
    let scaledRemainder := applyScaling remainder accountForPrecision
    let fractional := toInteger scaledRemainder
    let scaledRemainder := scaledRemainder - toDouble fractional
    let fractional := if 0.5 ≤ scaledRemainder then fractional + 1 else fractional
    let fractional := if scaledRemainder == 0.5 then fractional - fractional % 2 else fractional
    if precPowerOf10 ≤ toDouble fractional then ⟨(integral + 1).toNat, 0, negative⟩
    else ⟨integral.toNat, fractional, negative⟩

def bastardizedFloor (x : Float) : ℤ :=
  if 0 ≤ x then toInteger x
  else
    let n := toInteger x
    if toDouble n == x then n else n - 1

/-- A series at 1.5 for the mantissa, and the exponent to another base. -/
def log10OfPositive (positiveNumber : Float) : Float :=
  let exp2 := getExp2 positiveNumber
  let mantissaBits := positiveNumber.toBits &&& ((1 : UInt64) <<< 52 - 1)
  let z := Float.ofBits (mantissaBits ||| (1023 : UInt64) <<< 52) - 1.5
  0.1760912590556812420 + z * 0.2895296546021678851 - z * z * 0.0965098848673892950 +
    z * z * z * 0.0428932821632841311 + toDouble exp2 * 0.30102999566398119521

def pow10OfInt (flooredExp10 : ℤ) : Float :=
  if flooredExp10 = -308 then 1e-308
  else
    let exp2 := bastardizedFloor (toDouble flooredExp10 * 3.321928094887362 + 0.5)
    let z := toDouble flooredExp10 * 2.302585092994046 - toDouble exp2 * 0.6931471805599453
    let z2 := z * z
    Float.ofBits (UInt64.ofInt (exp2 + 1023) <<< 52) *
      (1 + 2 * z / (2 - z + z2 / (6 + z2 / (10 + z2 / 14))))

def decimalExponent (absNumber : Float) : ℤ × Float :=
  if absNumber == 0 then (0, 1)
  else
    let flooredExp10 := bastardizedFloor (log10OfPositive absNumber)
    let p10 := pow10OfInt flooredExp10
    let r := if absNumber < p10 then (flooredExp10 - 1, p10 / 10) else (flooredExp10, p10)
    if h : r.1.natAbs < 17 then (r.1, powersOf10.get ⟨r.1.natAbs, h.trans (by decide)⟩) else r

def doubleArithmetic : FloatArithmetic Float where
  isNan value := value != value
  belowMin value := value < -dblMax
  aboveMax value := dblMax < value
  beyondNotation value := floatNotationThreshold < value || value < -floatNotationThreshold
  getComponents := getComponents
  flooredExp10 number := (decimalExponent (sign (getSignBit number) number)).1
  normalizedComponents number precision :=
    let negative := getSignBit number
    let r := decimalExponent (sign negative number)
    getNormalizedComponents negative precision (sign negative number)
      ⟨r.2, r.1 < 0 && r.1.natAbs < 17⟩ r.1
  equalsPower n i := toDouble n == powersOf10[i]

/-- `%g` reads the table of powers behind its end. -/
example : PrintfDecimal.floatText doubleArithmetic 0.001 17 0
    { precision := true, adaptExp := true } true = none := by decide +kernel

/-- The remainder of a number that was scaled up before it was cut can be below zero. -/
example : PrintfDecimal.floatText doubleArithmetic 8.999999999999999e-05 15 0
    { precision := true } true = some ("9.00000000000000/e-05".toList.map charOf) := by
  decide +kernel

namespace PrintfDouble
open Rounding Binary64

variable {x y : Float} {p : Fin powersOf10Size}

theorem abs_lt_max {q : ℚ} (hnonneg : 0 ≤ q) (hlt : q < 2^63) : |q| < 2^1024 := by
  rw [abs_of_nonneg hnonneg]
  exact hlt.trans (pow_lt_pow_right₀ (by norm_num) (by norm_num))

theorem toDouble_spec {n : ℤ} (hn : grid.Has n) (hlt : |(n : ℚ)| < 2^1024) :
    (toDouble n).isFinite = true ∧ val (toDouble n) = n := by
  have hround := Grid.round_of_has hn
  have hspec := ofInt_spec (n := n) (by rwa [hround])
  rwa [hround] at hspec

theorem powersOf10_eq : ∀ p : Fin powersOf10Size, powersOf10[p] = toDouble (10^p.val) := by
  decide +kernel

theorem has_power (p : Fin powersOf10Size) : grid.Has ((10^p.val : ℤ) : ℚ) := by
  refine ⟨5^p.val, p.val, ?_, ?_, ?_⟩
  · have hall : ∀ p : Fin powersOf10Size, |(5 : ℤ)^p.val| < 2^grid.digits := by decide
    exact hall p
  · exact (by decide : grid.minExp ≤ 0).trans (Int.natCast_nonneg _)
  · rw [zpow_natCast]
    push_cast
    rw [← mul_pow]
    norm_num

theorem power_lt (p : Fin powersOf10Size) : (10 : ℚ)^p.val < 2^63 := by
  have hall : ∀ p : Fin powersOf10Size, (10 : ℕ)^p.val < 2^63 := by decide
  exact_mod_cast hall p

theorem powersOf10_spec (p : Fin powersOf10Size) :
    powersOf10[p].isFinite = true ∧ val powersOf10[p] = 10^p.val := by
  have hlt : |((10^p.val : ℤ) : ℚ)| < 2^1024 := by
    push_cast
    exact abs_lt_max (by positivity) (power_lt p)
  have hspec := toDouble_spec (has_power p) hlt
  rw [← powersOf10_eq] at hspec
  push_cast at hspec
  exact hspec

theorem half_spec : (0.5 : Float).isFinite = true ∧ val 0.5 = 1/2 := by
  have hunpack : (0.5 : Float).toModel.unpack = .finite .positive (2^52) (-53) (by decide) := by
    rfl
  refine ⟨rfl, ?_⟩
  rw [val, hunpack, value_positive]
  norm_num

theorem sign_spec (hx : x.isFinite = true) :
    (sign (getSignBit x) x).isFinite = true ∧ val (sign (getSignBit x) x) = |val x| := by
  obtain ⟨hpositive, hnegative⟩ := sign_bit x
  unfold sign getSignBit
  by_cases hbit : x.toBits >>> 63 = 0
  · rw [hbit, abs_of_nonneg (hpositive hbit)]
    exact ⟨hx, rfl⟩
  · rw [if_pos (bne_iff_ne.mpr hbit), abs_of_nonpos (hnegative hbit)]
    exact neg_spec hx

theorem remainder_spec (hx : x.isFinite = true) (hnonneg : 0 ≤ val x) (hlt : val x < 2^63) :
    (x - toDouble (toInteger x)).isFinite = true ∧
      val (x - toDouble (toInteger x)) = Int.fract (val x) := by
  obtain ⟨hfloor, hfract⟩ := (has_val hx).floor_fract (by decide) hnonneg
  have hone : |Int.fract (val x)| < 2^1024 :=
    abs_lt_max (Int.fract_nonneg _) ((Int.fract_lt_one _).trans (by norm_num))
  have hlow : (0 : ℚ) ≤ ⌊val x⌋ := by exact_mod_cast Int.floor_nonneg.mpr hnonneg
  have hinteger : toInteger x = ⌊val x⌋ := toInt64_spec hx hnonneg hlt
  have hsmall : |(⌊val x⌋ : ℚ)| < 2^1024 := abs_lt_max hlow ((Int.floor_le _).trans_lt hlt)
  obtain ⟨hfinite, hvalue⟩ := toDouble_spec hfloor hsmall
  have hround : grid.round (val x - ⌊val x⌋) = Int.fract (val x) := Grid.round_of_has hfract
  have hspec := sub_spec hx hfinite (by rwa [hvalue, hround])
  rw [hvalue, hround] at hspec
  rw [hinteger]
  exact hspec

theorem threshold_spec :
    floatNotationThreshold.isFinite = true ∧ val floatNotationThreshold = 10^9 := by
  have hpower : floatNotationThreshold = powersOf10[(⟨9, by decide⟩ : Fin powersOf10Size)] := by
    decide +kernel
  rw [hpower]
  exact powersOf10_spec ⟨9, by decide⟩

theorem dblMax_spec : dblMax.isFinite = true ∧ 10^9 < val dblMax := by
  have hfinite : dblMax.isFinite = true := by decide +kernel
  have hlt : floatNotationThreshold < dblMax := by decide +kernel
  obtain ⟨hthreshold, hvalue⟩ := threshold_spec
  rw [lt_iff hthreshold hfinite, hvalue] at hlt
  exact ⟨hfinite, hlt⟩

theorem beyondNotation_iff (hx : x.isFinite = true) :
    doubleArithmetic.beyondNotation x = false ↔ |val x| ≤ 10^9 := by
  obtain ⟨hthreshold, hvalue⟩ := threshold_spec
  obtain ⟨hneg, hnegValue⟩ := neg_spec hthreshold
  change (decide (floatNotationThreshold < x) || decide (x < -floatNotationThreshold)) = false ↔ _
  rw [Bool.or_eq_false_iff, decide_eq_false_iff_not, decide_eq_false_iff_not, lt_iff hthreshold hx,
    lt_iff hx hneg, hnegValue, hvalue, not_lt, not_lt, abs_le, and_comm]

theorem not_special_of_le (hx : x.isFinite = true) (hle : |val x| ≤ 10^9) :
    ¬ (doubleArithmetic.isNan x ∨ doubleArithmetic.belowMin x ∨ doubleArithmetic.aboveMax x) := by
  obtain ⟨hlow, hhigh⟩ := abs_le.mp hle
  obtain ⟨hmax, hmaxValue⟩ := dblMax_spec
  obtain ⟨hmin, hminValue⟩ := neg_spec hmax
  have hself : (x == x) = true := (beq_iff hx hx).mpr rfl
  have hbelow : ¬ x < -dblMax := by
    rw [lt_iff hx hmin, hminValue]
    linarith
  have habove : ¬ dblMax < x := by
    rw [lt_iff hmax hx]
    linarith
  simp [doubleArithmetic, bne, hself, hbelow, habove]

/-- The digits of a remainder, with a tie rounded to an even digit. -/
theorem fraction_spec (hx : x.isFinite = true) (hnonneg : 0 ≤ val x) (hlt : val x < 2^63) :
    (if 0.5 < x - toDouble (toInteger x) ||
        x - toDouble (toInteger x) == 0.5 && toInteger x % 2 = 1 then toInteger x + 1
      else toInteger x) = roundEven (val x) := by
  obtain ⟨hfinite, hvalue⟩ := remainder_spec hx hnonneg hlt
  obtain ⟨hhalf, hhalfValue⟩ := half_spec
  have habove := lt_iff hhalf hfinite
  have htie := beq_iff hfinite hhalf
  have hinteger : toInteger x = ⌊val x⌋ := toInt64_spec hx hnonneg hlt
  rw [hvalue, hhalfValue] at habove htie
  rw [hinteger] at habove htie ⊢
  rw [roundEven]
  simp only [Bool.or_eq_true, Bool.and_eq_true, decide_eq_true_eq, habove, htie]
  obtain hless | heq | hmore := lt_trichotomy (Int.fract (val x)) (1/2)
  · rw [if_pos hless, if_neg]
    rintro (h | ⟨h, -⟩)
    · exact hless.not_gt h
    · exact hless.ne h
  · rw [if_neg heq.not_lt, if_neg heq.not_gt]
    obtain heven | hodd := Int.emod_two_eq_zero_or_one ⌊val x⌋
    · rw [if_pos heven, if_neg]
      rintro (h | ⟨-, h⟩)
      · exact heq.not_gt h
      · omega
    · rw [if_pos (Or.inr ⟨heq, hodd⟩), if_neg (by omega)]
  · rw [if_neg hmore.not_gt, if_pos hmore, if_pos (Or.inl hmore)]

/-- The one operation that rounds. -/
theorem scaled_spec (hy : y.isFinite = true) (hnonneg : 0 ≤ val y) (hlt : val y < 1)
    (p : Fin powersOf10Size) :
    (y * powersOf10[p]).isFinite = true ∧ val (y * powersOf10[p]) = grid.round (val y * 10^p.val) ∧
      0 ≤ grid.round (val y * 10^p.val) ∧ grid.round (val y * 10^p.val) ≤ 10^p.val := by
  obtain ⟨hpower, hvalue⟩ := powersOf10_spec p
  have hpos : (0 : ℚ) < 10^p.val := by positivity
  have hscaled : 0 ≤ val y * 10^p.val := mul_nonneg hnonneg hpos.le
  have hhas : grid.Has ((10 : ℚ)^p.val) := by exact_mod_cast has_power p
  have hle : grid.round (val y * 10^p.val) ≤ 10^p.val :=
    Grid.round_le hhas hscaled (mul_le_of_le_one_left hpos.le hlt.le)
  have hround := Grid.round_nonneg grid hscaled
  have hspec := mul_spec hy hpower (by
    rw [hvalue]
    exact abs_lt_max hround (hle.trans_lt (power_lt p)))
  rw [hvalue] at hspec
  exact ⟨hspec.1, hspec.2, hround, hle⟩

theorem power_le_toDouble_iff {q : ℚ} (hhas : grid.Has (roundEven q)) (hnonneg : 0 ≤ q)
    (hle : q ≤ 10^p.val) : powersOf10[p] ≤ toDouble (roundEven q) ↔ roundEven q = 10^p.val := by
  have hlow : (0 : ℚ) ≤ roundEven q := by exact_mod_cast le_roundEven (by exact_mod_cast hnonneg)
  have hhigh : roundEven q ≤ 10^p.val := roundEven_le (by exact_mod_cast hle)
  have hhighQ : (roundEven q : ℚ) ≤ 10^p.val := by exact_mod_cast hhigh
  obtain ⟨hpower, hvalue⟩ := powersOf10_spec p
  obtain ⟨hfinite, hvalue'⟩ := toDouble_spec hhas (abs_lt_max hlow (hhighQ.trans_lt (power_lt p)))
  rw [le_iff hpower hfinite, hvalue, hvalue']
  constructor
  · intro h
    exact le_antisymm hhigh (by exact_mod_cast h)
  · intro h
    exact_mod_cast h.ge

theorem has_next {q : ℚ} (hx : grid.Has q) (hnonneg : 0 ≤ q) (hfract : Int.fract q ≠ 0) :
    grid.Has ((⌊q⌋ + 1 : ℤ) : ℚ) ∧ ⌊q⌋ < 2^52 := by
  have hfloor : 0 ≤ ⌊q⌋ := Int.floor_nonneg.mpr hnonneg
  have hsmall : 2 * q < 2^grid.digits := by
    by_contra! hlarge
    have hint := hx.integer hlarge
    exact hfract (by rw [hint, Int.fract_intCast])
  have hdigits : (2 : ℚ)^grid.digits = 2 * 2^52 := by
    rw [← pow_succ']
    rfl
  have hlt : ⌊q⌋ < 2^52 := by
    rw [Int.floor_lt]
    push_cast
    linarith
  have hwidth : (2 : ℤ)^grid.digits = 2^53 := rfl
  refine ⟨Grid.has_intCast (by decide) ?_, hlt⟩
  rw [abs_of_nonneg (by omega)]
  omega

/-- Without digits behind the point, the integral part is rounded to an even one on a tie. -/
theorem integral_spec (hx : x.isFinite = true) (hnonneg : 0 ≤ val x) (hlt : val x < 2^63) {n : ℤ}
    (hn : n = if roundEven (Int.fract (val x)) = 1 then ⌊val x⌋ + 1 else ⌊val x⌋) :
    (if x - toDouble n == 0.5 && n % 2 = 1 then n+1 else n) = roundEven (val x) := by
  obtain ⟨hhalf, hhalfValue⟩ := half_spec
  have hsplit : val x = ⌊val x⌋ + Int.fract (val x) := (Int.floor_add_fract _).symm
  have hfract := Int.fract_nonneg (val x)
  have hone := Int.fract_lt_one (val x)
  have hfractSplit : Int.fract (val x) = ((0 : ℤ) : ℚ) + Int.fract (val x) := by
    rw [Int.cast_zero, zero_add]
  have hround := roundEven_of_split hfractSplit hfract hone
  rw [roundEven_of_split hsplit hfract hone]
  by_cases hup : 1/2 < Int.fract (val x)
  · -- the difference is below zero, so it is no tie
    rw [if_neg hup.not_gt, if_pos hup, zero_add] at hround
    rw [if_pos hround] at hn
    obtain ⟨hhas, hsmall⟩ := has_next (has_val hx) hnonneg (by linarith)
    rw [← hn] at hhas
    have hnQ : (n : ℚ) = ⌊val x⌋ + 1 := by
      rw [hn]
      push_cast
      rfl
    have hdiff : val x - n = -(1 - Int.fract (val x)) := by linarith
    have hlow : 0 ≤ grid.round (1 - Int.fract (val x)) := Grid.round_nonneg grid (by linarith)
    have hhigh : grid.round (1 - Int.fract (val x)) ≤ 1 :=
      Grid.round_le (by exact_mod_cast Grid.has_intCast (n := 1) (by decide) (by decide))
        (by linarith) (by linarith)
    have hfloor : (0 : ℚ) ≤ ⌊val x⌋ := by exact_mod_cast Int.floor_nonneg.mpr hnonneg
    have hceil : (⌊val x⌋ : ℚ) < 2^52 := by exact_mod_cast hsmall
    obtain ⟨hfinite, hvalue⟩ := toDouble_spec hhas (abs_lt_max (by linarith) (by linarith))
    have hbound : |grid.round (val x - val (toDouble n))| < 2^1024 := by
      rw [hvalue, hdiff, Grid.round_neg, abs_neg]
      exact abs_lt_max hlow (hhigh.trans_lt (by norm_num))
    obtain ⟨hsub, hsubValue⟩ := sub_spec hx hfinite hbound
    have hno : ¬ (x - toDouble n == 0.5) = true := by
      rw [beq_iff hsub hhalf, hsubValue, hvalue, hdiff, Grid.round_neg, hhalfValue]
      intro heq
      linarith
    rw [if_neg hup.not_gt, if_pos hup, ← hn]
    exact if_neg fun h => hno (Bool.and_eq_true_iff.mp h).1
  · obtain ⟨hfinite, hvalue⟩ := remainder_spec hx hnonneg hlt
    have htie := beq_iff hfinite hhalf
    have hinteger : toInteger x = ⌊val x⌋ := toInt64_spec hx hnonneg hlt
    have hzero : roundEven (Int.fract (val x)) ≠ 1 := by
      have heven : (0 : ℤ) % 2 = 0 := rfl
      rw [hround, if_neg hup, if_pos heven, ite_self]
      decide
    rw [if_neg hzero, ← hinteger] at hn
    rw [hvalue, hhalfValue, ← hn] at htie
    rw [if_neg hup, ← hinteger, ← hn]
    simp only [Bool.and_eq_true, decide_eq_true_eq, htie]
    by_cases hless : Int.fract (val x) < 1/2
    · rw [if_pos hless, if_neg fun h => hless.ne h.1]
    · have heq : Int.fract (val x) = 1/2 := le_antisymm (not_lt.mp hup) (not_lt.mp hless)
      rw [if_neg hless]
      obtain heven | hodd := Int.emod_two_eq_zero_or_one n
      · rw [if_pos heven, if_neg (by omega)]
      · rw [if_pos ⟨heq, hodd⟩, if_neg (by omega)]

theorem getComponents_rounded (hx : x.isFinite = true) (hlt : |val x| < 2^63)
    (p : Fin powersOf10Size) :
    0 ≤ (getComponents x p).fractional ∧ (getComponents x p).fractional < 10^p.val ∧
      (getComponents x p).integral * 10^p.val + (getComponents x p).fractional =
        roundEven (⌊|val x|⌋ * 10^p.val + grid.round (Int.fract |val x| * 10^p.val)) := by
  obtain ⟨habs, habsValue⟩ := sign_spec hx
  have hnonneg : 0 ≤ val (sign (getSignBit x) x) := habsValue ▸ abs_nonneg _
  rw [← habsValue] at hlt ⊢
  unfold getComponents
  dsimp only
  generalize sign (getSignBit x) x = a at *
  obtain ⟨hrest, hrestValue⟩ := remainder_spec habs hnonneg hlt
  have hinteger : toInteger a = ⌊val a⌋ := toInt64_spec habs hnonneg hlt
  have hfloor : 0 ≤ ⌊val a⌋ := Int.floor_nonneg.mpr hnonneg
  obtain ⟨hscaled, hscaledValue, hlow, hhigh⟩ := scaled_spec hrest (hrestValue ▸ Int.fract_nonneg _)
    (hrestValue ▸ Int.fract_lt_one _) p
  have hround : 0 ≤ roundEven (val ((a - toDouble (toInteger a)) * powersOf10[p])) :=
    le_roundEven (by rw [hscaledValue]; exact_mod_cast hlow)
  have hround' : roundEven (val ((a - toDouble (toInteger a)) * powersOf10[p])) ≤ 10^p.val :=
    roundEven_le (by rw [hscaledValue]; exact_mod_cast hhigh)
  rw [← hscaledValue] at hlow hhigh
  have hup := power_le_toDouble_iff ((has_val hscaled).roundEven (by decide) hlow) hlow hhigh
  rw [fraction_spec hscaled hlow (hhigh.trans_lt (power_lt p)), ← hrestValue, ← hscaledValue,
    ← hinteger]
  rw [← hinteger] at hfloor
  simp only [hup]
  generalize val ((a - toDouble (toInteger a)) * powersOf10[p]) = q at *
  generalize hs : roundEven q = s at *
  refine ⟨?_, ?_, ?_⟩
  · split_ifs
    · exact le_rfl
    · exact hround
  · split_ifs with htop
    · positivity
    · exact lt_of_le_of_ne hround' htop
  · -- without digits behind the point a tie is decided by the integral part
    by_cases hp : p.val = 0
    · have hq : q = Int.fract (val a) := by
        rw [hscaledValue, hp, pow_zero, mul_one, hrestValue]
        exact Grid.round_of_has ((has_val habs).floor_fract (by decide) hnonneg).2
      rw [hp, pow_zero] at hround'
      simp only [hp, if_true, pow_zero, mul_one, apply_ite Prod.fst, apply_ite Prod.snd]
      have hintegral := integral_spec habs hnonneg hlt (n := if s = 1 then ⌊val a⌋ + 1 else ⌊val a⌋)
        (by rw [← hq, hs])
      have hzero : (if s = 1 then 0 else s) = 0 := by
        split_ifs <;> omega
      have hsum : (toInteger a : ℚ) + q = val a := by
        rw [hinteger, hq, Int.floor_add_fract]
      have hnonneg' : 0 ≤ roundEven (val a) := le_roundEven (by exact_mod_cast hnonneg)
      rw [hinteger] at hsum ⊢
      rw [hintegral, hzero, hsum, add_zero, Int.toNat_of_nonneg hnonneg']
    · -- the digits in front of the point make an even number, so they do not change a tie
      rw [if_neg hp]
      have heven : (toInteger a * 10^p.val) % 2 = 0 :=
        Int.emod_eq_zero_of_dvd (Dvd.dvd.mul_left (dvd_pow (by decide) hp) _)
      have hadd := roundEven_add heven q
      rw [hs] at hadd
      push_cast at hadd
      rw [hadd]
      split_ifs with htop
      · rw [Int.toNat_of_nonneg (by omega), htop]
        ring
      · rw [Int.toNat_of_nonneg hfloor]

/-- The components are those of the number with the digits behind the point scaled, rounded as
a double and then to an integer. -/
theorem getComponents_spec (hx : x.isFinite = true) (hlt : |val x| < 2^63)
    (p : Fin powersOf10Size) :
    (getComponents x p).isNegative = getSignBit x ∧
      0 ≤ (getComponents x p).fractional ∧ (getComponents x p).fractional < 10^p.val ∧
        (getComponents x p).integral * 10^p.val + (getComponents x p).fractional =
          roundEven (⌊|val x|⌋ * 10^p.val + grid.round (Int.fract |val x| * 10^p.val)) :=
  ⟨rfl, getComponents_rounded hx hlt p⟩

theorem getComponents_spec_pi :
    (getComponents 3.14159 ⟨3, by decide⟩).isNegative = getSignBit 3.14159 ∧
      0 ≤ (getComponents 3.14159 ⟨3, by decide⟩).fractional ∧
        (getComponents 3.14159 ⟨3, by decide⟩).fractional < 10^3 ∧
          (getComponents 3.14159 ⟨3, by decide⟩).integral * 10^3 +
              (getComponents 3.14159 ⟨3, by decide⟩).fractional =
            roundEven (⌊|val 3.14159|⌋ * 10^3 + grid.round (Int.fract |val 3.14159| * 10^3)) :=
  have hfinite : Float.isFinite 3.14159 = true := by decide +kernel
  have hle : |val 3.14159| ≤ 10^9 := (beyondNotation_iff hfinite).mp (by decide +kernel)
  getComponents_spec hfinite (hle.trans_lt (by norm_num)) ⟨3, by decide⟩

end PrintfDouble

end BleFirmware
