import BleFirmware.Base.Rounding
import Mathlib

/-!
# Rounding of unpacked floating point numbers

The rounding of Lean's model of doubles, which shifts a mantissa and keeps track of what
it drops by two bits, is the rounding to the nearest number of a grid.
-/

namespace BleFirmware.Binary64
open Rounding Float.Model Float.Model.UnpackedFloat

/-- The digits in front of the point, and whether what is behind it is at least a half, and
neither nothing nor a half. -/
structure Tracks (em : ExtendedMantissa) (x : ℚ) : Prop where
  floor : ⌊x⌋ = em.mantissa
  roundBit : em.roundBit = true ↔ 1/2 ≤ Int.fract x
  stickyBit : em.stickyBit = true ↔ Int.fract x ≠ 0 ∧ Int.fract x ≠ 1/2

variable {em : ExtendedMantissa} {x : ℚ}

theorem tracks_exact (m : ℕ) : Tracks (.ofMantissaAndAccuracy m .exact) m where
  floor := Int.floor_natCast m
  roundBit := iff_of_false Bool.false_ne_true (by rw [Int.fract_natCast]; norm_num)
  stickyBit := iff_of_false Bool.false_ne_true fun h => h.1 (Int.fract_natCast m)

theorem Tracks.shiftRightOne (h : Tracks em x) : Tracks em.shiftRightOne (x/2) := by
  have hsplit : (⌊x⌋ : ℚ) + Int.fract x = x := Int.floor_add_fract x
  have hnonneg := Int.fract_nonneg x
  have hlt := Int.fract_lt_one x
  have hbit : em.mantissa % 2 = 0 ∨ em.mantissa % 2 = 1 := by omega
  have hhalf : (em.mantissa : ℚ) = 2 * (em.mantissa / 2 : ℕ) + (em.mantissa % 2 : ℕ) := by
    exact_mod_cast (Nat.div_add_mod em.mantissa 2).symm
  rw [h.floor, Int.cast_natCast] at hsplit
  have hfloor : ⌊x/2⌋ = (em.mantissa / 2 : ℕ) := by
    rw [Int.floor_eq_iff, Int.cast_natCast]
    obtain hbit | hbit := hbit <;> rw [hbit] at hhalf <;> push_cast at hhalf <;>
      constructor <;> linarith
  have hfract : Int.fract (x/2) = ((em.mantissa % 2 : ℕ) + Int.fract x) / 2 := by
    rw [Int.fract, hfloor, Int.cast_natCast]
    linarith
  have hround : em.shiftRightOne.roundBit = true ↔ em.mantissa % 2 = 1 := by
    obtain hbit | hbit := hbit <;> simp [ExtendedMantissa.shiftRightOne, hbit]
  have hsticky : em.shiftRightOne.stickyBit = true ↔ Int.fract x ≠ 0 := by
    have hor : em.shiftRightOne.stickyBit = true ↔ em.roundBit = true ∨ em.stickyBit = true :=
      Bool.or_eq_true_iff
    rw [hor, h.roundBit, h.stickyBit]
    constructor
    · rintro (hle | hne)
      · intro hzero
        rw [hzero] at hle
        norm_num at hle
      · exact hne.1
    · intro hne
      by_cases heq : Int.fract x = 1/2
      · exact Or.inl heq.ge
      · exact Or.inr ⟨hne, heq⟩
  refine ⟨hfloor, ?_, ?_⟩
  · rw [hround, hfract]
    obtain hbit | hbit := hbit
    · rw [hbit]
      exact iff_of_false zero_ne_one (by push_cast; linarith)
    · rw [hbit]
      exact iff_of_true rfl (by push_cast; linarith)
  · rw [hsticky, hfract]
    obtain hbit | hbit := hbit
    · rw [hbit]
      constructor
      · exact fun hne => ⟨fun h => hne (by push_cast at h; linarith),
          fun h => by push_cast at h; linarith⟩
      · exact fun h hzero => h.1 (by rw [hzero]; norm_num)
    · rw [hbit]
      constructor
      · exact fun hne => ⟨fun h => by push_cast at h; linarith,
          fun h => hne (by push_cast at h; linarith)⟩
      · exact fun h hzero => h.2 (by rw [hzero]; norm_num)

theorem Tracks.shiftRight (h : Tracks em x) (n : ℕ) : Tracks (em >>> n) (x / 2^n) := by
  change Tracks (n.repeat ExtendedMantissa.shiftRightOne em) (x / 2^n)
  induction n with
  | zero => simpa [Nat.repeat] using h
  | succ n ih =>
    have hstep := ih.shiftRightOne
    rwa [div_div, ← pow_succ] at hstep

/-- The two bits decide on the rounding. -/
theorem Tracks.roundedMantissa (h : Tracks em x) : (em.roundedMantissa : ℤ) = roundEven x := by
  obtain ⟨m, round, sticky⟩ := em
  have hfloor : ⌊x⌋ = m := h.floor
  have hround : round = true ↔ 1/2 ≤ Int.fract x := h.roundBit
  have hsticky : sticky = true ↔ Int.fract x ≠ 0 ∧ Int.fract x ≠ 1/2 := h.stickyBit
  rw [roundEven, hfloor]
  cases round with
  | false =>
    have hlt : Int.fract x < 1/2 := not_le.mp (mt hround.mpr Bool.false_ne_true)
    rw [if_pos hlt]
    cases sticky <;> rfl
  | true =>
    have hle := hround.mp rfl
    rw [if_neg (not_lt.mpr hle)]
    cases sticky with
    | false =>
      have heq : Int.fract x = 1/2 := by
        by_contra hne
        have hpos : Int.fract x ≠ 0 := by
          intro hzero
          rw [hzero] at hle
          norm_num at hle
        exact Bool.false_ne_true (hsticky.mpr ⟨hpos, hne⟩)
      have hmantissa : (ExtendedMantissa.mk m true false).roundedMantissa = m + m % 2 := rfl
      rw [hmantissa, if_neg heq.not_gt]
      split_ifs <;> omega
    | true =>
      have hgt : 1/2 < Int.fract x := lt_of_le_of_ne hle (Ne.symm (hsticky.mp rfl).2)
      have hmantissa : (ExtendedMantissa.mk m true true).roundedMantissa = m + 1 := rfl
      rw [hmantissa, if_pos hgt]
      push_cast
      rfl

def grid : Grid := ⟨53, -1074, by decide⟩

theorem log_mul {m : ℕ} (hm : m ≠ 0) (e : ℤ) : Int.log 2 ((m : ℚ) * 2^e) = m.log2 + e := by
  have hpos : (0 : ℚ) < (m : ℚ) * 2^e :=
    mul_pos (by exact_mod_cast Nat.pos_of_ne_zero hm) (Grid.two_zpow_pos e)
  have hlow : (2 : ℚ)^m.log2 ≤ m := by exact_mod_cast Nat.log2_self_le hm
  have hhigh : (m : ℚ) < 2^(m.log2 + 1) := by exact_mod_cast Nat.lt_log2_self
  refine le_antisymm ?_ ?_
  · rw [← Int.lt_add_one_iff, ← Int.lt_zpow_iff_log_lt (by decide) hpos]
    have hsplit : ((2 : ℕ) : ℚ)^((m.log2 : ℤ) + e + 1) = 2^(m.log2 + 1) * 2^e := by
      rw [← zpow_natCast, ← zpow_add₀ (by norm_num)]
      congr 1
      push_cast
      ring
    rw [hsplit]
    exact mul_lt_mul_of_pos_right hhigh (Grid.two_zpow_pos e)
  · rw [← Int.zpow_le_iff_le_log (by decide) hpos]
    have hsplit : ((2 : ℕ) : ℚ)^((m.log2 : ℤ) + e) = 2^m.log2 * 2^e := by
      rw [← zpow_natCast, ← zpow_add₀ (by norm_num)]
      rfl
    rw [hsplit]
    exact mul_le_mul_of_nonneg_right hlow (Grid.two_zpow_pos e).le

theorem targetExponent_eq {m : ℕ} (hm : m ≠ 0) (e : ℤ) :
    Format.binary64.targetExponent (totalExponent m e) = grid.lastExp ((m : ℚ) * 2^e) := by
  have hnonneg : 0 ≤ (m : ℚ) * 2^e := mul_nonneg (Nat.cast_nonneg m) (Grid.two_zpow_pos e).le
  have hmin : Format.binary64.minExponent = -1074 := rfl
  have hbits : (Format.binary64.mantissaBits : ℤ) = 53 := rfl
  rw [Grid.lastExp, abs_of_nonneg hnonneg, log_mul hm, Format.targetExponent, totalExponent, hmin,
    hbits]
  congr 1
  have hdigits : (grid.digits : ℤ) = 53 := rfl
  rw [hdigits]
  ring

def value : UnpackedFloat → ℚ
  | .finite s m e _ => s.apply m * 2^e
  | _ => 0

/-- A zero, or a number with the exponent of its digits. -/
def Canonical : UnpackedFloat → Prop
  | .zero _ => True
  | .finite _ m e _ => m < 2^53 ∧ -1074 ≤ e ∧ (2^52 ≤ m ∨ e = -1074)
  | _ => False

@[elab_as_elim]
theorem Canonical.elim {P : ∀ f, Canonical f → Prop} (zero : ∀ s, P (.zero s) trivial)
    (finite : ∀ s m e hpos (h : Canonical (.finite s m e hpos)), P (.finite s m e hpos) h)
    (f : UnpackedFloat) (hf : Canonical f) : P f hf := by
  cases f with
  | infinity s => exact False.elim hf
  | notANumber => exact False.elim hf
  | zero s => exact zero s
  | finite s m e hpos => exact finite s m e hpos hf

theorem apply_cast (s : Sign) (n : ℕ) : ((s.apply n : ℤ) : ℚ) = s.apply 1 * n := by
  cases s <;> simp [Sign.apply]

theorem shiftToExponent_exact (m : ℕ) {e t : ℤ} (h : e ≤ t) :
    Tracks (shiftToExponent m e .exact t).1 ((m : ℚ) * 2^e / 2^t) ∧
      (shiftToExponent m e .exact t).2 = t := by
  obtain ⟨n, rfl⟩ : ∃ n : ℕ, t = e+n := ⟨(t-e).toNat, by omega⟩
  have hshift : (e + n - e).toNat = n := by omega
  have hvalue : (m : ℚ) * 2^e / 2^(e + n : ℤ) = m / 2^n := by
    rw [zpow_add₀ (by norm_num), zpow_natCast]
    field_simp
  rw [shiftToExponent, hshift, hvalue]
  exact ⟨(tracks_exact m).shiftRight n, rfl⟩

theorem shift_none {R : ℕ} {t : ℤ} (hR : R < 2^53) (ht : -1074 ≤ t) :
    shiftToTargetExponent .binary64 R t .exact = (.ofMantissaAndAccuracy R .exact, t) := by
  have hlog : R.log2 ≤ 52 := by
    by_cases hzero : R = 0
    · rw [hzero]
      decide
    · exact Nat.lt_succ_iff.mp ((Nat.log2_lt hzero).mpr hR)
  have hmin : Format.binary64.minExponent = -1074 := rfl
  have hbits : (Format.binary64.mantissaBits : ℤ) = 53 := rfl
  have hle : Format.binary64.targetExponent (totalExponent R t) ≤ t := by
    rw [Format.targetExponent, totalExponent, hmin, hbits]
    omega
  rw [shiftToTargetExponent, shiftToExponent, Int.toNat_of_nonpos (by omega)]
  exact congrArg _ (add_zero t)

theorem shift_carry {t : ℤ} (ht : -1074 ≤ t) :
    shiftToTargetExponent .binary64 (2^53) t .exact = (⟨2^52, false, false⟩, t+1) := by
  have hmin : Format.binary64.minExponent = -1074 := rfl
  have hbits : (Format.binary64.mantissaBits : ℤ) = 53 := rfl
  have htarget : Format.binary64.targetExponent (totalExponent (2^53) t) = t+1 := by
    rw [Format.targetExponent, totalExponent, hmin, hbits, Nat.log2_two_pow]
    omega
  have hone : (t + 1 - t).toNat = 1 := by omega
  rw [shiftToTargetExponent, htarget, shiftToExponent, hone]
  rfl

theorem roundWithAccuracy_eq (s : Sign) (m : ℕ) (e : ℤ) {R : ℕ} {t : ℤ} (hR : R ≤ 2^53)
    (ht : -1074 ≤ t) (hround : (shiftToTargetExponent .binary64 m e .exact).1.roundedMantissa = R)
    (hexp : (shiftToTargetExponent .binary64 m e .exact).2 = t) :
    roundWithAccuracy .binary64 s m e .exact =
      if h : R = 0 then .zero s
      else if R < 2^53 then .finite s R t (Nat.pos_of_ne_zero h)
      else .finite s (2^52) (t+1) (by decide) := by
  rw [roundWithAccuracy]
  generalize shiftToTargetExponent .binary64 m e .exact = shifted at *
  obtain ⟨em, k⟩ := shifted
  subst hexp
  dsimp only at hround ⊢
  rw [hround]
  obtain hlt | heq := hR.lt_or_eq
  · rw [shift_none hlt ht]
    by_cases hzero : R = 0
    · rw [dif_pos hzero]
      exact dif_pos hzero
    · rw [dif_neg hzero, if_pos hlt]
      exact dif_neg hzero
  · subst heq
    rw [shift_carry ht]
    rfl

theorem scaled_bounds {x : ℚ} (hx : 0 < x) :
    x / 2^grid.lastExp x ≤ 2^53 ∧ (grid.lastExp x ≠ -1074 → 2^52 ≤ x / 2^grid.lastExp x) := by
  have hlow : (2 : ℚ)^Int.log 2 x ≤ x := by exact_mod_cast Int.zpow_log_le_self (by decide) hx
  have hhigh : x < 2^(Int.log 2 x + 1) := by
    exact_mod_cast Int.lt_zpow_succ_log_self (by decide) x
  have hdef : grid.lastExp x = max (Int.log 2 x + 1 - 53) (-1074) := by
    rw [Grid.lastExp, abs_of_pos hx]
    rfl
  have hsplit (n : ℕ) : (2 : ℚ)^(n + grid.lastExp x) = 2^n * 2^grid.lastExp x := by
    rw [zpow_add₀ (by norm_num), zpow_natCast]
  constructor
  · rw [div_le_iff₀ (Grid.two_zpow_pos _), ← hsplit]
    exact hhigh.le.trans (Grid.two_zpow_le (by omega))
  · intro hne
    rw [le_div_iff₀ (Grid.two_zpow_pos _), ← hsplit]
    exact (Grid.two_zpow_le (by omega)).trans hlow

/-- A number with a mantissa that is not too short is rounded on the grid. -/
theorem roundWithAccuracy_spec (s : Sign) {m : ℕ} (hm : m ≠ 0) {e : ℤ}
    (he : e ≤ grid.lastExp ((m : ℚ) * 2^e)) :
    Canonical (roundWithAccuracy .binary64 s m e .exact) ∧
      value (roundWithAccuracy .binary64 s m e .exact) =
        s.apply 1 * grid.round ((m : ℚ) * 2^e) := by
  have hpos : (0 : ℚ) < (m : ℚ) * 2^e :=
    mul_pos (by exact_mod_cast Nat.pos_of_ne_zero hm) (Grid.two_zpow_pos e)
  obtain ⟨hhigh, hlow⟩ := scaled_bounds hpos
  have hmin : -1074 ≤ grid.lastExp ((m : ℚ) * 2^e) := le_max_right _ _
  have hshift : shiftToTargetExponent .binary64 m e .exact =
      shiftToExponent m e .exact (grid.lastExp ((m : ℚ) * 2^e)) := by
    rw [← targetExponent_eq hm]
    rfl
  obtain ⟨htracks, hexp⟩ := shiftToExponent_exact m he
  rw [← hshift] at htracks hexp
  have hround := htracks.roundedMantissa
  rw [Grid.round]
  generalize grid.lastExp ((m : ℚ) * 2^e) = t at *
  generalize hR : (shiftToTargetExponent .binary64 m e .exact).1.roundedMantissa = R at hround
  have hbound : R ≤ 2^53 := by
    have hle : roundEven ((m : ℚ) * 2^e / 2^t) ≤ ((2^53 : ℕ) : ℤ) :=
      roundEven_le (by exact_mod_cast hhigh)
    exact_mod_cast hround.trans_le hle
  rw [roundWithAccuracy_eq s m e hbound hmin hR hexp, ← hround, Int.cast_natCast]
  by_cases hzero : R = 0
  · rw [dif_pos hzero, hzero]
    exact ⟨trivial, by simp [value]⟩
  · rw [dif_neg hzero]
    by_cases hlt : R < 2^53
    · rw [if_pos hlt]
      refine ⟨⟨hlt, hmin, ?_⟩, ?_⟩
      · by_cases hcap : t = -1074
        · exact Or.inr hcap
        · have hle : ((2^52 : ℕ) : ℤ) ≤ roundEven ((m : ℚ) * 2^e / 2^t) :=
            le_roundEven (by exact_mod_cast hlow hcap)
          exact Or.inl (by exact_mod_cast hle.trans_eq hround.symm)
      · rw [value, apply_cast, mul_assoc]
    · rw [if_neg hlt]
      have htop : R = 2^53 := by omega
      refine ⟨⟨by decide, by omega, Or.inl le_rfl⟩, ?_⟩
      have hcarry : (2 : ℚ)^(t+1) = 2^t * 2 := zpow_add_one₀ (by norm_num) t
      rw [value, apply_cast, htop, mul_assoc, hcarry]
      push_cast
      ring

/-- The exponent is decreased before a number that has too short a mantissa is rounded. -/
theorem decreaseExponent_spec (m : ℕ) (e t : ℤ) :
    ((decreaseExponent m e t).1 : ℚ) * 2^(decreaseExponent m e t).2 = (m : ℚ) * 2^e ∧
      (decreaseExponent m e t).2 ≤ t ∧ (m ≠ 0 → (decreaseExponent m e t).1 ≠ 0) := by
  have hdef : decreaseExponent m e t = (m * 2^(e-t).toNat, e - (e-t).toNat) :=
    congrArg (·, _) (Nat.shiftLeft_eq m _)
  rw [hdef]
  refine ⟨?_, by dsimp only; omega, fun hm => by positivity⟩
  have hexp : e = (e - (e-t).toNat) + ((e-t).toNat : ℤ) := by omega
  conv_rhs => rw [hexp, zpow_add₀ (by norm_num), zpow_natCast]
  push_cast
  ring

theorem round_spec (s : Sign) {m : ℕ} (hm : m ≠ 0) (e : ℤ) :
    Canonical (UnpackedFloat.round .binary64 s m e) ∧
      value (UnpackedFloat.round .binary64 s m e) =
        s.apply 1 * grid.round ((m : ℚ) * 2^e) := by
  obtain ⟨hvalue, hle, hne⟩ := decreaseExponent_spec m e (grid.lastExp ((m : ℚ) * 2^e))
  have hspec := roundWithAccuracy_spec s (hne hm) (by rwa [hvalue])
  rw [hvalue] at hspec
  rw [UnpackedFloat.round, targetExponent_eq hm]
  exact hspec

theorem normalize_spec (mantissa e : ℤ) (zeroSign : Sign) :
    Canonical (UnpackedFloat.normalize .binary64 mantissa e zeroSign) ∧
      value (UnpackedFloat.normalize .binary64 mantissa e zeroSign) =
        grid.round ((mantissa : ℚ) * 2^e) := by
  obtain hneg | rfl | hpos := lt_trichotomy mantissa 0
  · have hspec := round_spec .negative (m := (-mantissa).toNat) (by omega) e
    have hcast : (((-mantissa).toNat : ℤ) : ℚ) = -mantissa := by
      rw [Int.toNat_of_nonneg (by omega), Int.cast_neg]
    rw [Int.cast_natCast] at hcast
    rw [hcast, neg_mul, Grid.round_neg] at hspec
    rw [UnpackedFloat.normalize, compare_lt_iff_lt.mpr hneg]
    simpa [Sign.apply] using hspec
  · rw [Int.cast_zero, zero_mul, Grid.round_zero]
    exact ⟨trivial, rfl⟩
  · have hspec := round_spec .positive (m := mantissa.toNat) (by omega) e
    have hcast : ((mantissa.toNat : ℤ) : ℚ) = mantissa := by
      rw [Int.toNat_of_nonneg (by omega)]
    rw [Int.cast_natCast] at hcast
    rw [hcast] at hspec
    rw [UnpackedFloat.normalize, compare_gt_iff_gt.mpr hpos]
    simpa [Sign.apply] using hspec

end BleFirmware.Binary64
