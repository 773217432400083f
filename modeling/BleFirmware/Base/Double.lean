import BleFirmware.Base.Binary64

/-!
# The arithmetic of doubles

A finite `Float` stands for a rational number of the grid, and the operations on it are
those of the rational numbers, rounded.
-/

namespace BleFirmware.Binary64
open Rounding Float.Model Float.Model.UnpackedFloat

/-- The digits of a normal number, whose first one is not stored. -/
theorem normal_toNat (m : BitVec 52) : (1#1 ++ m).toNat = 2^52 + m.toNat := by
  have hlt : m.toNat < 2^52 := m.isLt
  rw [BitVec.toNat_append, ← Nat.shiftLeft_add_eq_or_of_lt hlt, Nat.shiftLeft_eq]
  rfl

theorem finite_congr {s : Sign} {m m' : ℕ} {e e' : ℤ} (hm : m = m') (he : e = e') (h : 0 < m)
    (h' : 0 < m') : UnpackedFloat.finite s m e h = .finite s m' e' h' := by
  subst hm he
  rfl

theorem unpack_subnormal (s : Sign) {m : BitVec 52} (hm : m ≠ 0#52) (hpos : 0 < m.toNat) :
    UnpackedFloat.unpack .binary64 (packComponents .binary64 s 0#11 m) =
      .finite s m.toNat (-1074) hpos := by
  simp only [UnpackedFloat.unpack, unpackExponent_packComponents, unpackMantissa_packComponents]
  rw [dif_neg hm, unpackSign_packComponents, Sign.ofBitVec_toBitVec]
  rfl

theorem unpack_normal (s : Sign) {e : BitVec 11} (he : e ≠ -1#11) (he' : e ≠ 0#11) (m : BitVec 52)
    (hpos : 0 < 2^52 + m.toNat) :
    UnpackedFloat.unpack .binary64 (packComponents .binary64 s e m) =
      .finite s (2^52 + m.toNat) (e.toNat - 1075) hpos := by
  simp only [UnpackedFloat.unpack, unpackExponent_packComponents, unpackMantissa_packComponents]
  rw [if_neg he, if_neg he', unpackSign_packComponents, Sign.ofBitVec_toBitVec]
  exact finite_congr (normal_toNat m) rfl _ hpos

def Ranged : UnpackedFloat → Prop
  | .finite _ _ e _ => e ≤ 971
  | _ => True

theorem unpack_pack {f : UnpackedFloat} (hf : Canonical f) (hr : Ranged f) :
    UnpackedFloat.unpack .binary64 (UnpackedFloat.pack .binary64 f) = f := by
  cases f, hf using Canonical.elim with
  | zero s => exact unpack_packedZero
  | finite s m e hpos hf =>
    obtain ⟨hm, hmin, hdigits⟩ := hf
    have hmax : e ≤ 971 := hr
    have hbias : (e + Format.binary64.exponentBias + (52 : ℕ)).toNat = (e+1075).toNat := by
      change (e+1023+52).toNat = (e+1075).toNat
      omega
    have hbits : Format.binary64.mantissaBits = 53 := rfl
    have hwidth : 2^Format.binary64.exponentBits = 2048 := rfl
    rw [UnpackedFloat.pack, hbias, hbits, hwidth, if_neg (by omega)]
    by_cases hnormal : 2^52 ≤ m
    · have hlog : m.log2 = 52 := (Nat.log2_eq_iff (by omega)).mpr ⟨hnormal, hm⟩
      have hexp : (BitVec.ofNat 11 (e+1075).toNat).toNat = (e+1075).toNat := by
        rw [BitVec.toNat_ofNat]
        omega
      rw [hlog, if_pos rfl, unpack_normal s _ _ _ (by omega)]
      · refine finite_congr ?_ ?_ _ hpos
        · rw [BitVec.toNat_ofNat]
          omega
        · change ((BitVec.ofNat 11 (e+1075).toNat).toNat : ℤ) - 1075 = e
          omega
      · intro h
        have htop := congrArg BitVec.toNat h
        rw [hexp] at htop
        change (e+1075).toNat = 2047 at htop
        omega
      · intro h
        have htop := congrArg BitVec.toNat h
        rw [hexp] at htop
        change (e+1075).toNat = 0 at htop
        omega
    · have hlog : m.log2 + 1 ≠ 53 := fun h =>
        hnormal ((Nat.log2_eq_iff (by omega)).mp (Nat.succ_injective h)).1
      have htoNat : (BitVec.ofNat 52 m).toNat = m := by
        rw [BitVec.toNat_ofNat]
        omega
      have hne : BitVec.ofNat 52 m ≠ 0#52 := by
        intro h
        rw [h] at htoNat
        exact hpos.ne htoNat
      rw [if_neg hlog]
      refine (unpack_subnormal s hne (by omega)).trans (finite_congr htoNat ?_ _ hpos)
      omega

theorem unpack_canonical (b : BitVec 64)
    (h : (UnpackedFloat.unpack .binary64 b).isFinite = true) :
    Canonical (UnpackedFloat.unpack .binary64 b) ∧ Ranged (UnpackedFloat.unpack .binary64 b) := by
  have hbias : (Format.binary64.exponentBias : ℤ) + (52 : ℕ) = 1075 := rfl
  have hm : (@unpackMantissa .binary64 b).toNat < 2^52 := BitVec.isLt _
  have he : (@unpackExponent .binary64 b).toNat < 2048 := BitVec.isLt _
  revert h
  rw [UnpackedFloat.unpack]
  dsimp only
  rw [hbias]
  split_ifs with htop hnone hzero hnone
  · exact fun h => (Bool.false_ne_true h).elim
  · exact fun h => (Bool.false_ne_true h).elim
  · exact fun _ => ⟨trivial, trivial⟩
  · have hexp : (@unpackExponent .binary64 b).toNat = 0 := congrArg BitVec.toNat hzero
    refine fun _ => ⟨⟨by omega, by omega, Or.inr (by omega)⟩, ?_⟩
    change ((@unpackExponent .binary64 b).toNat : ℤ) - 1075 + 1 ≤ 971
    omega
  · have hpos : (@unpackExponent .binary64 b).toNat ≠ 0 := fun h =>
      hzero (BitVec.eq_of_toNat_eq h)
    have hmax : (@unpackExponent .binary64 b).toNat ≠ 2047 := fun h =>
      htop (BitVec.eq_of_toNat_eq h)
    have hdigits := normal_toNat (@unpackMantissa .binary64 b)
    refine fun _ => ⟨⟨?_, by omega, Or.inl ?_⟩, ?_⟩
    · change (1#1 ++ @unpackMantissa .binary64 b).toNat < 2^53
      omega
    · change 2^52 ≤ (1#1 ++ @unpackMantissa .binary64 b).toNat
      omega
    · change ((@unpackExponent .binary64 b).toNat : ℤ) - 1075 ≤ 971
      omega

/-- The rational number that a finite double stands for. -/
def val (x : Float) : ℚ := value x.toModel.unpack

variable {x y : Float} {f : UnpackedFloat}

theorem scaled_pos {m : ℕ} (hpos : 0 < m) (e : ℤ) : (0 : ℚ) < m * 2^e :=
  mul_pos (by exact_mod_cast hpos) (Grid.two_zpow_pos e)

theorem value_negative {m : ℕ} (e : ℤ) (hpos : 0 < m) :
    value (.finite .negative m e hpos) = -(m * 2^e) := by simp [value, Sign.apply]

theorem value_positive {m : ℕ} (e : ℤ) (hpos : 0 < m) :
    value (.finite .positive m e hpos) = m * 2^e := by simp [value, Sign.apply]

theorem abs_value (s : Sign) {m : ℕ} (e : ℤ) (hpos : 0 < m) :
    |value (.finite s m e hpos)| = m * 2^e := by
  have habs := abs_of_pos (scaled_pos hpos e)
  cases s with
  | negative => rw [value_negative, abs_neg, habs]
  | positive => rw [value_positive, habs]

theorem Canonical.has (hf : Canonical f) : grid.Has (value f) := by
  cases f, hf using Canonical.elim with
  | zero s => exact ⟨0, 0, by decide, by decide, by simp [value]⟩
  | finite s m e hpos hf =>
    obtain ⟨hm, hmin, -⟩ := hf
    refine ⟨s.apply m, e, ?_, hmin, rfl⟩
    have habs : |s.apply m| = m := by
      cases s with
      | negative => exact (abs_neg _).trans (Nat.abs_cast m)
      | positive => exact Nat.abs_cast m
    rw [habs]
    exact_mod_cast hm

theorem Canonical.ranged (hf : Canonical f) (hvalue : |value f| < 2^1024) : Ranged f := by
  cases f, hf using Canonical.elim with
  | zero s => trivial
  | finite s m e hpos hf =>
    obtain ⟨-, hmin, hdigits⟩ := hf
    change e ≤ 971
    obtain hm | rfl := hdigits
    · by_contra! hlarge
      rw [abs_value] at hvalue
      have hmQ : (2 : ℚ)^52 ≤ m := by exact_mod_cast hm
      have hle : (2 : ℚ)^52 * 2^(972 : ℤ) ≤ m * 2^e :=
        mul_le_mul hmQ (Grid.two_zpow_le hlarge) (Grid.two_zpow_pos _).le (by positivity)
      have hpow : (2 : ℚ)^52 * 2^(972 : ℤ) = 2^1024 := by
        rw [← zpow_natCast, ← zpow_natCast, ← zpow_add₀ (by norm_num)]
        rfl
      rw [hpow] at hle
      exact absurd hvalue (not_lt.mpr hle)
    · decide

theorem canonical_unpack (hx : x.isFinite = true) : Canonical x.toModel.unpack :=
  (unpack_canonical x.toModel.toBits.toBitVec hx).1

theorem has_val (hx : x.isFinite = true) : grid.Has (val x) := (canonical_unpack hx).has

/-- A result is stored as it is, unless it is too large. -/
theorem ofModel_pack (hf : Canonical f) (hr : Ranged f) :
    (Float.ofModel (.pack f)).isFinite = true ∧ val (.ofModel (.pack f)) = value f := by
  have hunpack : (Float.Model.pack f).unpack = f := unpack_pack hf hr
  constructor
  · change (Float.Model.pack f).unpack.isFinite = true
    rw [hunpack]
    cases f, hf using Canonical.elim with
    | zero s => rfl
    | finite s m e hpos hf => rfl
  · exact congrArg value hunpack

theorem neg_apply (s : Sign) (n : ℤ) : (-s).apply n = -s.apply n := by
  cases s with
  | negative => exact (neg_neg n).symm
  | positive => rfl

theorem mul_apply (s s' : Sign) (n n' : ℤ) : (s * s').apply (n * n') = s.apply n * s'.apply n' := by
  cases s <;> cases s'
  · exact (neg_mul_neg n n').symm
  · exact (neg_mul n n').symm
  · exact (mul_neg n n').symm
  · rfl

theorem round_apply (s : Sign) (x : ℚ) :
    (s.apply 1 : ℤ) * grid.round x = grid.round ((s.apply 1 : ℤ) * x) := by
  cases s with
  | negative => simp [Sign.apply, Grid.round_neg]
  | positive => simp [Sign.apply]

theorem neg_value (hf : Canonical f) :
    Canonical f.neg ∧ (Ranged f → Ranged f.neg) ∧ value f.neg = -value f := by
  cases f, hf using Canonical.elim with
  | zero s => exact ⟨trivial, id, neg_zero.symm⟩
  | finite s m e hpos hf =>
    refine ⟨hf, id, ?_⟩
    change (((-s).apply m : ℤ) : ℚ) * 2^e = -((s.apply m : ℤ) * 2^e)
    rw [neg_apply, Int.cast_neg, neg_mul]

theorem decreaseExponent_value (s : Sign) {m : ℕ} {e k : ℤ} (h : k ≤ e) (hpos : 0 < m) :
    ((s.apply (decreaseExponent m e k).1 : ℤ) : ℚ) * 2^k = value (.finite s m e hpos) := by
  obtain ⟨hvalue, -, -⟩ := decreaseExponent_spec m e k
  have hexp : (decreaseExponent m e k).2 = k := by
    change e - ((e-k).toNat : ℤ) = k
    omega
  rw [hexp] at hvalue
  rw [value, apply_cast, mul_assoc, hvalue, apply_cast s m, mul_assoc]

theorem sub_value {g : UnpackedFloat} (hf : Canonical f) (hg : Canonical g) :
    Canonical (f.sub .binary64 g) ∧ value (f.sub .binary64 g) = grid.round (value f - value g) := by
  cases f, hf using Canonical.elim with
  | zero s =>
    cases g, hg using Canonical.elim with
    | zero s' =>
      have hzero : grid.round (0 - 0) = 0 := by rw [sub_zero, Grid.round_zero]
      cases s <;> cases s' <;> exact ⟨trivial, hzero.symm⟩
    | finite s' m' e' hpos' hg =>
      obtain ⟨hneg, -, hvalue⟩ := neg_value hg
      refine ⟨hneg, hvalue.trans ?_⟩
      change -value (.finite s' m' e' hpos') = grid.round (0 - value (.finite s' m' e' hpos'))
      rw [zero_sub, Grid.round_neg, Grid.round_of_has hg.has]
  | finite s m e hpos hf =>
    cases g, hg using Canonical.elim with
    | zero s' =>
      refine ⟨hf, ?_⟩
      change value (.finite s m e hpos) = grid.round (value (.finite s m e hpos) - 0)
      rw [sub_zero, Grid.round_of_has hf.has]
    | finite s' m' e' hpos' hg =>
      rw [UnpackedFloat.sub]
      dsimp only
      have hspec := normalize_spec (s.apply (decreaseExponent m e (min e e')).1 -
        s'.apply (decreaseExponent m' e' (min e e')).1) (min e e') .positive
      rw [Int.cast_sub, sub_mul, decreaseExponent_value s (min_le_left e e') hpos,
        decreaseExponent_value s' (min_le_right e e') hpos'] at hspec
      exact hspec

theorem mul_value {g : UnpackedFloat} (hf : Canonical f) (hg : Canonical g) :
    Canonical (f.mul .binary64 g) ∧ value (f.mul .binary64 g) = grid.round (value f * value g) := by
  cases f, hf using Canonical.elim with
  | zero s =>
    have hzero : grid.round (0 * value g) = 0 := by rw [zero_mul, Grid.round_zero]
    cases g, hg using Canonical.elim with
    | zero s' => exact ⟨trivial, hzero.symm⟩
    | finite s' m' e' hpos' hg => exact ⟨trivial, hzero.symm⟩
  | finite s m e hpos hf =>
    cases g, hg using Canonical.elim with
    | zero s' =>
      have hzero : grid.round (value (.finite s m e hpos) * 0) = 0 := by
        rw [mul_zero, Grid.round_zero]
      exact ⟨trivial, hzero.symm⟩
    | finite s' m' e' hpos' hg =>
      obtain ⟨-, hmin, hdigits⟩ := hf
      obtain ⟨-, hmin', hdigits'⟩ := hg
      have hne : m * m' ≠ 0 := (Nat.mul_pos hpos hpos').ne'
      have hle : e + e' ≤ grid.lastExp (((m * m' : ℕ) : ℚ) * 2^(e+e')) := by
        have hlog (h : 2^52 ≤ m * m') : 52 ≤ (m * m').log2 := (Nat.le_log2 hne).mpr h
        rw [← targetExponent_eq hne]
        change e + e' ≤ max ((m * m').log2 + 1 + (e+e') - 53) (-1074)
        obtain hm | rfl := hdigits
        · have hprod := hlog (hm.trans (Nat.le_mul_of_pos_right m hpos'))
          omega
        · obtain hm' | rfl := hdigits'
          · have hprod := hlog (hm'.trans (Nat.le_mul_of_pos_left m' hpos))
            omega
          · exact le_max_of_le_right (by decide)
      have hvalue : value (.finite s m e hpos) * value (.finite s' m' e' hpos') =
          ((s * s').apply 1 : ℤ) * (((m * m' : ℕ) : ℚ) * 2^(e+e')) := by
        have happly : (s * s').apply 1 = s.apply 1 * s'.apply 1 := mul_apply s s' 1 1
        rw [value, value, apply_cast, apply_cast, happly, zpow_add₀ (by norm_num)]
        push_cast
        ring
      rw [hvalue, ← round_apply]
      exact roundWithAccuracy_spec (s * s') hne hle

theorem value_le_of_exponent_lt {m m' : ℕ} {e e' : ℤ} (hm : m < 2^53) (hm' : 2^52 ≤ m')
    (he : e < e') : (m : ℚ) * 2^e < m' * 2^e' := by
  have hmQ : (m : ℚ) < 2^53 := by exact_mod_cast hm
  have hmQ' : (2 : ℚ)^52 ≤ m' := by exact_mod_cast hm'
  have hexp : (2 : ℚ)^(53 : ℕ) * 2^e = 2^(52 : ℕ) * 2^(e+1) := by
    rw [zpow_add_one₀ (by norm_num)]
    ring
  calc (m : ℚ) * 2^e < 2^53 * 2^e := mul_lt_mul_of_pos_right hmQ (Grid.two_zpow_pos e)
    _ = 2^52 * 2^(e+1) := hexp
    _ ≤ m' * 2^e' := mul_le_mul hmQ' (Grid.two_zpow_le (by omega)) (Grid.two_zpow_pos _).le
      (Nat.cast_nonneg m')

theorem compare_magnitude {m m' : ℕ} {e e' : ℤ} {s s' : Sign} {hpos : 0 < m} {hpos' : 0 < m'}
    (hf : Canonical (.finite s m e hpos)) (hg : Canonical (.finite s' m' e' hpos')) :
    (compare e e').then (compare m m') = compare ((m : ℚ) * 2^e) (m' * 2^e') := by
  obtain ⟨hm, hmin, hdigits⟩ := hf
  obtain ⟨hm', hmin', hdigits'⟩ := hg
  obtain he | rfl | he := lt_trichotomy e e'
  · have hlt : (m : ℚ) * 2^e < m' * 2^e' :=
      value_le_of_exponent_lt hm (hdigits'.resolve_right (by omega)) he
    rw [compare_lt_iff_lt.mpr he, compare_lt_iff_lt.mpr hlt]
    rfl
  · have hexp := Grid.two_zpow_pos e
    rw [compare_eq_iff_eq.mpr rfl, Ordering.eq_then]
    obtain hlt | rfl | hlt := lt_trichotomy m m'
    · have hscaled : (m : ℚ) * 2^e < m' * 2^e :=
        mul_lt_mul_of_pos_right (by exact_mod_cast hlt) hexp
      rw [compare_lt_iff_lt.mpr hlt, compare_lt_iff_lt.mpr hscaled]
    · rw [compare_eq_iff_eq.mpr rfl, compare_eq_iff_eq.mpr rfl]
    · have hscaled : (m' : ℚ) * 2^e < m * 2^e :=
        mul_lt_mul_of_pos_right (by exact_mod_cast hlt) hexp
      rw [compare_gt_iff_gt.mpr hlt, compare_gt_iff_gt.mpr hscaled]
  · have hlt : (m' : ℚ) * 2^e' < m * 2^e :=
      value_le_of_exponent_lt hm' (hdigits.resolve_right (by omega)) he
    rw [compare_gt_iff_gt.mpr he, compare_gt_iff_gt.mpr hlt]
    rfl

theorem compare_neg (a b : ℚ) : compare (-a) (-b) = (compare a b).swap := by
  obtain hlt | rfl | hlt := lt_trichotomy a b
  · rw [compare_lt_iff_lt.mpr hlt, compare_gt_iff_gt.mpr (neg_lt_neg hlt)]
    rfl
  · rw [compare_eq_iff_eq.mpr rfl, compare_eq_iff_eq.mpr rfl]
    rfl
  · rw [compare_gt_iff_gt.mpr hlt, compare_lt_iff_lt.mpr (neg_lt_neg hlt)]
    rfl

theorem compare_value {g : UnpackedFloat} (hf : Canonical f) (hg : Canonical g) :
    f.compare g = some (compare (value f) (value g)) := by
  have hzero (s : Sign) : value (.zero s) = 0 := rfl
  cases f, hf using Canonical.elim with
  | zero s =>
    cases g, hg using Canonical.elim with
    | zero s' => rfl
    | finite s' m' e' hpos' hg =>
      have h := scaled_pos hpos' e'
      cases s'
      · rw [hzero, value_negative, compare_gt_iff_gt.mpr (neg_lt_zero.mpr h)]
        rfl
      · rw [hzero, value_positive, compare_lt_iff_lt.mpr h]
        rfl
  | finite s m e hpos hf =>
    have h := scaled_pos hpos e
    cases g, hg using Canonical.elim with
    | zero s' =>
      cases s
      · rw [hzero, value_negative, compare_lt_iff_lt.mpr (neg_lt_zero.mpr h)]
        rfl
      · rw [hzero, value_positive, compare_gt_iff_gt.mpr h]
        rfl
    | finite s' m' e' hpos' hg =>
      have h' := scaled_pos hpos' e'
      have hmagnitude := compare_magnitude hf hg
      cases s <;> cases s'
      · rw [value_negative, value_negative, compare_neg, ← hmagnitude]
        rfl
      · rw [value_negative, value_positive, compare_lt_iff_lt.mpr ((neg_lt_zero.mpr h).trans h')]
        rfl
      · rw [value_positive, value_negative, compare_gt_iff_gt.mpr ((neg_lt_zero.mpr h').trans h)]
        rfl
      · rw [value_positive, value_positive, ← hmagnitude]
        rfl

/-- The conversion to an integer drops the digits behind the point. -/
theorem toInt_value (hf : Canonical f) (hnonneg : 0 ≤ value f) (lo hi : ℤ) :
    f.toInt lo hi = ⌊value f⌋ := by
  cases f, hf using Canonical.elim with
  | zero s => exact Int.floor_zero.symm
  | finite s m e hpos hf =>
    cases s with
    | negative =>
      rw [value_negative] at hnonneg
      linarith [scaled_pos hpos e]
    | positive =>
      obtain ⟨hvalue, hle, -⟩ := decreaseExponent_spec m e 0
      have htracks := (shiftToExponent_exact (decreaseExponent m e 0).1 hle).1
      rw [hvalue, zpow_zero, div_one] at htracks
      rw [value_positive, htracks.floor]
      rfl

theorem neg_spec (hx : x.isFinite = true) : (-x).isFinite = true ∧ val (-x) = -val x := by
  obtain ⟨hf, hr⟩ := unpack_canonical x.toModel.toBits.toBitVec hx
  obtain ⟨hneg, hrange, hvalue⟩ := neg_value hf
  have hstored := ofModel_pack hneg (hrange hr)
  rwa [hvalue] at hstored

theorem stored {q : ℚ} (h : Canonical f ∧ value f = q) (hq : |q| < 2^1024) :
    (Float.ofModel (.pack f)).isFinite = true ∧ val (.ofModel (.pack f)) = q := by
  obtain ⟨hf, rfl⟩ := h
  exact ofModel_pack hf (hf.ranged hq)

theorem sub_spec (hx : x.isFinite = true) (hy : y.isFinite = true)
    (hbound : |grid.round (val x - val y)| < 2^1024) :
    (x - y).isFinite = true ∧ val (x - y) = grid.round (val x - val y) :=
  stored (sub_value (canonical_unpack hx) (canonical_unpack hy)) hbound

theorem mul_spec (hx : x.isFinite = true) (hy : y.isFinite = true)
    (hbound : |grid.round (val x * val y)| < 2^1024) :
    (x * y).isFinite = true ∧ val (x * y) = grid.round (val x * val y) :=
  stored (mul_value (canonical_unpack hx) (canonical_unpack hy)) hbound

theorem ofInt_spec {n : ℤ} (hbound : |grid.round n| < 2^1024) :
    (Float.ofModel (.ofInt n)).isFinite = true ∧ val (.ofModel (.ofInt n)) = grid.round n := by
  have hspec := normalize_spec n 0 .positive
  rw [zpow_zero, mul_one] at hspec
  exact stored hspec hbound

theorem lt_iff (hx : x.isFinite = true) (hy : y.isFinite = true) : x < y ↔ val x < val y := by
  have hmodel : x < y ↔ (x.toModel.unpack.compare y.toModel.unpack == some .lt) = true :=
    decide_eq_true_iff
  rw [hmodel, compare_value (canonical_unpack hx) (canonical_unpack hy), beq_iff_eq,
    Option.some_inj, compare_lt_iff_lt]
  rfl

theorem le_iff (hx : x.isFinite = true) (hy : y.isFinite = true) : x ≤ y ↔ val x ≤ val y := by
  have hmodel : x ≤ y ↔ (x.toModel.unpack.compare y.toModel.unpack).any (·.isLE) = true :=
    decide_eq_true_iff
  rw [hmodel, compare_value (canonical_unpack hx) (canonical_unpack hy), Option.any_some,
    Ordering.isLE_iff_ne_gt]
  exact compare_le_iff_le

theorem beq_iff (hx : x.isFinite = true) (hy : y.isFinite = true) :
    (x == y) = true ↔ val x = val y := by
  change (x.toModel.unpack.compare y.toModel.unpack == some .eq) = true ↔ val x = val y
  rw [compare_value (canonical_unpack hx) (canonical_unpack hy), beq_iff_eq, Option.some_inj,
    compare_eq_iff_eq]
  rfl

theorem toInt64_spec (hx : x.isFinite = true) (hnonneg : 0 ≤ val x) (hlt : val x < 2^63) :
    x.toModel.toInt64.toInt = ⌊val x⌋ := by
  change (Int64.ofIntClamp (x.toModel.unpack.toInt Int64.minValue.toInt
    Int64.maxValue.toInt)).toInt = ⌊val x⌋
  rw [toInt_value (canonical_unpack hx) hnonneg]
  have hlow : 0 ≤ ⌊val x⌋ := Int.floor_nonneg.mpr hnonneg
  have hhigh : ⌊val x⌋ < 2^63 := by
    rw [Int.floor_lt]
    exact_mod_cast hlt
  have hmin : Int64.minValue.toInt ≤ 0 := by decide
  exact Int64.toInt_ofIntClamp (hmin.trans hlow) (Int.le_sub_one_of_lt hhigh)

theorem unpackSign_eq_zero_iff (bits : UInt64) :
    @unpackSign .binary64 bits.toBitVec = 0#1 ↔ bits >>> 63 = 0 := by
  have hlt : bits.toNat < 2^64 := bits.toNat_lt
  have hsign : (@unpackSign .binary64 bits.toBitVec).toNat = bits.toNat / 2^63 % 2 := by
    change (bits.toBitVec.extractLsb 63 63).toNat = _
    rw [BitVec.extractLsb_toNat, Nat.shiftRight_eq_div_pow]
    rfl
  have hshift : (bits >>> 63).toNat = bits.toNat / 2^63 := by
    rw [UInt64.toNat_shiftRight, Nat.shiftRight_eq_div_pow]
    rfl
  rw [← BitVec.toNat_inj, ← UInt64.toNat_inj, hsign, hshift]
  change bits.toNat / 2^63 % 2 = 0 ↔ bits.toNat / 2^63 = 0
  omega

theorem value_sign (b : BitVec 64) :
    (@unpackSign .binary64 b = 0#1 → 0 ≤ value (UnpackedFloat.unpack .binary64 b)) ∧
      (@unpackSign .binary64 b ≠ 0#1 → value (UnpackedFloat.unpack .binary64 b) ≤ 0) := by
  have hnegative (m : ℕ) (e : ℤ) (hpos : 0 < m) : value (.finite .negative m e hpos) ≤ 0 := by
    rw [value_negative]
    exact (neg_neg_of_pos (scaled_pos hpos e)).le
  have hpositive (m : ℕ) (e : ℤ) (hpos : 0 < m) : 0 ≤ value (.finite .positive m e hpos) := by
    rw [value_positive]
    exact (scaled_pos hpos e).le
  constructor
  · intro h
    have hsign : Sign.ofBitVec (@unpackSign .binary64 b) = .positive := if_pos h
    rw [UnpackedFloat.unpack]
    dsimp only
    rw [hsign]
    split_ifs <;> first | exact le_rfl | exact hpositive _ _ _
  · intro h
    have hsign : Sign.ofBitVec (@unpackSign .binary64 b) = .negative := if_neg h
    rw [UnpackedFloat.unpack]
    dsimp only
    rw [hsign]
    split_ifs <;> first | exact le_rfl | exact hnegative _ _ _

theorem sign_bit (x : Float) :
    (x.toBits >>> 63 = 0 → 0 ≤ val x) ∧ (x.toBits >>> 63 ≠ 0 → val x ≤ 0) := by
  obtain ⟨hpositive, hnegative⟩ := value_sign x.toModel.toBits.toBitVec
  rw [Ne, unpackSign_eq_zero_iff] at hnegative
  rw [unpackSign_eq_zero_iff] at hpositive
  exact ⟨hpositive, hnegative⟩

end BleFirmware.Binary64
