import Mathlib.Algebra.Order.Field.Rat
import Mathlib.Algebra.Order.Floor.Ring
import Mathlib.Data.Int.Log
import Mathlib.Data.Rat.Floor
import Mathlib.Tactic.FieldSimp
import Mathlib.Tactic.Linarith
import Mathlib.Tactic.Ring

/-!
# Rounding to the nearest

A rational number is rounded to the nearest integer, a tie to the even one, or to the
nearest number of a grid: the multiples of powers of two, with a bound on the digits and
a least exponent. A number of the grid is kept, and no number crosses one.
-/

namespace BleFirmware.Rounding

variable {x y : ℚ} {n : ℤ}

def roundEven (x : ℚ) : ℤ :=
  if Int.fract x < 1/2 then ⌊x⌋
  else if 1/2 < Int.fract x then ⌊x⌋ + 1
  else if ⌊x⌋ % 2 = 0 then ⌊x⌋
  else ⌊x⌋ + 1

theorem abs_roundEven_sub_le (x : ℚ) : |roundEven x - x| ≤ 1/2 := by
  have hsplit : (⌊x⌋ : ℚ) + Int.fract x = x := Int.floor_add_fract x
  have hnonneg := Int.fract_nonneg x
  have hlt := Int.fract_lt_one x
  rw [abs_le]
  unfold roundEven
  split_ifs
  all_goals
    push_cast
    constructor <;> linarith

theorem roundEven_intCast (n : ℤ) : roundEven n = n := by
  rw [roundEven, Int.fract_intCast, if_pos (by norm_num), Int.floor_intCast]

theorem roundEven_le (h : x ≤ n) : roundEven x ≤ n := by
  have hclose := (abs_le.mp (abs_roundEven_sub_le x)).2
  have hlt : (roundEven x : ℚ) < n + 1 := by linarith
  exact Int.lt_add_one_iff.mp (by exact_mod_cast hlt)

theorem le_roundEven (h : n ≤ x) : n ≤ roundEven x := by
  have hclose := (abs_le.mp (abs_roundEven_sub_le x)).1
  have hlt : (n : ℚ) < roundEven x + 1 := by linarith
  exact Int.lt_add_one_iff.mp (by exact_mod_cast hlt)

theorem roundEven_add (h : n % 2 = 0) (x : ℚ) : roundEven (n + x) = n + roundEven x := by
  have hfloor : ⌊(n : ℚ) + x⌋ = n + ⌊x⌋ := Int.floor_intCast_add n x
  have hfract : Int.fract ((n : ℚ) + x) = Int.fract x := Int.fract_intCast_add n x
  have heven : (n + ⌊x⌋) % 2 = ⌊x⌋ % 2 := by omega
  unfold roundEven
  rw [hfloor, hfract, heven]
  split_ifs <;> omega

theorem roundEven_of_split {r : ℚ} (hsplit : x = n + r) (hnonneg : 0 ≤ r) (hlt : r < 1) :
    roundEven x =
      if r < 1/2 then n else if 1/2 < r then n+1 else if n % 2 = 0 then n else n+1 := by
  have hfloor : ⌊x⌋ = n := Int.floor_eq_iff.mpr ⟨by linarith, by linarith⟩
  have hfract : Int.fract x = r := by
    rw [Int.fract, hfloor]
    linarith
  rw [roundEven, hfloor, hfract]

theorem roundEven_neg (x : ℚ) : roundEven (-x) = -roundEven x := by
  have hsplit : (⌊x⌋ : ℚ) + Int.fract x = x := Int.floor_add_fract x
  have hlt := Int.fract_lt_one x
  obtain hzero | hpos := (Int.fract_nonneg x).eq_or_lt
  · have hint : x = ⌊x⌋ := by linarith
    rw [hint, ← Int.cast_neg, roundEven_intCast, roundEven_intCast]
  · have hneg : -x = ((-⌊x⌋ - 1 : ℤ) : ℚ) + (1 - Int.fract x) := by
      push_cast
      linarith
    rw [roundEven_of_split hneg (by linarith) (by linarith), roundEven]
    split_ifs <;> first | omega | (exfalso; linarith)

/-- Numbers with a bound on their binary digits, and on the exponent of the last one. -/
structure Grid where
  digits : ℕ
  minExp : ℤ
  digits_pos : 0 < digits

namespace Grid

variable (G : Grid)

def lastExp (x : ℚ) : ℤ := max (Int.log 2 |x| + 1 - G.digits) G.minExp

/-- The grid is finer near to zero. -/
def Has (x : ℚ) : Prop := ∃ m e : ℤ, |m| < 2^G.digits ∧ G.minExp ≤ e ∧ x = m * 2^e

def round (x : ℚ) : ℚ := roundEven (x / 2^G.lastExp x) * 2^G.lastExp x

variable {G}

theorem two_zpow_pos (e : ℤ) : (0 : ℚ) < 2^e := zpow_pos (by norm_num) e

theorem two_zpow_le {e k : ℤ} (h : e ≤ k) : (2 : ℚ)^e ≤ 2^k := zpow_le_zpow_right₀ (by norm_num) h

theorem two_zpow_split {e k : ℤ} (h : k ≤ e) : (2 : ℚ)^e = ((2^(e-k).toNat : ℤ) : ℚ) * 2^k := by
  have hexp : e = ((e-k).toNat : ℤ) + k := by omega
  conv_lhs => rw [hexp]
  rw [zpow_add₀ (by norm_num), zpow_natCast]
  push_cast
  rfl

theorem Has.lt_two_zpow {m e : ℤ} (h : |m| < 2^G.digits) : |(m : ℚ) * 2^e| < 2^(G.digits + e) := by
  have hcast : |(m : ℚ)| < 2^G.digits := by exact_mod_cast h
  rw [abs_mul, abs_of_pos (two_zpow_pos e), zpow_add₀ (by norm_num), zpow_natCast]
  exact mul_lt_mul_of_pos_right hcast (two_zpow_pos e)

/-- A number of the grid is a multiple of the last digits of all numbers below it. -/
theorem Has.multiple (h : G.Has y) (hx : x ≠ 0) (hxy : |x| ≤ |y|) :
    ∃ k : ℤ, y = k * 2^G.lastExp x := by
  obtain ⟨m, e, hm, he, rfl⟩ := h
  have hpos : 0 < |x| := abs_pos.mpr hx
  have hlog : Int.log 2 |x| < G.digits + e := by
    rw [← Int.lt_zpow_iff_log_lt (by decide) hpos]
    exact_mod_cast hxy.trans_lt (Has.lt_two_zpow hm)
  have hle : G.lastExp x ≤ e := max_le (by omega) he
  refine ⟨m * 2^(e - G.lastExp x).toNat, ?_⟩
  rw [two_zpow_split hle]
  push_cast
  ring

theorem round_zero : G.round 0 = 0 := by
  have hzero : roundEven (0 / 2^G.lastExp 0) = 0 := by
    rw [zero_div]
    exact_mod_cast roundEven_intCast 0
  rw [round, hzero, Int.cast_zero, zero_mul]

theorem round_mul (k e : ℤ) : ((roundEven (k * 2^e / 2^e) : ℤ) : ℚ) * 2^e = k * 2^e := by
  rw [mul_div_cancel_right₀ _ (two_zpow_pos e).ne', roundEven_intCast]

theorem round_of_has (h : G.Has x) : G.round x = x := by
  by_cases hx : x = 0
  · rw [hx, round_zero]
  · obtain ⟨k, hk⟩ := h.multiple hx le_rfl
    have hround := round_mul k (G.lastExp x)
    rwa [← hk] at hround

theorem round_neg (x : ℚ) : G.round (-x) = -G.round x := by
  have hexp : G.lastExp (-x) = G.lastExp x := by rw [lastExp, lastExp, abs_neg]
  rw [round, hexp, neg_div, roundEven_neg, Int.cast_neg, neg_mul, round]

/-- The rounding moves a number by half of the last digit at most. -/
theorem abs_round_sub_le (G : Grid) (x : ℚ) : |G.round x - x| ≤ 2^G.lastExp x / 2 := by
  have hpos := two_zpow_pos (G.lastExp x)
  have hclose := abs_roundEven_sub_le (x / 2^G.lastExp x)
  have hscaled : G.round x - x =
      (roundEven (x / 2^G.lastExp x) - x / 2^G.lastExp x) * 2^G.lastExp x := by
    rw [round, sub_mul, div_mul_cancel₀ _ hpos.ne']
  rw [hscaled, abs_mul, abs_of_pos hpos]
  linarith [mul_le_mul_of_nonneg_right hclose hpos.le]

theorem two_zpow_lastExp_le (G : Grid) (hx : x ≠ 0) :
    (2 : ℚ)^G.lastExp x ≤ max (|x| * 2^(1 - G.digits : ℤ)) (2^G.minExp) := by
  have hlog : (2 : ℚ)^Int.log 2 |x| ≤ |x| := by
    exact_mod_cast Int.zpow_log_le_self (by decide) (abs_pos.mpr hx)
  obtain h | h := le_total (Int.log 2 |x| + 1 - G.digits) G.minExp
  · rw [lastExp, max_eq_right h]
    exact le_max_right _ _
  · have hsplit : (2 : ℚ)^(Int.log 2 |x| + 1 - G.digits) =
        2^Int.log 2 |x| * 2^(1 - G.digits : ℤ) := by
      rw [← zpow_add₀ (by norm_num), add_sub_assoc]
    rw [lastExp, max_eq_left h, hsplit]
    exact le_max_of_le_left (mul_le_mul_of_nonneg_right hlog (two_zpow_pos _).le)

/-- No number crosses one of the grid on its way away from zero. -/
theorem round_le (h : G.Has y) (hx : 0 ≤ x) (hxy : x ≤ y) : G.round x ≤ y := by
  obtain rfl | hpos := hx.eq_or_lt
  · rwa [round_zero]
  · have habs : |x| ≤ |y| := by rwa [abs_of_pos hpos, abs_of_pos (hpos.trans_le hxy)]
    obtain ⟨k, hk⟩ := h.multiple hpos.ne' habs
    have hexp := two_zpow_pos (G.lastExp x)
    have hle : roundEven (x / 2^G.lastExp x) ≤ k := by
      refine roundEven_le ?_
      rwa [div_le_iff₀ hexp, ← hk]
    rw [hk, round]
    exact mul_le_mul_of_nonneg_right (by exact_mod_cast hle) hexp.le

theorem round_nonneg (G : Grid) (hx : 0 ≤ x) : 0 ≤ G.round x := by
  have hexp := two_zpow_pos (G.lastExp x)
  have hle : 0 ≤ roundEven (x / 2^G.lastExp x) :=
    le_roundEven (by rw [Int.cast_zero]; exact div_nonneg hx hexp.le)
  exact mul_nonneg (by exact_mod_cast hle) hexp.le

theorem has_intCast (hmin : G.minExp ≤ 0) (h : |n| < 2^G.digits) : G.Has n :=
  ⟨n, 0, h, hmin, by rw [zpow_zero, mul_one]⟩

theorem Has.floor_fract (h : G.Has x) (hmin : G.minExp ≤ 0) (hx : 0 ≤ x) :
    G.Has ⌊x⌋ ∧ G.Has (Int.fract x) := by
  have hnone : G.Has 0 := ⟨0, 0, by simp, hmin, by simp⟩
  obtain ⟨m, e, hm, he, heq⟩ := h
  obtain hneg | hpos := lt_or_ge e 0
  · -- the quotient and the remainder by a power of two
    obtain ⟨k, rfl⟩ : ∃ k : ℕ, e = -k := ⟨(-e).toNat, by omega⟩
    have hden : (0 : ℤ) < 2^k := by positivity
    have hdenQ : (0 : ℚ) < 2^k := by positivity
    have hm0 : 0 ≤ m := by
      have hprod : 0 ≤ (m : ℚ) * 2^(-k : ℤ) := heq ▸ hx
      exact_mod_cast nonneg_of_mul_nonneg_left hprod (two_zpow_pos _)
    have hlow := Int.emod_nonneg m hden.ne'
    have hhigh := Int.emod_lt_of_pos m hden
    have hsplit : (m : ℚ) = 2^k * (m / 2^k : ℤ) + (m % 2^k : ℤ) := by
      exact_mod_cast (Int.mul_ediv_add_emod m (2^k)).symm
    have hvalue : x = (m / 2^k : ℤ) + (m % 2^k : ℤ) * 2^(-k : ℤ) := by
      rw [heq, zpow_neg, zpow_natCast, hsplit]
      field_simp
    have hsmall : (m % 2^k : ℤ) * (2 : ℚ)^(-k : ℤ) < 1 := by
      rw [zpow_neg, zpow_natCast, ← div_eq_mul_inv, div_lt_one hdenQ]
      exact_mod_cast hhigh
    have hfloor : ⌊x⌋ = m / 2^k := by
      have hrest : 0 ≤ (m % 2^k : ℤ) * (2 : ℚ)^(-k : ℤ) :=
        mul_nonneg (by exact_mod_cast hlow) (two_zpow_pos _).le
      exact Int.floor_eq_iff.mpr ⟨by linarith, by linarith⟩
    have hfract : Int.fract x = (m % 2^k : ℤ) * 2^(-k : ℤ) := by
      rw [Int.fract, hfloor]
      linarith
    have hquotient : 0 ≤ m / 2^k := Int.ediv_nonneg hm0 hden.le
    have hle : m / 2^k ≤ m := Int.ediv_le_self _ hm0
    have hle' : m % 2^k ≤ m := by
      rw [Int.emod_def]
      linarith [mul_nonneg hden.le hquotient]
    rw [abs_of_nonneg hm0] at hm
    constructor
    · rw [hfloor]
      exact has_intCast hmin (by rw [abs_of_nonneg hquotient]; exact hle.trans_lt hm)
    · exact ⟨m % 2^k, -k, by rw [abs_of_nonneg hlow]; exact hle'.trans_lt hm, he, hfract⟩
  · have hint : x = (m * 2^e.toNat : ℤ) := by
      rw [heq, two_zpow_split hpos, zpow_zero, mul_one, sub_zero]
      push_cast
      rfl
    rw [hint, Int.floor_intCast, Int.fract_intCast, ← hint]
    exact ⟨⟨m, e, hm, he, heq⟩, hnone⟩

theorem Has.integer (h : G.Has x) (hx : 2^G.digits ≤ 2 * x) : x = ⌊x⌋ := by
  obtain ⟨m, e, hm, -, heq⟩ := h
  have hpos : 0 ≤ e := by
    by_contra hneg
    have hlt : |(m : ℚ) * 2^e| < 2^(G.digits + e) := Has.lt_two_zpow hm
    have hhalf : (2 : ℚ)^(G.digits + e) ≤ 2^G.digits / 2 := by
      have hle := two_zpow_le (e := G.digits + e) (k := G.digits - 1) (by omega)
      rwa [zpow_sub_one₀ (by norm_num), zpow_natCast, ← div_eq_mul_inv] at hle
    rw [← heq] at hlt
    linarith [le_abs_self x]
  have hint : x = (m * 2^e.toNat : ℤ) := by
    rw [heq, two_zpow_split hpos, zpow_zero, mul_one, sub_zero]
    push_cast
    rfl
  rw [hint, Int.floor_intCast]

theorem Has.roundEven (h : G.Has x) (hmin : G.minExp ≤ 0) (hx : 0 ≤ x) :
    G.Has (Rounding.roundEven x) := by
  obtain hlt | hge := lt_or_ge (2 * x) (2^G.digits)
  · have hnonneg : 0 ≤ Rounding.roundEven x := le_roundEven (by exact_mod_cast hx)
    obtain ⟨k, hk⟩ : ∃ k, G.digits = k+1 := ⟨G.digits - 1, by have := G.digits_pos; omega⟩
    have hle : Rounding.roundEven x ≤ 2^k := by
      refine roundEven_le ?_
      rw [hk, pow_succ] at hlt
      push_cast
      linarith
    refine has_intCast hmin ?_
    rw [abs_of_nonneg hnonneg, hk, pow_succ]
    have hpos : (0 : ℤ) < 2^k := by positivity
    linarith
  · have hint := h.integer hge
    rw [hint, roundEven_intCast, ← hint]
    exact h

end Grid

end BleFirmware.Rounding
