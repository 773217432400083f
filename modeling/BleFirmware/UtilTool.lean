import Mathlib.Data.Nat.Bitwise
import Mathlib.Order.Bounds.Basic

/-!
# Machine words and the macros of `util_tool.h`

Sizes, indices and addresses are natural numbers below `2^32`, the word of the
target; an operation wraps where the code can reach the end of the word.
-/

namespace BleFirmware

/-- A byte address; a pointer is an `Option Addr`, NULL being `none`. -/
abbrev Addr := ℕ

def sizeMax : ℕ := 4294967295

def sizeDec (n : ℕ) : ℕ := if n = 0 then sizeMax else n-1

def alignSize : ℕ := 8

def alignUp (x align : ℕ) : ℕ :=
  (x + align - 1) % (sizeMax+1) &&& (sizeMax ^^^ (align-1))

def power2GetMod (x y : ℕ) : ℕ := x &&& (y-1)

def power2Check (x : ℕ) : Bool := x &&& (x-1) == 0

theorem sizeMax_eq : sizeMax = 2^32 - 1 := rfl

theorem alignUp_two_pow (x : ℕ) {k : ℕ} (hk : k ≤ 32) :
    alignUp x (2^k) = (x + 2^k - 1) % 2^32 / 2^k * 2^k := by
  have hpos : 0 < 2^k := Nat.two_pow_pos k
  have hsplit : 2^32 = 2^(32-k) * 2^k := by rw [← pow_add, Nat.sub_add_cancel hk]
  have hones : sizeMax = 2^k * (2^(32-k) - 1) + (2^k - 1) := by
    have hexpand : 2^k * (2^(32-k) - 1) = 2^32 - 2^k := by
      rw [Nat.mul_sub, Nat.mul_one, Nat.mul_comm, ← hsplit]
    have hle : 2^k ≤ 2^32 := Nat.pow_le_pow_right (by decide) hk
    rw [hexpand, sizeMax_eq]
    omega
  have hlow : (sizeMax ^^^ (2^k - 1)) % 2^k = 0 := by
    rw [Nat.xor_mod_two_pow, hones, Nat.mul_add_mod, Nat.xor_self]
  have hhigh : (sizeMax ^^^ (2^k - 1)) / 2^k = 2^(32-k) - 1 := by
    have hlast : (2^k - 1) / 2^k = 0 := Nat.div_eq_of_lt (by omega)
    rw [Nat.xor_div_two_pow, hones, Nat.mul_add_div hpos, hlast, Nat.add_zero, Nat.xor_zero]
  have hword : (x + 2^k - 1) % 2^32 / 2^k < 2^(32-k) := by
    rw [Nat.div_lt_iff_lt_mul hpos, ← hsplit]
    exact Nat.mod_lt _ (by decide)
  have hmod : alignUp x (2^k) % 2^k = 0 := by
    rw [alignUp, Nat.and_mod_two_pow, hlow, Nat.and_zero]
  have hdiv : alignUp x (2^k) / 2^k = (x + 2^k - 1) % 2^32 / 2^k := by
    rw [alignUp, Nat.and_div_two_pow, hhigh, Nat.and_two_pow_sub_one_eq_mod]
    exact Nat.mod_eq_of_lt hword
  rw [← hdiv, Nat.div_mul_cancel (Nat.dvd_of_mod_eq_zero hmod)]

theorem isLeast_alignUp {x k : ℕ} (hk : k ≤ 32) (h : x + 2^k - 1 ≤ sizeMax) :
    IsLeast {n | x ≤ n ∧ 2^k ∣ n} (alignUp x (2^k)) := by
  have hpos : 0 < 2^k := Nat.two_pow_pos k
  have hword : (x + 2^k - 1) % 2^32 = x + 2^k - 1 := Nat.mod_eq_of_lt (by rw [sizeMax_eq] at h; omega)
  have hrem := Nat.mod_lt (x + 2^k - 1) hpos
  have hsum := Nat.div_add_mod' (x + 2^k - 1) (2^k)
  rw [alignUp_two_pow x hk, hword]
  refine ⟨⟨by omega, Nat.dvd_mul_left _ _⟩, ?_⟩
  rintro n ⟨hle, m, rfl⟩
  rw [Nat.mul_comm]
  refine Nat.mul_le_mul_left _ (Nat.le_of_lt_succ ?_)
  rw [Nat.div_lt_iff_lt_mul hpos, Nat.succ_mul, Nat.mul_comm m]
  omega

theorem sizeDec_succ (n : ℕ) : sizeDec (n+1) = n := rfl

theorem succ_mul_le (w : ℕ) {i j : ℕ} (hij : i < j) : i * w + w ≤ j * w := by
  have hle : (i+1) * w ≤ j * w := Nat.mul_le_mul_right w hij
  rwa [Nat.add_mul, Nat.one_mul] at hle

end BleFirmware
