import Mathlib.Algebra.Order.Ring.Nat
import Mathlib.Tactic.Ring

/-!
# Numerals of a fixed width

An alphabet gives each digit of a base a symbol that can be read back. A numeral
is the list of the symbols of the lowest digits of a number, the most
significant first, and reading it gives the number as far as the width holds it.
-/

namespace BleFirmware

structure Alphabet (α : Type*) where
  base : ℕ
  symbol : ℕ → α
  digit : α → Option ℕ
  base_pos : 0 < base
  digit_symbol : ∀ d < base, digit (symbol d) = some d

namespace Alphabet

variable {α : Type*} (A : Alphabet α)

/-- The `w` lowest digits of `n`. -/
def numeral : ℕ → ℕ → List α
  | 0, _ => []
  | w+1, n => A.symbol (n / A.base^w % A.base) :: numeral w n

/-- The number read from a text when the digits before it gave `v`. -/
def readFrom (v : ℕ) : List α → Option ℕ
  | [] => some v
  | c :: cs => (A.digit c).bind fun d => readFrom (v * A.base + d) cs

def read (cs : List α) : Option ℕ := A.readFrom 0 cs

@[simp] theorem length_numeral (w n : ℕ) : (A.numeral w n).length = w := by
  induction w with
  | zero => rfl
  | succ w ih => simp [numeral, ih]

theorem mem_numeral {w n : ℕ} {c : α} (h : c ∈ A.numeral w n) : ∃ d < A.base, c = A.symbol d := by
  induction w with
  | zero => simp [numeral] at h
  | succ w ih =>
    obtain rfl | htail := List.mem_cons.mp h
    · exact ⟨_, Nat.mod_lt _ A.base_pos, rfl⟩
    · exact ih htail

theorem readFrom_numeral (v w n : ℕ) :
    A.readFrom v (A.numeral w n) = some (v * A.base^w + n % A.base^w) := by
  induction w generalizing v with
  | zero => simp [numeral, readFrom, Nat.mod_one]
  | succ w ih =>
    have hdigit := A.digit_symbol _ (Nat.mod_lt (n / A.base^w) A.base_pos)
    have hmod : n % A.base^(w+1) = n % A.base^w + A.base^w * (n / A.base^w % A.base) := by
      rw [pow_succ, Nat.mod_mul]
    simp only [numeral, readFrom, hdigit, Option.bind_some, ih, hmod, Option.some.injEq]
    ring

theorem read_numeral {w n : ℕ} (h : n < A.base^w) : A.read (A.numeral w n) = some n := by
  rw [read, readFrom_numeral, Nat.mod_eq_of_lt h, Nat.zero_mul, Nat.zero_add]

end Alphabet

end BleFirmware
