import BleFirmware.Base.Numeral
import Mathlib.Data.Nat.Digits.Lemmas

/-!
# Numerals without a fixed width

The digits of a number, the most significant first, read as the number, and zeros in
front of them change nothing.
-/

namespace BleFirmware.Alphabet

variable {α : Type*} (A : Alphabet α)

theorem readFrom_append (v : ℕ) (xs ys : List α) :
    A.readFrom v (xs ++ ys) = (A.readFrom v xs).bind fun w => A.readFrom w ys := by
  induction xs generalizing v with
  | nil => rfl
  | cons x xs ih =>
    rw [List.cons_append, readFrom, readFrom, Option.bind_assoc]
    exact congrArg _ (funext fun d => ih _)

theorem readFrom_symbol (v : ℕ) {d : ℕ} (h : d < A.base) :
    A.readFrom v [A.symbol d] = some (v * A.base + d) := by
  simp [readFrom, A.digit_symbol d h]

theorem readFrom_zeros (v k : ℕ) :
    A.readFrom v (List.replicate k (A.symbol 0)) = some (v * A.base^k) := by
  induction k generalizing v with
  | zero => simp [readFrom]
  | succ k ih =>
    rw [List.replicate_succ, ← List.singleton_append, readFrom_append, A.readFrom_symbol v A.base_pos,
      Option.bind_some, ih, Nat.add_zero, pow_succ', Nat.mul_assoc]

theorem readFrom_digits (hbase : 1 < A.base) (v n : ℕ) :
    A.readFrom v ((Nat.digits A.base n).map A.symbol).reverse =
      some (v * A.base^(Nat.digits A.base n).length + n) := by
  induction n using Nat.strong_induction_on with
  | _ n ih =>
    by_cases hzero : n = 0
    · simp [hzero, readFrom]
    · have hpos := Nat.pos_of_ne_zero hzero
      have hlt := Nat.mod_lt n A.base_pos
      rw [Nat.digits_def' hbase hpos, List.map_cons, List.reverse_cons, readFrom_append,
        ih _ (Nat.div_lt_self hpos hbase), Option.bind_some, A.readFrom_symbol _ hlt,
        List.length_cons, pow_succ, Nat.add_mul, Nat.add_assoc, Nat.div_add_mod', Nat.mul_assoc]

end BleFirmware.Alphabet
