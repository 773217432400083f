import Mathlib.Data.List.Nodup
import Mathlib.Logic.Function.Basic

/-!
# Pointer segments

`Seg step p xs q` says that following `step` from the pointer `p` visits the
cells `xs` in order and then stands at the pointer `q`. A null-terminated list
is a segment that ends at `none`. One direction of a doubly linked list is a
segment along `next`, the other the reversed segment along `prev`.
-/

namespace BleFirmware.Segment

variable {α : Type*} {step step' : α → Option α}

def Seg (step : α → Option α) : Option α → List α → Option α → Prop
  | p, [], q => p = q
  | p, x :: xs, q => p = some x ∧ Seg step (step x) xs q

def walk (step : α → Option α) : ℕ → Option α → List α
  | 0, _ => []
  | _+1, none => []
  | n+1, some x => x :: walk step n (step x)

@[simp] theorem seg_nil {p q : Option α} : Seg step p [] q ↔ p = q := Iff.rfl

@[simp] theorem seg_cons {p q : Option α} {x : α} {xs : List α} :
    Seg step p (x :: xs) q ↔ p = some x ∧ Seg step (step x) xs q := Iff.rfl

theorem seg_append {p q : Option α} {xs ys : List α} :
    Seg step p (xs ++ ys) q ↔ ∃ r, Seg step p xs r ∧ Seg step r ys q := by
  induction xs generalizing p with
  | nil => simp
  | cons x xs ih => simp [ih, and_assoc]

theorem seg_concat {p q : Option α} {xs : List α} {x : α} :
    Seg step p (xs ++ [x]) q ↔ Seg step p xs (some x) ∧ step x = q := by
  rw [seg_append]
  constructor
  · rintro ⟨r, hr, hx⟩
    obtain ⟨rfl, hq⟩ := hx
    exact ⟨hr, hq⟩
  · rintro ⟨hr, hq⟩
    exact ⟨some x, hr, rfl, hq⟩

theorem Seg.congr {p q : Option α} {xs : List α} (h : Seg step p xs q)
    (hs : ∀ x ∈ xs, step' x = step x) : Seg step' p xs q := by
  induction xs generalizing p with
  | nil => exact h
  | cons x xs ih =>
    obtain ⟨rfl, ht⟩ := h
    refine ⟨rfl, ?_⟩
    rw [hs x (by simp)]
    exact ih ht (fun y hy => hs y (by simp [hy]))

theorem Seg.update [DecidableEq α] {p q : Option α} {xs : List α} {y : α} {r : Option α}
    (h : Seg step p xs q) (hy : y ∉ xs) : Seg (Function.update step y r) p xs q := by
  refine h.congr (fun x hx => ?_)
  have hne : x ≠ y := fun he => hy (he ▸ hx)
  simp [hne]

theorem Seg.start_eq {p : Option α} {xs : List α} (h : Seg step p xs none) : p = xs.head? := by
  cases xs with
  | nil => exact h
  | cons x xs => exact h.1

theorem Seg.walk_of_le {p : Option α} {xs : List α} (h : Seg step p xs none) {n : ℕ}
    (hn : xs.length ≤ n) : walk step n p = xs := by
  induction xs generalizing p n with
  | nil =>
    obtain rfl : p = none := h
    cases n <;> rfl
  | cons x xs ih =>
    obtain ⟨rfl, ht⟩ := h
    cases n with
    | zero => simp at hn
    | succ n =>
      rw [walk, ih ht (by simpa using hn)]

theorem Seg.walk_eq {p : Option α} {xs : List α} (h : Seg step p xs none) :
    walk step xs.length p = xs := h.walk_of_le (Nat.le_refl _)

theorem Seg.last_step {p : Option α} {xs : List α} (h : Seg step p xs none) {x : α}
    (hx : xs.getLast? = some x) : step x = none := by
  obtain ⟨ys, rfl⟩ := List.getLast?_eq_some_iff.mp hx
  exact (seg_concat.mp h).2

theorem Seg.unique {p : Option α} {xs ys : List α} (hx : Seg step p xs none)
    (hy : Seg step p ys none) : xs = ys := by
  induction xs generalizing p ys with
  | nil =>
    obtain rfl : p = none := hx
    cases ys with
    | nil => rfl
    | cons y ys => simp at hy
  | cons x xs ih =>
    obtain ⟨rfl, hx⟩ := hx
    cases ys with
    | nil => simp at hy
    | cons y ys =>
      obtain ⟨he, hy⟩ := hy
      obtain rfl : x = y := Option.some.inj he
      rw [ih hx hy]

theorem Seg.nodup {p : Option α} {xs : List α} (h : Seg step p xs none) : xs.Nodup := by
  induction xs generalizing p with
  | nil => exact List.nodup_nil
  | cons x xs ih =>
    have ht : Seg step (step x) xs none := h.2
    refine List.nodup_cons.mpr ⟨fun hmem => ?_, ih ht⟩
    -- A second visit of x would start a walk that is as long as its own tail.
    obtain ⟨as, bs, rfl⟩ := List.append_of_mem hmem
    obtain ⟨r, _, hr⟩ := seg_append.mp ht
    have he := hr.2.unique ht
    have hl := congrArg List.length he
    simp only [List.length_append, List.length_cons] at hl
    omega

end BleFirmware.Segment
