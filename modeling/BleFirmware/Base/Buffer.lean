import Mathlib.Data.Nat.Init
import Mathlib.Order.Lattice

/-!
# Writing to an uninitialised buffer

A buffer records for each cell what was last written to it, `none` for a cell
not written yet. It has no end of its own, so that a write past the end of an
array shows in the cells that are written. A buffer is filled up to `n` when the
written cells are those below `n`.
-/

namespace BleFirmware

abbrev Buffer (α : Type*) := ℕ → Option α

namespace Buffer

variable {α : Type*}

def empty : Buffer α := fun _ => none

def fill (b : Buffer α) (p : ℕ) (xs : List α) : Buffer α :=
  fun i => if p ≤ i ∧ i < p + xs.length then xs[i-p]? else b i

def Written (b : Buffer α) (i : ℕ) : Prop := b i ≠ none

def FilledTo (b : Buffer α) (n : ℕ) : Prop := ∀ i, b.Written i ↔ i < n

/-- Only cells of an array of `size` cells are written, and the first `len` cells
are written ones of it. -/
def Within (size : ℕ) (b : Buffer α) (len : ℕ) : Prop :=
  (∀ i, b.Written i → i < size) ∧ len ≤ size ∧ ∀ i < len, b.Written i

variable {b : Buffer α} {p n len size : ℕ} {xs : List α}

theorem written_fill {i : ℕ} :
    (b.fill p xs).Written i ↔ (p ≤ i ∧ i < p + xs.length) ∨ b.Written i := by
  unfold Written fill
  by_cases h : p ≤ i ∧ i < p + xs.length
  · have hlt : i - p < xs.length := by omega
    simp [h, hlt]
  · simp [h]

theorem Written.fill {i : ℕ} (h : b.Written i) (p : ℕ) (xs : List α) :
    (b.fill p xs).Written i :=
  written_fill.mpr (Or.inr h)

theorem filledTo_empty : FilledTo (empty : Buffer α) 0 := by
  intro i
  simp [Written, empty]

theorem FilledTo.fill (h : b.FilledTo n) (hp : p ≤ n) (xs : List α) :
    (b.fill p xs).FilledTo (max n (p + xs.length)) := by
  intro i
  rw [written_fill, h i]
  omega

theorem FilledTo.append (h : b.FilledTo n) (xs : List α) :
    (b.fill n xs).FilledTo (n + xs.length) := by
  have hmax : max n (n + xs.length) = n + xs.length := by omega
  rw [← hmax]
  exact h.fill le_rfl xs

theorem FilledTo.within_iff (h : b.FilledTo n) : b.Within size len ↔ n ≤ size ∧ len ≤ n := by
  constructor
  · intro hw
    obtain ⟨hin, -, hlen⟩ := hw
    constructor
    · by_contra hn
      have := hin (n-1) ((h _).mpr (by omega))
      omega
    · by_contra hn
      have := (h (len-1)).mp (hlen _ (by omega))
      omega
  · intro hn
    refine ⟨fun i hi => ?_, hn.2.trans hn.1, fun i hi => (h i).mpr (hi.trans_le hn.2)⟩
    exact ((h i).mp hi).trans_le hn.1

theorem not_within_of_written {i : ℕ} (hi : b.Written i) (hs : size ≤ i) :
    ¬ b.Within size len := by
  intro hw
  have := hw.1 i hi
  omega

theorem not_within_of_not_written {i : ℕ} (hi : ¬ b.Written i) (hl : i < len) :
    ¬ b.Within size len := fun hw => hi (hw.2.2 i hl)

theorem within_append_iff (hs : len + xs.length ≤ size) :
    (b.fill len xs).Within size (len + xs.length) ↔ b.Within size len := by
  constructor
  · intro hw
    obtain ⟨hin, -, hlen⟩ := hw
    refine ⟨fun i hi => hin i (hi.fill len xs), by omega, fun i hi => ?_⟩
    obtain hnew | hold := written_fill.mp (hlen i (by omega))
    · omega
    · exact hold
  · intro hw
    obtain ⟨hin, -, hlen⟩ := hw
    refine ⟨fun i hi => ?_, hs, fun i hi => written_fill.mpr ?_⟩
    · obtain hnew | hold := written_fill.mp hi
      · omega
      · exact hin i hold
    · by_cases hlt : i < len
      · exact Or.inr (hlen i hlt)
      · exact Or.inl (by omega)

def cells (b : Buffer α) (p n : ℕ) : List (Option α) := (List.range n).map fun i => b (p+i)

variable {ys zs : List α}

theorem fill_of_lt {i : ℕ} (h : i < p) : b.fill p xs i = b i :=
  if_neg (by omega)

theorem fill_of_le {i : ℕ} (h : p + xs.length ≤ i) : b.fill p xs i = b i :=
  if_neg (by omega)

theorem fill_inside {i : ℕ} (h : i < xs.length) : b.fill p xs (p+i) = xs[i]? := by
  have hin : p ≤ p+i ∧ p+i < p + xs.length := by omega
  rw [fill, if_pos hin, Nat.add_sub_cancel_left]

theorem fill_nil : b.fill p [] = b := by
  funext i
  exact if_neg (by simp)

theorem fill_append (xs ys : List α) : (b.fill p xs).fill (p + xs.length) ys = b.fill p (xs ++ ys) := by
  funext i
  by_cases hx : i < p + xs.length
  · rw [fill_of_lt hx]
    by_cases hp : i < p
    · rw [fill_of_lt hp, fill_of_lt hp]
    · obtain ⟨j, rfl⟩ := Nat.exists_eq_add_of_le (Nat.le_of_not_lt hp)
      have hj : j < xs.length := by omega
      rw [fill_inside hj, fill_inside (by simp only [List.length_append]; omega),
        List.getElem?_append_left hj]
  · obtain ⟨j, rfl⟩ := Nat.exists_eq_add_of_le (Nat.le_of_not_lt hx)
    by_cases hj : j < ys.length
    · rw [fill_inside hj, Nat.add_assoc,
        fill_inside (by simp only [List.length_append]; omega), List.getElem?_append_right (by omega),
        Nat.add_sub_cancel_left]
    · rw [fill_of_le (by omega), fill_of_le (by omega),
        fill_of_le (by simp only [List.length_append]; omega)]

theorem fill_fill (h : xs.length ≤ ys.length) : (b.fill p xs).fill p ys = b.fill p ys := by
  funext i
  by_cases hin : p ≤ i ∧ i < p + ys.length
  · simp only [fill, if_pos hin]
  · have hout : ¬ (p ≤ i ∧ i < p + xs.length) := by omega
    simp only [fill, if_neg hin, if_neg hout]

theorem fill_comm {q : ℕ} (h : p + xs.length ≤ q) :
    (b.fill p xs).fill q ys = (b.fill q ys).fill p xs := by
  funext i
  by_cases hx : p ≤ i ∧ i < p + xs.length
  · have hy : ¬ (q ≤ i ∧ i < q + ys.length) := by omega
    simp only [fill, if_pos hx, if_neg hy]
  · simp only [fill, if_neg hx]

theorem fill_patch (xs : List α) (h : ys.length = zs.length) (ws : List α) :
    (b.fill p (xs ++ ys ++ ws)).fill (p + xs.length) zs = b.fill p (xs ++ zs ++ ws) := by
  have hend : p + xs.length + ys.length = p + (xs ++ ys).length := by
    rw [List.length_append, Nat.add_assoc]
  have hend' : p + xs.length + ys.length = p + (xs ++ zs).length := by
    rw [hend, List.length_append, List.length_append, h]
  rw [← fill_append, ← fill_append (xs ++ zs), ← hend, ← hend',
    ← fill_comm (by omega), ← fill_append, fill_fill h.le, fill_append]

theorem cells_fill : (b.fill p xs).cells p xs.length = xs.map some := by
  refine List.ext_getElem? (fun i => ?_)
  by_cases h : i < xs.length
  · simp [cells, h, fill_inside h]
  · simp [cells, h]

theorem cells_fill_take {k : ℕ} (h : k ≤ xs.length) (b : Buffer α) (p : ℕ) :
    (b.fill p xs).cells p k = (xs.take k).map some := by
  refine List.ext_getElem? (fun i => ?_)
  by_cases hi : i < k
  · have hlt : i < xs.length := hi.trans_le h
    simp [cells, hi, fill_inside hlt, hlt]
  · have hnone : (xs.take k)[i]? = none := List.getElem?_eq_none (by
      rw [List.length_take]
      omega)
    rw [List.getElem?_map, hnone]
    simp [cells, hi]

theorem written_of_cells {i : ℕ} (h : b.cells p n = xs.map some) (hi : i < n) :
    b.Written (p+i) := by
  have hmem : b (p+i) ∈ b.cells p n := List.mem_map.mpr ⟨i, List.mem_range.mpr hi, rfl⟩
  rw [h] at hmem
  obtain ⟨x, -, hx⟩ := List.mem_map.mp hmem
  rw [Written, ← hx]
  exact Option.some_ne_none x

theorem empty_fill_add (i : ℕ) : (empty : Buffer α).fill p xs (p+i) = xs[i]? := by
  by_cases h : i < xs.length
  · exact fill_inside h
  · rw [fill_of_le (by omega), List.getElem?_eq_none (by omega)]
    rfl

theorem empty_fill_inj (h : (empty : Buffer α).fill p xs = (empty : Buffer α).fill p ys) :
    xs = ys := by
  refine List.ext_getElem? (fun i => ?_)
  rw [← empty_fill_add (p := p), h, empty_fill_add]

end Buffer

end BleFirmware
