import Mathlib.Data.List.Sort
import Mathlib.Tactic.Common

/-!
# `qsort` and `bsearch` of the C library

The C standard fixes what the two functions do, not how: `qsort` leaves some
ordering of equal elements, `bsearch` returns some matching element, and both
are only promised anything when the comparator is an order and the searched
array is split around the key. A `Stdlib` is an implementation that keeps
these promises. The pivot of `bsearch` is given by its answers on the array,
`probe e` for `compar(key, e)`.
-/

namespace BleFirmware.CSort

variable {α β : Type}

/-- What `qsort` asks of a comparator: the signs of a total preorder. -/
structure IsPreorder (cmp : α → α → ℤ) : Prop where
  swap : ∀ a b, cmp a b < 0 ↔ 0 < cmp b a
  trans : ∀ a b c, cmp a b ≤ 0 → cmp b c ≤ 0 → cmp a c ≤ 0

/-- What `bsearch` asks of the array: the elements below the key, then those
equal to it, then those above it. -/
def Partitioned (probe : α → ℤ) (xs : List α) : Prop :=
  ∃ as bs cs, xs = as ++ bs ++ cs ∧
    (∀ a ∈ as, 0 < probe a) ∧ (∀ b ∈ bs, probe b = 0) ∧ (∀ c ∈ cs, probe c < 0)

structure Stdlib where
  qsort : {α : Type} → (α → α → ℤ) → List α → List α
  bsearch : {α : Type} → (α → ℤ) → List α → Option ℕ
  qsort_perm : ∀ {α : Type} {cmp : α → α → ℤ} (xs : List α), IsPreorder cmp →
    (qsort cmp xs).Perm xs
  qsort_sorted : ∀ {α : Type} {cmp : α → α → ℤ} (xs : List α), IsPreorder cmp →
    (qsort cmp xs).Pairwise (fun a b => cmp a b ≤ 0)
  bsearch_some : ∀ {α : Type} {probe : α → ℤ} {xs : List α} {i : ℕ}, Partitioned probe xs →
    bsearch probe xs = some i → ∃ x, xs[i]? = some x ∧ probe x = 0
  bsearch_none : ∀ {α : Type} {probe : α → ℤ} {xs : List α}, Partitioned probe xs →
    bsearch probe xs = none → ∀ x ∈ xs, probe x ≠ 0

namespace IsPreorder

variable {cmp : α → α → ℤ}

theorem total (h : IsPreorder cmp) (a b : α) : cmp a b ≤ 0 ∨ cmp b a ≤ 0 := by
  have hs := h.swap b a
  omega

theorem comap (h : IsPreorder cmp) (f : β → α) : IsPreorder (fun a b => cmp (f a) (f b)) :=
  ⟨fun a b => h.swap (f a) (f b), fun a b c => h.trans (f a) (f b) (f c)⟩

theorem probe_mono (h : IsPreorder cmp) {a b : α} (hab : cmp a b ≤ 0) (k : α) :
    (cmp k a ≤ 0 → cmp k b ≤ 0) ∧ (cmp k a < 0 → cmp k b < 0) := by
  refine ⟨fun hk => h.trans k a b hk hab, fun hk => ?_⟩
  by_contra hn
  have hbk : cmp b k ≤ 0 := by
    have hs := h.swap k b
    have hs' := h.swap b k
    omega
  have hak := h.trans a b k hab hbk
  have hs := h.swap k a
  omega

theorem partitioned (h : IsPreorder cmp) {xs : List α} (hs : xs.Pairwise (fun a b => cmp a b ≤ 0))
    (k : α) : Partitioned (cmp k) xs := by
  induction xs with
  | nil => exact ⟨[], [], [], by simp⟩
  | cons x xs ih =>
    obtain ⟨hx, hs⟩ := List.pairwise_cons.mp hs
    obtain ⟨as, bs, cs, rfl, ha, hb, hc⟩ := ih hs
    -- Where the first element stands decides which of the three parts it opens.
    rcases lt_trichotomy (cmp k x) 0 with hk | hk | hk
    · refine ⟨[], [], x :: (as ++ bs ++ cs), by simp, by simp, by simp, fun y hy => ?_⟩
      rcases List.mem_cons.mp hy with rfl | hy
      · exact hk
      · exact (h.probe_mono (hx y hy) k).2 hk
    · have has : as = [] := by
        refine List.eq_nil_iff_forall_not_mem.mpr (fun y hy => ?_)
        have hle := (h.probe_mono (hx y (by simp [hy])) k).1 hk.le
        have hpos := ha y hy
        omega
      subst has
      refine ⟨[], x :: bs, cs, by simp, by simp, fun y hy => ?_, hc⟩
      rcases List.mem_cons.mp hy with rfl | hy
      · exact hk
      · exact hb y hy
    · refine ⟨x :: as, bs, cs, by simp, fun y hy => ?_, hb, hc⟩
      rcases List.mem_cons.mp hy with rfl | hy
      · exact hk
      · exact ha y hy

end IsPreorder

theorem eq_filter_append {b : α → Bool} {xs : List α}
    (h : xs.Pairwise fun x y => b y = true → b x = true) :
    xs = xs.filter b ++ xs.filter fun x => !b x := by
  induction xs with
  | nil => rfl
  | cons x xs ih =>
    obtain ⟨hx, hxs⟩ := List.pairwise_cons.mp h
    cases hb : b x with
    | true =>
      rw [List.filter_cons_of_pos hb, List.filter_cons_of_neg (by simp [hb]), List.cons_append]
      exact congrArg (x :: ·) (ih hxs)
    | false =>
      -- whatever follows is not marked either
      have hnone : ∀ y ∈ x :: xs, b y = false := by
        intro y hy
        rcases List.mem_cons.mp hy with rfl | hy
        · exact hb
        · by_contra hn
          have := hx y hy (by simpa using hn)
          simp [hb] at this
      have hmarked : (x :: xs).filter b = [] := by
        rw [List.filter_eq_nil_iff]
        intro y hy
        simp [hnone y hy]
      have hrest : (x :: xs).filter (fun y => !b y) = x :: xs := by
        rw [List.filter_eq_self]
        intro y hy
        simp [hnone y hy]
      rw [hmarked, hrest, List.nil_append]

namespace Stdlib

variable (lib : Stdlib) {cmp : α → α → ℤ}

theorem length_qsort (h : IsPreorder cmp) (xs : List α) : (lib.qsort cmp xs).length = xs.length :=
  (lib.qsort_perm xs h).length_eq

theorem bsearch_isSome {probe : α → ℤ} {xs : List α} (h : Partitioned probe xs) :
    (lib.bsearch probe xs).isSome ↔ ∃ x ∈ xs, probe x = 0 := by
  cases hb : lib.bsearch probe xs with
  | none =>
    simp only [Option.isSome_none, Bool.false_eq_true, false_iff, not_exists, not_and]
    exact fun x hx => lib.bsearch_none h hb x hx
  | some i =>
    obtain ⟨x, hx, hp⟩ := lib.bsearch_some h hb
    simp only [Option.isSome_some, true_iff]
    exact ⟨x, List.mem_of_getElem? hx, hp⟩

/-- Insertion sort and a scan from the left keep both promises. -/
def reference : Stdlib where
  qsort cmp xs := xs.insertionSort (fun a b => cmp a b ≤ 0)
  bsearch probe xs := xs.findIdx? (fun e => probe e == 0)
  qsort_perm xs _ := List.perm_insertionSort _ xs
  qsort_sorted {α cmp} xs h := by
    have : Std.Total (fun a b : α => cmp a b ≤ 0) := ⟨h.total⟩
    have : IsTrans α (fun a b => cmp a b ≤ 0) := ⟨h.trans⟩
    exact List.pairwise_insertionSort _ xs
  bsearch_some {α probe xs i} _ hr := by
    obtain ⟨hi, hp, _⟩ := List.findIdx?_eq_some_iff_getElem.mp hr
    exact ⟨xs[i], by simp [hi], by simpa using hp⟩
  bsearch_none _ hr x hx := by
    have hp := List.findIdx?_eq_none_iff.mp hr x hx
    simpa using hp

/-- The standard lets equal elements be sorted either way, and any match be found. -/
def mirrored : Stdlib where
  qsort cmp xs := reference.qsort cmp xs.reverse
  bsearch := reference.bsearch
  qsort_perm xs h := (reference.qsort_perm xs.reverse h).trans (List.reverse_perm xs)
  qsort_sorted xs h := reference.qsort_sorted xs.reverse h
  bsearch_some := reference.bsearch_some
  bsearch_none := reference.bsearch_none

theorem exists_qsort_before (h : IsPreorder cmp) {xs : List α} {a b : α} (ha : a ∈ xs)
    (hb : b ∈ xs) (hne : a ≠ b) (hab : cmp a b ≤ 0) :
    ∃ lib : Stdlib, [a, b].Sublist (lib.qsort cmp xs) := by
  have htotal : Std.Total (fun a b : α => cmp a b ≤ 0) := ⟨h.total⟩
  have htrans : IsTrans α (fun a b => cmp a b ≤ 0) := ⟨h.trans⟩
  have hpair : [a, b].Sublist xs ∨ [b, a].Sublist xs := by
    obtain ⟨as, bs, rfl⟩ := List.append_of_mem ha
    rcases List.mem_append.mp hb with hb | hb
    · exact Or.inr ((List.singleton_sublist.mpr hb).append
        (List.singleton_sublist.mpr List.mem_cons_self))
    · have hbs := (List.mem_cons.mp hb).resolve_left hne.symm
      exact Or.inl (((List.singleton_sublist.mpr hbs).cons_cons a).trans
        (List.sublist_append_right as _))
  rcases hpair with hpair | hpair
  · exact ⟨reference, List.pair_sublist_insertionSort hab hpair⟩
  · exact ⟨mirrored, List.pair_sublist_insertionSort hab (by simpa using hpair.reverse)⟩

theorem mem_drop_of_sublist {k : ℕ} {xs : List α} {a c : α} (h : [a, c].Sublist xs)
    (ha : a ∉ xs.take k) : c ∈ xs.drop k := by
  rw [← List.take_append_drop k xs, List.sublist_append_iff] at h
  obtain ⟨as, cs, he, has, hcs⟩ := h
  cases as with
  | nil =>
    rw [List.nil_append] at he
    rw [← he] at hcs
    exact hcs.subset (by simp)
  | cons d as =>
    obtain rfl : a = d := (List.cons.inj he).1
    exact absurd (has.subset List.mem_cons_self) ha

section Front

variable {cmp : α → α → ℤ} {b : α → Bool} {xs : List α} {k : ℕ}

theorem marked_first (lib : Stdlib) (h : IsPreorder cmp)
    (hbelow : ∀ x ∈ xs, ∀ y ∈ xs, b x = true → b y = false → cmp x y < 0) :
    (lib.qsort cmp xs).Pairwise fun x y => b y = true → b x = true := by
  have hperm := lib.qsort_perm xs h
  refine List.Pairwise.imp_of_mem ?_ (lib.qsort_sorted xs h)
  intro x y hx hy hxy hby
  by_contra hbx
  have hlt := hbelow y (hperm.mem_iff.mp hy) x (hperm.mem_iff.mp hx) hby (by simpa using hbx)
  have hs := h.swap y x
  omega

theorem below_of_front (h : IsPreorder cmp)
    (hall : ∀ lib : Stdlib, (∀ x ∈ (lib.qsort cmp xs).take k, b x = true) ∧
      ∀ x ∈ (lib.qsort cmp xs).drop k, b x = false) :
    ∀ x ∈ xs, ∀ y ∈ xs, b x = true → b y = false → cmp x y < 0 := by
  intro x hx y hy hbx hby
  by_contra hn
  have hyx : cmp y x ≤ 0 := by
    have hs := h.swap x y
    omega
  have hne : y ≠ x := fun he => by simp [he, hbx] at hby
  -- some library puts `y` before `x`
  obtain ⟨lib, hsub⟩ := exists_qsort_before h hy hx hne hyx
  obtain ⟨htake, hdrop⟩ := hall lib
  have hnot : y ∉ (lib.qsort cmp xs).take k := by
    intro hm
    rw [htake y hm] at hby
    exact Bool.false_ne_true hby.symm
  rw [hdrop x (mem_drop_of_sublist hsub hnot)] at hbx
  exact Bool.false_ne_true hbx

theorem countP_of_front (lib : Stdlib) (h : IsPreorder cmp) (hk : k ≤ xs.length)
    (htake : ∀ x ∈ (lib.qsort cmp xs).take k, b x = true)
    (hdrop : ∀ x ∈ (lib.qsort cmp xs).drop k, b x = false) : xs.countP b = k := by
  have hfront := List.countP_eq_length.mpr htake
  have hrest : ((lib.qsort cmp xs).drop k).countP b = 0 :=
    List.countP_eq_zero.mpr fun x hx => by simp [hdrop x hx]
  rw [List.length_take, lib.length_qsort h, Nat.min_eq_left hk] at hfront
  rw [← (lib.qsort_perm xs h).countP_eq, ← List.take_append_drop k (lib.qsort cmp xs),
    List.countP_append, hfront, hrest, Nat.add_zero]

/-- Whatever the library, the first `k` elements after sorting are the marked ones, if
there are `k` of these and each is strictly below all others; and only then. -/
theorem qsort_front_iff (h : IsPreorder cmp) (b : α → Bool) (hk : k ≤ xs.length) :
    (∀ lib : Stdlib, (∀ x ∈ (lib.qsort cmp xs).take k, b x = true) ∧
      ∀ x ∈ (lib.qsort cmp xs).drop k, b x = false) ↔
    xs.countP b = k ∧ ∀ x ∈ xs, ∀ y ∈ xs, b x = true → b y = false → cmp x y < 0 := by
  constructor
  · intro hall
    obtain ⟨htake, hdrop⟩ := hall reference
    exact ⟨countP_of_front reference h hk htake hdrop, below_of_front h hall⟩
  · rintro ⟨hcount, hbelow⟩ lib
    have hlen : ((lib.qsort cmp xs).filter b).length = k := by
      rw [← List.countP_eq_length_filter, (lib.qsort_perm xs h).countP_eq, hcount]
    rw [eq_filter_append (lib.marked_first h hbelow), List.take_left' hlen, List.drop_left' hlen]
    constructor
    · intro x hx
      exact (List.mem_filter.mp hx).2
    · intro x hx
      simpa using (List.mem_filter.mp hx).2

end Front

end Stdlib

end BleFirmware.CSort
