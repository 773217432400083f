import BleFirmware.KvListSearch
import BleFirmware.MsgBus

/-!
# What initialising a kv list forgets

`kv_list_clear` resets all that the operations look at: `count`, `_sorted` and
the `valid` flags. `kv_list_init` leaves the flags as they are, so it does the
same only where no node is marked valid, as in static storage.
-/

namespace BleFirmware.KvListInit
open Bytes CSort

def AddsAll (l : KvList) : List (ℕ × Memory) → Prop
  | [] => True
  | x :: xs => (kvListAdd l x.1 x.2).2.isSome ∧ AddsAll (kvListAdd l x.1 x.2).1 xs

structure Emptied (lib : Stdlib) (l : KvList) : Prop where
  count_eq : l.count = 0
  walk_eq : kvListWalk l = []
  search_eq : ∀ key, kvListSearch lib l key = none
  search_sorted : ∀ key, kvListSearch lib (kvListSort lib l) key = none
  room : ∀ xs : List (ℕ × Memory), xs.length = l.depth → (xs.map Prod.fst).Nodup → AddsAll l xs

variable {lib : Stdlib} {l : KvList}

theorem addsAll_counted (hcount : l.count = l.nodeArray.countP (·.valid))
    {xs : List (ℕ × Memory)} (hlen : l.count + xs.length ≤ l.depth) : AddsAll l xs := by
  induction xs generalizing l with
  | nil => trivial
  | cons x xs ih =>
    rw [List.length_cons] at hlen
    obtain ⟨i, hi, hv, hadd⟩ := kvListAdd_counted hcount (by omega) x.1 x.2
    rw [AddsAll, hadd]
    refine ⟨rfl, ih (addAt_counted hi hcount hv x.1 x.2) ?_⟩
    have hdepth : (l.addAt i x.1 x.2).depth = l.depth := by simp [KvList.addAt, KvList.depth]
    rw [hdepth]
    change l.count + 1 + xs.length ≤ l.depth
    omega

theorem generalSearchFrom_zero (key : ℕ) (ns : List KvNode) (i : ℕ) :
    generalSearchFrom 0 key ns i 0 = none := by
  cases ns with
  | nil => rfl
  | cons n ns => simp [generalSearchFrom]

theorem binarySearch_sort_free (lib : Stdlib) (h : ∀ n ∈ l.nodeArray, n.valid = false) (key : ℕ) :
    binarySearch lib (kvListSort lib l) key = none := by
  have hordered := lib.qsort_sorted l.nodeArray compareNodeKey_isPreorder
  have hpart := compareNodeKey_isPreorder.partitioned hordered ⟨true, key, 0⟩
  rw [← Option.not_isSome_iff_eq_none, binarySearch, kvListSort, lib.bsearch_isSome hpart]
  rintro ⟨n, hn, hcmp⟩
  have hv := h n ((kvListSort_perm lib l).mem_iff.mp hn)
  rw [(compareNodeKey_target.mp hcmp).1] at hv
  cases hv

theorem emptied_free (lib : Stdlib) (hfree : ∀ n ∈ l.nodeArray, n.valid = false)
    (hcount : l.count = 0) (hsorted : l.sorted = false) : Emptied lib l where
  count_eq := hcount
  walk_eq := by
    rw [kvListWalk, List.filterMap_eq_nil_iff]
    intro n hn
    simp [hfree n hn]
  search_eq key := by
    simp only [kvListSearch, hsorted, generalSearch, hcount]
    exact generalSearchFrom_zero key l.nodeArray 0
  search_sorted key := binarySearch_sort_free lib hfree key
  room xs hlen _ := by
    have hzero : l.nodeArray.countP (·.valid) = 0 := by
      rw [List.countP_eq_zero]
      intro n hn
      simp [hfree n hn]
    exact addsAll_counted (by rw [hcount, hzero]) (by omega)

theorem Emptied.free (h : Emptied lib l) : ∀ n ∈ l.nodeArray, n.valid = false := by
  intro n hn
  have hwalk := h.walk_eq
  rw [kvListWalk, List.filterMap_eq_nil_iff] at hwalk
  simpa using hwalk n hn

theorem emptied_clear (lib : Stdlib) (l : KvList) : Emptied lib (kvListClear l) := by
  apply emptied_free lib ?_ rfl rfl
  intro n hn
  obtain ⟨m, _, rfl⟩ := List.mem_map.mp hn
  rfl

theorem valid_init : (∀ n ∈ (kvListInit l).nodeArray, n.valid = false) ↔
    ∀ n ∈ l.nodeArray, n.valid = false := by
  have hvalid : (kvListInit l).nodeArray.map (·.valid) = l.nodeArray.map (·.valid) := by
    apply List.ext_getElem
    · simp [kvListInit]
    · intro i h₁ h₂
      simp [kvListInit]
  have hmap : ∀ ns : List KvNode,
      (∀ n ∈ ns, n.valid = false) ↔ ∀ b ∈ ns.map (·.valid), b = false := by simp
  rw [hmap, hvalid, ← hmap]

theorem emptied_init_iff (lib : Stdlib) (l : KvList) :
    Emptied lib (kvListInit l) ↔ ∀ n ∈ l.nodeArray, n.valid = false := by
  constructor
  · exact fun h => valid_init.mp h.free
  · exact fun h => emptied_free lib (valid_init.mpr h) rfl rfl

theorem kvListInit_idem (l : KvList) : kvListInit (kvListInit l) = kvListInit l := by
  have hnodes : (kvListInit (kvListInit l)).nodeArray = (kvListInit l).nodeArray := by
    apply List.ext_getElem
    · simp [kvListInit]
    · intro i h₁ h₂
      simp [kvListInit]
  rw [KvList.mk.injEq]
  exact ⟨rfl, rfl, hnodes, rfl, rfl, rfl⟩

theorem initLists_eq (is : List ℕ) (lists : ℕ → KvList) (i : ℕ) :
    is.foldl (fun ls j => Function.update ls j (kvListInit (ls j))) lists i =
      if i ∈ is then kvListInit (lists i) else lists i := by
  induction is generalizing lists with
  | nil => rfl
  | cons j is ih =>
    rw [List.foldl_cons, ih]
    by_cases hij : i = j
    · subst hij
      rw [Function.update_self, kvListInit_idem, ite_self, if_pos List.mem_cons_self]
    · rw [Function.update_of_ne hij]
      simp only [List.mem_cons, hij, false_or]

theorem mbusInitWith_list (s : MsgBus) {channels : List ℕ} {i : ℕ} (hi : i ∈ channels) :
    (mbusInitWith s channels).topicLists i = kvListInit (s.topicLists i) :=
  (initLists_eq channels s.topicLists i).trans (if_pos hi)

/-- A list that has been cleared is empty and has room for `depth` nodes again, and
so is one that has been initialised, and every topic list of a bus, exactly when no
node was marked valid before. -/
theorem init_forgets_iff (lib : Stdlib) :
    (∀ l : KvList, Emptied lib (kvListClear l) ∧
      (Emptied lib (kvListInit l) ↔ ∀ n ∈ l.nodeArray, n.valid = false)) ∧
    ∀ (s : MsgBus) (channels : List ℕ),
      (∀ i ∈ channels, Emptied lib ((mbusInitWith s channels).topicLists i)) ↔
        ∀ i ∈ channels, ∀ n ∈ (s.topicLists i).nodeArray, n.valid = false := by
  refine ⟨fun l => ⟨emptied_clear lib l, emptied_init_iff lib l⟩, ?_⟩
  intro s channels
  apply forall₂_congr
  intro i hi
  rw [mbusInitWith_list s hi, emptied_init_iff]

def usedOnce : KvList := ⟨1, 1, [⟨true, 7, 100⟩], 100, fun _ => 0, false⟩

theorem init_keeps_entry : ¬ Emptied Stdlib.reference (kvListInit usedOnce) := by
  intro h
  exact absurd h.walk_eq (by decide)

end BleFirmware.KvListInit
