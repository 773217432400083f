import BleFirmware.KvListBag

/-!
# Searching, sorting and clearing a kv list

The comparator is a total preorder that puts valid nodes first and orders them
by key, so `qsort` and `bsearch` keep their promises on every array that a run
can reach. Both search algorithms then find a node exactly when some live entry
has the key, whichever of them the `_sorted` flag selects.
-/

namespace BleFirmware
open Bytes CSort

theorem compareNodeKey_isPreorder : IsPreorder compareNodeKey := by
  constructor
  · intro m n
    unfold compareNodeKey
    cases m.valid <;> cases n.valid <;> simp
  · intro k m n
    unfold compareNodeKey
    cases k.valid <;> cases m.valid <;> cases n.valid <;> simp
    split_ifs <;> omega

theorem compareNodeKey_target {key : ℕ} {n : KvNode} :
    compareNodeKey ⟨true, key, 0⟩ n = 0 ↔ n.valid = true ∧ n.key = key := by
  unfold compareNodeKey
  cases n.valid <;> simp
  split_ifs <;> omega

theorem compareNodeKey_valid {m n : KvNode} (hm : m.valid = true) (hn : n.valid = true) :
    compareNodeKey m n ≤ 0 ↔ m.key ≤ n.key := by
  unfold compareNodeKey
  simp only [hm, hn]
  simp
  split_ifs <;> omega

/-- The bound `j < count` never cuts the scan short when `count` counts the
valid nodes. -/
theorem generalSearchFrom_eq (key : ℕ) (ns : List KvNode) (i j : ℕ) :
    generalSearchFrom (j + ns.countP (·.valid)) key ns i j =
      (ns.findIdx? (fun n => n.valid && n.key == key)).map (i + ·) := by
  induction ns generalizing i j with
  | nil => rfl
  | cons n ns ih =>
    rw [List.findIdx?_cons]
    cases hn : n.valid with
    | true =>
      have hcount : j + (n :: ns).countP (·.valid) = j+1 + ns.countP (·.valid) := by
        rw [List.countP_cons_of_pos (by simpa using hn)]
        omega
      have hj : j < j + (n :: ns).countP (·.valid) := by omega
      by_cases hk : n.key = key
      · simp [generalSearchFrom, hn, hk]
      · have hi := ih (i+1) (j+1)
        rw [hcount, generalSearchFrom, if_pos (by omega), if_pos hn, if_neg hk, hi]
        simp [hk, Option.map_map, Function.comp_def, Nat.add_assoc, Nat.add_comm 1]
    | false =>
      have hcount : (n :: ns).countP (·.valid) = ns.countP (·.valid) :=
        List.countP_cons_of_neg (by simpa using hn)
      have hi := ih (i+1) j
      rw [hcount, generalSearchFrom]
      by_cases hj : j < j + ns.countP (·.valid)
      · rw [if_pos hj, hn, if_neg (by simp), hi]
        simp [Option.map_map, Function.comp_def, Nat.add_assoc, Nat.add_comm 1]
      · -- The loop stops here, and no valid node is left to find.
        have hzero : ns.countP (·.valid) = 0 := by omega
        have hnone : ns.findIdx? (fun n => n.valid && n.key == key) = none := by
          rw [List.findIdx?_eq_none_iff]
          intro m hm
          have hv := List.countP_eq_zero.mp hzero m hm
          simp_all
        rw [if_neg hj, hnone]
        simp

theorem generalSearch_eq {l : KvList} (h : l.Wf) (key : ℕ) :
    generalSearch l key = l.nodeArray.findIdx? (fun n => n.valid && n.key == key) := by
  have hs := generalSearchFrom_eq key l.nodeArray 0 0
  rw [Nat.zero_add, ← h.count_eq] at hs
  rw [generalSearch, hs]
  simp

theorem binarySearch_partitioned {l : KvList} (h : l.Wf) (hs : l.sorted = true) (key : ℕ) :
    Partitioned (compareNodeKey ⟨true, key, 0⟩) l.nodeArray :=
  compareNodeKey_isPreorder.partitioned (h.ordered hs) _

theorem kvListSearch_some {lib : Stdlib} {l : KvList} (h : l.Wf) {key i : ℕ}
    (hs : kvListSearch lib l key = some i) :
    i < l.depth ∧ (l.node i).valid = true ∧ (l.node i).key = key := by
  rw [kvListSearch] at hs
  by_cases hsort : l.sorted = true
  · rw [if_pos hsort] at hs
    obtain ⟨n, hn, hc⟩ := lib.bsearch_some (binarySearch_partitioned h hsort key) hs
    obtain ⟨hi, hg⟩ := List.getElem?_eq_some_iff.mp hn
    have hnode : l.node i = n := by simp [KvList.node, hi, hg]
    rw [hnode]
    exact ⟨hi, compareNodeKey_target.mp hc⟩
  · rw [if_neg hsort, generalSearch_eq h] at hs
    obtain ⟨hi, hp, _⟩ := List.findIdx?_eq_some_iff_getElem.mp hs
    have hnode : l.node i = l.nodeArray[i] := by simp [KvList.node, hi]
    rw [hnode]
    exact ⟨hi, by simpa using hp⟩

namespace KvList

theorem mem_keys_entries {l : KvList} {key : ℕ} :
    key ∈ l.entries.keys ↔ ∃ n ∈ l.nodeArray, n.valid = true ∧ n.key = key := by
  rw [← filterMap_walk, kvListWalk, List.mem_filterMap]
  refine exists_congr (fun n => and_congr_right (fun _ => ?_))
  cases n.valid <;> simp

theorem node_mem {l : KvList} {i : ℕ} (hi : i < l.depth) : l.node i ∈ l.nodeArray := by
  have hi' : i < l.nodeArray.length := hi
  simp [KvList.node, hi']

theorem mem_entries {l : KvList} {i : ℕ} (hi : i < l.depth) (hv : (l.node i).valid = true) :
    l.entry (l.node i) ∈ l.entries :=
  List.mem_map_of_mem (List.mem_filter.mpr ⟨node_mem hi, hv⟩)

end KvList

theorem lt_depth_of_valid {l : KvList} {i : ℕ} (hv : (l.node i).valid = true) : i < l.depth := by
  by_contra hi
  have hn : l.node i = default := List.getD_eq_default _ _ (Nat.le_of_not_lt hi)
  rw [hn] at hv
  cases hv

theorem kvListSearch_isSome (lib : Stdlib) {l : KvList} (h : l.Wf) (key : ℕ) :
    (kvListSearch lib l key).isSome ↔ key ∈ l.entries.keys := by
  rw [KvList.mem_keys_entries, kvListSearch]
  by_cases hsort : l.sorted = true
  · rw [if_pos hsort, binarySearch, lib.bsearch_isSome (binarySearch_partitioned h hsort key)]
    simp only [compareNodeKey_target]
  · rw [if_neg hsort, generalSearch_eq h, List.findIdx?_isSome, List.any_eq_true]
    simp

theorem kvListSearch_eq_none {lib : Stdlib} {l : KvList} (h : l.Wf) {key : ℕ} :
    kvListSearch lib l key = none ↔ key ∉ l.entries.keys := by
  rw [← kvListSearch_isSome lib h]
  simp

theorem kvListInit_windows (l : KvList) :
    (kvListInit l).nodeArray.map (·.dataPtr) = (kvListInit l).windows := by
  refine List.ext_getElem (by simp [kvListInit, KvList.windows, KvList.depth]) (fun i h₁ h₂ => ?_)
  simp [kvListInit, KvList.windows]

theorem kvListInit_wf {l : KvList} (h : ∀ n ∈ l.nodeArray, n.valid = false) :
    (kvListInit l).Wf := by
  refine ⟨?_, List.Perm.of_eq (kvListInit_windows l), by simp [kvListInit]⟩
  have hz : (kvListInit l).nodeArray.countP (·.valid) = 0 := by
    rw [List.countP_eq_zero]
    intro n hn
    obtain ⟨i, hi, rfl⟩ := List.mem_mapIdx.mp hn
    simp [h _ (List.getElem_mem hi)]
  rw [hz]
  rfl

theorem kvListInit_entries {l : KvList} (h : ∀ n ∈ l.nodeArray, n.valid = false) :
    (kvListInit l).entries = [] := by
  have hc := (kvListInit_wf h).count_entries
  exact List.eq_nil_of_length_eq_zero hc.symm

theorem kvListClear_wf {l : KvList} (h : l.Wf) : (kvListClear l).Wf := by
  refine ⟨?_, ?_, by simp [kvListClear]⟩
  · have hz : (kvListClear l).nodeArray.countP (·.valid) = 0 := by
      simp [kvListClear, List.countP_eq_zero]
    rw [hz]
    rfl
  · have hw : (kvListClear l).windows = l.windows := by
      simp [KvList.windows, KvList.depth, kvListClear]
    rw [hw]
    simpa [kvListClear, Function.comp_def] using h.windows_perm

theorem kvListClear_entries (l : KvList) : (kvListClear l).entries = [] := by
  simp [KvList.entries, KvList.entriesOf, kvListClear, List.filter_eq_nil_iff]

theorem kvListSort_perm (lib : Stdlib) (l : KvList) :
    (kvListSort lib l).nodeArray.Perm l.nodeArray :=
  lib.qsort_perm _ compareNodeKey_isPreorder

theorem kvListSort_wf {lib : Stdlib} {l : KvList} (h : l.Wf) : (kvListSort lib l).Wf := by
  have hp := kvListSort_perm lib l
  refine ⟨h.count_eq.trans (hp.countP_eq _).symm, ?_, fun _ => ?_⟩
  · have hw : (kvListSort lib l).windows = l.windows := by
      simp only [KvList.windows, KvList.depth, hp.length_eq]
      rfl
    rw [hw]
    exact (hp.map _).trans h.windows_perm
  · exact lib.qsort_sorted _ compareNodeKey_isPreorder

theorem kvListSort_entries (lib : Stdlib) (l : KvList) :
    (kvListSort lib l).entries.Perm l.entries :=
  ((kvListSort_perm lib l).filter _).map _

theorem kvListWalk_sorted {l : KvList} (h : l.Wf) (hs : l.sorted = true) :
    (kvListWalk l).Pairwise (· ≤ ·) := by
  rw [kvListWalk, List.pairwise_filterMap]
  refine (h.ordered hs).imp (fun {m n} hmn a ha b hb => ?_)
  cases hm : m.valid <;> cases hn : n.valid <;> simp only [hm, hn] at ha hb
  · simp at ha
  · simp at ha
  · simp at hb
  · obtain rfl := Option.some.inj ha
    obtain rfl := Option.some.inj hb
    exact (compareNodeKey_valid hm hn).mp hmn

theorem kvListRemoveNode_valid {l : KvList} {i : ℕ} (hv : (l.node i).valid = true) :
    kvListRemoveNode l (some i) = some (l.removeAt i) := by
  simp only [kvListRemoveNode, hv, if_true, KvList.removeAt]

end BleFirmware
