import BleFirmware.KvListRuns

/-!
# Removal by key

`kv_list_remove` hands what the search has found to `kv_list_remove_node`, which
reads through its argument. So it removes a key that is present, whichever
lookup finds it, and follows NULL for one that is absent.
-/

namespace BleFirmware.KvListRemove
open Bytes CSort Run KvListRuns

/-- The entry of the key is gone, and nothing else has changed its place, key or
payload. -/
structure Removed (l k : KvList) (key : ℕ) : Prop where
  gone : key ∉ k.entries.keys
  others : ∀ j, (l.node j).valid = true → (l.node j).key ≠ key →
    k.node j = l.node j ∧ k.payload (k.node j) = l.payload (l.node j)
  no_new : ∀ j, (k.node j).valid = true → k.node j = l.node j
  count_eq : l.count = k.count+1

/-- The call returns, having removed the entry of a key that is present and changed
nothing for one that is absent. -/
def RemovesKey (lib : Stdlib) (l : KvList) (key : ℕ) : Prop :=
  ∃ k, kvListRemove lib l key = some k ∧
    (key ∈ l.entries.keys → Removed l k key) ∧ (key ∉ l.entries.keys → k = l)

variable {lib : Stdlib} {l : KvList} {key : ℕ}

theorem remove_absent (h : l.Wf) (hk : key ∉ l.entries.keys) : kvListRemove lib l key = none := by
  rw [kvListRemove, (kvListSearch_eq_none h).mpr hk]
  rfl

theorem node_removeAt_ne {i j : ℕ} (hij : j ≠ i) : (l.removeAt i).node j = l.node j := by
  simp [KvList.removeAt, KvList.node, List.getD_eq_getElem?_getD, List.getElem?_set_ne hij.symm]

theorem node_removeAt_self {i : ℕ} (hi : i < l.depth) : ((l.removeAt i).node i).valid = false := by
  have hi' : i < l.nodeArray.length := hi
  simp [KvList.removeAt, KvList.node, hi']

theorem removed_removeAt (h : l.Wf) (hnodup : l.entries.keys.Nodup) {i : ℕ}
    (hv : (l.node i).valid = true) : Removed l (l.removeAt i) (l.node i).key := by
  have hi := lt_depth_of_valid hv
  have hkeys := keys_removeAt hv
  refine ⟨?_, ?_, ?_, ?_⟩
  · exact (List.nodup_cons.mp (hkeys.nodup_iff.mp hnodup)).1
  · intro j _ hne
    have hji : j ≠ i := fun he => hne (he ▸ rfl)
    have hnode : (l.removeAt i).node j = l.node j := node_removeAt_ne hji
    exact ⟨hnode, by rw [hnode]; rfl⟩
  · intro j hw
    apply node_removeAt_ne
    intro hji
    rw [hji, node_removeAt_self hi] at hw
    cases hw
  · have hlen := hkeys.length_eq
    simp only [List.keys, List.length_map, List.length_cons] at hlen
    rw [h.count_entries, (removeAt_wf h hi hv).count_entries, hlen]

theorem remove_present (h : l.Wf) (hnodup : l.entries.keys.Nodup) (hk : key ∈ l.entries.keys) :
    RemovesKey lib l key := by
  obtain ⟨i, hi⟩ := Option.isSome_iff_exists.mp ((kvListSearch_isSome lib h key).mpr hk)
  obtain ⟨_, hv, rfl⟩ := kvListSearch_some h hi
  refine ⟨l.removeAt i, ?_, ?_, fun hn => absurd hk hn⟩
  · rw [kvListRemove, hi]
    exact kvListRemoveNode_valid hv
  · exact fun _ => removed_removeAt h hnodup hv

theorem removes_key_iff (lib : Stdlib) (l₀ : KvList) (h₀ : ∀ n ∈ l₀.nodeArray, n.valid = false)
    (ops : List Op) (hnodup : (exec (step lib) (kvListInit l₀) ops).entries.keys.Nodup)
    (key : ℕ) :
    RemovesKey lib (exec (step lib) (kvListInit l₀) ops) key ↔
      key ∈ (exec (step lib) (kvListInit l₀) ops).entries.keys := by
  have hwf := exec_wf lib (kvListInit_wf h₀) ops
  constructor
  · rintro ⟨k, hk, _⟩
    by_contra habsent
    rw [remove_absent hwf habsent] at hk
    cases hk
  · exact remove_present hwf hnodup

theorem removes_key_iff_holes :
    RemovesKey Stdlib.reference (exec (step Stdlib.reference) (kvListInit twoFree)
        [.add 7 fun _ => 1, .add 3 fun _ => 2, .sort, .remove 3]) 7 ↔
      7 ∈ (exec (step Stdlib.reference) (kvListInit twoFree)
        [.add 7 fun _ => 1, .add 3 fun _ => 2, .sort, .remove 3]).entries.keys :=
  removes_key_iff Stdlib.reference twoFree (by simp [twoFree]) _ (by decide) 7

theorem absent_key_faults :
    ¬ RemovesKey Stdlib.reference (exec (step Stdlib.reference) (kvListInit twoFree) []) 7 := by
  rintro ⟨k, hk, _⟩
  cases hk

end BleFirmware.KvListRemove
