import BleFirmware.Base.Run
import BleFirmware.KvListSearch

/-!
# Runs of a kv list

`kv_list_add` does not look for the key it is given, so keys may repeat, and a
caller may give `kv_list_remove_node` any node of the array. Whatever the run,
the two lookups find the same keys. Sorting the list at any point changes the
place of the nodes but not the keys that later calls find, unless a later call
removes a node by a pointer from before the sort.
-/

namespace BleFirmware.KvListRuns
open Bytes CSort Run

/-- `removeNode` is given a node pointer, `remove` the key of the node. -/
inductive Op
  | add (key : ℕ) (pValue : Memory)
  | remove (key : ℕ)
  | removeNode (i : ℕ)
  | clear
  | sort
  | search (key : ℕ)

def step (lib : Stdlib) (l : KvList) : Op → Option KvList
  | .add key pValue => some (kvListAdd l key pValue).1
  | .remove key => kvListRemove lib l key
  | .removeNode i => kvListRemoveNode l (some i)
  | .clear => some (kvListClear l)
  | .sort => some (kvListSort lib l)
  | .search _ => some l

variable {lib : Stdlib} {l k : KvList}

theorem kvListRemoveNode_free {i : ℕ} (hv : (l.node i).valid = false) :
    kvListRemoveNode l (some i) = some l := by
  simp [kvListRemoveNode, hv]

theorem removeNode_wf (h : l.Wf) {i : ℕ} (hr : kvListRemoveNode l (some i) = some k) : k.Wf := by
  cases hv : (l.node i).valid with
  | true =>
    rw [kvListRemoveNode_valid hv] at hr
    obtain rfl := Option.some.inj hr
    exact removeAt_wf h (lt_depth_of_valid hv) hv
  | false =>
    rw [kvListRemoveNode_free hv] at hr
    obtain rfl := Option.some.inj hr
    exact h

theorem step_wf (h : l.Wf) {op : Op} (hs : step lib l op = some k) : k.Wf := by
  cases op with
  | add key pValue =>
    obtain rfl := Option.some.inj hs
    by_cases hc : l.count < l.depth
    · obtain ⟨i, hi, hv, ha⟩ := kvListAdd_room h hc key pValue
      rw [ha]
      exact addAt_wf h hi hv key pValue
    · rw [kvListAdd_full (Nat.le_of_not_lt hc)]
      exact h
  | remove key =>
    change kvListRemoveNode l (kvListSearch lib l key) = some k at hs
    cases hf : kvListSearch lib l key with
    | none =>
      rw [hf] at hs
      cases hs
    | some i =>
      rw [hf] at hs
      exact removeNode_wf h hs
  | removeNode i => exact removeNode_wf h hs
  | clear =>
    obtain rfl := Option.some.inj hs
    exact kvListClear_wf h
  | sort =>
    obtain rfl := Option.some.inj hs
    exact kvListSort_wf h
  | search key =>
    obtain rfl := Option.some.inj hs
    exact h

theorem exec_wf (lib : Stdlib) (h : l.Wf) (ops : List Op) : (exec (step lib) l ops).Wf :=
  exec_invariant (P := fun _ _ => True) (fun _ _ _ hl _ hs => step_wf hl hs) h
    (along_of_forall (fun _ _ => trivial) l ops)

/-- A sorted array has its valid nodes first, in the order of their keys, and both
lookups find a node that is valid and has the key, or both find none. -/
structure LookupsAgree (lib : Stdlib) (l : KvList) (key : ℕ) : Prop where
  partitioned : l.sorted = true → ∃ vs fs, l.nodeArray = vs ++ fs ∧
    (∀ n ∈ vs, n.valid = true) ∧ vs.Pairwise (fun m n => m.key ≤ n.key) ∧
    ∀ n ∈ fs, n.valid = false
  isSome_iff : l.sorted = true →
    ((binarySearch lib l key).isSome ↔ (generalSearch l key).isSome)
  general_found : ∀ i, generalSearch l key = some i →
    i < l.depth ∧ (l.node i).valid = true ∧ (l.node i).key = key
  binary_found : l.sorted = true → ∀ i, binarySearch lib l key = some i →
    i < l.depth ∧ (l.node i).valid = true ∧ (l.node i).key = key
  found : ∀ i, kvListSearch lib l key = some i →
    i < l.depth ∧ (l.node i).valid = true ∧ (l.node i).key = key

theorem ordered_partition {ns : List KvNode}
    (h : ns.Pairwise fun m n => compareNodeKey m n ≤ 0) :
    ∃ vs fs, ns = vs ++ fs ∧ (∀ n ∈ vs, n.valid = true) ∧
      vs.Pairwise (fun m n => m.key ≤ n.key) ∧ ∀ n ∈ fs, n.valid = false := by
  have hfirst : ns.Pairwise fun m n => n.valid = true → m.valid = true := by
    apply h.imp
    intro m n hle hn
    by_contra hm
    rw [Bool.not_eq_true] at hm
    simp [compareNodeKey, hm, hn] at hle
  have hvs : ∀ n ∈ ns.filter KvNode.valid, n.valid = true := fun n hn => (List.mem_filter.mp hn).2
  refine ⟨_, _, eq_filter_append hfirst, hvs, ?_, ?_⟩
  · refine List.Pairwise.imp_of_mem ?_ (h.sublist List.filter_sublist)
    intro m n hm hn hle
    exact (compareNodeKey_valid (hvs m hm) (hvs n hn)).mp hle
  · intro n hn
    simpa using (List.mem_filter.mp hn).2

theorem generalSearch_isSome (h : l.Wf) (key : ℕ) :
    (generalSearch l key).isSome ↔ key ∈ l.entries.keys := by
  rw [generalSearch_eq h, KvList.mem_keys_entries, List.findIdx?_isSome, List.any_eq_true]
  simp

theorem generalSearch_some (h : l.Wf) {key i : ℕ} (hs : generalSearch l key = some i) :
    i < l.depth ∧ (l.node i).valid = true ∧ (l.node i).key = key := by
  rw [generalSearch_eq h] at hs
  obtain ⟨hi, hp, _⟩ := List.findIdx?_eq_some_iff_getElem.mp hs
  have hnode : l.node i = l.nodeArray[i] := by simp [KvList.node, hi]
  rw [hnode]
  exact ⟨hi, by simpa using hp⟩

theorem lookupsAgree_of_wf (lib : Stdlib) (h : l.Wf) (key : ℕ) : LookupsAgree lib l key where
  partitioned hs := ordered_partition (h.ordered hs)
  isSome_iff hs := by
    have hsearch := kvListSearch_isSome lib h key
    rw [kvListSearch, if_pos hs] at hsearch
    rw [hsearch, generalSearch_isSome h]
  general_found _ hi := generalSearch_some h hi
  binary_found hs i hi := by
    have hsearch : kvListSearch lib l key = some i := by
      rw [kvListSearch, if_pos hs]
      exact hi
    exact kvListSearch_some h hsearch
  found _ hi := kvListSearch_some h hi

theorem keys_addAt (h : l.Wf) {i : ℕ} (hi : i < l.depth) (hv : (l.node i).valid = false)
    (key : ℕ) (pValue : Memory) :
    (l.addAt i key pValue).entries.keys.Perm (key :: l.entries.keys) :=
  (addAt_entries h hi hv key pValue).map Sigma.fst

theorem keys_removeAt {i : ℕ} (hv : (l.node i).valid = true) :
    l.entries.keys.Perm ((l.node i).key :: (l.removeAt i).entries.keys) :=
  (removeAt_entries (lt_depth_of_valid hv) hv).map Sigma.fst

theorem keys_sort (lib : Stdlib) (l : KvList) :
    (kvListSort lib l).entries.keys.Perm l.entries.keys :=
  (kvListSort_entries lib l).map Sigma.fst

theorem depth_addAt (i key : ℕ) (pValue : Memory) : (l.addAt i key pValue).depth = l.depth := by
  simp [KvList.addAt, KvList.depth]

theorem depth_removeAt (i : ℕ) : (l.removeAt i).depth = l.depth := by
  simp [KvList.removeAt, KvList.depth]

theorem depth_sort (lib : Stdlib) (l : KvList) : (kvListSort lib l).depth = l.depth :=
  (kvListSort_perm lib l).length_eq

structure SameKeys (l k : KvList) : Prop where
  left : l.Wf
  right : k.Wf
  depth_eq : l.depth = k.depth
  keys : l.entries.keys.Perm k.entries.keys

theorem SameKeys.count_eq (h : SameKeys l k) : l.count = k.count := by
  have hlen := h.keys.length_eq
  simp only [List.keys, List.length_map] at hlen
  rw [h.left.count_entries, h.right.count_entries, hlen]

theorem SameKeys.search_isSome (h : SameKeys l k) (lib : Stdlib) (key : ℕ) :
    (kvListSearch lib l key).isSome = (kvListSearch lib k key).isSome := by
  rw [Bool.eq_iff_iff, kvListSearch_isSome lib h.left, kvListSearch_isSome lib h.right]
  exact h.keys.mem_iff

theorem sameKeys_sort (lib : Stdlib) (h : l.Wf) : SameKeys (kvListSort lib l) l :=
  ⟨kvListSort_wf h, h, depth_sort lib l, keys_sort lib l⟩

/-- A call that does not name a node by its place. -/
def Op.ByKey : Op → Prop
  | .removeNode _ => False
  | .add _ _ | .remove _ | .clear | .sort | .search _ => True

theorem SameKeys.add (h : SameKeys l k) (key : ℕ) (pValue : Memory) :
    SameKeys (kvListAdd l key pValue).1 (kvListAdd k key pValue).1 := by
  have hcount := h.count_eq
  have hdepth := h.depth_eq
  by_cases hc : l.count < l.depth
  · obtain ⟨i, hi, hv, ha⟩ := kvListAdd_room h.left hc key pValue
    obtain ⟨j, hj, hw, hb⟩ := kvListAdd_room h.right (by omega) key pValue
    rw [ha, hb]
    refine ⟨addAt_wf h.left hi hv key pValue, addAt_wf h.right hj hw key pValue, ?_, ?_⟩
    · rw [depth_addAt, depth_addAt, hdepth]
    · have hkeys := (h.keys.cons key).trans (keys_addAt h.right hj hw key pValue).symm
      exact (keys_addAt h.left hi hv key pValue).trans hkeys
  · rw [kvListAdd_full (Nat.le_of_not_lt hc), kvListAdd_full (by omega)]
    exact h

theorem SameKeys.remove (h : SameKeys l k) (lib : Stdlib) (key : ℕ) :
    Simulates (step lib) (step lib) SameKeys l k (.remove key) := by
  have hsome := h.search_isSome lib key
  simp only [Simulates, step, kvListRemove]
  cases hl : kvListSearch lib l key with
  | none =>
    rw [hl, Option.isSome_none, eq_comm, Option.isSome_eq_false_iff, Option.isNone_iff_eq_none]
      at hsome
    rw [hsome]
    exact Or.inl ⟨rfl, rfl⟩
  | some i =>
    rw [hl] at hsome
    obtain ⟨j, hj⟩ := Option.isSome_iff_exists.mp hsome.symm
    obtain ⟨hi, hv, hkey⟩ := kvListSearch_some h.left hl
    obtain ⟨hj', hw, hkey'⟩ := kvListSearch_some h.right hj
    rw [hj, kvListRemoveNode_valid hv, kvListRemoveNode_valid hw]
    refine Or.inr ⟨_, _, rfl, rfl, removeAt_wf h.left hi hv, removeAt_wf h.right hj' hw, ?_, ?_⟩
    · rw [depth_removeAt, depth_removeAt, h.depth_eq]
    · have hboth := (keys_removeAt hv).symm.trans (h.keys.trans (keys_removeAt hw))
      rw [hkey, hkey'] at hboth
      exact hboth.cons_inv

theorem SameKeys.step (h : SameKeys l k) (lib : Stdlib) {op : Op} (hop : op.ByKey) :
    Simulates (KvListRuns.step lib) (KvListRuns.step lib) SameKeys l k op := by
  cases op with
  | add key pValue => exact Or.inr ⟨_, _, rfl, rfl, h.add key pValue⟩
  | remove key => exact h.remove lib key
  | removeNode i => exact hop.elim
  | clear =>
    refine Or.inr ⟨_, _, rfl, rfl, kvListClear_wf h.left, kvListClear_wf h.right, ?_, ?_⟩
    · simpa [KvList.depth, kvListClear] using h.depth_eq
    · rw [kvListClear_entries, kvListClear_entries]
  | sort =>
    refine Or.inr ⟨_, _, rfl, rfl, kvListSort_wf h.left, kvListSort_wf h.right, ?_, ?_⟩
    · rw [depth_sort, depth_sort, h.depth_eq]
    · exact (keys_sort lib l).trans (h.keys.trans (keys_sort lib k).symm)
  | search key => exact Or.inr ⟨_, _, rfl, rfl, h⟩

theorem SameKeys.exec (h : SameKeys l k) (lib : Stdlib) {ops : List Op}
    (hops : ∀ op ∈ ops, op.ByKey) :
    SameKeys (Run.exec (KvListRuns.step lib) l ops) (Run.exec (KvListRuns.step lib) k ops) :=
  exec_simulates (L := fun _ op => op.ByKey) (fun _ _ _ hs hop => hs.step lib hop) h
    (along_of_forall_mem hops l)

/-- In every state of a run the lookups agree. A sort that is put in there changes
no answer of a search, neither at once nor after calls that name what they remove
by its key. -/
theorem lookups_agree (lib : Stdlib) (l₀ : KvList) (h₀ : ∀ n ∈ l₀.nodeArray, n.valid = false)
    (ops : List Op) :
    (∀ key, LookupsAgree lib (exec (step lib) (kvListInit l₀) ops) key) ∧
      ∀ later : List Op, (∀ op ∈ later, op.ByKey) → ∀ key,
        (kvListSearch lib (exec (step lib)
          (kvListSort lib (exec (step lib) (kvListInit l₀) ops)) later) key).isSome =
        (kvListSearch lib (exec (step lib)
          (exec (step lib) (kvListInit l₀) ops) later) key).isSome := by
  have hwf := exec_wf lib (kvListInit_wf h₀) ops
  refine ⟨lookupsAgree_of_wf lib hwf, ?_⟩
  intro later hlater key
  exact ((sameKeys_sort lib hwf).exec lib hlater).search_isSome lib key

def twoFree : KvList := ⟨0, 1, [⟨false, 0, 0⟩, ⟨false, 0, 0⟩], 100, fun _ => 0, false⟩

/-- A repeated key, the one that free nodes have, and a sort at the end. -/
theorem lookups_agree_repeated :
    (∀ key, LookupsAgree Stdlib.reference (exec (step Stdlib.reference) (kvListInit twoFree)
        [.add kvKeyInvalid fun _ => 1, .add kvKeyInvalid fun _ => 2, .removeNode 0, .sort]) key) ∧
      ∀ later : List Op, (∀ op ∈ later, op.ByKey) → ∀ key,
        (kvListSearch Stdlib.reference (exec (step Stdlib.reference) (kvListSort Stdlib.reference
          (exec (step Stdlib.reference) (kvListInit twoFree) [.add kvKeyInvalid fun _ => 1,
            .add kvKeyInvalid fun _ => 2, .removeNode 0, .sort])) later) key).isSome =
        (kvListSearch Stdlib.reference (exec (step Stdlib.reference)
          (exec (step Stdlib.reference) (kvListInit twoFree) [.add kvKeyInvalid fun _ => 1,
            .add kvKeyInvalid fun _ => 2, .removeNode 0, .sort]) later) key).isSome :=
  lookups_agree Stdlib.reference twoFree (by simp [twoFree]) _

/-- The sort moves the node 3 to where the node 7 was, and a pointer to that place
removes it. -/
theorem held_pointer_removes_another :
    (kvListSearch Stdlib.reference (exec (step Stdlib.reference)
        (exec (step Stdlib.reference) (kvListInit twoFree) [.add 7 fun _ => 1, .add 3 fun _ => 2])
        [.removeNode 0]) 3).isSome = true ∧
      (kvListSearch Stdlib.reference (exec (step Stdlib.reference) (kvListSort Stdlib.reference
        (exec (step Stdlib.reference) (kvListInit twoFree) [.add 7 fun _ => 1, .add 3 fun _ => 2]))
        [.removeNode 0]) 3).isSome = false := by
  decide

end BleFirmware.KvListRuns
