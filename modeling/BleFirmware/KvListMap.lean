import BleFirmware.Base.Refine
import BleFirmware.KvListSearch
import Mathlib.Data.Finmap

/-!
# A kv list used with distinct keys is a finite map

The abstract map takes at most `depth` keys. Beside the map it remembers
whether an add or a remove has followed the last sort, because that decides
what a walk promises.

A client that removes through a node pointer holds the pointer of some present
key; in a list with distinct keys that is the one valid slot with this key.
-/

namespace BleFirmware.KvListMap
open Bytes CSort Refine

abbrev Map := Finmap (fun _ : ℕ => List UInt8)

inductive Op
  | add (key : ℕ) (pValue : Memory)
  | remove (key : ℕ)
  | removeNode (key : ℕ)
  | sort
  | clear
  | search (key : ℕ)
  | walk

inductive Reply
  | done
  | node (bytes : Option (List UInt8))
  | keys (number : ℕ)

structure State where
  map : Map
  fresh : Bool

def State.init : State := ⟨∅, false⟩

def spec (depth width : ℕ) (s : State) : Op → State × Reply
  | .add key pValue =>
    if s.map.keys.card < depth then
      (⟨s.map.insert key (firstBytes pValue width), false⟩,
        .node (some (firstBytes pValue width)))
    else (s, .node none)
  | .remove key => (⟨s.map.erase key, false⟩, .done)
  | .removeNode key => (⟨s.map.erase key, false⟩, .done)
  | .sort => ({ s with fresh := true }, .done)
  | .clear => ({ s with map := ∅ }, .done)
  | .search key => (s, .node (s.map.lookup key))
  | .walk => (s, .keys s.map.keys.card)

def allowed (s : State) : Op → Prop
  | .add key _ => key ∉ s.map
  | .remove key => key ∈ s.map
  | .removeNode key => key ∈ s.map
  | _ => True

instance (s : State) (op : Op) : Decidable (allowed s op) := by
  cases op <;> unfold allowed <;> infer_instance

def slotOf (l : KvList) (key : ℕ) : Option ℕ :=
  l.nodeArray.findIdx? (fun n => n.valid && n.key == key)

def step (lib : Stdlib) (l : KvList) : Op → Option (KvList × Reply)
  | .add key pValue =>
    let r := kvListAdd l key pValue
    some (r.1, .node (r.2.map fun i => r.1.payload (r.1.node i)))
  | .remove key => (kvListRemove lib l key).map fun k => (k, .done)
  | .removeNode key => (kvListRemoveNode l (slotOf l key)).map fun k => (k, .done)
  | .sort => some (kvListSort lib l, .done)
  | .clear => some (kvListClear l, .done)
  | .search key =>
    some (l, .node ((kvListSearch lib l key).map fun i => l.payload (l.node i)))
  | .walk => some (l, .keys (kvListWalk l).length)

/-- What a user of a kv list sees of one that stands for the map `m`. -/
structure Observes (lib : Stdlib) (depth : ℕ) (l : KvList) (s : State) : Prop where
  add_null : ∀ key pValue, (kvListAdd l key pValue).2 = none ↔ depth ≤ s.map.keys.card
  add_full : ∀ key pValue, depth ≤ s.map.keys.card → (kvListAdd l key pValue).1 = l
  search_isSome : ∀ key, (kvListSearch lib l key).isSome ↔ key ∈ s.map
  search_payload : ∀ key i, kvListSearch lib l key = some i →
    s.map.lookup key = some (l.payload (l.node i))
  walk_nodup : (kvListWalk l).Nodup
  walk_mem : ∀ key, key ∈ kvListWalk l ↔ key ∈ s.map
  walk_sorted : s.fresh = true → (kvListWalk l).Pairwise (· < ·)
  count_eq : l.count = s.map.keys.card
  slot_unique : ∀ i, i < l.depth → (l.node i).valid = true →
    slotOf l (l.node i).key = some i

structure Holds (depth width : ℕ) (l : KvList) (s : State) : Prop where
  wf : l.Wf
  depth_eq : l.depth = depth
  width_eq : l.width = width
  entries_eq : (l.entries : Multiset Entry) = s.map.entries
  fresh : s.fresh = true → (kvListWalk l).Pairwise (· ≤ ·)

namespace Holds

variable {depth width : ℕ} {l : KvList} {s : State} (h : Holds depth width l s)

include h

theorem nodup_keys : l.entries.keys.Nodup := by
  have hn : (l.entries : Multiset Entry).NodupKeys := by
    rw [h.entries_eq]
    exact s.map.nodupKeys
  exact Multiset.coe_nodupKeys.mp hn

theorem mem_keys {key : ℕ} : key ∈ l.entries.keys ↔ key ∈ s.map := by
  rw [Finmap.mem_def, ← h.entries_eq, Multiset.coe_keys, Multiset.mem_coe]

theorem card_keys : s.map.keys.card = l.count := by
  have hc : s.map.keys.card = s.map.entries.card := by
    simp [Finmap.keys, Multiset.keys]
  rw [hc, ← h.entries_eq, Multiset.coe_card, h.wf.count_entries]

theorem lookup_of_mem {key : ℕ} {bytes : List UInt8} (he : ⟨key, bytes⟩ ∈ l.entries) :
    s.map.lookup key = some bytes := by
  have hm : (⟨key, bytes⟩ : Entry) ∈ s.map.entries := by
    rw [← h.entries_eq]
    exact he
  exact Finmap.mem_lookup_iff.mpr hm

end Holds

theorem holds_init {l : KvList} (h : ∀ n ∈ l.nodeArray, n.valid = false) :
    Holds l.depth l.width (kvListInit l) State.init where
  wf := kvListInit_wf h
  depth_eq := by simp [KvList.depth, kvListInit]
  width_eq := rfl
  entries_eq := by
    rw [kvListInit_entries h]
    rfl
  fresh := by simp [State.init]

theorem slotOf_some {l : KvList} {key i : ℕ} (h : slotOf l key = some i) :
    i < l.depth ∧ (l.node i).valid = true ∧ (l.node i).key = key := by
  obtain ⟨hi, hp, _⟩ := List.findIdx?_eq_some_iff_getElem.mp h
  have hnode : l.node i = l.nodeArray[i] := by simp [KvList.node, hi]
  rw [hnode]
  exact ⟨hi, by simpa using hp⟩

theorem slotOf_isSome {l : KvList} {key : ℕ} :
    (slotOf l key).isSome ↔ key ∈ l.entries.keys := by
  rw [KvList.mem_keys_entries, slotOf, List.findIdx?_isSome, List.any_eq_true]
  simp

theorem entries_erase {m : Map} {key : ℕ} {bytes : List UInt8}
    (h : m.lookup key = some bytes) : m.entries = ⟨key, bytes⟩ ::ₘ (m.erase key).entries := by
  have hm : m = (m.erase key).insert key bytes := by
    apply Finmap.ext_lookup
    intro k
    by_cases hk : k = key
    · subst hk
      rw [h, Finmap.lookup_insert]
    · rw [Finmap.lookup_insert_of_ne _ hk, Finmap.lookup_erase_ne hk]
  conv_lhs => rw [hm]
  exact Finmap.entries_insert_of_notMem Finmap.notMem_erase_self

section Step

variable {depth width : ℕ} {l : KvList} {s : State} (h : Holds depth width l s)

include h

theorem holds_addAt {i : ℕ} (hi : i < l.depth) (hv : (l.node i).valid = false) {key : ℕ}
    (hk : key ∉ s.map) (pValue : Memory) :
    Holds depth width (l.addAt i key pValue)
      ⟨s.map.insert key (firstBytes pValue width), false⟩ where
  wf := addAt_wf h.wf hi hv key pValue
  depth_eq := by
    rw [← h.depth_eq]
    simp [KvList.depth, KvList.addAt]
  width_eq := h.width_eq
  entries_eq := by
    have hp := addAt_entries h.wf hi hv key pValue
    rw [Multiset.coe_eq_coe.mpr hp, ← Multiset.cons_coe, h.entries_eq, h.width_eq,
      Finmap.entries_insert_of_notMem hk]
  fresh := by simp

theorem holds_removeAt {i : ℕ} (hi : i < l.depth) (hv : (l.node i).valid = true) :
    Holds depth width (l.removeAt i) ⟨s.map.erase (l.node i).key, false⟩ where
  wf := removeAt_wf h.wf hi hv
  depth_eq := by
    rw [← h.depth_eq]
    simp [KvList.depth, KvList.removeAt]
  width_eq := h.width_eq
  entries_eq := by
    have hp := Multiset.coe_eq_coe.mpr (removeAt_entries hi hv)
    have hl := h.lookup_of_mem (KvList.mem_entries hi hv)
    rw [← Multiset.cons_coe, h.entries_eq, entries_erase hl] at hp
    exact ((Multiset.cons_inj_right _).mp hp).symm
  fresh := by simp

theorem step_add (lib : Stdlib) {key : ℕ} (pValue : Memory) (hk : key ∉ s.map) :
    ∃ l', step lib l (.add key pValue) = some (l', (spec depth width s (.add key pValue)).2) ∧
      Holds depth width l' (spec depth width s (.add key pValue)).1 := by
  have hc := h.card_keys
  have hd := h.depth_eq
  by_cases hroom : s.map.keys.card < depth
  · obtain ⟨i, hi, hv, ha⟩ := kvListAdd_room h.wf (by omega) key pValue
    have hpay : (l.addAt i key pValue).payload ((l.addAt i key pValue).node i) =
        firstBytes pValue width := by
      rw [addAt_node hi, ← h.width_eq]
      exact addAt_payload key pValue (by rfl)
    refine ⟨l.addAt i key pValue, ?_, ?_⟩
    · simp only [step, spec, ha, if_pos hroom, Option.map_some, hpay]
    · simp only [spec, if_pos hroom]
      exact holds_addAt h hi hv hk pValue
  · have ha := kvListAdd_full (l := l) (by omega) key pValue
    refine ⟨l, ?_, ?_⟩
    · simp only [step, spec, ha, if_neg hroom, Option.map_none]
    · simp only [spec, if_neg hroom]
      exact h

theorem step_removeNode_at {key i : ℕ} (hi : i < l.depth) (hv : (l.node i).valid = true)
    (hkey : (l.node i).key = key) :
    ∃ l', kvListRemoveNode l (some i) = some l' ∧
      Holds depth width l' ⟨s.map.erase key, false⟩ := by
  refine ⟨l.removeAt i, kvListRemoveNode_valid hv, ?_⟩
  rw [← hkey]
  exact holds_removeAt h hi hv

theorem step_remove (lib : Stdlib) {key : ℕ} (hk : key ∈ s.map) :
    ∃ l', kvListRemove lib l key = some l' ∧ Holds depth width l' ⟨s.map.erase key, false⟩ := by
  have hs := (kvListSearch_isSome lib h.wf key).mpr (h.mem_keys.mpr hk)
  obtain ⟨i, hi⟩ := Option.isSome_iff_exists.mp hs
  obtain ⟨hlt, hv, hkey⟩ := kvListSearch_some h.wf hi
  rw [kvListRemove, hi]
  exact step_removeNode_at h hlt hv hkey

theorem step_removeNode {key : ℕ} (hk : key ∈ s.map) :
    ∃ l', kvListRemoveNode l (slotOf l key) = some l' ∧
      Holds depth width l' ⟨s.map.erase key, false⟩ := by
  have hs := slotOf_isSome.mpr (h.mem_keys.mpr hk)
  obtain ⟨i, hi⟩ := Option.isSome_iff_exists.mp hs
  obtain ⟨hlt, hv, hkey⟩ := slotOf_some hi
  rw [hi]
  exact step_removeNode_at h hlt hv hkey

theorem holds_sort (lib : Stdlib) : Holds depth width (kvListSort lib l) ⟨s.map, true⟩ where
  wf := kvListSort_wf h.wf
  depth_eq := by
    rw [← h.depth_eq]
    exact (kvListSort_perm lib l).length_eq
  width_eq := h.width_eq
  entries_eq := by
    rw [← h.entries_eq]
    exact Multiset.coe_eq_coe.mpr (kvListSort_entries lib l)
  fresh _ := kvListWalk_sorted (kvListSort_wf h.wf) rfl

theorem holds_clear : Holds depth width (kvListClear l) ⟨∅, s.fresh⟩ where
  wf := kvListClear_wf h.wf
  depth_eq := by
    rw [← h.depth_eq]
    simp [KvList.depth, kvListClear]
  width_eq := h.width_eq
  entries_eq := by
    rw [kvListClear_entries]
    rfl
  fresh _ := by simp [KvList.filterMap_walk, kvListClear_entries]

theorem length_walk : (kvListWalk l).length = s.map.keys.card := by
  rw [KvList.filterMap_walk, h.card_keys, h.wf.count_entries]
  simp [List.keys]

theorem search_reply (lib : Stdlib) (key : ℕ) :
    ((kvListSearch lib l key).map fun i => l.payload (l.node i)) = s.map.lookup key := by
  cases hs : kvListSearch lib l key with
  | none =>
    have hk := (kvListSearch_eq_none h.wf).mp hs
    rw [h.mem_keys] at hk
    rw [Finmap.lookup_eq_none.mpr hk, Option.map_none]
  | some i =>
    obtain ⟨hlt, hv, rfl⟩ := kvListSearch_some h.wf hs
    exact (h.lookup_of_mem (KvList.mem_entries hlt hv)).symm

end Step

theorem step_refines (lib : Stdlib) (depth width : ℕ) (l : KvList) (s : State) (op : Op)
    (h : Holds depth width l s) (ha : allowed s op) :
    ∃ l', step lib l op = some (l', (spec depth width s op).2) ∧
      Holds depth width l' (spec depth width s op).1 := by
  cases op with
  | add key pValue => exact step_add h lib pValue ha
  | remove key =>
    obtain ⟨l', hl', hh⟩ := step_remove h lib ha
    exact ⟨l', by simp only [step, hl', Option.map_some, spec], hh⟩
  | removeNode key =>
    obtain ⟨l', hl', hh⟩ := step_removeNode h ha
    exact ⟨l', by simp only [step, hl', Option.map_some, spec], hh⟩
  | sort => exact ⟨_, rfl, holds_sort h lib⟩
  | clear => exact ⟨_, rfl, holds_clear h⟩
  | search key => exact ⟨l, by simp only [step, spec, search_reply h], h⟩
  | walk => exact ⟨l, by simp only [step, spec, length_walk h], h⟩

namespace Holds

variable {depth width : ℕ} {l : KvList} {s : State} (h : Holds depth width l s)

include h

theorem distinct : l.nodeArray.Pairwise
    (fun m n => m.valid = true → n.valid = true → m.key ≠ n.key) := by
  have hn := h.nodup_keys
  rw [← KvList.filterMap_walk, kvListWalk, List.Nodup, List.pairwise_filterMap] at hn
  refine hn.imp (fun {m n} hmn hm hv => ?_)
  exact hmn m.key (by simp [hm]) n.key (by simp [hv])

theorem slot_unique {i j : ℕ} (hi : i < l.depth) (hj : j < l.depth)
    (hvi : (l.node i).valid = true) (hvj : (l.node j).valid = true)
    (hk : (l.node i).key = (l.node j).key) : i = j := by
  have hi' : i < l.nodeArray.length := hi
  have hj' : j < l.nodeArray.length := hj
  have hd := List.pairwise_iff_getElem.mp h.distinct
  simp only [KvList.node, List.getD_eq_getElem _ _ hi', List.getD_eq_getElem _ _ hj']
    at hvi hvj hk
  rcases Nat.lt_trichotomy i j with hlt | heq | hlt
  · exact absurd hk (hd i j hi' hj' hlt hvi hvj)
  · exact heq
  · exact absurd hk.symm (hd j i hj' hi' hlt hvj hvi)

theorem slotOf_eq {i : ℕ} (hi : i < l.depth) (hv : (l.node i).valid = true) :
    slotOf l (l.node i).key = some i := by
  have hs : (slotOf l (l.node i).key).isSome :=
    slotOf_isSome.mpr (KvList.mem_keys_entries.mpr ⟨_, KvList.node_mem hi, hv, rfl⟩)
  obtain ⟨j, hj⟩ := Option.isSome_iff_exists.mp hs
  obtain ⟨hlt, hvj, hk⟩ := slotOf_some hj
  rw [hj, h.slot_unique hlt hi hvj hv hk]

theorem add_null (key : ℕ) (pValue : Memory) :
    (kvListAdd l key pValue).2 = none ↔ depth ≤ s.map.keys.card := by
  have hc := h.card_keys
  have hd := h.depth_eq
  by_cases hroom : s.map.keys.card < depth
  · obtain ⟨i, _, _, ha⟩ := kvListAdd_room h.wf (by omega) key pValue
    simp [ha, hroom]
  · simp [kvListAdd_full (l := l) (by omega) key pValue, not_lt.mp hroom]

theorem walk_sorted (hf : s.fresh = true) : (kvListWalk l).Pairwise (· < ·) := by
  have hn := h.nodup_keys
  rw [← KvList.filterMap_walk] at hn
  exact ((h.fresh hf).and hn).imp (fun hab => lt_of_le_of_ne hab.1 hab.2)

theorem observes (lib : Stdlib) : Observes lib depth l s where
  add_null := h.add_null
  add_full key pValue hfull := by
    have hc := h.card_keys
    have hd := h.depth_eq
    rw [kvListAdd_full (by omega)]
  search_isSome key := (kvListSearch_isSome lib h.wf key).trans h.mem_keys
  search_payload key i hs := by
    have hr := search_reply h lib key
    rw [hs] at hr
    exact hr.symm
  walk_nodup := by
    rw [KvList.filterMap_walk]
    exact h.nodup_keys
  walk_mem key := by rw [KvList.filterMap_walk, h.mem_keys]
  walk_sorted := h.walk_sorted
  count_eq := h.card_keys.symm
  slot_unique i hi hv := h.slotOf_eq hi hv

end Holds

theorem Holds.search_eq {depth width : ℕ} {l : KvList} {s : State} (h : Holds depth width l s)
    (lib : Stdlib) (key : ℕ) : kvListSearch lib l key = slotOf l key := by
  cases hs : kvListSearch lib l key with
  | none =>
    have hk := (kvListSearch_eq_none h.wf).mp hs
    rw [← slotOf_isSome, Option.not_isSome_iff_eq_none] at hk
    exact hk.symm
  | some i =>
    obtain ⟨hi, hv, rfl⟩ := kvListSearch_some h.wf hs
    exact (h.slotOf_eq hi hv).symm

theorem slotOf_set {l k : KvList} {i key : ℕ} {n : KvNode} (hi : i < l.depth)
    (hk : k.nodeArray = l.nodeArray.set i n)
    (hold : (l.node i).valid = true → (l.node i).key ≠ key)
    (hnew : n.valid = true → n.key ≠ key) : slotOf k key = slotOf l key := by
  obtain ⟨as, bs, has, hs⟩ := KvList.split_slot l.nodeArray hi
  have hpold : ((l.node i).valid && (l.node i).key == key) = false := by
    simpa using hold
  have hpnew : (n.valid && n.key == key) = false := by
    simpa using hnew
  rw [slotOf, slotOf, hk, set_slot hs has, hs]
  change _ = List.findIdx? _ (as ++ l.node i :: bs)
  rw [List.findIdx?_append, List.findIdx?_append, List.findIdx?_cons, List.findIdx?_cons,
    hpold, hpnew]

/-- Every run of allowed calls succeeds, answers as the map does, and leaves a
list that shows the map. -/
theorem kv_list_refines_finite_map (lib : Stdlib) (l₀ : KvList)
    (h₀ : ∀ n ∈ l₀.nodeArray, n.valid = false) (ops : List Op)
    (h : Legal (spec l₀.depth l₀.width) allowed State.init ops) :
    ∃ l, runOps (step lib) (kvListInit l₀) ops =
        some (l, (runSpec (spec l₀.depth l₀.width) State.init ops).2) ∧
      Observes lib l₀.depth l (runSpec (spec l₀.depth l₀.width) State.init ops).1 := by
  obtain ⟨l, hl, hh⟩ := run_refines (Holds l₀.depth l₀.width)
    (step_refines lib l₀.depth l₀.width) (holds_init h₀) h
  exact ⟨l, hl, hh.observes lib⟩

def twoSlots : KvList :=
  ⟨0, 2, [⟨false, 0, 0⟩, ⟨false, 0, 0⟩], 100, fun _ => 0, false⟩

theorem kv_list_refines_finite_map_two_slots :
    ∃ l, runOps (step Stdlib.reference) (kvListInit twoSlots)
        [.add 7 (fun _ => 1), .add 3 (fun _ => 2), .add 5 (fun _ => 3), .sort, .walk, .search 7,
          .removeNode 3, .add 9 (fun _ => 4), .remove 7, .search 9, .clear] =
        some (l, (runSpec (spec 2 2) State.init
          [.add 7 (fun _ => 1), .add 3 (fun _ => 2), .add 5 (fun _ => 3), .sort, .walk, .search 7,
            .removeNode 3, .add 9 (fun _ => 4), .remove 7, .search 9, .clear]).2) ∧
      Observes Stdlib.reference 2 l (runSpec (spec 2 2) State.init
        [.add 7 (fun _ => 1), .add 3 (fun _ => 2), .add 5 (fun _ => 3), .sort, .walk, .search 7,
          .removeNode 3, .add 9 (fun _ => 4), .remove 7, .search 9, .clear]).1 :=
  kv_list_refines_finite_map Stdlib.reference twoSlots (by simp [twoSlots]) _ (by decide)

end BleFirmware.KvListMap
