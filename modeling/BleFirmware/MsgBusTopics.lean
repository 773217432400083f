import BleFirmware.KvListSearch
import BleFirmware.MsgBus

/-!
# The topics of a channel

A topic list is a kv list of `mbus_topic_t` objects with distinct topic ids.
Registering a topic and sorting keep it so, the search finds a topic exactly
when it is registered, and what is read through the node that was found is the
topic's object for as long as the node stays in its slot.
-/

namespace BleFirmware.MsgBusTopics
open Bytes CSort

structure HoldsTopics (l : KvList) : Prop where
  wf : l.Wf
  width_eq : l.width = MbusTopic.layout.size
  nodup : l.entries.NodupKeys

variable {l : KvList}

structure Fresh (l : KvList) : Prop where
  width_eq : l.width = MbusTopic.layout.size
  free : ∀ n ∈ l.nodeArray, n.valid = false

theorem Fresh.holdsTopics (h : Fresh l) : HoldsTopics (kvListInit l) := by
  refine ⟨kvListInit_wf h.free, h.width_eq, ?_⟩
  rw [kvListInit_entries h.free]
  exact List.nodupKeys_nil

theorem Fresh.init (h : Fresh l) : Fresh (kvListInit l) := by
  refine ⟨h.width_eq, ?_⟩
  intro n hn
  obtain ⟨i, hi, rfl⟩ := List.mem_mapIdx.mp hn
  exact h.free l.nodeArray[i] (List.getElem_mem hi)

theorem initLists_holdsTopics {is : List ℕ} {lists : ℕ → KvList}
    (h : ∀ i ∈ is, Fresh (lists i)) {i : ℕ} (hi : i ∈ is ∨ HoldsTopics (lists i)) :
    HoldsTopics
      (is.foldl (fun ls j => Function.update ls j (kvListInit (ls j))) lists i) := by
  induction is generalizing lists with
  | nil => exact hi.resolve_left (by simp)
  | cons j is ih =>
    have hj := h j (List.mem_cons_self ..)
    rw [List.foldl_cons]
    apply ih
    · intro m hm
      by_cases hmj : m = j
      · subst hmj
        rw [Function.update_self]
        exact hj.init
      · rw [Function.update_of_ne hmj]
        exact h m (List.mem_cons_of_mem j hm)
    · by_cases hij : i = j
      · subst hij
        rw [Function.update_self]
        exact Or.inr hj.holdsTopics
      · rw [Function.update_of_ne hij]
        exact hi.imp (fun hm => (List.mem_cons.mp hm).resolve_left hij) id

theorem holdsTopics_sort (lib : Stdlib) (h : HoldsTopics l) : HoldsTopics (kvListSort lib l) :=
  ⟨kvListSort_wf h.wf, h.width_eq,
    (List.perm_nodupKeys (kvListSort_entries lib l)).mpr h.nodup⟩

theorem holdsTopics_add (h : HoldsTopics l) {key : ℕ} (hk : key ∉ l.entries.keys)
    (pValue : Memory) : HoldsTopics (kvListAdd l key pValue).1 := by
  by_cases hc : l.count < l.depth
  · obtain ⟨i, hi, hv, he⟩ := kvListAdd_room h.wf hc key pValue
    rw [he]
    refine ⟨addAt_wf h.wf hi hv key pValue, h.width_eq, ?_⟩
    rw [List.perm_nodupKeys (addAt_entries h.wf hi hv key pValue), List.nodupKeys_cons]
    exact ⟨hk, h.nodup⟩
  · rw [kvListAdd_full (not_lt.mp hc)]
    exact h

theorem add_node (h : HoldsTopics l) (key : ℕ) (pValue : Memory) {i : ℕ}
    (hv : (l.node i).valid = true) :
    (kvListAdd l key pValue).1.node i = l.node i := by
  by_cases hc : l.count < l.depth
  · obtain ⟨j, hj, hvj, he⟩ := kvListAdd_room h.wf hc key pValue
    have hne : j ≠ i := by
      intro hji
      rw [hji, hv] at hvj
      exact absurd hvj (by simp)
    rw [he]
    simp [KvList.addAt, KvList.node, List.getD_eq_getElem?_getD, List.getElem?_set_ne hne]
  · rw [kvListAdd_full (not_lt.mp hc)]

theorem add_depth (h : HoldsTopics l) (key : ℕ) (pValue : Memory) :
    (kvListAdd l key pValue).1.depth = l.depth := by
  by_cases hc : l.count < l.depth
  · obtain ⟨j, _, _, he⟩ := kvListAdd_room h.wf hc key pValue
    rw [he]
    simp [KvList.addAt, KvList.depth]
  · rw [kvListAdd_full (not_lt.mp hc)]

theorem sort_depth (lib : Stdlib) (l : KvList) : (kvListSort lib l).depth = l.depth :=
  (kvListSort_perm lib l).length_eq

structure TopicAt (l : KvList) (i : ℕ) (id : UInt32) : Prop where
  lt_depth : i < l.depth
  valid : (l.node i).valid = true
  key_eq : (l.node i).key = id.toNat

theorem topicAt_congr {l k : KvList} {i : ℕ} {id : UInt32} (h : TopicAt l i id)
    (hd : k.depth = l.depth) (hn : k.node i = l.node i) : TopicAt k i id := by
  refine ⟨?_, ?_, ?_⟩
  · rw [hd]
    exact h.lt_depth
  · rw [hn]
    exact h.valid
  · rw [hn]
    exact h.key_eq

theorem search_topicAt {lib : Stdlib} (h : HoldsTopics l) {id : UInt32} {i : ℕ}
    (hs : kvListSearch lib l id.toNat = some i) : TopicAt l i id := by
  obtain ⟨hi, hv, hk⟩ := kvListSearch_some h.wf hs
  exact ⟨hi, hv, hk⟩

def callbackOf (l : KvList) (id : UInt32) : UInt32 :=
  match l.entries.dlookup id.toNat with
  | some bytes => (MbusTopic.layout.ofBytes bytes).callback
  | none => 0

theorem callbackOf_unregistered {lib : Stdlib} (h : HoldsTopics l) {id : UInt32}
    (hs : kvListSearch lib l id.toNat = none) : callbackOf l id = 0 := by
  have hk := (kvListSearch_eq_none h.wf).mp hs
  rw [callbackOf, List.dlookup_eq_none.mpr hk]

theorem callbackOf_topicAt (h : HoldsTopics l) {id : UInt32} {i : ℕ} (ht : TopicAt l i id) :
    (MbusTopic.layout.ofBytes
      (readBytes l.data (l.node i).dataPtr MbusTopic.layout.size)).callback = callbackOf l id := by
  have hm : (⟨id.toNat, l.payload (l.node i)⟩ : Entry) ∈ l.entries := by
    have he := KvList.mem_entries ht.lt_depth ht.valid
    rw [KvList.entry, ht.key_eq] at he
    exact he
  rw [callbackOf, (List.mem_dlookup_iff h.nodup).mpr hm, ← h.width_eq]
  rfl

end BleFirmware.MsgBusTopics
