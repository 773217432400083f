import BleFirmware.KvList
import Mathlib.Data.List.Sigma

/-!
# What a kv list holds

`entries l` lists the live entries in slot order, each key with the bytes
behind its `data_ptr`; the order is only a matter of slots, so the operations
are described up to permutation. Keys may repeat here: `kv_list_add` does not
look for the key it is given.

`Wf` is the invariant of all runs: `count` counts the valid nodes, the
`data_ptr` fields are the payload windows in some order, and the array is
ordered by the comparator whenever `_sorted` says so.
-/

namespace BleFirmware
open Bytes CSort

abbrev Entry := Σ _ : ℕ, List UInt8

def Apart (w p q : ℕ) : Prop := p + w ≤ q ∨ q + w ≤ p

theorem Apart.symm {w p q : ℕ} (h : Apart w p q) : Apart w q p := Or.symm h

namespace KvList

def entry (l : KvList) (n : KvNode) : Entry := ⟨n.key, l.payload n⟩

def entriesOf (l : KvList) (ns : List KvNode) : List Entry := (ns.filter (·.valid)).map l.entry

def entries (l : KvList) : List Entry := l.entriesOf l.nodeArray

def windows (l : KvList) : List ℕ :=
  (List.range l.depth).map fun i => l.dataArray + i * l.width

structure Wf (l : KvList) : Prop where
  count_eq : l.count = l.nodeArray.countP (·.valid)
  windows_perm : (l.nodeArray.map (·.dataPtr)).Perm l.windows
  ordered : l.sorted = true → l.nodeArray.Pairwise (fun m n => compareNodeKey m n ≤ 0)

@[simp] theorem entriesOf_append (l : KvList) (ns ms : List KvNode) :
    l.entriesOf (ns ++ ms) = l.entriesOf ns ++ l.entriesOf ms := by
  simp [entriesOf]

theorem entriesOf_cons_valid (l : KvList) {n : KvNode} (hn : n.valid = true) (ns : List KvNode) :
    l.entriesOf (n :: ns) = l.entry n :: l.entriesOf ns := by
  simp [entriesOf, hn]

theorem entriesOf_cons_free (l : KvList) {n : KvNode} (hn : n.valid = false)
    (ns : List KvNode) : l.entriesOf (n :: ns) = l.entriesOf ns := by
  simp [entriesOf, hn]

theorem entriesOf_congr {l k : KvList} {ns : List KvNode}
    (h : ∀ n ∈ ns, k.payload n = l.payload n) : k.entriesOf ns = l.entriesOf ns := by
  refine List.map_congr_left (fun n hn => ?_)
  simp only [entry, h n (List.mem_of_mem_filter hn)]

theorem length_entries (l : KvList) : l.entries.length = l.nodeArray.countP (·.valid) := by
  simp [entries, entriesOf, List.countP_eq_length_filter]

theorem Wf.count_entries {l : KvList} (h : l.Wf) : l.count = l.entries.length :=
  h.count_eq.trans l.length_entries.symm

theorem Wf.count_le {l : KvList} (h : l.Wf) : l.count ≤ l.depth := by
  rw [h.count_eq]
  exact List.countP_le_length

theorem windows_apart (l : KvList) : l.windows.Pairwise (Apart l.width) := by
  refine List.Pairwise.map _ (fun i j hij => ?_) List.pairwise_lt_range
  have hle := succ_mul_le l.width hij
  left
  omega

theorem Wf.apart {l : KvList} (h : l.Wf) :
    l.nodeArray.Pairwise (fun m n => Apart l.width m.dataPtr n.dataPtr) := by
  have hp := (h.windows_perm.pairwise_iff Apart.symm).mpr l.windows_apart
  exact List.pairwise_map.mp hp

theorem split_slot (ns : List KvNode) {i : ℕ} (hi : i < ns.length) :
    ∃ as bs, as.length = i ∧ ns = as ++ ns.getD i default :: bs := by
  refine ⟨ns.take i, ns.drop (i+1), by simp; omega, ?_⟩
  have hd := List.drop_eq_getElem_cons hi
  conv_lhs => rw [← List.take_append_drop i ns, hd]
  simp [hi]

theorem filterMap_walk (l : KvList) : kvListWalk l = l.entries.keys := by
  simp only [kvListWalk, entries, entriesOf, List.keys, List.map_map]
  induction l.nodeArray with
  | nil => rfl
  | cons n ns ih =>
    by_cases hn : n.valid = true
    · simp [hn, ih, entry]
    · simp [hn, ih]

end KvList

namespace KvList

def addAt (l : KvList) (i key : ℕ) (pValue : Memory) : KvList :=
  { l with
    nodeArray := l.nodeArray.set i { l.node i with valid := true, key := key }
    data := memcpy l.data (l.node i).dataPtr pValue l.width
    count := l.count+1
    sorted := false }

def removeAt (l : KvList) (i : ℕ) : KvList :=
  { l with
    nodeArray := l.nodeArray.set i { l.node i with valid := false, key := kvKeyInvalid }
    count := sizeDec l.count
    sorted := false }

end KvList

theorem kvListAdd_full {l : KvList} (h : l.depth ≤ l.count) (key : ℕ) (pValue : Memory) :
    kvListAdd l key pValue = (l, none) := by
  simp only [kvListAdd, ge_iff_le, h, if_true]

/-- As long as `count` counts the valid nodes, there is a free slot behind the test
of `count`. -/
theorem kvListAdd_counted {l : KvList} (hcount : l.count = l.nodeArray.countP (·.valid))
    (hc : l.count < l.depth) (key : ℕ) (pValue : Memory) :
    ∃ i, i < l.depth ∧ (l.node i).valid = false ∧
      kvListAdd l key pValue = (l.addAt i key pValue, some i) := by
  cases hf : l.nodeArray.findIdx? (fun n => !n.valid) with
  | none =>
    -- Without a free slot every node would be counted.
    have hall := List.findIdx?_eq_none_iff.mp hf
    have hfull : l.nodeArray.countP (·.valid) = l.nodeArray.length :=
      List.countP_eq_length.mpr (fun n hn => by simpa using hall n hn)
    simp only [KvList.depth] at hc
    omega
  | some i =>
    obtain ⟨hi, hv, _⟩ := List.findIdx?_eq_some_iff_getElem.mp hf
    have hnode : l.node i = l.nodeArray[i] := by simp [KvList.node, hi]
    refine ⟨i, hi, by rw [hnode]; simpa using hv, ?_⟩
    simp only [kvListAdd, ge_iff_le, not_le.mpr hc, if_false, hf, KvList.addAt]

theorem kvListAdd_room {l : KvList} (h : l.Wf) (hc : l.count < l.depth) (key : ℕ)
    (pValue : Memory) :
    ∃ i, i < l.depth ∧ (l.node i).valid = false ∧
      kvListAdd l key pValue = (l.addAt i key pValue, some i) :=
  kvListAdd_counted h.count_eq hc key pValue

theorem set_slot {ns as bs : List KvNode} {n : KvNode} {i : ℕ} (hs : ns = as ++ n :: bs)
    (hi : as.length = i) (m : KvNode) : ns.set i m = as ++ m :: bs := by
  subst hs hi
  simp

theorem map_dataPtr_set {ns as bs : List KvNode} {n : KvNode} {i : ℕ} (hs : ns = as ++ n :: bs)
    (hi : as.length = i) {m : KvNode} (hm : m.dataPtr = n.dataPtr) :
    (ns.set i m).map (·.dataPtr) = ns.map (·.dataPtr) := by
  rw [set_slot hs hi, hs]
  simp [hm]

section Slot

variable {l : KvList} {i : ℕ} (h : l.Wf) (hi : i < l.depth)

include h in
theorem addAt_payload_other (key : ℕ) (pValue : Memory) {as bs : List KvNode}
    (hs : l.nodeArray = as ++ l.node i :: bs) {n : KvNode} (hn : n ∈ as ∨ n ∈ bs) :
    (l.addAt i key pValue).payload n = l.payload n := by
  have ha := h.apart
  rw [hs, List.pairwise_append, List.pairwise_cons] at ha
  refine readBytes_memcpy_of_disjoint _ _ ?_
  rcases hn with hn | hn
  · exact (ha.2.2 n hn _ (by simp)).symm
  · exact ha.2.1.1 n hn

include hi in
theorem addAt_node (key : ℕ) (pValue : Memory) :
    (l.addAt i key pValue).node i = { l.node i with valid := true, key := key } := by
  have hi' : i < l.nodeArray.length := hi
  simp [KvList.node, KvList.addAt, hi']

theorem addAt_payload (key : ℕ) (pValue : Memory) {n : KvNode}
    (hn : n.dataPtr = (l.node i).dataPtr) :
    (l.addAt i key pValue).payload n = firstBytes pValue l.width := by
  simp only [KvList.payload, KvList.addAt, hn]
  exact readBytes_memcpy _ _ _ _

include hi in
theorem addAt_counted (hcount : l.count = l.nodeArray.countP (·.valid))
    (hv : (l.node i).valid = false) (key : ℕ) (pValue : Memory) :
    (l.addAt i key pValue).count = (l.addAt i key pValue).nodeArray.countP (·.valid) := by
  obtain ⟨as, bs, has, hs⟩ := KvList.split_slot l.nodeArray hi
  simp only [KvList.addAt]
  rw [set_slot hs has, List.countP_append, List.countP_cons_of_pos rfl, hcount, hs,
    List.countP_append, List.countP_cons_of_neg (by simpa [KvList.node] using hv)]
  omega

include h hi in
theorem addAt_wf (hv : (l.node i).valid = false) (key : ℕ) (pValue : Memory) :
    (l.addAt i key pValue).Wf := by
  obtain ⟨as, bs, has, hs⟩ := KvList.split_slot l.nodeArray hi
  refine ⟨addAt_counted hi h.count_eq hv key pValue, ?_, by simp [KvList.addAt]⟩
  · have hw : (l.addAt i key pValue).windows = l.windows := by
      simp [KvList.windows, KvList.depth, KvList.addAt]
    rw [hw]
    simp only [KvList.addAt]
    rw [map_dataPtr_set hs has (by rfl)]
    exact h.windows_perm

include h hi in
theorem addAt_entries (hv : (l.node i).valid = false) (key : ℕ) (pValue : Memory) :
    (l.addAt i key pValue).entries.Perm (⟨key, firstBytes pValue l.width⟩ :: l.entries) := by
  obtain ⟨as, bs, has, hs⟩ := KvList.split_slot l.nodeArray hi
  have he : (l.addAt i key pValue).entries = l.entriesOf as ++
      ⟨key, firstBytes pValue l.width⟩ :: l.entriesOf bs := by
    have hn : (l.addAt i key pValue).nodeArray =
        as ++ { l.node i with valid := true, key := key } :: bs := set_slot hs has _
    rw [KvList.entries, hn, KvList.entriesOf_append, KvList.entriesOf_cons_valid _ rfl,
      KvList.entriesOf_congr (fun n hn => addAt_payload_other h key pValue hs (Or.inl hn)),
      KvList.entriesOf_congr (fun n hn => addAt_payload_other h key pValue hs (Or.inr hn)),
      KvList.entry, addAt_payload key pValue (by rfl)]
  have hl : l.entries = l.entriesOf as ++ l.entriesOf bs := by
    rw [KvList.entries, hs, KvList.entriesOf_append,
      KvList.entriesOf_cons_free _ (by simpa [KvList.node] using hv)]
  rw [he, hl]
  exact List.perm_middle

include h hi in
theorem removeAt_wf (hv : (l.node i).valid = true) : (l.removeAt i).Wf := by
  obtain ⟨as, bs, has, hs⟩ := KvList.split_slot l.nodeArray hi
  refine ⟨?_, ?_, by simp [KvList.removeAt]⟩
  · have hc := h.count_eq
    rw [hs, List.countP_append, List.countP_cons_of_pos (by simpa [KvList.node] using hv)] at hc
    simp only [KvList.removeAt]
    rw [set_slot hs has, List.countP_append, List.countP_cons_of_neg (by simp), hc,
      ← Nat.add_assoc, sizeDec_succ]
  · have hw : (l.removeAt i).windows = l.windows := by
      simp [KvList.windows, KvList.depth, KvList.removeAt]
    rw [hw]
    simp only [KvList.removeAt]
    rw [map_dataPtr_set hs has (by rfl)]
    exact h.windows_perm

include hi in
theorem removeAt_entries (hv : (l.node i).valid = true) :
    l.entries.Perm (l.entry (l.node i) :: (l.removeAt i).entries) := by
  obtain ⟨as, bs, has, hs⟩ := KvList.split_slot l.nodeArray hi
  have he : (l.removeAt i).entries = l.entriesOf as ++ l.entriesOf bs := by
    have hn : (l.removeAt i).nodeArray =
        as ++ { l.node i with valid := false, key := kvKeyInvalid } :: bs := set_slot hs has _
    rw [KvList.entries, hn, KvList.entriesOf_append, KvList.entriesOf_cons_free _ rfl]
    rfl
  have hl : l.entries = l.entriesOf as ++ l.entry (l.node i) :: l.entriesOf bs := by
    conv_lhs => rw [KvList.entries, hs]
    rw [KvList.entriesOf_append, KvList.entriesOf_cons_valid _ (by simpa [KvList.node] using hv)]
    rfl
  rw [he, hl]
  exact List.perm_middle

theorem node_set_dataPtr {k : KvList} {n : KvNode} (hk : k.nodeArray = l.nodeArray.set i n)
    (hn : n.dataPtr = (l.node i).dataPtr) (j : ℕ) :
    (k.node j).dataPtr = (l.node j).dataPtr := by
  rw [KvList.node, hk, List.getD_eq_getElem?_getD, List.getElem?_set]
  by_cases hj : i = j
  · subst hj
    by_cases hi : i < l.nodeArray.length
    · simp [hi, hn]
    · simp [hi, KvList.node]
  · simp [hj, KvList.node]

theorem addAt_dataPtr (key : ℕ) (pValue : Memory) (j : ℕ) :
    ((l.addAt i key pValue).node j).dataPtr = (l.node j).dataPtr :=
  node_set_dataPtr (n := { l.node i with valid := true, key := key }) rfl rfl j

theorem removeAt_dataPtr (j : ℕ) : ((l.removeAt i).node j).dataPtr = (l.node j).dataPtr :=
  node_set_dataPtr (n := { l.node i with valid := false, key := kvKeyInvalid }) rfl rfl j

include h hi in
theorem addAt_payload_ne (key : ℕ) (pValue : Memory) {j : ℕ} (hj : j < l.depth) (hji : j ≠ i) :
    (l.addAt i key pValue).payload (l.node j) = l.payload (l.node j) := by
  have ha := List.pairwise_iff_getElem.mp h.apart
  have hi' : i < l.nodeArray.length := hi
  have hj' : j < l.nodeArray.length := hj
  apply readBytes_memcpy_of_disjoint
  simp only [KvList.node, List.getD_eq_getElem _ _ hi', List.getD_eq_getElem _ _ hj']
  rcases Nat.lt_or_gt_of_ne hji with hlt | hlt
  · exact (ha j i hj' hi' hlt).symm
  · exact ha i j hi' hj' hlt

end Slot

end BleFirmware
