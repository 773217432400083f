import BleFirmware.Base.Run
import BleFirmware.LinkedListSort

/-!
# Searching an array list

A sorted list is searched in the whole array, any other along its links. The
two agree as long as the allocated nodes are the linked ones from the sort on:
inserting a node makes the list unsorted, but taking one from the array, taking
one out of the list and giving one back do not.
-/

namespace BleFirmware.LinkedListSearch
open CSort ListAlgo Segment Run

variable {D : Type}

inductive Op (D : Type)
  | alloc (dataLen : ℕ)
  | insertHead (p : Addr)
  | insertTail (p : Addr)
  | removeHead
  | removeTail
  | removeNode (p : Option Addr)
  | free (p : Addr)
  | setNodeData (p : Addr) (x : D)
  | sort
  deriving DecidableEq

def step (lib : Stdlib) (compare : ListCmp D) (l : LinkedList D) : Op D → Option (LinkedList D)
  | .alloc dataLen => some (linkedListAllocNode l (fun _ => none) dataLen).1
  | .insertHead p => some (linkedListInsertHead l p)
  | .insertTail p => linkedListInsertTail l p
  | .removeHead => (linkedListRemoveHead l).map Prod.fst
  | .removeTail => (linkedListRemoveTail l).map Prod.fst
  | .removeNode p => some (linkedListRemoveNode l p).1
  | .free p => linkedListFreeNode l p
  | .setNodeData p x => some (l.setNodeData p x)
  | .sort => some (linkedListSort lib l compare)

/-- The nodes that are met from the head on. There are `depth` of them at most. -/
def linkedNodes (l : LinkedList D) : List Addr := walk l.next l.depth l.head

def IsSlot (l : LinkedList D) (p : Addr) : Prop := ∃ i < l.depth, p = l.slot i

def usedCount (l : LinkedList D) : ℕ :=
  (List.range l.depth).countP fun i => used (l.opt (l.slot i))

/-- Nodes are inserted that are not linked, and removed that are. From a sort on,
no allocation finds a free slot, no removal a node and no free a linked one, and
payloads stay as they are; and the sort links every allocated node. -/
def Kept (l : LinkedList D) : Op D → Prop
  | .alloc _ => l.sorted = true → ∀ i < l.depth, used (l.opt (l.slot i)) = true
  | .insertHead p => IsSlot l p ∧ p ∉ linkedNodes l
  | .insertTail p => IsSlot l p ∧ p ∉ linkedNodes l
  | .removeHead => l.sorted = true → linkedNodes l = []
  | .removeTail => l.sorted = true → linkedNodes l = []
  | .removeNode p => ∀ q ∈ p, q ∈ linkedNodes l ∧ l.sorted = false
  | .free p => IsSlot l p ∧ (l.sorted = true → p ∉ linkedNodes l)
  | .setNodeData _ _ => l.sorted = false
  | .sort => usedCount l ≤ l.count ∧ l.count ≤ l.depth

structure SortedOk (compare : ListCmp D) (l : LinkedList D) : Prop where
  used_linked : ∀ i < l.depth, used (l.opt (l.slot i)) = true → l.slot i ∈ linkedNodes l
  ordered : l.views.Pairwise fun v w => compare v w ≤ 0

structure Inv (compare : ListCmp D) (l : LinkedList D) : Prop where
  arrayBased : l.arrayBased = true
  chain : ∃ xs, Chained l.toLinkList xs ∧ ∀ p ∈ xs, IsSlot l p
  sorted : l.sorted = true → SortedOk compare l

variable {lib : Stdlib} {compare : ListCmp D} {l : LinkedList D} {xs : List Addr}

theorem linkedNodes_eq (h : Chained l.toLinkList xs) (hs : ∀ p ∈ xs, IsSlot l p) :
    linkedNodes l = xs := by
  have hsub : xs ⊆ (List.range l.depth).map l.slot := by
    intro p hp
    obtain ⟨i, hi, rfl⟩ := hs p hp
    exact List.mem_map_of_mem (List.mem_range.mpr hi)
  have hlen : xs.length ≤ l.depth := by
    have hle := (List.subperm_of_subset h.nodup hsub).length_le
    simpa using hle
  exact h.forward.walk_of_le hlen

theorem Inv.chained (h : Inv compare l) : Chained l.toLinkList (linkedNodes l) := by
  obtain ⟨xs, hc, hs⟩ := h.chain
  rw [linkedNodes_eq hc hs]
  exact hc

theorem Inv.isSlot (h : Inv compare l) : ∀ p ∈ linkedNodes l, IsSlot l p := by
  obtain ⟨xs, hc, hs⟩ := h.chain
  rw [linkedNodes_eq hc hs]
  exact hs

section Search

variable {payloadCmp : D → D → ℤ}

theorem search_run (compare : ListCmp D) (l : LinkedList D) (x : D) {p : Option Addr} (h : Seg l.next p xs none)
    {n : ℕ} (hn : xs.length < n) :
    Loop.run (searchBody l x compare) n p =
      some (xs.find? fun q => compare (l.view q) (targetView x) = 0) := by
  induction xs generalizing p n with
  | nil =>
    obtain rfl : p = none := h
    obtain ⟨n, rfl⟩ : ∃ m, n = m+1 := ⟨n-1, by simp at hn; omega⟩
    exact Loop.run_succ_inr rfl n
  | cons y ys ih =>
    obtain ⟨rfl, ht⟩ := h
    obtain ⟨n, rfl⟩ : ∃ m, n = m+1 := ⟨n-1, by simp at hn; omega⟩
    by_cases hy : compare (l.view y) (targetView x) = 0
    · rw [Loop.run_succ_inr (b := some y) (by simp [searchBody, hy])]
      simp [hy]
    · rw [Loop.run_succ_inl (t := l.next y) (by simp [searchBody, hy])]
      rw [ih ht (by simpa using hn)]
      simp [hy]

end Search

section Steps

variable {payloadCmp : D → D → ℤ} {t : LinkedList D}

theorem inv_unsorted (ha : t.arrayBased = true) {ys : List Addr} (hc : Chained t.toLinkList ys)
    (hys : ∀ p ∈ ys, IsSlot t p) (hs : t.sorted = false) : Inv compare t := by
  refine ⟨ha, ⟨ys, hc, hys⟩, ?_⟩
  intro h
  rw [hs] at h
  exact absurd h Bool.false_ne_true

/-- A sorted list without linked nodes has no allocated ones either, and the links
may change as they like. -/
theorem inv_relink (h : Inv compare l) {k : LinkList Addr} {n : ℕ} {ys : List Addr}
    (hc : Chained k ys) (hys : ∀ p ∈ ys, IsSlot l p)
    (hs : l.sorted = true → linkedNodes l = []) :
    Inv compare { l with toLinkList := k, count := n } := by
  refine ⟨h.arrayBased, ⟨ys, hc, hys⟩, ?_⟩
  intro hsorted
  have hok := h.sorted hsorted
  refine ⟨?_, hok.ordered⟩
  intro i hi hu
  have hm := hok.used_linked i hi hu
  rw [hs hsorted] at hm
  exact absurd hm List.not_mem_nil

theorem probeIndex_lt (last i : ℕ) {depth : ℕ} (h : 0 < depth) : probeIndex last i depth < depth := by
  unfold probeIndex
  split_ifs
  · have hle : power2GetMod (last + i) depth ≤ depth - 1 := Nat.and_le_right
    omega
  · exact Nat.mod_lt _ h

theorem step_alloc (h : Inv compare l) (dataLen : ℕ)
    (hk : l.sorted = true → ∀ i < l.depth, used (l.opt (l.slot i)) = true) :
    Inv compare (linkedListAllocNode l (fun _ => none) dataLen).1 := by
  simp only [linkedListAllocNode, h.arrayBased, if_true, allocArrayNode]
  cases hf : (List.range l.depth).find? (fun i =>
      !used (l.opt (l.slot (probeIndex l.lastSlotIndex i l.depth)))) with
  | none => exact h
  | some i =>
    have hi := List.mem_range.mp (List.mem_of_find?_eq_some hf)
    have hfree := List.find?_some hf
    have hs : l.sorted = false := by
      by_contra hs
      have hu := hk (by simpa using hs) _ (probeIndex_lt l.lastSlotIndex i (by omega))
      simp [hu] at hfree
    exact inv_unsorted (by rfl) h.chained h.isSlot hs

theorem step_insertTail (h : Inv compare l) {p : Addr} (hp : IsSlot l p)
    (hpl : p ∉ linkedNodes l) (ht : linkedListInsertTail l p = some t) : Inv compare t := by
  obtain ⟨k, hk, rfl⟩ := Option.map_eq_some_iff.mp ht
  obtain ⟨ys, hys, hck⟩ := chained_insertTail h.chained hpl hk
  refine inv_unsorted ?_ hck ?_ rfl
  · exact h.arrayBased
  intro q hq
  cases List.mem_cons.mp (hys hq) with
  | inl he =>
    rw [he]
    exact hp
  | inr hm => exact h.isSlot q hm

theorem step_removeHead (h : Inv compare l) (hk : l.sorted = true → linkedNodes l = [])
    (ht : (linkedListRemoveHead l).map Prod.fst = some t) : Inv compare t := by
  obtain ⟨⟨k, out⟩, hr, rfl⟩ := Option.map_eq_some_iff.mp ht
  rcases linkedListRemoveHead_cases hr with rfl | ⟨p, links, hp, hlinks, rfl⟩
  · exact h
  · obtain ⟨ys, hys, hck⟩ := chained_removeHead h.chained hp hlinks
    exact inv_relink h hck (fun q hq => h.isSlot q (hys hq)) hk

theorem step_removeTail (h : Inv compare l) (hk : l.sorted = true → linkedNodes l = [])
    (ht : (linkedListRemoveTail l).map Prod.fst = some t) : Inv compare t := by
  obtain ⟨⟨k, out⟩, hr, rfl⟩ := Option.map_eq_some_iff.mp ht
  rcases linkedListRemoveTail_cases hr with rfl | ⟨p, links, _, hlinks, rfl⟩
  · exact h
  · obtain ⟨ys, hys, hck⟩ := chained_removeTail h.chained hlinks
    exact inv_relink h hck (fun q hq => h.isSlot q (hys hq)) hk

theorem step_removeNode (h : Inv compare l) {p : Option Addr}
    (hk : ∀ q ∈ p, q ∈ linkedNodes l ∧ l.sorted = false) :
    Inv compare (linkedListRemoveNode l p).1 := by
  cases p with
  | none => exact h
  | some p =>
    obtain ⟨hp, hs⟩ := hk p rfl
    obtain ⟨ys, hys, hck⟩ := chained_removeNode h.chained hp
    exact inv_unsorted (by exact h.arrayBased) hck (fun q hq => h.isSlot q (hys hq)) hs

theorem setUsed_free {opt : ℕ} (h : used opt = false) : setUsed opt false = opt := by
  simp only [used, bne_eq_false_iff_eq] at h
  simp only [setUsed, Bool.toNat_false]
  omega

theorem step_free (h : Inv compare l) {p : Addr} (hp : IsSlot l p)
    (hk : l.sorted = true → p ∉ linkedNodes l) (ht : linkedListFreeNode l p = some t) :
    Inv compare t := by
  have heq : linkedListFreeNode l p = some
      { l with
        toLinkList := (l.toLinkList.setNext p none).setPrev p none
        opt := Function.update l.opt p (setUsed (l.opt p) false) } := by
    simp [linkedListFreeNode, h.arrayBased]
  rw [heq] at ht
  obtain rfl := Option.some.inj ht
  by_cases hs : l.sorted = true
  · -- the node was free before, and nothing but its links changes
    have hok := h.sorted hs
    have hck := (h.chained.setNext_notMem (hk hs) none).clearPrev p
    obtain ⟨i, hi, rfl⟩ := hp
    have hunused : used (l.opt (l.slot i)) = false := by
      by_contra hu
      exact hk hs (hok.used_linked i hi (by simpa using hu))
    have hopt : Function.update l.opt (l.slot i) (setUsed (l.opt (l.slot i)) false) = l.opt := by
      rw [setUsed_free hunused]
      exact Function.update_eq_self _ _
    rw [hopt]
    let t : LinkedList D :=
      { l with toLinkList := (l.toLinkList.setNext (l.slot i) none).setPrev (l.slot i) none }
    have hlt : linkedNodes t = linkedNodes l := linkedNodes_eq hck h.isSlot
    refine ⟨h.arrayBased, ⟨linkedNodes l, hck, h.isSlot⟩, fun _ => ⟨?_, hok.ordered⟩⟩
    intro j hj hu
    have hm := hok.used_linked j hj hu
    rw [← hlt] at hm
    exact hm
  · obtain ⟨ys, hys, hck⟩ := chained_free h.chained p
    exact inv_unsorted (by exact h.arrayBased) hck (fun q hq => h.isSlot q (hys hq))
      (by simpa using hs)

/-- In order, with the allocated nodes first, one that is allocated stands before
as many as there are. -/
theorem lt_countP {vs : List (NodeView D)}
    (h : vs.Pairwise fun v w => used w.opt = true → used v.opt = true) {i : ℕ}
    (hi : i < vs.length) (hu : used vs[i].opt = true) : i < vs.countP fun v => used v.opt := by
  induction vs generalizing i with
  | nil => exact absurd hi (Nat.not_lt_zero i)
  | cons v vs ih =>
    obtain ⟨hv, hvs⟩ := List.pairwise_cons.mp h
    cases i with
    | zero =>
      rw [List.countP_cons_of_pos (by simpa using hu)]
      omega
    | succ i =>
      have hi' : i < vs.length := by simpa using hi
      have hrest := ih hvs hi' (by simpa using hu)
      have huv : used v.opt = true := hv vs[i] (List.getElem_mem hi') (by simpa using hu)
      rw [List.countP_cons_of_pos (by simpa using huv)]
      omega

theorem usedCount_eq (l : LinkedList D) : usedCount l = l.views.countP fun v => used v.opt := by
  simp only [usedCount, LinkedList.views, List.countP_map]
  rfl

theorem sorted_used_first (h : t.views.Pairwise fun v w => listCmp payloadCmp v w ≤ 0) :
    t.views.Pairwise fun v w => used w.opt = true → used v.opt = true :=
  h.imp fun hvw hw => listCmp_used hvw hw

theorem inv_sorted (ha : t.arrayBased = true) {ys : List Addr} (hc : Chained t.toLinkList ys)
    (hys : ∀ p ∈ ys, IsSlot t p) (hok : SortedOk compare t) :
    Inv compare { t with sorted := true } :=
  ⟨ha, ⟨ys, hc, hys⟩, fun _ => ⟨hok.used_linked, hok.ordered⟩⟩

theorem sortedOk_unused (hz : usedCount l = 0) : SortedOk (listCmp payloadCmp) l := by
  have hunused : ∀ v ∈ l.views, used v.opt = false := by
    rw [usedCount_eq] at hz
    intro v hv
    have hn := List.countP_eq_zero.mp hz v hv
    simpa using hn
  constructor
  · intro i hi hu
    have hn := hunused _ (List.mem_map_of_mem (List.mem_range.mpr hi))
    exact absurd hu (by simpa [LinkedList.view] using hn)
  · apply List.pairwise_of_forall_mem_list
    intro v hv w hw
    simp [listCmp, hunused v hv, hunused w hw]

theorem inv_sort (hcmp : IsPreorder payloadCmp) {m : ℕ} (ha : l.arrayBased = true)
    (h : Sorted lib (listCmp payloadCmp) l t m) (hu : usedCount l ≤ m+1) (hd : m+1 ≤ l.depth) :
    Inv (listCmp payloadCmp) { t with sorted := true } := by
  obtain ⟨hslot, hdepth, harray⟩ := h.header
  have hordered := h.ordered (listCmp_isPreorder hcmp)
  have hslots : ∀ p ∈ (List.range (m+1)).map l.slot, IsSlot t p := by
    intro p hp
    obtain ⟨i, hi, rfl⟩ := List.mem_map.mp hp
    have him := List.mem_range.mp hi
    exact ⟨i, by omega, by rw [hslot]⟩
  refine inv_sorted (harray.trans ha) h.chained hslots ⟨?_, hordered⟩
  intro i hi hui
  have hlen : t.views.length = t.depth := by simp [LinkedList.views]
  have hi' : i < t.views.length := by omega
  have hview : used t.views[i].opt = true := by
    simpa [LinkedList.views, LinkedList.view] using hui
  -- the allocated nodes fill the first slots, and these are linked
  have hlt := lt_countP (sorted_used_first hordered) hi' hview
  rw [(h.views_perm (listCmp_isPreorder hcmp)).countP_eq, ← usedCount_eq] at hlt
  rw [linkedNodes_eq h.chained hslots, hslot]
  exact List.mem_map_of_mem (List.mem_range.mpr (by omega))

theorem step_sort (hcmp : IsPreorder payloadCmp) (h : Inv (listCmp payloadCmp) l)
    (hk : usedCount l ≤ l.count ∧ l.count ≤ l.depth) :
    Inv (listCmp payloadCmp) (linkedListSort lib l (listCmp payloadCmp)) := by
  rw [linkedListSort_array h.arrayBased]
  cases hcount : l.count with
  | zero =>
    rw [qsortArrayList_uncounted hcount]
    exact inv_sorted h.arrayBased h.chained h.isSlot (sortedOk_unused (by omega))
  | succ m =>
    have hsort : Sorted lib (listCmp payloadCmp) l
        (qsortArrayList lib l (listCmp payloadCmp)) m :=
      qsortArrayList_sorted (listCmp_isPreorder hcmp) hcount
    exact inv_sort hcmp h.arrayBased hsort (by omega) (by omega)

theorem step_inv (hcmp : IsPreorder payloadCmp) (h : Inv (listCmp payloadCmp) l) {op : Op D}
    (hk : Kept l op) (ht : step lib (listCmp payloadCmp) l op = some t) :
    Inv (listCmp payloadCmp) t := by
  cases op with
  | alloc dataLen =>
    obtain rfl := Option.some.inj ht
    exact step_alloc h dataLen hk
  | insertHead p =>
    obtain rfl := Option.some.inj ht
    refine inv_unsorted ?_ (chained_insertHead h.chained hk.2) ?_ rfl
    · exact h.arrayBased
    · intro q hq
      cases List.mem_cons.mp hq with
      | inl he =>
        rw [he]
        exact hk.1
      | inr hm => exact h.isSlot q hm
  | insertTail p => exact step_insertTail h hk.1 hk.2 ht
  | removeHead => exact step_removeHead h hk ht
  | removeTail => exact step_removeTail h hk ht
  | removeNode p =>
    obtain rfl := Option.some.inj ht
    exact step_removeNode h hk
  | free p => exact step_free h hk.1 hk.2 ht
  | setNodeData p x =>
    obtain rfl := Option.some.inj ht
    exact inv_unsorted (by exact h.arrayBased) h.chained h.isSlot hk
  | sort =>
    obtain rfl := Option.some.inj ht
    exact step_sort hcmp h hk

end Steps

structure Defined (l : LinkedList D) : Prop where
  arrayBased : l.arrayBased = true
  depth : l.depth ≠ 0
  width : l.width ≠ 0
  nodeArray : l.nodeArray ≠ none
  dataArray : l.dataArray ≠ none

theorem Defined.init_eq [Inhabited D] (h : Defined l) :
    ∃ next prev opt dataPtr data, linkedListInitForArray l =
        { l with
          toLinkList := ⟨none, none, next, prev⟩, count := 0, sorted := false,
          lastSlotIndex := 0, opt := opt, dataPtr := dataPtr, data := data } ∧
      ∀ i < l.depth, next (l.slot i) = none ∧ prev (l.slot i) = none ∧
        used (opt (l.slot i)) = false ∧ dataPtr (l.slot i) = l.window i := by
  let k : LinkedList D := { l with head := none, tail := none, count := 0, sorted := false }
  have hinit : linkedListInitForArray l =
      { clearData (initSlots k l.depth) with lastSlotIndex := 0 } := by
    simp [linkedListInitForArray, h.arrayBased, h.depth, h.width, h.nodeArray, h.dataArray, k]
  have hread : ∀ i < l.depth, (initSlots k l.depth).readNode (l.slot i) =
      ⟨none, none, setUsed (l.opt (l.slot i)) false, l.window i⟩ := by
    intro i hi
    exact (k.readNode_initSlots l.depth i).trans (if_pos hi)
  obtain ⟨next, prev, opt, dataPtr, hframe⟩ := initSlots_frame k l.depth
  rw [hframe] at hinit hread
  refine ⟨next, prev, opt, dataPtr, _, hinit, ?_⟩
  intro i hi
  have hopt : opt (l.slot i) = setUsed (l.opt (l.slot i)) false :=
    congrArg ListNode.opt (hread i hi)
  refine ⟨congrArg ListNode.next (hread i hi), congrArg ListNode.prev (hread i hi), ?_,
    congrArg ListNode.dataPtr (hread i hi)⟩
  rw [hopt, used_setUsed]

theorem inv_init [Inhabited D] (h : Defined l) (compare : ListCmp D) :
    Inv compare (linkedListInitForArray l) := by
  obtain ⟨next, prev, opt, dataPtr, data, hinit, _⟩ := h.init_eq
  rw [hinit]
  refine inv_unsorted (by exact h.arrayBased) (Chained.nil (by rfl)) ?_ rfl
  intro p hp
  exact absurd hp List.not_mem_nil

section Runs

def compareNum (a b : UInt8) : ℤ := (decide (b < a)).toInt - (decide (a < b)).toInt

theorem compareNum_le {a b : UInt8} : compareNum a b ≤ 0 ↔ a.toNat ≤ b.toNat := by
  simp only [compareNum, UInt8.lt_iff_toNat_lt]
  rcases lt_trichotomy a.toNat b.toNat with h | h | h
  · simp [h, h.le, h.not_gt]
  · simp [h]
  · simp [h, h.not_gt]

theorem compareNum_isPreorder : IsPreorder compareNum := by
  constructor
  · intro a b
    unfold compareNum
    omega
  · intro a b c hab hbc
    rw [compareNum_le] at hab hbc ⊢
    exact hab.trans hbc

def twoSlots : LinkedList UInt8 :=
  ⟨⟨none, none, fun _ => none, fun _ => none⟩, true, 0, 1, 2, some 256, some 512, false, 0,
    fun _ => 0, fun _ => 0, fun _ => 0, fun _ => false⟩

theorem twoSlots_defined : Defined twoSlots := by
  constructor <;> decide

instance (l : LinkedList D) (p : Addr) : Decidable (IsSlot l p) :=
  inferInstanceAs (Decidable (∃ i < l.depth, p = l.slot i))

instance (l : LinkedList D) : ∀ op, Decidable (Kept l op)
  | .alloc _ => inferInstanceAs (Decidable (_ → _))
  | .insertHead _ => inferInstanceAs (Decidable (_ ∧ _))
  | .insertTail _ => inferInstanceAs (Decidable (_ ∧ _))
  | .removeHead => inferInstanceAs (Decidable (_ → _))
  | .removeTail => inferInstanceAs (Decidable (_ → _))
  | .removeNode p => inferInstanceAs (Decidable (∀ q ∈ p, _))
  | .free _ => inferInstanceAs (Decidable (_ ∧ (_ → _)))
  | .setNodeData _ _ => inferInstanceAs (Decidable (_ = _))
  | .sort => inferInstanceAs (Decidable (_ ∧ _))

end Runs

end BleFirmware.LinkedListSearch
