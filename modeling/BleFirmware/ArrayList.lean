import BleFirmware.HeapList
import BleFirmware.LinkedListSearch
import Mathlib.Data.List.Nodup

/-!
# Array lists used as queues

The nodes of an array list are the slots of a pool: a slot is used while its
node is out, and its payload is its window of the data array. The probe of
`alloc_array_node` starts at the slot that it found last and meets every slot
once, whichever of its two ways to wrap it takes. `ArrayHolds l xs` is the
counterpart of `HeapHolds`: the linked nodes `xs` are the ones that are out.
-/

namespace BleFirmware
open ListAlgo Segment Deque LinkedListSearch

variable {D : Type}

/-- The slots of `l` whose nodes are `out` are used, the others are free. -/
structure SlotPool (l : LinkedList D) (out : List Addr) : Prop where
  arrayBased : l.arrayBased = true
  width_ne : l.width ≠ 0
  dataPtr : ∀ i < l.depth, l.dataPtr (l.slot i) = l.window i
  used_iff : ∀ i < l.depth, used (l.opt (l.slot i)) = true ↔ l.slot i ∈ out
  isSlot : ∀ p ∈ out, IsSlot l p
  nodup : out.Nodup

theorem power2GetMod_eq {x y : ℕ} (hy : y ≠ 0) (h : power2Check y = true) :
    power2GetMod x y = x % y := by
  have hand : y &&& (y-1) = 0 := by simpa [power2Check] using h
  obtain ⟨k, rfl⟩ := (Nat.and_sub_one_eq_zero_iff_isPowerOfTwo hy).mp hand
  exact Nat.and_two_pow_sub_one_eq_mod x k

theorem probeIndex_eq (last i : ℕ) {depth : ℕ} (h : depth ≠ 0) :
    probeIndex last i depth = (last + i) % depth := by
  unfold probeIndex
  split_ifs with h2
  · exact power2GetMod_eq h h2
  · rfl

theorem exists_probe (last : ℕ) {depth j : ℕ} (hj : j < depth) :
    ∃ i < depth, probeIndex last i depth = j := by
  have hd : depth ≠ 0 := by omega
  have hr : last % depth < depth := Nat.mod_lt _ (by omega)
  by_cases hle : last % depth ≤ j
  · refine ⟨j - last % depth, by omega, ?_⟩
    rw [probeIndex_eq last _ hd, ← Nat.mod_add_mod, Nat.add_sub_cancel' hle]
    exact Nat.mod_eq_of_lt hj
  · refine ⟨j + depth - last % depth, by omega, ?_⟩
    rw [probeIndex_eq last _ hd, ← Nat.mod_add_mod, Nat.add_sub_cancel' (by omega),
      Nat.add_mod_right]
    exact Nat.mod_eq_of_lt hj

namespace LinkedList

def takeSlot (l : LinkedList D) (i : ℕ) : LinkedList D :=
  { l with
    opt := Function.update l.opt (l.slot i) (setUsed (l.opt (l.slot i)) true)
    lastSlotIndex := i }

def giveNode (l : LinkedList D) (p : Addr) : LinkedList D :=
  { l with
    toLinkList := (l.toLinkList.setNext p none).setPrev p none
    opt := Function.update l.opt p (setUsed (l.opt p) false) }

theorem window_injective (l : LinkedList D) (h : l.width ≠ 0) : Function.Injective l.window := by
  intro i j hij
  exact Nat.eq_of_mul_eq_mul_right (Nat.pos_of_ne_zero h) (Nat.add_left_cancel hij)

end LinkedList

theorem linkedListFreeNode_array {l : LinkedList D} (h : l.arrayBased = true) (p : Addr) :
    linkedListFreeNode l p = some (l.giveNode p) := by
  simp [linkedListFreeNode, h, LinkedList.giveNode]

theorem allocArrayNode_free {l : LinkedList D} {j : ℕ} (hj : j < l.depth)
    (hfree : used (l.opt (l.slot j)) = false) :
    ∃ i < l.depth, used (l.opt (l.slot i)) = false ∧
      allocArrayNode l = (l.takeSlot i, some (l.slot i)) := by
  obtain ⟨k, hk, hkj⟩ := exists_probe l.lastSlotIndex hj
  have hfound : ((List.range l.depth).find? fun i =>
      !used (l.opt (l.slot (probeIndex l.lastSlotIndex i l.depth)))).isSome = true := by
    rw [List.find?_isSome]
    refine ⟨k, List.mem_range.mpr hk, ?_⟩
    rw [hkj, hfree]
    rfl
  obtain ⟨i, hi⟩ := Option.isSome_iff_exists.mp hfound
  have hused := List.find?_some hi
  rw [Bool.not_eq_true'] at hused
  refine ⟨_, probeIndex_lt _ i (by omega), hused, ?_⟩
  simp only [allocArrayNode, hi, LinkedList.takeSlot]

theorem allocArrayNode_full {l : LinkedList D}
    (h : ∀ i < l.depth, used (l.opt (l.slot i)) = true) : allocArrayNode l = (l, none) := by
  have hnone : (List.range l.depth).find? (fun i =>
      !used (l.opt (l.slot (probeIndex l.lastSlotIndex i l.depth)))) = none := by
    rw [List.find?_eq_none]
    intro i hi
    have hd : 0 < l.depth := Nat.zero_lt_of_lt (List.mem_range.mp hi)
    rw [h _ (probeIndex_lt _ i hd)]
    simp
  simp only [allocArrayNode, hnone]

theorem exists_slot_notMem {l : LinkedList D} {out : List Addr} (hlen : out.length < l.depth) :
    ∃ j < l.depth, l.slot j ∉ out := by
  by_contra hall
  push Not at hall
  have hsub : (List.range l.depth).map l.slot ⊆ out := by
    intro p hp
    obtain ⟨i, hi, rfl⟩ := List.mem_map.mp hp
    exact hall i (List.mem_range.mp hi)
  have hnodup : ((List.range l.depth).map l.slot).Nodup := List.nodup_range.map l.slot_injective
  have hle := (List.subperm_of_subset hnodup hsub).length_le
  simp only [List.length_map, List.length_range] at hle
  omega

namespace SlotPool

variable {l : LinkedList D} {out : List Addr}

theorem alloc (h : SlotPool l out) (hlen : out.length < l.depth) :
    ∃ i < l.depth, l.slot i ∉ out ∧ allocArrayNode l = (l.takeSlot i, some (l.slot i)) := by
  obtain ⟨j, hj, hjout⟩ := exists_slot_notMem hlen
  have hj' := Bool.eq_false_iff.mpr ((h.used_iff j hj).not.mpr hjout)
  obtain ⟨i, hi, hfree, halloc⟩ := allocArrayNode_free hj hj'
  exact ⟨i, hi, (h.used_iff i hi).not.mp (Bool.eq_false_iff.mp hfree), halloc⟩

theorem takeSlot (h : SlotPool l out) {i : ℕ} (hi : i < l.depth) (hout : l.slot i ∉ out) :
    SlotPool (l.takeSlot i) (out ++ [l.slot i]) := by
  refine ⟨h.arrayBased, h.width_ne, h.dataPtr, ?_, ?_, ?_⟩
  · intro j hj
    change used (Function.update l.opt (l.slot i) _ (l.slot j)) = true ↔
      l.slot j ∈ out ++ [l.slot i]
    by_cases hji : l.slot j = l.slot i
    · rw [hji, Function.update_self, used_setUsed]
      simp
    · rw [Function.update_of_ne hji, h.used_iff j hj]
      simp [hji]
  · intro p hp
    rcases List.mem_append.mp hp with hp | hp
    · exact h.isSlot p hp
    · exact ⟨i, hi, List.mem_singleton.mp hp⟩
  · refine List.nodup_append.mpr ⟨h.nodup, List.nodup_singleton _, ?_⟩
    intro p hp q hq he
    obtain rfl := List.mem_singleton.mp hq
    exact hout (he ▸ hp)

theorem giveNode {p : Addr} (h : SlotPool l (p :: out)) : SlotPool (l.giveNode p) out := by
  obtain ⟨hp, hnodup⟩ := List.nodup_cons.mp h.nodup
  refine ⟨h.arrayBased, h.width_ne, h.dataPtr, ?_, ?_, hnodup⟩
  · intro j hj
    change used (Function.update l.opt p _ (l.slot j)) = true ↔ l.slot j ∈ out
    by_cases hjp : l.slot j = p
    · rw [hjp, Function.update_self, used_setUsed]
      simp [hp]
    · rw [Function.update_of_ne hjp, h.used_iff j hj]
      simp [hjp]
  · intro q hq
    exact h.isSlot q (List.mem_cons_of_mem p hq)

theorem perm {out' : List Addr} (h : SlotPool l out) (hp : out.Perm out') : SlotPool l out' := by
  refine ⟨h.arrayBased, h.width_ne, h.dataPtr, ?_, ?_, hp.nodup_iff.mp h.nodup⟩
  · intro i hi
    rw [h.used_iff i hi, hp.mem_iff]
  · intro p hm
    exact h.isSlot p (hp.mem_iff.mpr hm)

/-- Links and count may change as they like. -/
theorem relink (h : SlotPool l out) (k : LinkList Addr) (n : ℕ) (b : Bool) :
    SlotPool { l with toLinkList := k, count := n, sorted := b } out :=
  ⟨h.arrayBased, h.width_ne, h.dataPtr, h.used_iff, h.isSlot, h.nodup⟩

theorem setNodeData (h : SlotPool l out) (p : Addr) (x : D) : SlotPool (l.setNodeData p x) out :=
  ⟨h.arrayBased, h.width_ne, h.dataPtr, h.used_iff, h.isSlot, h.nodup⟩

theorem dataPtr_injOn (h : SlotPool l out) {p q : Addr} (hp : IsSlot l p) (hq : IsSlot l q)
    (he : l.dataPtr p = l.dataPtr q) : p = q := by
  obtain ⟨i, hi, rfl⟩ := hp
  obtain ⟨j, hj, rfl⟩ := hq
  rw [h.dataPtr i hi, h.dataPtr j hj] at he
  rw [l.window_injective h.width_ne he]

end SlotPool

structure ArrayHolds (l : LinkedList D) (xs : List Addr) : Prop where
  holds : Holds (image l) xs
  pool : SlotPool l xs
  unsorted : l.sorted = false

theorem arrayHolds_init [Inhabited D] {l : LinkedList D} (h : Defined l) :
    ArrayHolds (linkedListInitForArray l) [] ∧ (linkedListInitForArray l).depth = l.depth := by
  have hholds := holds_initForArray l
  obtain ⟨next, prev, opt, dataPtr, data, hinit, hslots⟩ := h.init_eq
  rw [hinit] at hholds ⊢
  have hused : ∀ i < l.depth, used (opt (l.slot i)) = true ↔ l.slot i ∈ [] := by
    intro i hi
    obtain ⟨_, _, hfree, _⟩ := hslots i hi
    exact iff_of_false (ne_true_of_eq_false hfree) List.not_mem_nil
  have hptr : ∀ i < l.depth, dataPtr (l.slot i) = l.window i := by
    intro i hi
    obtain ⟨_, _, _, hwindow⟩ := hslots i hi
    exact hwindow
  exact ⟨⟨hholds, ⟨h.arrayBased, h.width, hptr, hused, by simp, List.nodup_nil⟩, rfl⟩, rfl⟩

section Queue

variable {l : LinkedList D} {xs : List Addr}

theorem arrayHolds_takeSlot (h : ArrayHolds l xs) {i : ℕ} (hi : i < l.depth)
    (hout : l.slot i ∉ xs) (x : D) :
    ∃ l', linkedListInsertTail ((l.takeSlot i).setNodeData (l.slot i) x) (l.slot i) = some l' ∧
      ArrayHolds l' (xs ++ [l.slot i]) ∧
      (xs ++ [l.slot i]).map l'.nodeData = xs.map l.nodeData ++ [x] ∧ l'.depth = l.depth := by
  let k := (l.takeSlot i).setNodeData (l.slot i) x
  have hk : Holds (image k) xs := h.holds
  have hpool : SlotPool k (xs ++ [l.slot i]) := (h.pool.takeSlot hi hout).setNodeData _ x
  obtain ⟨l', hl', hh⟩ := linkedListStep_refines k xs (.insertTail (l.slot i)) hk hout
  obtain ⟨m, hm, he⟩ := Option.map_eq_some_iff.mp hl'
  obtain rfl : m = l' := (Prod.mk.inj he).1
  obtain ⟨links, n, rfl⟩ := linkedListInsertTail_frame hm
  refine ⟨_, hm, ⟨hh, hpool.relink links n false, rfl⟩, ?_, rfl⟩
  · have hold : xs.map k.nodeData = xs.map l.nodeData := by
      apply List.map_congr_left
      intro q hq
      have hne : l.dataPtr q ≠ l.dataPtr (l.slot i) := fun he =>
        hout (h.pool.dataPtr_injOn (h.pool.isSlot q hq) ⟨i, hi, rfl⟩ he ▸ hq)
      change Function.update l.data (l.dataPtr (l.slot i)) x (l.dataPtr q) = _
      rw [Function.update_of_ne hne]
      rfl
    have hnew : k.nodeData (l.slot i) = x := by
      change Function.update l.data (l.dataPtr (l.slot i)) x (l.dataPtr (l.slot i)) = x
      exact Function.update_self _ _ _
    change (xs ++ [l.slot i]).map k.nodeData = _
    rw [List.map_append, List.map_singleton, hold, hnew]

theorem arrayHolds_pop {p : Addr} (h : ArrayHolds l (p :: xs)) :
    ∃ l' l'', linkedListRemoveHead l = some (l', some p) ∧
      linkedListFreeNode l' p = some l'' ∧ ArrayHolds l'' xs ∧
      l''.nodeData = l.nodeData ∧ l''.depth = l.depth := by
  obtain ⟨l', hl', hh⟩ := linkedListStep_refines l (p :: xs) .removeHead h.holds trivial
  obtain ⟨k, n, rfl⟩ := linkedListRemoveHead_frame hl'
  have hp := (List.nodup_cons.mp h.pool.nodup).1
  refine ⟨_, LinkedList.giveNode { l with toLinkList := k, count := n } p, hl', ?_, ?_, rfl, rfl⟩
  · exact linkedListFreeNode_array (by exact h.pool.arrayBased) p
  · refine ⟨⟨⟨?_, ?_⟩, hh.count_eq⟩, ?_, h.unsorted⟩
    · exact hh.linked.forward.update hp
    · exact hh.linked.backward.update (fun hm => hp (List.mem_reverse.mp hm))
    · exact (h.pool.relink k n l.sorted).giveNode

end Queue

end BleFirmware
