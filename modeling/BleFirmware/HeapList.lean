import BleFirmware.Deque

/-!
# Heap lists used as queues

Both queues of the firmware allocate a node, write its payload, push it, and
pop it again. `HeapHolds l xs` says that a heap-based list holds the nodes
`xs`, that each of them is a live block, and that its payload lies behind its
header. A block that `malloc` returns is not live at that moment.
-/

namespace BleFirmware
open ListAlgo Segment Deque

variable {D : Type}

structure HeapHolds (l : LinkedList D) (xs : List Addr) : Prop where
  holds : Holds (image l) xs
  heap : l.arrayBased = false
  live : ∀ p ∈ xs, l.live p = true
  dataPtr : ∀ p ∈ xs, l.dataPtr p = p + alignedNodeLen

def LinkedList.payloads (l : LinkedList D) : List D := (walk l.next l.count l.head).map l.nodeData

theorem HeapHolds.payloads_eq {l : LinkedList D} {xs : List Addr} (h : HeapHolds l xs) :
    l.payloads = xs.map l.nodeData := by
  have hc : l.count = xs.length := h.holds.count_eq
  have hw : walk l.next xs.length l.head = xs := h.holds.linked.forward.walk_eq
  rw [LinkedList.payloads, hc, hw]

theorem HeapHolds.empty_iff {l : LinkedList D} {xs : List Addr} (h : HeapHolds l xs) :
    linkedListEmpty l = true ↔ xs = [] := by
  have hc : l.count = xs.length := h.holds.count_eq
  simp [linkedListEmpty, hc]

theorem HeapHolds.setNodeData {l : LinkedList D} {xs : List Addr} (h : HeapHolds l xs) (p : Addr)
    (x : D) : HeapHolds (l.setNodeData p x) xs :=
  ⟨h.holds, h.heap, h.live, h.dataPtr⟩

theorem heapHolds_init {l : LinkedList D} (h : l.arrayBased = false) :
    HeapHolds (linkedListInitForHeap l) [] :=
  ⟨holds_initForHeap l, h, by simp, by simp⟩

theorem heapHolds_pop_nil {l : LinkedList D} (h : HeapHolds l []) :
    linkedListRemoveHead l = some (l, none) := by
  have hh : l.head = none := h.holds.linked.head_eq
  simp only [linkedListRemoveHead, hh]

theorem linkedListRemoveHead_frame {l l' : LinkedList D} {p : Option Addr}
    (h : linkedListRemoveHead l = some (l', p)) :
    ∃ k n, l' = { l with toLinkList := k, count := n } := by
  rcases linkedListRemoveHead_cases h with rfl | ⟨_, k, _, _, hk⟩
  · exact ⟨l'.toLinkList, l'.count, rfl⟩
  · exact ⟨k, _, hk⟩

theorem linkedListRemoveTail_frame {l l' : LinkedList D} {p : Option Addr}
    (h : linkedListRemoveTail l = some (l', p)) :
    ∃ k n, l' = { l with toLinkList := k, count := n } := by
  rcases linkedListRemoveTail_cases h with rfl | ⟨_, k, _, _, hk⟩
  · exact ⟨l'.toLinkList, l'.count, rfl⟩
  · exact ⟨k, _, hk⟩

theorem heapHolds_pop {l : LinkedList D} {p : Addr} {xs : List Addr}
    (h : HeapHolds l (p :: xs)) :
    ∃ l', linkedListRemoveHead l = some (l', some p) ∧ HeapHolds l' xs ∧
      l'.nodeData = l.nodeData ∧ l'.live = l.live := by
  obtain ⟨l', hl', hh⟩ := linkedListStep_refines l (p :: xs) .removeHead h.holds trivial
  obtain ⟨k, n, rfl⟩ := linkedListRemoveHead_frame hl'
  refine ⟨_, hl', ⟨hh, h.heap, ?_, ?_⟩, rfl, rfl⟩
  · intro q hq
    exact h.live q (List.mem_cons_of_mem p hq)
  · intro q hq
    exact h.dataPtr q (List.mem_cons_of_mem p hq)

theorem linkedListInsertTail_frame {l l' : LinkedList D} {p : Addr}
    (h : linkedListInsertTail l p = some l') :
    ∃ k n, l' = { l with toLinkList := k, count := n, sorted := false } := by
  obtain ⟨k, _, hk⟩ := Option.map_eq_some_iff.mp h
  exact ⟨k, _, hk.symm⟩

theorem heapHolds_push {l : LinkedList D} {xs : List Addr} (h : HeapHolds l xs) {p : Addr}
    (hp : p ∉ xs) (hlive : l.live p = true) (hdata : l.dataPtr p = p + alignedNodeLen) :
    ∃ l', linkedListInsertTail l p = some l' ∧ HeapHolds l' (xs ++ [p]) ∧
      l'.nodeData = l.nodeData ∧ l'.live = l.live := by
  obtain ⟨l', hl', hh⟩ := linkedListStep_refines l xs (.insertTail p) h.holds hp
  obtain ⟨m, hm, he⟩ := Option.map_eq_some_iff.mp hl'
  obtain rfl : m = l' := (Prod.mk.inj he).1
  obtain ⟨k, n, rfl⟩ := linkedListInsertTail_frame hm
  refine ⟨_, hm, ⟨hh, h.heap, ?_, ?_⟩, rfl, rfl⟩
  · intro q hq
    rcases List.mem_append.mp hq with hq | hq
    · exact h.live q hq
    · rwa [List.mem_singleton.mp hq]
  · intro q hq
    rcases List.mem_append.mp hq with hq | hq
    · exact h.dataPtr q hq
    · rwa [List.mem_singleton.mp hq]

def LinkedList.dropBlock (l : LinkedList D) (p : Addr) : LinkedList D :=
  { l with
    toLinkList := (l.toLinkList.setNext p none).setPrev p none
    opt := Function.update l.opt p 0
    live := Function.update l.live p false }

theorem linkedListFreeNode_block {l : LinkedList D} (h : l.arrayBased = false) {p : Addr}
    (hlive : l.live p = true) : linkedListFreeNode l p = some (l.dropBlock p) := by
  simp [linkedListFreeNode, h, hlive, LinkedList.dropBlock]

theorem heapHolds_dropBlock {l : LinkedList D} {xs : List Addr} (h : HeapHolds l xs) {p : Addr}
    (hp : p ∉ xs) : HeapHolds (l.dropBlock p) xs := by
  refine ⟨⟨⟨?_, ?_⟩, h.holds.count_eq⟩, h.heap, ?_, h.dataPtr⟩
  · exact h.holds.linked.forward.update hp
  · exact h.holds.linked.backward.update (fun hm => hp (List.mem_reverse.mp hm))
  · intro q hq
    have hne : q ≠ p := fun he => hp (he ▸ hq)
    simp [LinkedList.dropBlock, hne, h.live q hq]

def LinkedList.addBlock (l : LinkedList D) (p : Addr) : LinkedList D :=
  { l with
    next := Function.update l.next p none
    dataPtr := Function.update l.dataPtr p (p + alignedNodeLen)
    live := Function.update l.live p true }

theorem linkedListAllocNode_null {l : LinkedList D} (h : l.arrayBased = false) (dataLen : ℕ) :
    linkedListAllocNode l (fun _ => none) dataLen = (l, none) := by
  simp [linkedListAllocNode, allocHeapNode, h]

theorem linkedListAllocNode_block {l : LinkedList D} (h : l.arrayBased = false) (p : Addr)
    (dataLen : ℕ) :
    linkedListAllocNode l (fun _ => some p) dataLen = (l.addBlock p, some p) := by
  simp [linkedListAllocNode, allocHeapNode, h, LinkedList.addBlock]

section Block

variable {l : LinkedList D} {xs : List Addr} (h : HeapHolds l xs) {p : Addr}
  (hp : l.live p = false)

include h hp

theorem HeapHolds.notMem : p ∉ xs := by
  intro hm
  rw [h.live p hm] at hp
  exact absurd hp (by simp)

theorem heapHolds_addBlock : HeapHolds (l.addBlock p) xs := by
  have hpx := h.notMem hp
  refine ⟨⟨⟨?_, h.holds.linked.backward⟩, h.holds.count_eq⟩, h.heap, ?_, ?_⟩
  · -- The new header is written outside the list.
    exact h.holds.linked.forward.update hpx
  · intro q hq
    have hne : q ≠ p := fun he => hpx (he ▸ hq)
    simp [LinkedList.addBlock, hne, h.live q hq]
  · intro q hq
    have hne : q ≠ p := fun he => hpx (he ▸ hq)
    simp [LinkedList.addBlock, hne, h.dataPtr q hq]

theorem heapHolds_setup (x : D) : HeapHolds ((l.addBlock p).setNodeData p x) xs :=
  (heapHolds_addBlock h hp).setNodeData p x

theorem nodeData_setup (x : D) {q : Addr} (hq : q ∈ xs) :
    ((l.addBlock p).setNodeData p x).nodeData q = l.nodeData q := by
  have hne : q ≠ p := fun he => h.notMem hp (he ▸ hq)
  simp [LinkedList.nodeData, LinkedList.setNodeData, LinkedList.addBlock, hne, h.dataPtr q hq]

theorem heapHolds_enqueue (x : D) :
    ∃ l', linkedListInsertTail ((l.addBlock p).setNodeData p x) p = some l' ∧
      HeapHolds l' (xs ++ [p]) ∧ (xs ++ [p]).map l'.nodeData = xs.map l.nodeData ++ [x] ∧
      l'.live = Function.update l.live p true := by
  have hk := heapHolds_setup h hp x
  obtain ⟨l', hl', hh, hdata, hlive⟩ := heapHolds_push hk (h.notMem hp)
    (by simp [LinkedList.setNodeData, LinkedList.addBlock])
    (by simp [LinkedList.setNodeData, LinkedList.addBlock])
  refine ⟨l', hl', hh, ?_, hlive⟩
  have hold : xs.map l'.nodeData = xs.map l.nodeData := by
    apply List.map_congr_left
    intro q hq
    rw [hdata, nodeData_setup h hp x hq]
  have hnew : l'.nodeData p = x := by
    rw [hdata]
    simp [LinkedList.nodeData, LinkedList.setNodeData]
  rw [List.map_append, List.map_singleton, hold, hnew]

end Block

end BleFirmware
