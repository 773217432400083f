import BleFirmware.LinkedList

/-!
# The block of a heap node

A node of a heap list is one block, the header at its start and the data after it.
The payload memory is read byte by byte here. What lies where in a new block
follows from the size that is asked for; what it holds is what the block held
before, but for the `next` field that `memset` reaches and the `data_ptr` field
that is stored.
-/

namespace BleFirmware.HeapLayout

def nodeSize (dataLen : ℕ) : ℕ := (alignedNodeLen + alignUp dataLen alignSize) % (sizeMax+1)

/-- A block of `size` bytes at `p` that holds the header and the data apart, in no more
room than the alignment asks for, and in which the fields and the data are zero. -/
structure IsNodeBlock (l : LinkedList UInt8) (p : Addr) (size dataLen : ℕ) : Prop where
  header : p + sizeofListNode ≤ l.dataPtr p
  offset_aligned : alignSize ∣ l.dataPtr p - p
  aligned : alignSize ∣ l.dataPtr p
  room : l.dataPtr p + dataLen ≤ p + size
  least : IsLeast {n | dataLen ≤ n ∧ alignSize ∣ n} (p + size - l.dataPtr p)
  next : l.next p = none
  prev : l.prev p = none
  opt : l.opt p = 0
  data : ∀ i < dataLen, l.data (l.dataPtr p + i) = 0

theorem alignedNodeLen_eq : alignedNodeLen = 16 := by decide

theorem alignUp_alignSize (n : ℕ) : alignUp n alignSize = (n + 7) % 2^32 / 8 * 8 :=
  alignUp_two_pow n (k := 3) (by decide)

theorem nodeSize_eq {dataLen : ℕ} (h : dataLen ≤ sizeMax - 23) :
    nodeSize dataLen = alignedNodeLen + alignUp dataLen alignSize := by
  rw [sizeMax_eq] at h
  refine Nat.mod_eq_of_lt ?_
  rw [alignedNodeLen_eq, alignUp_alignSize, sizeMax_eq]
  omega

/-- From the top 24 lengths on the size wraps to less than the header and the data. -/
theorem nodeSize_lt {dataLen : ℕ} (hlen : dataLen ≤ sizeMax) (h : sizeMax - 23 < dataLen) :
    nodeSize dataLen < alignedNodeLen + dataLen := by
  rw [sizeMax_eq] at h hlen
  rw [nodeSize, alignedNodeLen_eq, alignUp_alignSize, sizeMax_eq]
  omega

theorem isLeast_room {dataLen : ℕ} (h : dataLen ≤ sizeMax - 23) :
    IsLeast {n | dataLen ≤ n ∧ alignSize ∣ n} (alignUp dataLen alignSize) := by
  refine isLeast_alignUp (k := 3) (by decide) ?_
  rw [sizeMax_eq] at *
  omega

theorem room_iff (p size dataLen : ℕ) :
    p + alignedNodeLen + dataLen ≤ p + size ↔ alignedNodeLen + dataLen ≤ size := by
  rw [Nat.add_assoc, Nat.add_le_add_iff_left]

theorem linkedListAllocNode_heap {l l' : LinkedList UInt8} {malloc : ℕ → Option Addr}
    {dataLen : ℕ} {p : Addr} (hheap : l.arrayBased = false) :
    linkedListAllocNode l malloc dataLen = (l', some p) ↔
      malloc (nodeSize dataLen) = some p ∧
        { l with
          next := Function.update l.next p none
          dataPtr := Function.update l.dataPtr p (p + alignedNodeLen)
          live := Function.update l.live p true } = l' := by
  have hkind : ¬ l.arrayBased = true := by simp [hheap]
  have hsize : (alignedNodeLen + alignUp dataLen alignSize) % (sizeMax+1) = nodeSize dataLen := rfl
  rw [linkedListAllocNode, if_neg hkind, allocHeapNode, hsize]
  cases malloc (nodeSize dataLen) with
  | none => simp
  | some q =>
    simp only [Prod.mk.injEq, Option.some.injEq]
    constructor
    · rintro ⟨hl, rfl⟩
      exact ⟨rfl, hl⟩
    · rintro ⟨rfl, hl⟩
      exact ⟨hl, rfl⟩

/-- The layout is right unless the size wraps, and the block is clear only where it was
clear before. -/
theorem heap_node_layout_iff (l : LinkedList UInt8) (malloc : ℕ → Option Addr) (dataLen : ℕ)
    (hheap : l.arrayBased = false) (hmalloc : ∀ n p, malloc n = some p → alignSize ∣ p)
    (hlen : dataLen ≤ sizeMax) :
    (∀ l' p, linkedListAllocNode l malloc dataLen = (l', some p) →
      IsNodeBlock l' p (nodeSize dataLen) dataLen) ↔
      ∀ p, malloc (nodeSize dataLen) = some p →
        dataLen ≤ sizeMax - 23 ∧ l.prev p = none ∧ l.opt p = 0 ∧
          ∀ i < dataLen, l.data (p + alignedNodeLen + i) = 0 := by
  constructor
  · intro hblock p hp
    have h := hblock _ p ((linkedListAllocNode_heap hheap).mpr ⟨hp, rfl⟩)
    have hptr := Function.update_self p (p + alignedNodeLen) l.dataPtr
    refine ⟨?_, h.prev, h.opt, fun i hi => ?_⟩
    · by_contra hwrap
      have hroom := h.room
      simp only [hptr, room_iff] at hroom
      exact absurd (nodeSize_lt hlen (Nat.lt_of_not_le hwrap)) (Nat.not_lt_of_le hroom)
    · have hdata := h.data i hi
      simpa only [hptr] using hdata
  · rintro hclear l' p hl'
    obtain ⟨hp, rfl⟩ := (linkedListAllocNode_heap hheap).mp hl'
    obtain ⟨hfits, hprev, hopt, hdata⟩ := hclear p hp
    have hptr := Function.update_self p (p + alignedNodeLen) l.dataPtr
    have hleast := isLeast_room hfits
    have hroom : p + nodeSize dataLen - (p + alignedNodeLen) = alignUp dataLen alignSize := by
      rw [nodeSize_eq hfits, Nat.add_sub_add_left, Nat.add_sub_cancel_left]
    have hdvd : alignSize ∣ alignedNodeLen := by decide
    constructor
    · simp only [hptr]
      exact Nat.add_le_add_left (by decide) p
    · simp only [hptr, Nat.add_sub_cancel_left]
      exact hdvd
    · simp only [hptr]
      exact Nat.dvd_add (hmalloc _ p hp) hdvd
    · simp only [hptr, room_iff]
      rw [nodeSize_eq hfits]
      exact Nat.add_le_add_left hleast.1.1 alignedNodeLen
    · simp only [hptr, hroom]
      exact hleast
    · exact Function.update_self p none l.next
    · exact hprev
    · exact hopt
    · simpa only [hptr] using hdata

def heapOf (byte : UInt8) : LinkedList UInt8 where
  head := none
  tail := none
  next _ := none
  prev _ := none
  arrayBased := false
  count := 0
  width := 0
  depth := 0
  nodeArray := none
  dataArray := none
  sorted := false
  lastSlotIndex := 0
  opt _ := byte.toNat * 0x01010101
  dataPtr _ := 0
  data _ := byte
  live _ := false

theorem heap_node_layout_zero :
    ∃ l', linkedListAllocNode (heapOf 0) (fun _ => some 64) 6 = (l', some 64) ∧
      IsNodeBlock l' 64 (nodeSize 6) 6 := by
  have hall := (heap_node_layout_iff (heapOf 0) (fun _ => some 64) 6 rfl
    (fun n p hp => Option.some.inj hp ▸ (by decide)) (by decide)).mpr
    fun _ _ => ⟨by decide, rfl, rfl, fun _ _ => rfl⟩
  exact ⟨_, rfl, hall _ _ rfl⟩

/-- A block that was in use keeps its old bytes as data. -/
theorem heap_node_not_cleared :
    ¬ ∀ l' p, linkedListAllocNode (heapOf 0xA5) (fun _ => some 64) 6 = (l', some p) →
      IsNodeBlock l' p (nodeSize 6) 6 := by
  intro hblock
  have h := hblock _ 64 ((linkedListAllocNode_heap rfl).mpr ⟨rfl, rfl⟩)
  exact absurd (h.data 0 (by decide)) (by decide)

end BleFirmware.HeapLayout
