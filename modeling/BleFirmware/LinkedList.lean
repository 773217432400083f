import BleFirmware.Base.CSort
import BleFirmware.ListAlgo
import BleFirmware.UtilTool

/-!
# `linked_list.c`

A `LinkedList` is the `linked_list_t` header together with the memory its
functions reach: the fields of every list node by the address of the node, and
the payload objects by their address. `live` records the heap blocks obtained from `OSAL_MALLOC` and
not yet given to `OSAL_FREE`, so that a second free is visible.

A function answers `none` where the C code would follow a NULL pointer or free
a block that is not live. The mutex calls are left out: each function below is
one critical section, run by one task at a time.

Distinct linked nodes are distinct objects, so `count++` cannot reach the end
of `size_t`; `count--` wraps, because nothing in the code keeps it from being
applied to zero.
-/

namespace BleFirmware
open ListAlgo CSort

/-- Three pointers and a pointer-sized union. -/
def sizeofListNode : ℕ := 16

def alignedNodeLen : ℕ := alignUp sizeofListNode alignSize

/-- `opt.used`: the low byte of the `opt` union read as a `bool`. Its values are the
bytes 0 and 1; C says nothing of the others, which count as true here. -/
def used (opt : ℕ) : Bool := opt % 256 != 0

/-- `opt.used = b`: only the low byte of the union is written. -/
def setUsed (opt : ℕ) (b : Bool) : ℕ := opt / 256 * 256 + b.toNat

@[simp] theorem used_setUsed (opt : ℕ) (b : Bool) : used (setUsed opt b) = b := by
  cases b <;> simp [used, setUsed]

/-- `list_node_t`, the value that `qsort` moves. -/
structure ListNode where
  next : Option Addr
  prev : Option Addr
  opt : ℕ
  dataPtr : Addr

structure LinkedList (D : Type) extends LinkList Addr where
  arrayBased : Bool
  count : ℕ
  width : ℕ
  depth : ℕ
  nodeArray : Option Addr
  dataArray : Option Addr
  sorted : Bool
  lastSlotIndex : ℕ
  opt : Addr → ℕ
  dataPtr : Addr → Addr
  data : Addr → D
  live : Addr → Bool

structure NodeView (D : Type) where
  opt : ℕ
  payload : D

abbrev ListCmp (D : Type) := NodeView D → NodeView D → ℤ

variable {D : Type}

namespace LinkedList

def slot (l : LinkedList D) (i : ℕ) : Addr := l.nodeArray.getD 0 + i * sizeofListNode

def window (l : LinkedList D) (i : ℕ) : Addr := l.dataArray.getD 0 + i * l.width

def view (l : LinkedList D) (p : Addr) : NodeView D := ⟨l.opt p, l.data (l.dataPtr p)⟩

def readNode (l : LinkedList D) (p : Addr) : ListNode :=
  ⟨l.next p, l.prev p, l.opt p, l.dataPtr p⟩

def writeNode (l : LinkedList D) (p : Addr) (n : ListNode) : LinkedList D :=
  { l with
    next := Function.update l.next p n.next
    prev := Function.update l.prev p n.prev
    opt := Function.update l.opt p n.opt
    dataPtr := Function.update l.dataPtr p n.dataPtr }

def nodes (l : LinkedList D) : List ListNode :=
  (List.range l.depth).map (fun i => l.readNode (l.slot i))

def writeNodes (l : LinkedList D) (i : ℕ) : List ListNode → LinkedList D
  | [] => l
  | n :: ns => writeNodes (l.writeNode (l.slot i) n) (i+1) ns

def nodeData (l : LinkedList D) (p : Addr) : D := l.data (l.dataPtr p)

def setNodeData (l : LinkedList D) (p : Addr) (x : D) : LinkedList D :=
  { l with data := Function.update l.data (l.dataPtr p) x }

end LinkedList

def initSlot (l : LinkedList D) (i : ℕ) : LinkedList D :=
  l.writeNode (l.slot i) ⟨none, none, setUsed (l.opt (l.slot i)) false, l.window i⟩

def initSlots (l : LinkedList D) : ℕ → LinkedList D
  | 0 => l
  | i+1 => initSlot (initSlots l i) i

theorem initSlots_frame (l : LinkedList D) (n : ℕ) :
    ∃ next prev opt dataPtr, initSlots l n =
      { l with next := next, prev := prev, opt := opt, dataPtr := dataPtr } := by
  induction n with
  | zero => exact ⟨l.next, l.prev, l.opt, l.dataPtr, rfl⟩
  | succ n ih =>
    obtain ⟨next, prev, opt, dataPtr, h⟩ := ih
    rw [initSlots, h]
    exact ⟨_, _, _, _, rfl⟩

/-- `memset` of the whole data array; `default` is the payload of zero bytes. -/
def clearData [Inhabited D] (l : LinkedList D) : LinkedList D :=
  { l with
    data := fun a => if ∃ i ∈ List.range l.depth, a = l.window i then default else l.data a }

def linkedListInitForArray [Inhabited D] (l : LinkedList D) : LinkedList D :=
  let l : LinkedList D := { l with head := none, tail := none, count := 0, sorted := false }
  if l.arrayBased then
    if l.depth = 0 ∨ l.width = 0 ∨ l.nodeArray = none ∨ l.dataArray = none then l
    else { clearData (initSlots l l.depth) with lastSlotIndex := 0 }
  else l

def linkedListInitForHeap (l : LinkedList D) : LinkedList D :=
  { l with head := none, tail := none, count := 0, sorted := false }

def linkedListFreeNode (l : LinkedList D) (pNode : Addr) : Option (LinkedList D) :=
  let l : LinkedList D :=
    { l with toLinkList := (l.toLinkList.setNext pNode none).setPrev pNode none }
  if l.arrayBased then
    some { l with opt := Function.update l.opt pNode (setUsed (l.opt pNode) false) }
  else
    let l : LinkedList D := { l with opt := Function.update l.opt pNode 0 }
    if l.live pNode then some { l with live := Function.update l.live pNode false } else none

/-- The index probed in round `i` of `alloc_array_node`: the mask when depth is
a power of two, the remainder otherwise. -/
def probeIndex (lastSlotIndex i depth : ℕ) : ℕ :=
  if power2Check depth then power2GetMod (lastSlotIndex + i) depth
  else (lastSlotIndex + i) % depth

def allocArrayNode (l : LinkedList D) : LinkedList D × Option Addr :=
  let index := fun i => probeIndex l.lastSlotIndex i l.depth
  match (List.range l.depth).find? (fun i => !used (l.opt (l.slot (index i)))) with
  | some i =>
    let p := l.slot (index i)
    ({ l with opt := Function.update l.opt p (setUsed (l.opt p) true), lastSlotIndex := index i },
      some p)
  | none => (l, none)

/-- The `memset` of `alloc_heap_node` clears `sizeof(size_t)` bytes, the `next`
field of the new node and nothing else. -/
def allocHeapNode (l : LinkedList D) (malloc : ℕ → Option Addr) (dataLen : ℕ) :
    LinkedList D × Option Addr :=
  match malloc ((alignedNodeLen + alignUp dataLen alignSize) % (sizeMax+1)) with
  | some p =>
    ({ l with
        next := Function.update l.next p none
        dataPtr := Function.update l.dataPtr p (p + alignedNodeLen)
        live := Function.update l.live p true },
      some p)
  | none => (l, none)

def linkedListAllocNode (l : LinkedList D) (malloc : ℕ → Option Addr) (dataLen : ℕ) :
    LinkedList D × Option Addr :=
  if l.arrayBased then allocArrayNode l else allocHeapNode l malloc dataLen

def linkedListInsertHead (l : LinkedList D) (pNode : Addr) : LinkedList D :=
  { l with
    toLinkList := listInsertHead l.toLinkList pNode
    count := l.count+1
    sorted := false }

def linkedListInsertTail (l : LinkedList D) (pNode : Addr) : Option (LinkedList D) :=
  (listInsertTail l.toLinkList pNode).map fun k =>
    { l with toLinkList := k, count := l.count+1, sorted := false }

def linkedListRemoveHead (l : LinkedList D) : Option (LinkedList D × Option Addr) :=
  match l.head with
  | some pHead =>
    (listRemoveHead l.toLinkList pHead).map fun k =>
      ({ l with toLinkList := k, count := sizeDec l.count }, some pHead)
  | none => some (l, none)

def linkedListRemoveTail (l : LinkedList D) : Option (LinkedList D × Option Addr) :=
  match l.tail with
  | some pTail =>
    (listRemoveTail l.toLinkList pTail).map fun k =>
      ({ l with toLinkList := k, count := sizeDec l.count }, some pTail)
  | none => some (l, none)

/-- What taking a node from an end can do: nothing without one, else what the macro does. -/
theorem linkedListRemoveHead_cases {l k : LinkedList D} {out : Option Addr}
    (h : linkedListRemoveHead l = some (k, out)) :
    k = l ∨ ∃ p links, l.head = some p ∧ listRemoveHead l.toLinkList p = some links ∧
      k = { l with toLinkList := links, count := sizeDec l.count } := by
  unfold linkedListRemoveHead at h
  split at h
  case h_1 p hp =>
    obtain ⟨links, hlinks, he⟩ := Option.map_eq_some_iff.mp h
    exact Or.inr ⟨p, links, hp, hlinks, (Prod.mk.inj he).1.symm⟩
  case h_2 =>
    exact Or.inl (Prod.mk.inj (Option.some.inj h)).1.symm

theorem linkedListRemoveTail_cases {l k : LinkedList D} {out : Option Addr}
    (h : linkedListRemoveTail l = some (k, out)) :
    k = l ∨ ∃ p links, l.tail = some p ∧ listRemoveTail l.toLinkList p = some links ∧
      k = { l with toLinkList := links, count := sizeDec l.count } := by
  unfold linkedListRemoveTail at h
  split at h
  case h_1 p hp =>
    obtain ⟨links, hlinks, he⟩ := Option.map_eq_some_iff.mp h
    exact Or.inr ⟨p, links, hp, hlinks, (Prod.mk.inj he).1.symm⟩
  case h_2 =>
    exact Or.inl (Prod.mk.inj (Option.some.inj h)).1.symm

def linkedListRemoveNode (l : LinkedList D) : Option Addr → LinkedList D × Option Addr
  | some pNode =>
    let r := listRemoveNode l.toLinkList pNode
    ({ l with toLinkList := r.1, count := sizeDec l.count }, r.2)
  | none => (l, none)

def linkedListExist (fuel : ℕ) (l : LinkedList D) (pNode : Addr) : Option Bool :=
  listNodeExists fuel l.toLinkList pNode

def linkedListCount (l : LinkedList D) : ℕ := l.count

def linkedListEmpty (l : LinkedList D) : Bool := l.count == 0

def targetView (x : D) : NodeView D := ⟨1, x⟩

/-- One round of `LINKED_LIST_FOR_EACH` in `linked_list_search`. -/
def searchBody (l : LinkedList D) (x : D) (compare : ListCmp D) :
    Option Addr → Option Addr ⊕ Option Addr
  | none => .inr none
  | some p => if compare (l.view p) (targetView x) = 0 then .inr (some p) else .inl (l.next p)

def linkedListSearch (lib : Stdlib) (fuel : ℕ) (l : LinkedList D) (x : D) (compare : ListCmp D) :
    Option (Option Addr) :=
  if l.sorted && l.arrayBased then
    let views := (List.range l.depth).map (fun i => l.view (l.slot i))
    some ((lib.bsearch (compare (targetView x)) views).map l.slot)
  else Loop.run (searchBody l x compare) fuel l.head

def relinkSlot (l : LinkedList D) (i : ℕ) : LinkedList D :=
  { l with
    toLinkList := (l.toLinkList.setNext (l.slot i) (some (l.slot (i+1)))).setPrev
      (l.slot (i+1)) (some (l.slot i)) }

def relinkSlots (l : LinkedList D) : ℕ → LinkedList D
  | 0 => l
  | i+1 => relinkSlot (relinkSlots l i) i

def qsortArrayList (lib : Stdlib) (l : LinkedList D) (compare : ListCmp D) : LinkedList D :=
  let count := l.count
  if count = 0 then l
  else
    let cmp := fun m n : ListNode =>
      compare ⟨m.opt, l.data m.dataPtr⟩ ⟨n.opt, l.data n.dataPtr⟩
    let l := l.writeNodes 0 (lib.qsort cmp l.nodes)
    let l := relinkSlots l (count-1)
    let head := l.slot 0
    let tail := l.slot (count-1)
    let k : LinkList Addr := { l.toLinkList with head := some head, tail := some tail }
    { l with toLinkList := (k.setPrev head none).setNext tail none }

/-- A heap list is not sorted at all, yet `_sorted` is set for both kinds. -/
def linkedListSort (lib : Stdlib) (l : LinkedList D) (compare : ListCmp D) : LinkedList D :=
  let l := if l.arrayBased then qsortArrayList lib l compare else l
  { l with sorted := true }

end BleFirmware
