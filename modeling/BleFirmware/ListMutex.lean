import BleFirmware.Base.Semaphore
import BleFirmware.KvListTasks
import BleFirmware.LinkedList
import BleFirmware.LwList

/-!
# The mutex of a list

The public functions of `linked_list.c`, `lw_list.c` and `kv_list.c` with the
calls of `hal_mutex_init`, `hal_mutex_lock` and `hal_mutex_unlock` that the
models of the three modules leave out. The mutex is the semaphore of
`hal_os_api.c`. An operation fails where the code follows a NULL pointer, frees
a block that is not live, or stays in a loop for more than `fuel` rounds.

Only `linked_list_sort` calls a function that takes the mutex while it has it.
-/

namespace BleFirmware.ListMutex
open Semaphore Prog CSort KvListTasks

variable {D : Type}

def linkedListInitForArray [Inhabited D] : Prog (LinkedList D) Unit := do
  let l ← get
  modify BleFirmware.linkedListInitForArray
  if l.arrayBased ∧ (l.depth = 0 ∨ l.width = 0 ∨ l.nodeArray = none ∨ l.dataArray = none) then
    pure ()
  else
    init

def linkedListInitForHeap : Prog (LinkedList D) Unit := do
  modify BleFirmware.linkedListInitForHeap
  init

def linkedListFreeNode (pNode : Addr) : Prog (LinkedList D) Unit :=
  act fun l => (BleFirmware.linkedListFreeNode l pNode).map (·, ())

def linkedListAllocNode (malloc : ℕ → Option Addr) (dataLen : ℕ) :
    Prog (LinkedList D) (Option Addr) :=
  locked fun l => some (BleFirmware.linkedListAllocNode l malloc dataLen)

def linkedListInsertHead (pNode : Addr) : Prog (LinkedList D) Addr :=
  locked fun l => some (BleFirmware.linkedListInsertHead l pNode, pNode)

def linkedListInsertTail (pNode : Addr) : Prog (LinkedList D) Addr :=
  locked fun l => (BleFirmware.linkedListInsertTail l pNode).map (·, pNode)

def linkedListRemoveHead : Prog (LinkedList D) (Option Addr) :=
  locked BleFirmware.linkedListRemoveHead

def linkedListRemoveTail : Prog (LinkedList D) (Option Addr) :=
  locked BleFirmware.linkedListRemoveTail

def linkedListRemoveNode (pNode : Option Addr) : Prog (LinkedList D) (Option Addr) :=
  locked fun l => some (BleFirmware.linkedListRemoveNode l pNode)

def linkedListExist (fuel : ℕ) (pNode : Addr) : Prog (LinkedList D) Bool :=
  locked fun l => (BleFirmware.linkedListExist fuel l pNode).map (l, ·)

def linkedListCount : Prog (LinkedList D) ℕ :=
  locked fun l => some (l, BleFirmware.linkedListCount l)

def linkedListSearch (lib : Stdlib) (fuel : ℕ) (x : D) (compare : ListCmp D) :
    Prog (LinkedList D) (Option Addr) :=
  locked fun l => (BleFirmware.linkedListSearch lib fuel l x compare).map (l, ·)

def qsortArrayList (lib : Stdlib) (compare : ListCmp D) : Prog (LinkedList D) Unit := do
  wait
  let l ← get
  if l.count = 0 then
    post
    return
  modify fun l => BleFirmware.qsortArrayList lib l compare
  post

def qsortHeapList : Prog (LinkedList D) Unit := do
  wait
  let l ← get
  if l.count = 0 then
    post
    return
  post

def linkedListSort (lib : Stdlib) (compare : ListCmp D) : Prog (LinkedList D) Unit := do
  wait
  let l ← get
  if l.arrayBased then
    qsortArrayList lib compare
  else
    qsortHeapList
  modify fun l => { l with sorted := true }
  post

def lwListInit : Prog LwList Unit := do
  modify BleFirmware.lwListInit
  init

def lwListInsertHead (pElem : Addr) : Prog LwList Addr :=
  locked fun l => some (BleFirmware.lwListInsertHead l pElem, pElem)

def lwListInsertTail (pElem : Addr) : Prog LwList Addr :=
  locked fun l => (BleFirmware.lwListInsertTail l pElem).map (·, pElem)

def lwListRemoveHead : Prog LwList (Option Addr) := locked BleFirmware.lwListRemoveHead

def lwListRemoveTail : Prog LwList (Option Addr) := locked BleFirmware.lwListRemoveTail

def lwListRemoveNode (pElem : Option Addr) : Prog LwList (Option Addr) :=
  locked fun l => some (BleFirmware.lwListRemoveNode l pElem)

/-- This function and the next do not take the mutex. -/
def lwListExist (fuel : ℕ) (pElem : Addr) : Prog LwList Bool :=
  act fun l => (BleFirmware.lwListExist fuel l pElem).map (l, ·)

def lwListCount : Prog LwList ℕ := act fun l => some (l, BleFirmware.lwListCount l)

def kvListInit : Prog KvList Unit := do
  modify BleFirmware.kvListInit
  init

def kvListAdd (key : ℕ) (pValue : Bytes.Memory) : Prog KvList (Option ℕ) := do
  let l ← get
  if l.count ≥ l.depth then
    pure none
  else
    locked fun l => some (kvListAddSection l key pValue)

def kvListClear : Prog KvList Unit := locked fun l => some (BleFirmware.kvListClear l, ())

def kvListAt (fuel : ℕ) (index : ℕ) : Prog KvList (Option ℕ) := do
  let l ← get
  if index ≥ l.count then
    pure none
  else
    locked fun l => (Loop.run (kvListAtBody l index) fuel 0).map (l, ·)

def kvListSort (lib : Stdlib) : Prog KvList Unit :=
  locked fun l => some (BleFirmware.kvListSort lib l, ())

def kvListSearch (lib : Stdlib) (key : ℕ) : Prog KvList (Option ℕ) :=
  locked fun l => some (l, BleFirmware.kvListSearch lib l key)

def kvListWalk : Prog KvList (List ℕ) := locked fun l => some (l, BleFirmware.kvListWalk l)

/-- `valid` is read, through the pointer, before the mutex is taken. -/
def kvListRemoveNode (pNode : Option ℕ) : Prog KvList Unit := do
  let i ← act fun l => pNode.map (l, ·)
  let l ← get
  if (l.node i).valid then
    locked fun l => some (kvListRemoveSection l i, ())
  else
    pure ()

def kvListRemove (lib : Stdlib) (key : ℕ) : Prog KvList Unit := do
  let pNode ← kvListSearch lib key
  kvListRemoveNode pNode

inductive LinkedListCall (D : Type)
  | initForArray
  | initForHeap
  | freeNode (pNode : Addr)
  | allocNode (malloc : ℕ → Option Addr) (dataLen : ℕ)
  | insertHead (pNode : Addr)
  | insertTail (pNode : Addr)
  | removeHead
  | removeTail
  | removeNode (pNode : Option Addr)
  | exist (pNode : Addr)
  | count
  | search (x : D) (compare : ListCmp D)
  | sort (compare : ListCmp D)

inductive LwListCall
  | init
  | insertHead (pElem : Addr)
  | insertTail (pElem : Addr)
  | removeHead
  | removeTail
  | removeNode (pElem : Option Addr)
  | exist (pElem : Addr)
  | count

inductive KvListCall
  | init
  | add (key : ℕ) (pValue : Bytes.Memory)
  | clear
  | at (index : ℕ)
  | sort
  | search (key : ℕ)
  | walk
  | removeNode (pNode : Option ℕ)
  | remove (key : ℕ)

/-- A call of a public function, with the type of what it returns. -/
def LinkedListCall.op [Inhabited D] (lib : Stdlib) (fuel : ℕ) :
    LinkedListCall D → Σ β : Type, Prog (LinkedList D) β
  | .initForArray => ⟨_, linkedListInitForArray⟩
  | .initForHeap => ⟨_, linkedListInitForHeap⟩
  | .freeNode pNode => ⟨_, linkedListFreeNode pNode⟩
  | .allocNode malloc dataLen => ⟨_, linkedListAllocNode malloc dataLen⟩
  | .insertHead pNode => ⟨_, linkedListInsertHead pNode⟩
  | .insertTail pNode => ⟨_, linkedListInsertTail pNode⟩
  | .removeHead => ⟨_, linkedListRemoveHead⟩
  | .removeTail => ⟨_, linkedListRemoveTail⟩
  | .removeNode pNode => ⟨_, linkedListRemoveNode pNode⟩
  | .exist pNode => ⟨_, linkedListExist fuel pNode⟩
  | .count => ⟨_, linkedListCount⟩
  | .search x compare => ⟨_, linkedListSearch lib fuel x compare⟩
  | .sort compare => ⟨_, linkedListSort lib compare⟩

def LwListCall.op (fuel : ℕ) : LwListCall → Σ β : Type, Prog LwList β
  | .init => ⟨_, lwListInit⟩
  | .insertHead pElem => ⟨_, lwListInsertHead pElem⟩
  | .insertTail pElem => ⟨_, lwListInsertTail pElem⟩
  | .removeHead => ⟨_, lwListRemoveHead⟩
  | .removeTail => ⟨_, lwListRemoveTail⟩
  | .removeNode pElem => ⟨_, lwListRemoveNode pElem⟩
  | .exist pElem => ⟨_, lwListExist fuel pElem⟩
  | .count => ⟨_, lwListCount⟩

def KvListCall.op (lib : Stdlib) (fuel : ℕ) : KvListCall → Σ β : Type, Prog KvList β
  | .init => ⟨_, kvListInit⟩
  | .add key pValue => ⟨_, kvListAdd key pValue⟩
  | .clear => ⟨_, kvListClear⟩
  | .at index => ⟨_, kvListAt fuel index⟩
  | .sort => ⟨_, kvListSort lib⟩
  | .search key => ⟨_, kvListSearch lib key⟩
  | .walk => ⟨_, kvListWalk⟩
  | .removeNode pNode => ⟨_, kvListRemoveNode pNode⟩
  | .remove key => ⟨_, kvListRemove lib key⟩

def LinkedListCall.IsSort : LinkedListCall D → Prop
  | .sort _ => True
  | _ => False

theorem linkedListInitForArray_run [Inhabited D] (l : LinkedList D) :
    linkedListInitForArray l 1 = .free (some (BleFirmware.linkedListInitForArray l, ())) := by
  rw [linkedListInitForArray, get_bind, modify_bind]
  split
  · rfl
  · rfl

theorem kvListAdd_run (key : ℕ) (pValue : Bytes.Memory) (l : KvList) :
    kvListAdd key pValue l 1 = .free (some (BleFirmware.kvListAdd l key pValue)) := by
  rw [kvListAdd, get_bind, kvListAdd_eq]
  split
  · rfl
  · exact locked_run _ l

theorem kvListAt_run (fuel index : ℕ) (l : KvList) :
    kvListAt fuel index l 1 = .free ((BleFirmware.kvListAt fuel l index).map (l, ·)) := by
  rw [kvListAt, get_bind, BleFirmware.kvListAt]
  split
  · rfl
  · exact locked_run _ l

theorem kvListRemoveNode_run (pNode : Option ℕ) (l : KvList) :
    kvListRemoveNode pNode l 1 = .free ((BleFirmware.kvListRemoveNode l pNode).map (·, ())) := by
  cases pNode with
  | none => rfl
  | some i =>
    rw [kvListRemoveNode, bind_returns (act_some rfl), get_bind, kvListRemoveNode_eq]
    split
    · exact locked_run _ l
    · rfl

theorem kvListRemove_run (lib : Stdlib) (key : ℕ) (l : KvList) :
    kvListRemove lib key l 1 = .free ((BleFirmware.kvListRemove lib l key).map (·, ())) := by
  rw [kvListRemove, kvListSearch, bind_returns (locked_some rfl)]
  exact kvListRemoveNode_run _ l

/-- The helpers of `linked_list_sort` find the mutex taken. -/
theorem linkedListSort_waits (lib : Stdlib) (compare : ListCmp D) (l : LinkedList D) :
    linkedListSort lib compare l 1 = .waits := by
  rw [linkedListSort, wait_bind, get_bind]
  split
  · exact bind_waits rfl
  · exact bind_waits rfl

theorem linkedListCall_disciplined_iff [Inhabited D] (lib : Stdlib) (fuel : ℕ)
    (c : LinkedListCall D) (l : LinkedList D) :
    Disciplined (c.op lib fuel).2 l ↔ ¬ c.IsSort := by
  cases c with
  | sort compare =>
    have hwaits : ¬ Disciplined (linkedListSort lib compare) l :=
      not_disciplined_of_waits (linkedListSort_waits lib compare l)
    exact iff_of_false hwaits (not_not_intro trivial)
  | initForArray =>
    have hrun := linkedListInitForArray_run l
    exact iff_of_true (disciplined_of_free hrun) not_false
  | initForHeap =>
    have hrun : linkedListInitForHeap l 1 =
        .free (some (BleFirmware.linkedListInitForHeap l, ())) := rfl
    exact iff_of_true (disciplined_of_free hrun) not_false
  | freeNode pNode =>
    have hrun : linkedListFreeNode pNode l 1 = _ := act_run _ l
    exact iff_of_true (disciplined_of_free hrun) not_false
  | _ =>
    refine iff_of_true ?_ not_false
    exact disciplined_of_free (locked_run _ l)

theorem lwListCall_disciplined (fuel : ℕ) (c : LwListCall) (l : LwList) :
    Disciplined (c.op fuel).2 l := by
  cases c with
  | init =>
    have hrun : lwListInit l 1 = .free (some (BleFirmware.lwListInit l, ())) := rfl
    exact disciplined_of_free hrun
  | exist pElem =>
    have hrun : lwListExist fuel pElem l 1 = _ := act_run _ l
    exact disciplined_of_free hrun
  | count =>
    have hrun : lwListCount l 1 = _ := act_run _ l
    exact disciplined_of_free hrun
  | _ => exact disciplined_of_free (locked_run _ l)

theorem kvListCall_disciplined (lib : Stdlib) (fuel : ℕ) (c : KvListCall) (l : KvList) :
    Disciplined (c.op lib fuel).2 l := by
  cases c with
  | init =>
    have hrun : kvListInit l 1 = .free (some (BleFirmware.kvListInit l, ())) := rfl
    exact disciplined_of_free hrun
  | add key pValue => exact disciplined_of_free (kvListAdd_run key pValue l)
  | «at» index => exact disciplined_of_free (kvListAt_run fuel index l)
  | removeNode pNode => exact disciplined_of_free (kvListRemoveNode_run pNode l)
  | remove key => exact disciplined_of_free (kvListRemove_run lib key l)
  | _ => exact disciplined_of_free (locked_run _ l)

theorem mutex_disciplined_iff [Inhabited D] (lib : Stdlib) (fuel : ℕ) :
    (∀ (c : LinkedListCall D) l, Disciplined (c.op lib fuel).2 l ↔ ¬ c.IsSort) ∧
      (∀ (c : LwListCall) l, Disciplined (c.op fuel).2 l) ∧
      ∀ (c : KvListCall) l, Disciplined (c.op lib fuel).2 l :=
  ⟨linkedListCall_disciplined_iff lib fuel, lwListCall_disciplined fuel,
    kvListCall_disciplined lib fuel⟩

/-- An array list of depth 1 before its initialisation. -/
def oneSlotList : LinkedList ℕ where
  head := none
  tail := none
  next _ := none
  prev _ := none
  arrayBased := true
  count := 0
  width := 4
  depth := 1
  nodeArray := some 16
  dataArray := some 64
  sorted := false
  lastSlotIndex := 0
  opt _ := 0
  dataPtr _ := 0
  data _ := 0
  live _ := false

def comparePayload : ListCmp ℕ := fun m n => m.payload - n.payload

/-- Initialised and then sorted, the list is not even touched: the task waits
for itself. -/
theorem sort_waits_for_itself :
    (do linkedListInitForArray; linkedListSort Stdlib.reference comparePayload)
        oneSlotList 0 = .waits ∧
      ¬ Disciplined (linkedListSort Stdlib.reference comparePayload)
        (BleFirmware.linkedListInitForArray oneSlotList) :=
  ⟨rfl, not_disciplined_of_waits rfl⟩

end BleFirmware.ListMutex
