import BleFirmware.Base.Bytes
import BleFirmware.Base.CSort
import BleFirmware.Base.Loop
import BleFirmware.UtilTool

/-!
# `kv_list.c`

A `KvList` is the `kv_list_t` header with its node array and the memory that
holds its payloads. The node array has `depth` elements, so its length stands
for the `depth` field; a node pointer is an index into it. The mutex calls are
left out, as in `LinkedList`.

The key `SIZE_MAX` that marks free nodes is an ordinary key to every function
that looks at `valid` first, and keys are compared as the `size_t` they are.
-/

namespace BleFirmware
open Bytes CSort

structure KvNode where
  valid : Bool
  key : ℕ
  dataPtr : ℕ
  deriving DecidableEq, Inhabited

def kvKeyInvalid : ℕ := sizeMax

structure KvList where
  count : ℕ
  width : ℕ
  nodeArray : List KvNode
  dataArray : ℕ
  data : Memory
  sorted : Bool

namespace KvList

def depth (l : KvList) : ℕ := l.nodeArray.length

def node (l : KvList) (i : ℕ) : KvNode := l.nodeArray.getD i default

def payload (l : KvList) (n : KvNode) : List UInt8 := readBytes l.data n.dataPtr l.width

end KvList

def kvListInit (l : KvList) : KvList :=
  { l with
    count := 0
    sorted := false
    nodeArray := l.nodeArray.mapIdx fun i n =>
      { n with dataPtr := l.dataArray + i * l.width, key := kvKeyInvalid } }

def kvListAdd (l : KvList) (key : ℕ) (pValue : Memory) : KvList × Option ℕ :=
  if l.count ≥ l.depth then (l, none)
  else
    match l.nodeArray.findIdx? (fun n => !n.valid) with
    | some i =>
      let n := { l.node i with valid := true, key := key }
      ({ l with
          nodeArray := l.nodeArray.set i n
          data := memcpy l.data n.dataPtr pValue l.width
          count := l.count+1
          sorted := false },
        some i)
    | none => (l, none)

def kvListClear (l : KvList) : KvList :=
  { l with
    nodeArray := l.nodeArray.map fun n => { n with valid := false, key := kvKeyInvalid }
    count := 0
    sorted := false }

/-- One round of the loop of `kv_list_at`: the slot it tests is fixed, and only
the counter `i` may move. -/
def kvListAtBody (l : KvList) (index : ℕ) (i : ℕ) : ℕ ⊕ Option ℕ :=
  if i < l.count then
    let i := if (l.node index).valid then i+1 else i
    if i = index then .inr (some index) else .inl i
  else .inr none

/-- `none` when `fuel` rounds are not enough. -/
def kvListAt (fuel : ℕ) (l : KvList) (index : ℕ) : Option (Option ℕ) :=
  if index ≥ l.count then some none else Loop.run (kvListAtBody l index) fuel 0

def compareNodeKey (n m : KvNode) : ℤ :=
  if !n.valid && !m.valid then 0
  else if n.valid && m.valid then
    (if n.key > m.key then 1 else 0) - (if n.key < m.key then 1 else 0)
  else m.valid.toInt - n.valid.toInt

def kvListSort (lib : Stdlib) (l : KvList) : KvList :=
  { l with nodeArray := lib.qsort compareNodeKey l.nodeArray, sorted := true }

/-- The loop of `general_search` over the nodes from slot `i` on, `j` of the
valid ones having been seen. -/
def generalSearchFrom (count key : ℕ) : List KvNode → ℕ → ℕ → Option ℕ
  | [], _, _ => none
  | n :: ns, i, j =>
    if j < count then
      if n.valid then
        if n.key = key then some i else generalSearchFrom count key ns (i+1) (j+1)
      else generalSearchFrom count key ns (i+1) j
    else none

def generalSearch (l : KvList) (key : ℕ) : Option ℕ :=
  generalSearchFrom l.count key l.nodeArray 0 0

def binarySearch (lib : Stdlib) (l : KvList) (key : ℕ) : Option ℕ :=
  lib.bsearch (compareNodeKey ⟨true, key, 0⟩) l.nodeArray

def kvListSearch (lib : Stdlib) (l : KvList) (key : ℕ) : Option ℕ :=
  if l.sorted then binarySearch lib l key else generalSearch l key

/-- The keys written to `p_key_array`; their number is `*p_key_count`. -/
def kvListWalk (l : KvList) : List ℕ :=
  l.nodeArray.filterMap fun n => if n.valid then some n.key else none

/-- `none` when the node pointer is NULL: it is read before anything else. -/
def kvListRemoveNode (l : KvList) : Option ℕ → Option KvList
  | none => none
  | some i =>
    if (l.node i).valid then
      some { l with
        nodeArray := l.nodeArray.set i { l.node i with valid := false, key := kvKeyInvalid }
        count := sizeDec l.count
        sorted := false }
    else some l

def kvListRemove (lib : Stdlib) (l : KvList) (key : ℕ) : Option KvList :=
  kvListRemoveNode l (kvListSearch lib l key)

end BleFirmware
