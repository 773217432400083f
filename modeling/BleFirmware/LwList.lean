import BleFirmware.ListAlgo
import BleFirmware.UtilTool

/-!
# `lw_list.c`

The intrusive list: a `LwList` is the `lw_list_t` header with the links of the
`list_elem_t` members that user objects embed. As in `LinkedList`, a function
answers `none` where the code would follow a NULL pointer, and the mutex calls
are left out.
-/

namespace BleFirmware
open ListAlgo

structure LwList extends LinkList Addr where
  count : ℕ

def lwListInit (l : LwList) : LwList := { l with head := none, tail := none, count := 0 }

def lwListInsertHead (l : LwList) (pElem : Addr) : LwList :=
  { l with toLinkList := listInsertHead l.toLinkList pElem, count := l.count+1 }

def lwListInsertTail (l : LwList) (pElem : Addr) : Option LwList :=
  (listInsertTail l.toLinkList pElem).map fun k => { l with toLinkList := k, count := l.count+1 }

def lwListRemoveHead (l : LwList) : Option (LwList × Option Addr) :=
  match l.head with
  | some pHead =>
    (listRemoveHead l.toLinkList pHead).map fun k =>
      ({ l with toLinkList := k, count := sizeDec l.count }, some pHead)
  | none => some (l, none)

def lwListRemoveTail (l : LwList) : Option (LwList × Option Addr) :=
  match l.tail with
  | some pTail =>
    (listRemoveTail l.toLinkList pTail).map fun k =>
      ({ l with toLinkList := k, count := sizeDec l.count }, some pTail)
  | none => some (l, none)

/-- The count goes down whether or not the macro refused the element. -/
def lwListRemoveNode (l : LwList) : Option Addr → LwList × Option Addr
  | some pElem =>
    let r := listRemoveNode l.toLinkList pElem
    ({ l with toLinkList := r.1, count := sizeDec l.count }, r.2)
  | none => (l, none)

def lwListExist (fuel : ℕ) (l : LwList) (pElem : Addr) : Option Bool :=
  listNodeExists fuel l.toLinkList pElem

def lwListCount (l : LwList) : ℕ := l.count

def lwListEmpty (l : LwList) : Bool := l.head.isNone

end BleFirmware
