import BleFirmware.LinkedList
import Mathlib.Data.UInt

/-!
# `ble_op_queue.c`

The operations are queued in a heap-based list. An operation is passed as the
address of a `ble_op_t` together with the object found there; of the queued
ones the object is the copy in the payload of the list node.

The runner callbacks are code of the caller. A `Runner` says what calling one
does to the queue and which code it returns. `log` records the calls and the
branches taken, for the sake of statements about whole runs; no function reads
it. A function answers `none` where the C code would follow a NULL pointer.
-/

namespace BleFirmware

abbrev BitState := UInt16

def bitStateMatch (state stateMask : BitState) : Bool := state &&& stateMask != 0

abbrev Ret := UInt16

def retOk : Ret := 0

structure BleOp where
  name : Addr
  id : UInt8
  targetState : BitState
  precondition : BitState
  param : ℕ
  runnerCallback : Option Addr
  deriving DecidableEq

/-- Three words, two half-words and a byte, with their padding. -/
def sizeofBleOp : ℕ := 20

inductive Event
  | submit (op : BleOp)
  | satisfied (op : BleOp)
  | invoke (op : BleOp)
  | return (op : BleOp) (ret : Ret)
  | apply (op : BleOp)
  | wait (op : BleOp)
  | reject (op : BleOp)
  | complete (op : BleOp)
  deriving DecidableEq

structure OpQueue where
  opList : LinkedList BleOp
  resultCallback : Option Addr
  currentState : BitState
  runningOpPtr : Option Addr
  log : List Event

abbrev Runner := OpQueue → BleOp → Option (OpQueue × Ret)

def OpQueue.note (q : OpQueue) (e : Event) : OpQueue := { q with log := q.log ++ [e] }

def bleOpqInit (q : OpQueue) (currentState : BitState) (resultCallback : Option Addr) : OpQueue :=
  { opList := linkedListInitForHeap q.opList
    resultCallback := resultCallback
    currentState := currentState
    runningOpPtr := none
    log := [] }

/-- The returned `Bool` is `wait_event`. -/
def performCommand (runner : Runner) (q : OpQueue) (pOp : Addr) (op : BleOp) :
    Option (OpQueue × Bool) :=
  let targetStateMatched := bitStateMatch q.currentState op.targetState
  if !targetStateMatched then
    let preconditionStateMatched := bitStateMatch q.currentState op.precondition
    if preconditionStateMatched then
      match op.runnerCallback with
      | some _ =>
        (runner (q.note (.invoke op)) op).map fun r =>
          let q := r.1.note (.return op r.2)
          if r.2 = retOk then ({ q with runningOpPtr := some pOp }, true) else (q, false)
      | none => some ({ q.note (.apply op) with currentState := op.targetState }, false)
    else if q.runningOpPtr.isSome then some (q.note (.wait op), true)
    else some (q.note (.reject op), false)
  else some (q.note (.satisfied op), false)

/-- One round of the loop of `ble_opq_process`. The popped node is not freed. -/
def bleOpqProcessBody (runner : Runner) (q : OpQueue) : OpQueue ⊕ Option OpQueue :=
  match linkedListRemoveHead q.opList with
  | none => .inr none
  | some (l, none) => .inr (some { q with opList := l })
  | some (l, some pNode) =>
    let q := { q with opList := l }
    match performCommand runner q (l.dataPtr pNode) (l.nodeData pNode) with
    | none => .inr none
    | some (q, waitEvent) => if waitEvent then .inr (some q) else .inl q

/-- The loop is run for at most `fuel` rounds. -/
def bleOpqProcess (runner : Runner) (fuel : ℕ) (q : OpQueue) : Option (Option OpQueue) :=
  Loop.run (bleOpqProcessBody runner) fuel q

/-- `block` is what `OSAL_MALLOC` answers if it is called; without a block the
data of a NULL node is written. -/
def bleOpqStart (runner : Runner) (q : OpQueue) (pOp : Addr) (op : BleOp) (block : Option Addr) :
    Option OpQueue :=
  let q := q.note (.submit op)
  let isEmpty := linkedListEmpty q.opList
  if q.runningOpPtr = none ∧ isEmpty then (performCommand runner q pOp op).map fun r => r.1
  else
    match linkedListAllocNode q.opList (fun _ => block) sizeofBleOp with
    | (_, none) => none
    | (l, some pNode) =>
      (linkedListInsertTail (l.setNodeData pNode op) pNode).map fun l => { q with opList := l }

def bleOpqComplete (q : OpQueue) (op : BleOp) : OpQueue :=
  { q.note (.complete op) with currentState := op.targetState, runningOpPtr := none }

def bleOpqSetState (q : OpQueue) (state : BitState) : OpQueue := { q with currentState := state }

def bleOpqGetState (q : OpQueue) : BitState := q.currentState

end BleFirmware
