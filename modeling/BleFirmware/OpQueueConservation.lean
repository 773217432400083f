import BleFirmware.OpQueueExclusion

/-!
# Which operations the queue loses

Every operation that is submitted is examined in its turn or still queued. An
examined operation has been dealt with unless the queue decided to wait for
another one: then it has been popped already and is gone. So operations are
lost exactly when `ble_opq_process` is called while one is running and meets a
precondition that does not match before it starts another operation.
-/

namespace BleFirmware.OpQueueConservation
open Run OpQueueFifo OpQueueExclusion

def submittedOp : Event → Option BleOp
  | .submit op => some op
  | _ => none

/-- Started, applied, already satisfied, or rejected while nothing was running. -/
def disposedOp : Event → Option BleOp
  | .satisfied op => some op
  | .invoke op => some op
  | .apply op => some op
  | .reject op => some op
  | _ => none

def isWait : Event → Bool
  | .wait _ => true
  | _ => false

def examinedOp : Event → Option BleOp
  | .wait op => some op
  | e => disposedOp e

def submitted (log : List Event) : List BleOp := log.filterMap submittedOp
def disposed (log : List Event) : List BleOp := log.filterMap disposedOp
def examined (log : List Event) : List BleOp := log.filterMap examinedOp

def Conserved (log : List Event) (ops : List BleOp) : Prop := submitted log = disposed log ++ ops

instance (log : List Event) (ops : List BleOp) : Decidable (Conserved log ops) :=
  inferInstanceAs (Decidable (_ = _))

/-- Going through the operations while one is running starts another of them or
ends the queue before a precondition fails to match; `n` runners have returned. -/
def StartsFirst (rets : ℕ → Ret) : ℕ → BitState → List BleOp → Prop
  | _, _, [] => True
  | n, state, op :: ops =>
    if bitStateMatch state op.targetState then StartsFirst rets n state ops
    else if bitStateMatch state op.precondition then
      if op.runnerCallback.isSome then rets n = retOk ∨ StartsFirst rets (n+1) state ops
      else StartsFirst rets n op.targetState ops
    else False

def Keeps (rets : ℕ → Ret) (running : Bool) (log : List Event) (state : BitState)
    (ops : List BleOp) : Call → Prop
  | .process => running = false ∨ StartsFirst rets (log.countP isReturn) state ops
  | _ => True

def Accounted (s : Fifo) : Prop := submitted s.log = examined s.log ++ s.queue

variable {rets : ℕ → Ret} {s : Fifo}

def toState8 : BleOp := ⟨0, 3, 8, 4, 0, some 768⟩

end BleFirmware.OpQueueConservation
