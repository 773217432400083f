import BleFirmware.Base.Run
import BleFirmware.HeapList
import BleFirmware.OpQueue
import Mathlib.Logic.Relation

/-!
# The operation queue with runners that call it back

A runner may call the functions of the queue before it returns, and so may the
runners that these calls start. A run here is a sequence of actions: calls of
the three functions, rounds of the loop of `ble_opq_process`, and returns of
runners. The calls that have not returned are the frames of a stack; the code
outside the queue acts when there is none, or from the runner on top.

`runningNode` and `reports` are kept for the statements. The first is the list
node whose payload `running_op_ptr` points into, if the running operation was
popped from the queue. The second lists the calls of `result_callback`.
-/

namespace BleFirmware.OpQueueNested
open Run

/-- `perform_command` up to the call of the runner. `none` stands for the call,
an answer is `wait_event`. -/
def enterCommand (q : OpQueue) (op : BleOp) : OpQueue × Option Bool :=
  let targetStateMatched := bitStateMatch q.currentState op.targetState
  if !targetStateMatched then
    let preconditionStateMatched := bitStateMatch q.currentState op.precondition
    if preconditionStateMatched then
      match op.runnerCallback with
      | some _ => (q.note (.invoke op), none)
      | none => ({ q.note (.apply op) with currentState := op.targetState }, some false)
    else if q.runningOpPtr.isSome then (q.note (.wait op), some true)
    else (q.note (.reject op), some false)
  else (q.note (.satisfied op), some false)

/-- The rest of `perform_command` once the runner has returned. -/
def leaveRunner (q : OpQueue) (pOp : Addr) (op : BleOp) (ret : Ret) : OpQueue × Bool :=
  let q := q.note (.return op ret)
  if ret = retOk then ({ q with runningOpPtr := some pOp }, true) else (q, false)

def queueOp (q : OpQueue) (op : BleOp) (block : Option Addr) : Option OpQueue :=
  match linkedListAllocNode q.opList (fun _ => block) sizeofBleOp with
  | (_, none) => none
  | (l, some pNode) =>
    (linkedListInsertTail (l.setNodeData pNode op) pNode).map fun l => { q with opList := l }

theorem performCommand_eq (runner : Runner) (q : OpQueue) (pOp : Addr) (op : BleOp) :
    performCommand runner q pOp op =
      match enterCommand q op with
      | (q, some waitEvent) => some (q, waitEvent)
      | (q, none) => (runner q op).map fun r => leaveRunner r.1 pOp op r.2 := by
  unfold performCommand enterCommand
  by_cases ht : bitStateMatch q.currentState op.targetState = true
  · simp [ht]
  · by_cases hp : bitStateMatch q.currentState op.precondition = true
    · cases hf : op.runnerCallback <;> simp [ht, hp, leaveRunner]
    · by_cases hr : q.runningOpPtr.isSome = true <;> simp [ht, hp, hr]

theorem bleOpqStart_eq (runner : Runner) (q : OpQueue) (pOp : Addr) (op : BleOp)
    (block : Option Addr) :
    bleOpqStart runner q pOp op block =
      if q.runningOpPtr = none ∧ linkedListEmpty q.opList then
        (performCommand runner (q.note (.submit op)) pOp op).map fun r => r.1
      else queueOp (q.note (.submit op)) op block := rfl

/-- A call of a queue function that has not returned: `ble_opq_process` between
two rounds, or a call whose runner is executing. `pNode` is the node that
`ble_opq_process` has popped; `ble_opq_start` has none. -/
inductive Frame
  | loop
  | runner (pNode : Option Addr) (pOp : Addr) (op : BleOp)
  deriving DecidableEq

inductive Action
  | start (pOp : Addr) (op : BleOp) (block : Option Addr)
  | process
  | round
  | runnerReturns (ret : Ret)
  | complete (op : BleOp)

structure State where
  opq : OpQueue
  frames : List Frame
  runningNode : Option Addr
  reports : List (BleOp × Ret)

def callable : List Frame → Bool
  | .loop :: _ => false
  | _ => true

def init (q : OpQueue) (currentState : BitState) (resultCallback : Option Addr) : State :=
  ⟨bleOpqInit q currentState resultCallback, [], none, []⟩

def start (s : State) (pOp : Addr) (op : BleOp) (block : Option Addr) : Option State :=
  let q := s.opq.note (.submit op)
  if s.opq.runningOpPtr = none ∧ linkedListEmpty s.opq.opList then
    match enterCommand q op with
    | (q, some _) => some { s with opq := q }
    | (q, none) => some { s with opq := q, frames := .runner none pOp op :: s.frames }
  else (queueOp q op block).map fun q => { s with opq := q }

/-- One round of the loop; `fs` are the frames below. -/
def round (s : State) (fs : List Frame) : Option State :=
  match linkedListRemoveHead s.opq.opList with
  | none => none
  | some (l, none) => some { s with opq := { s.opq with opList := l }, frames := fs }
  | some (l, some pNode) =>
    let op := l.nodeData pNode
    match enterCommand { s.opq with opList := l } op with
    | (q, some waitEvent) =>
      some { s with opq := q, frames := if waitEvent then fs else .loop :: fs }
    | (q, none) =>
      some { s with opq := q, frames := .runner (some pNode) (l.dataPtr pNode) op :: fs }

def runnerReturns (s : State) (pNode : Option Addr) (pOp : Addr) (op : BleOp) (ret : Ret)
    (fs : List Frame) : State :=
  let r := leaveRunner s.opq pOp op ret
  { s with
    opq := r.1
    frames := if pNode.isSome ∧ r.2 = false then .loop :: fs else fs
    runningNode := if r.2 then pNode else s.runningNode }

/-- An action that the frame on top does not allow has no successor. -/
def step (s : State) : Action → Option State
  | .start pOp op block => if callable s.frames then start s pOp op block else none
  | .process => if callable s.frames then some { s with frames := .loop :: s.frames } else none
  | .round =>
    match s.frames with
    | .loop :: fs => round s fs
    | _ => none
  | .runnerReturns ret =>
    match s.frames with
    | .runner pNode pOp op :: fs => some (runnerReturns s pNode pOp op ret fs)
    | _ => none
  | .complete op =>
    if callable s.frames then
      some { s with opq := bleOpqComplete s.opq op, runningNode := none }
    else none

def Enabled (s : State) : Action → Prop
  | .round => s.frames.head? = some .loop
  | .runnerReturns _ => s.frames ≠ [] ∧ callable s.frames = true
  | _ => callable s.frames = true

instance (s : State) (c : Action) : Decidable (Enabled s c) := by
  unfold Enabled
  split <;> infer_instance

theorem step_start {s : State} (h : callable s.frames = true) (pOp : Addr) (op : BleOp)
    (block : Option Addr) : step s (.start pOp op block) = start s pOp op block := by
  rw [step, if_pos h]

theorem step_round {s : State} {fs : List Frame} (h : s.frames = .loop :: fs) :
    step s .round = round s fs := by
  simp only [step, h]

theorem step_runnerReturns {s : State} {pNode : Option Addr} {pOp : Addr} {op : BleOp}
    {fs : List Frame} (h : s.frames = .runner pNode pOp op :: fs) (ret : Ret) :
    step s (.runnerReturns ret) = some (runnerReturns s pNode pOp op ret fs) := by
  simp only [step, h]

section Played

def Steps : State → State → Prop := Relation.ReflTransGen fun s t => ∃ c, step s c = some t

/-- What the runner does to the queue can be played by actions of this machine,
which come back to the frame of the runner. -/
def Played (runner : Runner) : Prop :=
  ∀ (s : State) (pNode : Option Addr) (pOp : Addr) (op : BleOp) (fs : List Frame) (q : OpQueue)
    (ret : Ret), s.frames = .runner pNode pOp op :: fs → runner s.opq op = some (q, ret) →
    ∃ t, Steps s t ∧ t.opq = q ∧ t.frames = s.frames

variable {runner : Runner} (hplay : Played runner)

include hplay

theorem runner_played {s : State} {pNode : Option Addr} {pOp : Addr} {op : BleOp}
    {fs : List Frame} (hf : s.frames = .runner pNode pOp op :: fs) {q : OpQueue} {ret : Ret}
    (hr : runner s.opq op = some (q, ret)) :
    ∃ t, Steps s t ∧ t.opq = (leaveRunner q pOp op ret).1 ∧
      t.frames = if pNode.isSome ∧ (leaveRunner q pOp op ret).2 = false then .loop :: fs
        else fs := by
  obtain ⟨t, hst, rfl, hft⟩ := hplay s pNode pOp op fs q ret hf hr
  have hlast := step_runnerReturns (hft.trans hf) ret
  exact ⟨_, hst.tail ⟨_, hlast⟩, rfl, rfl⟩

theorem bleOpqStart_played {s : State} (hc : callable s.frames = true) {pOp : Addr} {op : BleOp}
    {block : Option Addr} {q : OpQueue} (h : bleOpqStart runner s.opq pOp op block = some q) :
    ∃ t, Steps s t ∧ t.opq = q ∧ t.frames = s.frames := by
  rw [bleOpqStart_eq] at h
  by_cases hidle : s.opq.runningOpPtr = none ∧ linkedListEmpty s.opq.opList = true
  · rw [if_pos hidle, performCommand_eq] at h
    have hs : step s (.start pOp op block) =
        match enterCommand (s.opq.note (.submit op)) op with
        | (q, some _) => some { s with opq := q }
        | (q, none) => some { s with opq := q, frames := .runner none pOp op :: s.frames } := by
      rw [step_start hc, start, if_pos hidle]
    rcases he : enterCommand (s.opq.note (.submit op)) op with ⟨q₁, _ | waitEvent⟩
    · rw [he] at h hs
      obtain ⟨r₁, hr₁, rfl⟩ := Option.map_eq_some_iff.mp h
      obtain ⟨r₂, hr₂, rfl⟩ := Option.map_eq_some_iff.mp hr₁
      let s₁ : State := { s with opq := q₁, frames := .runner none pOp op :: s.frames }
      have hf₁ : s₁.frames = .runner none pOp op :: s.frames := rfl
      obtain ⟨t, hst, hq, hft⟩ := runner_played hplay hf₁ hr₂
      exact ⟨t, .head ⟨_, hs⟩ hst, hq, by simpa using hft⟩
    · rw [he] at h hs
      obtain rfl := Option.some.inj h
      exact ⟨_, .single ⟨_, hs⟩, rfl, rfl⟩
  · rw [if_neg hidle] at h
    have hs : step s (.start pOp op block) = some { s with opq := q } := by
      rw [step_start hc, start, if_neg hidle, h, Option.map_some]
    exact ⟨_, .single ⟨_, hs⟩, rfl, rfl⟩

theorem command_played {s : State} {fs : List Frame} (hf : s.frames = .loop :: fs)
    {l : LinkedList BleOp} {pNode : Addr}
    (hl : linkedListRemoveHead s.opq.opList = some (l, some pNode)) {r : OpQueue × Bool}
    (h : performCommand runner { s.opq with opList := l } (l.dataPtr pNode) (l.nodeData pNode) =
      some r) :
    ∃ t, Steps s t ∧ t.opq = r.1 ∧ t.frames = if r.2 then fs else .loop :: fs := by
  have hround := step_round hf
  simp only [round, hl] at hround
  rw [performCommand_eq] at h
  rcases he : enterCommand { s.opq with opList := l } (l.nodeData pNode) with ⟨q₁, _ | w⟩
  · simp only [he] at h hround
    obtain ⟨r₂, hr₂, rfl⟩ := Option.map_eq_some_iff.mp h
    let s₁ : State :=
      { s with
        opq := q₁
        frames := .runner (some pNode) (l.dataPtr pNode) (l.nodeData pNode) :: fs }
    have hf₁ : s₁.frames =
        .runner (some pNode) (l.dataPtr pNode) (l.nodeData pNode) :: fs := rfl
    obtain ⟨t, hst, hq, hft⟩ := runner_played hplay hf₁ hr₂
    refine ⟨t, .head ⟨_, hround⟩ hst, hq, ?_⟩
    rw [hft]
    cases (leaveRunner r₂.1 (l.dataPtr pNode) (l.nodeData pNode) r₂.2).2 <;> rfl
  · simp only [he] at h hround
    obtain rfl := Option.some.inj h
    exact ⟨_, .single ⟨_, hround⟩, rfl, rfl⟩

theorem loop_played (fuel : ℕ) {s : State} {fs : List Frame} (hf : s.frames = .loop :: fs)
    {q : OpQueue} (h : bleOpqProcess runner fuel s.opq = some (some q)) :
    ∃ t, Steps s t ∧ t.opq = q ∧ t.frames = fs := by
  induction fuel generalizing s with
  | zero => simp [bleOpqProcess, Loop.run] at h
  | succ fuel ih =>
    rw [bleOpqProcess, Loop.run, bleOpqProcessBody] at h
    rcases hl : linkedListRemoveHead s.opq.opList with _ | ⟨l, _ | pNode⟩
    · simp [hl] at h
    · have hround := step_round hf
      simp only [round, hl] at h hround
      exact ⟨_, .single ⟨_, hround⟩, by simpa using h, rfl⟩
    · simp only [hl] at h
      cases hp : performCommand runner { s.opq with opList := l } (l.dataPtr pNode)
          (l.nodeData pNode) with
      | none => simp [hp] at h
      | some r =>
        obtain ⟨t, hst, hq, hft⟩ := command_played hplay hf hl hp
        simp only [hp] at h
        cases hw : r.2 with
        | true =>
          rw [hw, if_pos rfl] at h hft
          refine ⟨t, hst, ?_, hft⟩
          rw [hq]
          simpa using h
        | false =>
          rw [hw, if_neg Bool.false_ne_true, ← hq] at h
          rw [hw, if_neg Bool.false_ne_true] at hft
          obtain ⟨u, htu, hu⟩ := ih hft h
          exact ⟨u, hst.trans htu, hu⟩

theorem bleOpqProcess_played {s : State} (hc : callable s.frames = true) {fuel : ℕ} {q : OpQueue}
    (h : bleOpqProcess runner fuel s.opq = some (some q)) :
    ∃ t, Steps s t ∧ t.opq = q ∧ t.frames = s.frames := by
  have hs : step s .process = some { s with frames := .loop :: s.frames } := by
    rw [step, if_pos hc]
  obtain ⟨t, hst, ht⟩ := loop_played hplay fuel (s := { s with frames := .loop :: s.frames }) rfl h
  exact ⟨t, .head ⟨_, hs⟩ hst, ht⟩

end Played

end BleFirmware.OpQueueNested
