import BleFirmware.Base.Run
import BleFirmware.HeapList
import BleFirmware.OpQueue

/-!
# The operation queue as a FIFO of operations

Runner callbacks that do not call back into the queue only return a code, and
`rets n` is the code that the `n`-th of them returns. The queue then is a list
of operations with a state and a flag, and `Abstracts` relates the heap list of
the code to that list: the two take the same steps on every sequence of calls.
-/

namespace BleFirmware.OpQueueFifo
open Loop Run

inductive Call
  | start (pOp : Addr) (op : BleOp) (block : Option Addr)
  | process
  | complete (op : BleOp)

def isReturn : Event → Bool
  | .return _ _ => true
  | _ => false

/-- A runner that leaves the queue alone. -/
def quietRunner (rets : ℕ → Ret) : Runner := fun q _ => some (q, rets (q.log.countP isReturn))

def step (rets : ℕ → Ret) (q : OpQueue) : Call → Option OpQueue
  | .start pOp op block => bleOpqStart (quietRunner rets) q pOp op block
  | .process => (bleOpqProcess (quietRunner rets) (q.opList.count+1) q).join
  | .complete op => some (bleOpqComplete q op)

def lastStarted (log : List Event) : Option BleOp :=
  log.foldl (fun last e =>
    match e with
    | .return op ret => if ret = retOk then some op else last
    | _ => last) none

/-- Only the running operation completes. -/
def CompletesRunning (running : Bool) (log : List Event) : Call → Prop
  | .complete op => running = true ∧ lastStarted log = some op
  | _ => True

def Fresh (q : OpQueue) : Call → Prop
  | .start _ _ (some p) => q.opList.live p = false
  | _ => True

instance (q : OpQueue) (c : Call) : Decidable (Fresh q c) := by
  unfold Fresh
  split <;> infer_instance

def Legal (q : OpQueue) (c : Call) : Prop :=
  Fresh q c ∧ CompletesRunning q.runningOpPtr.isSome q.log c

instance (q : OpQueue) (c : Call) : Decidable (Legal q c) := by
  unfold Legal CompletesRunning
  split <;> infer_instance

structure Fifo where
  queue : List BleOp
  currentState : BitState
  running : Bool
  log : List Event

namespace Fifo

def note (s : Fifo) (e : Event) : Fifo := { s with log := s.log ++ [e] }

def perform (rets : ℕ → Ret) (s : Fifo) (op : BleOp) : Fifo × Bool :=
  if !bitStateMatch s.currentState op.targetState then
    if bitStateMatch s.currentState op.precondition then
      match op.runnerCallback with
      | some _ =>
        let ret := rets (s.log.countP isReturn)
        let s := (s.note (.invoke op)).note (.return op ret)
        if ret = retOk then ({ s with running := true }, true) else (s, false)
      | none => ({ s.note (.apply op) with currentState := op.targetState }, false)
    else if s.running then (s.note (.wait op), true)
    else (s.note (.reject op), false)
  else (s.note (.satisfied op), false)

/-- Work on the operations of a queue until one of them makes it wait. -/
def processFrom (rets : ℕ → Ret) : List BleOp → Fifo → Fifo
  | [], s => { s with queue := [] }
  | op :: ops, s =>
    let r := perform rets { s with queue := ops } op
    if r.2 then r.1 else processFrom rets ops r.1

def process (rets : ℕ → Ret) (s : Fifo) : Fifo := processFrom rets s.queue s

def start (rets : ℕ → Ret) (s : Fifo) (op : BleOp) (block : Option Addr) : Option Fifo :=
  let s := s.note (.submit op)
  if s.running = false ∧ s.queue = [] then some (perform rets s op).1
  else block.map fun _ => { s with queue := s.queue ++ [op] }

def complete (s : Fifo) (op : BleOp) : Fifo :=
  { s.note (.complete op) with currentState := op.targetState, running := false }

def step (rets : ℕ → Ret) (s : Fifo) : Call → Option Fifo
  | .start _ op block => s.start rets op block
  | .process => some (s.process rets)
  | .complete op => some (s.complete op)

end Fifo

/-- The six ways in which an operation is performed. -/
inductive Performed (rets : ℕ → Ret) (s : Fifo) (op : BleOp) : Fifo × Bool → Prop
  | satisfied (ht : bitStateMatch s.currentState op.targetState = true) :
      Performed rets s op (s.note (.satisfied op), false)
  | started (ht : bitStateMatch s.currentState op.targetState = false)
      (hp : bitStateMatch s.currentState op.precondition = true)
      (hf : op.runnerCallback.isSome) (hr : rets (s.log.countP isReturn) = retOk) :
      Performed rets s op
        ({ (s.note (.invoke op)).note (.return op retOk) with running := true }, true)
  | failed (ht : bitStateMatch s.currentState op.targetState = false)
      (hp : bitStateMatch s.currentState op.precondition = true)
      (hf : op.runnerCallback.isSome) (hr : rets (s.log.countP isReturn) ≠ retOk) :
      Performed rets s op
        ((s.note (.invoke op)).note (.return op (rets (s.log.countP isReturn))), false)
  | applied (ht : bitStateMatch s.currentState op.targetState = false)
      (hp : bitStateMatch s.currentState op.precondition = true)
      (hf : op.runnerCallback = none) :
      Performed rets s op
        ({ s.note (.apply op) with currentState := op.targetState }, false)
  | waits (ht : bitStateMatch s.currentState op.targetState = false)
      (hp : bitStateMatch s.currentState op.precondition = false) (hr : s.running = true) :
      Performed rets s op (s.note (.wait op), true)
  | rejected (ht : bitStateMatch s.currentState op.targetState = false)
      (hp : bitStateMatch s.currentState op.precondition = false) (hr : s.running = false) :
      Performed rets s op (s.note (.reject op), false)

theorem perform_spec (rets : ℕ → Ret) (s : Fifo) (op : BleOp) :
    Performed rets s op (s.perform rets op) := by
  unfold Fifo.perform
  by_cases ht : bitStateMatch s.currentState op.targetState = true
  · rw [ht]
    exact .satisfied ht
  · have ht' := Bool.eq_false_iff.mpr ht
    by_cases hp : bitStateMatch s.currentState op.precondition = true
    · rw [ht', hp]
      cases hf : op.runnerCallback with
      | none => exact .applied ht' hp hf
      | some f =>
        have hsome : op.runnerCallback.isSome := by rw [hf, Option.isSome_some]
        by_cases hr : rets (s.log.countP isReturn) = retOk
        · simp only [hr]
          exact .started ht' hp hsome hr
        · simp only [hr]
          exact .failed ht' hp hsome hr
    · have hp' := Bool.eq_false_iff.mpr hp
      rw [ht', hp']
      cases hr : s.running with
      | true => exact .waits ht' hp' hr
      | false => exact .rejected ht' hp' hr

/-- Performing an operation leaves the rest of the queue and adds to the log. -/
theorem perform_frame (rets : ℕ → Ret) (s : Fifo) (op : BleOp) :
    (s.perform rets op).1.queue = s.queue ∧ s.log <+: (s.perform rets op).1.log := by
  have hs := perform_spec rets s op
  generalize s.perform rets op = r at hs
  cases hs <;> exact ⟨rfl, by simp [Fifo.note, List.append_assoc]⟩

theorem processFrom_log (rets : ℕ → Ret) (ops : List BleOp) (s : Fifo) :
    s.log <+: (Fifo.processFrom rets ops s).log := by
  induction ops generalizing s with
  | nil => exact List.prefix_rfl
  | cons op ops ih =>
    have hp := (perform_frame rets { s with queue := ops } op).2
    simp only [Fifo.processFrom]
    split_ifs
    · exact hp
    · exact hp.trans (ih _)

theorem fifo_step_log {rets : ℕ → Ret} {s t : Fifo} {c : Call} (h : s.step rets c = some t) :
    s.log <+: t.log := by
  cases c with
  | start pOp op block =>
    have hn : s.log <+: (s.note (.submit op)).log := List.prefix_append _ _
    simp only [Fifo.step, Fifo.start] at h
    split_ifs at h
    · obtain rfl := Option.some.inj h
      exact hn.trans (perform_frame rets _ op).2
    · obtain ⟨_, _, rfl⟩ := Option.map_eq_some_iff.mp h
      exact hn
  | process =>
    obtain rfl := Option.some.inj h
    exact processFrom_log rets _ s
  | complete op =>
    obtain rfl := Option.some.inj h
    exact List.prefix_append _ _

theorem fifo_step_eq_none {rets : ℕ → Ret} {s : Fifo} {c : Call} (h : s.step rets c = none) :
    ∃ pOp op, c = .start pOp op none := by
  cases c with
  | start pOp op block =>
    simp only [Fifo.step, Fifo.start] at h
    split_ifs at h
    obtain rfl := Option.map_eq_none_iff.mp h
    exact ⟨pOp, op, rfl⟩
  | process => simp [Fifo.step] at h
  | complete op => simp [Fifo.step] at h

structure Abstracts (q : OpQueue) (s : Fifo) : Prop where
  queue_eq : ∃ xs, HeapHolds q.opList xs ∧ s.queue = xs.map q.opList.nodeData
  currentState_eq : s.currentState = q.currentState
  running_eq : s.running = q.runningOpPtr.isSome
  log_eq : s.log = q.log

theorem Abstracts.payloads {q : OpQueue} {s : Fifo} (h : Abstracts q s) :
    s.queue = q.opList.payloads := by
  obtain ⟨xs, hxs, hq⟩ := h.queue_eq
  rw [hq, hxs.payloads_eq]

theorem Abstracts.note {q : OpQueue} {s : Fifo} (h : Abstracts q s) (e : Event) :
    Abstracts (q.note e) (s.note e) :=
  ⟨h.queue_eq, h.currentState_eq, h.running_eq, by simp [OpQueue.note, Fifo.note, h.log_eq]⟩

theorem abstracts_init {q : OpQueue} (h : q.opList.arrayBased = false) (state : BitState)
    (callback : Option Addr) :
    Abstracts (bleOpqInit q state callback) ⟨[], state, false, []⟩ :=
  ⟨⟨[], heapHolds_init h, rfl⟩, rfl, rfl, rfl⟩

variable (rets : ℕ → Ret)

theorem perform_abstracts {q : OpQueue} {s : Fifo} (h : Abstracts q s) (pOp : Addr) (op : BleOp) :
    ∃ q', performCommand (quietRunner rets) q pOp op = some (q', (s.perform rets op).2) ∧
      q'.opList = q.opList ∧ Abstracts q' (s.perform rets op).1 := by
  have hs := h.currentState_eq
  have hr := h.running_eq
  have hl := h.log_eq
  unfold performCommand Fifo.perform
  rw [hs]
  by_cases ht : bitStateMatch q.currentState op.targetState = true
  · simp only [ht]
    exact ⟨_, rfl, rfl, h.note _⟩
  · by_cases hp : bitStateMatch q.currentState op.precondition = true
    · simp only [ht, hp]
      cases hrun : op.runnerCallback with
      | none => exact ⟨_, rfl, rfl, ⟨h.queue_eq, rfl, hr, (h.note _).log_eq⟩⟩
      | some f =>
        have hcount : (q.note (.invoke op)).log.countP isReturn = s.log.countP isReturn := by
          rw [hl]
          simp [OpQueue.note, isReturn]
        have ha := (h.note (.invoke op)).note (.return op (rets (s.log.countP isReturn)))
        simp only [quietRunner, Option.map_some, hcount]
        by_cases hret : rets (s.log.countP isReturn) = retOk
        · simp only [hret] at ha ⊢
          exact ⟨_, rfl, rfl, ⟨ha.queue_eq, ha.currentState_eq, rfl, ha.log_eq⟩⟩
        · simp only [hret]
          exact ⟨_, rfl, rfl, ha⟩
    · simp only [ht, hp, hr]
      cases hrun : q.runningOpPtr.isSome with
      | true => exact ⟨_, rfl, rfl, h.note _⟩
      | false => exact ⟨_, rfl, rfl, h.note _⟩

theorem processFrom_abstracts (xs : List Addr) {q : OpQueue} {s : Fifo}
    (hx : HeapHolds q.opList xs)
    (h : Abstracts q { s with queue := xs.map q.opList.nodeData }) :
    ∃ q', bleOpqProcess (quietRunner rets) (xs.length+1) q = some (some q') ∧
      Abstracts q' (Fifo.processFrom rets (xs.map q.opList.nodeData) s) := by
  induction xs generalizing q s with
  | nil =>
    have hb : bleOpqProcessBody (quietRunner rets) q = .inr (some { q with opList := q.opList }) := by
      simp only [bleOpqProcessBody, heapHolds_pop_nil hx]
    exact ⟨q, run_succ_inr hb 0, h⟩
  | cons p xs ih =>
    obtain ⟨l, hl, hx', hdata, _⟩ := heapHolds_pop hx
    have hq : Abstracts { q with opList := l } { s with queue := xs.map q.opList.nodeData } :=
      ⟨⟨xs, hx', by rw [← hdata]⟩, h.currentState_eq, h.running_eq, h.log_eq⟩
    obtain ⟨q₁, hq₁, hlist, ha⟩ :=
      perform_abstracts rets hq (l.dataPtr p) (q.opList.nodeData p)
    have hb : bleOpqProcessBody (quietRunner rets) q =
        if (Fifo.perform rets { s with queue := xs.map q.opList.nodeData }
          (q.opList.nodeData p)).2 then .inr (some q₁) else .inl q₁ := by
      simp only [bleOpqProcessBody, hl, hdata, hq₁]
    simp only [List.map_cons, Fifo.processFrom]
    by_cases hw : (Fifo.perform rets { s with queue := xs.map q.opList.nodeData }
        (q.opList.nodeData p)).2 = true
    · rw [if_pos hw] at hb ⊢
      exact ⟨q₁, run_succ_inr hb _, ha⟩
    · rw [if_neg hw] at hb ⊢
      have hdata₁ : q₁.opList.nodeData = q.opList.nodeData := by rw [hlist, hdata]
      have hx₁ : HeapHolds q₁.opList xs := by
        rw [hlist]
        exact hx'
      obtain ⟨q', hq', ha'⟩ := ih hx₁
        ⟨⟨xs, hx₁, rfl⟩, ha.currentState_eq, ha.running_eq, ha.log_eq⟩
      refine ⟨q', ?_, ?_⟩
      · rw [bleOpqProcess, List.length_cons, run_succ_inl hb]
        exact hq'
      · rwa [hdata₁] at ha'

theorem bleOpqStart_idle {runner : Runner} {q : OpQueue} (h : q.runningOpPtr = none)
    (he : linkedListEmpty q.opList = true) (pOp : Addr) (op : BleOp) (block : Option Addr) :
    bleOpqStart runner q pOp op block =
      (performCommand runner (q.note (.submit op)) pOp op).map fun r => r.1 := by
  unfold bleOpqStart
  rw [if_pos ⟨h, he⟩]

theorem bleOpqStart_null {runner : Runner} {q : OpQueue}
    (h : ¬ (q.runningOpPtr = none ∧ linkedListEmpty q.opList = true))
    (ha : q.opList.arrayBased = false) (pOp : Addr) (op : BleOp) :
    bleOpqStart runner q pOp op none = none := by
  simp only [bleOpqStart, OpQueue.note, if_neg h, linkedListAllocNode_null ha]

theorem bleOpqStart_block {runner : Runner} {q : OpQueue}
    (h : ¬ (q.runningOpPtr = none ∧ linkedListEmpty q.opList = true))
    (ha : q.opList.arrayBased = false) (pOp : Addr) (op : BleOp) (p : Addr) :
    bleOpqStart runner q pOp op (some p) =
      (linkedListInsertTail ((q.opList.addBlock p).setNodeData p op) p).map fun l =>
        { q.note (.submit op) with opList := l } := by
  simp only [bleOpqStart, OpQueue.note, if_neg h, linkedListAllocNode_block ha]

theorem start_abstracts {q : OpQueue} {s : Fifo} (h : Abstracts q s) (pOp : Addr) (op : BleOp)
    {block : Option Addr} (hfresh : Fresh q (.start pOp op block)) :
    Simulates (step rets) (Fifo.step rets) Abstracts q s (.start pOp op block) := by
  obtain ⟨xs, hx, hqueue⟩ := h.queue_eq
  have hempty : s.queue = [] ↔ linkedListEmpty q.opList = true := by
    rw [hqueue, List.map_eq_nil_iff, hx.empty_iff]
  have hrun : s.running = false ↔ q.runningOpPtr = none := by
    rw [h.running_eq, Option.isSome_eq_false_iff, Option.isNone_iff_eq_none]
  have hn := h.note (.submit op)
  by_cases hidle : s.running = false ∧ s.queue = []
  · right
    obtain ⟨q', hq', _, ha⟩ := perform_abstracts rets hn pOp op
    refine ⟨q', _, ?_, if_pos hidle, ha⟩
    rw [step, bleOpqStart_idle (hrun.mp hidle.1) (hempty.mp hidle.2), hq', Option.map_some]
  · have hbusy : ¬ (q.runningOpPtr = none ∧ linkedListEmpty q.opList = true) := by
      rwa [← hrun, ← hempty]
    cases block with
    | none =>
      left
      exact ⟨bleOpqStart_null hbusy hx.heap pOp op, if_neg hidle⟩
    | some p =>
      right
      obtain ⟨l, hl, hx', hdata, _⟩ := heapHolds_enqueue hx hfresh op
      refine ⟨{ q.note (.submit op) with opList := l }, _, ?_, if_neg hidle, ?_⟩
      · rw [step, bleOpqStart_block hbusy hx.heap, hl, Option.map_some]
      · refine ⟨⟨xs ++ [p], hx', ?_⟩, h.currentState_eq, h.running_eq, hn.log_eq⟩
        rw [hdata, ← hqueue]
        rfl

theorem process_abstracts {q : OpQueue} {s : Fifo} (h : Abstracts q s) :
    Simulates (step rets) (Fifo.step rets) Abstracts q s .process := by
  right
  obtain ⟨xs, hx, hqueue⟩ := h.queue_eq
  have hs : { s with queue := xs.map q.opList.nodeData } = s := by rw [← hqueue]
  obtain ⟨q', hq', ha⟩ := processFrom_abstracts rets xs hx (by rwa [hs])
  have hc : q.opList.count = xs.length := hx.holds.count_eq
  refine ⟨q', s.process rets, ?_, rfl, ?_⟩
  · rw [step, hc, hq', Option.join_some]
  · rwa [Fifo.process, hqueue]

theorem step_simulates (q : OpQueue) (s : Fifo) (c : Call) (h : Abstracts q s) (hc : Fresh q c) :
    Simulates (step rets) (Fifo.step rets) Abstracts q s c := by
  cases c with
  | start pOp op block => exact start_abstracts rets h pOp op hc
  | process => exact process_abstracts rets h
  | complete op =>
    right
    have hn := h.note (.complete op)
    exact ⟨_, _, rfl, rfl, ⟨hn.queue_eq, rfl, rfl, hn.log_eq⟩⟩

end BleFirmware.OpQueueFifo
