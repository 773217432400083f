import BleFirmware.OpQueueFifo

/-!
# When operations of the queue overlap

An operation is outstanding from the moment its runner returns `RET_OK` until
`ble_opq_complete`. `ble_opq_start` never performs an operation meanwhile, but
`ble_opq_process` looks at `running_op_ptr` only when a precondition does not
match. So operations overlap exactly when it is called while one is running and
the first queued operation that is not in its target state may start.
-/

namespace BleFirmware.OpQueueExclusion
open Run OpQueueFifo

def takesEffect : Event → Bool
  | .invoke _ => true
  | .apply _ => true
  | _ => false

def outstandingAfter (n : ℕ) : Event → ℕ
  | .return _ ret => if ret = retOk then n+1 else n
  | .complete _ => n-1
  | _ => n

def outstanding (log : List Event) : ℕ := log.foldl outstandingAfter 0

def ExclusiveFrom : ℕ → List Event → Prop
  | _, [] => True
  | n, e :: es => (takesEffect e = true → n = 0) ∧ ExclusiveFrom (outstandingAfter n e) es

/-- No runner is called and no state is applied while an operation is outstanding. -/
def Exclusive (log : List Event) : Prop := ExclusiveFrom 0 log

instance ExclusiveFrom.decidable : ∀ n es, Decidable (ExclusiveFrom n es)
  | _, [] => inferInstanceAs (Decidable True)
  | n, e :: es =>
    haveI := ExclusiveFrom.decidable (outstandingAfter n e) es
    inferInstanceAs (Decidable ((takesEffect e = true → n = 0) ∧ _))

instance (log : List Event) : Decidable (Exclusive log) :=
  inferInstanceAs (Decidable (ExclusiveFrom 0 log))

/-- The first operation that is not in its target state may not start either. -/
def Blocked (state : BitState) (ops : List BleOp) : Prop :=
  ∀ op, ops.find? (fun op => !bitStateMatch state op.targetState) = some op →
    bitStateMatch state op.precondition = false

def Guarded (running : Bool) (state : BitState) (ops : List BleOp) : Call → Prop
  | .process => running = false ∨ Blocked state ops
  | _ => True

theorem exclusiveFrom_append (n : ℕ) (es fs : List Event) :
    ExclusiveFrom n (es ++ fs) ↔
      ExclusiveFrom n es ∧ ExclusiveFrom (es.foldl outstandingAfter n) fs := by
  induction es generalizing n with
  | nil => simp [ExclusiveFrom]
  | cons e es ih => simp [ExclusiveFrom, ih, and_assoc]

theorem exclusive_concat {log : List Event} {e : Event} :
    Exclusive (log ++ [e]) ↔ Exclusive log ∧ (takesEffect e = true → outstanding log = 0) := by
  simp [Exclusive, exclusiveFrom_append, ExclusiveFrom, outstanding]

theorem Exclusive.of_prefix {log log' : List Event} (h : Exclusive log') (hp : log <+: log') :
    Exclusive log := by
  obtain ⟨es, rfl⟩ := hp
  exact ((exclusiveFrom_append 0 log es).mp h).1

@[simp] theorem outstanding_concat (log : List Event) (e : Event) :
    outstanding (log ++ [e]) = outstandingAfter (outstanding log) e := by
  simp [outstanding]

/-- `running_op_ptr` tells whether an operation is outstanding. -/
structure Inv (s : Fifo) : Prop where
  outstanding_eq : outstanding s.log = if s.running then 1 else 0
  exclusive : Exclusive s.log

variable {rets : ℕ → Ret} {s : Fifo}

theorem inv_init (state : BitState) : Inv ⟨[], state, false, []⟩ := ⟨rfl, trivial⟩

theorem Inv.note (h : Inv s) {e : Event} (he : takesEffect e = false)
    (ho : outstandingAfter (outstanding s.log) e = outstanding s.log) : Inv (s.note e) := by
  refine ⟨?_, ?_⟩
  · simp only [Fifo.note, outstanding_concat, ho]
    exact h.outstanding_eq
  · apply exclusive_concat.mpr
    exact ⟨h.exclusive, by simp [he]⟩

theorem Inv.note_idle (h : Inv s) (hr : s.running = false) {e : Event}
    (ho : outstandingAfter (outstanding s.log) e = outstanding s.log) : Inv (s.note e) := by
  have h0 := h.outstanding_eq
  rw [hr] at h0
  refine ⟨?_, ?_⟩
  · simp only [Fifo.note, outstanding_concat, ho]
    exact h.outstanding_eq
  · apply exclusive_concat.mpr
    exact ⟨h.exclusive, fun _ => h0⟩

theorem perform_idle (rets : ℕ → Ret) (h : Inv s) (hr : s.running = false) (op : BleOp) :
    Inv (s.perform rets op).1 ∧
      ((s.perform rets op).2 = false → (s.perform rets op).1.running = false) := by
  have h0 := h.outstanding_eq
  rw [hr] at h0
  have hs := perform_spec rets s op
  generalize s.perform rets op = r at hs
  cases hs with
  | satisfied ht => exact ⟨h.note_idle hr rfl, fun _ => hr⟩
  | started ht hp hf hret =>
    have hi := h.note_idle (e := .invoke op) hr rfl
    refine ⟨⟨?_, ?_⟩, by simp⟩
    · simp only [Fifo.note, outstanding_concat, h0]
      rfl
    · exact exclusive_concat.mpr ⟨hi.exclusive, by simp [takesEffect]⟩
  | failed ht hp hf hret =>
    have hi := h.note_idle (e := .invoke op) hr rfl
    have hn := hi.note_idle (e := .return op (rets (s.log.countP isReturn))) hr
      (by simp [outstandingAfter, hret])
    exact ⟨hn, fun _ => hr⟩
  | applied ht hp hf =>
    have hn := h.note_idle (e := .apply op) hr rfl
    exact ⟨⟨hn.outstanding_eq, hn.exclusive⟩, fun _ => hr⟩
  | waits ht hp hrun => exact ⟨h.note_idle hr rfl, fun _ => hr⟩
  | rejected ht hp hrun => exact ⟨h.note_idle hr rfl, fun _ => hr⟩

theorem processFrom_idle (ops : List BleOp) (h : Inv s) (hr : s.running = false) :
    Inv (Fifo.processFrom rets ops s) := by
  induction ops generalizing s with
  | nil => exact ⟨h.outstanding_eq, h.exclusive⟩
  | cons op ops ih =>
    have hq : Inv { s with queue := ops } := ⟨h.outstanding_eq, h.exclusive⟩
    obtain ⟨hi, hn⟩ := perform_idle rets hq hr op
    simp only [Fifo.processFrom]
    split_ifs with hw
    · exact hi
    · exact ih hi (hn (Bool.eq_false_iff.mpr hw))

theorem find_cons_satisfied {state : BitState} {op : BleOp}
    (ht : bitStateMatch state op.targetState = true) (ops : List BleOp) :
    Blocked state (op :: ops) ↔ Blocked state ops := by
  simp [Blocked, ht]

theorem find_cons_open {state : BitState} {op : BleOp}
    (ht : bitStateMatch state op.targetState = false) (ops : List BleOp) :
    Blocked state (op :: ops) ↔ bitStateMatch state op.precondition = false := by
  simp [Blocked, ht]

theorem processFrom_blocked (ops : List BleOp) (h : Inv s) (hr : s.running = true)
    (hb : Blocked s.currentState ops) : Inv (Fifo.processFrom rets ops s) := by
  induction ops generalizing s with
  | nil => exact ⟨h.outstanding_eq, h.exclusive⟩
  | cons op ops ih =>
    have hq : Inv { s with queue := ops } := ⟨h.outstanding_eq, h.exclusive⟩
    have hs := perform_spec rets { s with queue := ops } op
    simp only [Fifo.processFrom]
    generalize Fifo.perform rets { s with queue := ops } op = r at hs
    cases hs with
    | satisfied ht => exact ih (hq.note rfl rfl) hr ((find_cons_satisfied ht ops).mp hb)
    | waits ht hp hrun => exact hq.note rfl rfl
    | started ht hp hf hret => simp [(find_cons_open ht ops).mp hb] at hp
    | failed ht hp hf hret => simp [(find_cons_open ht ops).mp hb] at hp
    | applied ht hp hf => simp [(find_cons_open ht ops).mp hb] at hp
    | rejected ht hp hrun => simp [hr] at hrun

theorem not_exclusive_of_effect (h : Inv s) (hr : s.running = true) {e : Event}
    (he : takesEffect e = true) {log : List Event} (hp : s.log ++ [e] <+: log) :
    ¬ Exclusive log := by
  intro hex
  have h1 := h.outstanding_eq
  rw [hr] at h1
  have h0 := (exclusive_concat.mp (hex.of_prefix hp)).2 he
  simp [h1] at h0

/-- While an operation runs, the first one that may start takes effect beside it. -/
theorem processFrom_open (ops : List BleOp) (h : Inv s) (hr : s.running = true)
    (hb : ¬ Blocked s.currentState ops) : ¬ Exclusive (Fifo.processFrom rets ops s).log := by
  induction ops generalizing s with
  | nil => simp [Blocked] at hb
  | cons op ops ih =>
    have hq : Inv { s with queue := ops } := ⟨h.outstanding_eq, h.exclusive⟩
    have hs := perform_spec rets { s with queue := ops } op
    simp only [Fifo.processFrom]
    generalize Fifo.perform rets { s with queue := ops } op = r at hs
    cases hs with
    | satisfied ht =>
      apply ih (hq.note rfl rfl) hr
      intro hn
      exact hb ((find_cons_satisfied ht ops).mpr hn)
    | started ht hp hf hret =>
      apply not_exclusive_of_effect h hr (e := .invoke op) rfl
      exact List.prefix_append _ _
    | failed ht hp hf hret =>
      rw [if_neg Bool.false_ne_true]
      apply not_exclusive_of_effect h hr (e := .invoke op) rfl
      refine List.IsPrefix.trans ?_ (processFrom_log rets ops _)
      exact List.prefix_append _ _
    | applied ht hp hf =>
      rw [if_neg Bool.false_ne_true]
      apply not_exclusive_of_effect h hr (e := .apply op) rfl
      refine List.IsPrefix.trans ?_ (processFrom_log rets ops _)
      exact List.prefix_rfl
    | waits ht hp hrun => exact absurd ((find_cons_open ht ops).mpr hp) hb
    | rejected ht hp hrun => exact absurd ((find_cons_open ht ops).mpr hp) hb

theorem start_inv (h : Inv s) (op : BleOp) {block : Option Addr} {t : Fifo}
    (ht : s.start rets op block = some t) : Inv t := by
  have hn := h.note (e := .submit op) rfl rfl
  dsimp only [Fifo.start] at ht
  split_ifs at ht with hidle
  · obtain rfl := Option.some.inj ht
    exact (perform_idle rets hn hidle.1 op).1
  · obtain ⟨_, _, rfl⟩ := Option.map_eq_some_iff.mp ht
    exact ⟨hn.outstanding_eq, hn.exclusive⟩

theorem complete_inv (h : Inv s) (hr : s.running = true) (op : BleOp) : Inv (s.complete op) := by
  have h1 := h.outstanding_eq
  rw [hr] at h1
  refine ⟨?_, exclusive_concat.mpr ⟨h.exclusive, by simp [takesEffect]⟩⟩
  simp only [Fifo.complete, Fifo.note, outstanding_concat, h1]
  rfl

def FifoGuarded (s : Fifo) : Call → Prop := Guarded s.running s.currentState s.queue

def FifoLegal (s : Fifo) : Call → Prop := CompletesRunning s.running s.log

theorem step_guarded (s : Fifo) (c : Call) (t : Fifo) (h : Inv s) (hl : FifoLegal s c)
    (hg : FifoGuarded s c) (ht : s.step rets c = some t) : Inv t := by
  cases c with
  | start pOp op block => exact start_inv h op ht
  | process =>
    obtain rfl := Option.some.inj ht
    cases hr : s.running with
    | false => exact processFrom_idle s.queue h hr
    | true =>
      rcases hg with hidle | hb
      · simp [hr] at hidle
      · exact processFrom_blocked s.queue h hr hb
  | complete op =>
    obtain rfl := Option.some.inj ht
    exact complete_inv h hl.1 op

theorem step_unguarded (s : Fifo) (c : Call) (t : Fifo) (h : Inv s) (hg : ¬ FifoGuarded s c)
    (ht : s.step rets c = some t) : ¬ Exclusive t.log := by
  cases c with
  | start pOp op block => exact absurd trivial hg
  | process =>
    obtain rfl := Option.some.inj ht
    have hg' := not_or.mp hg
    exact processFrom_open s.queue h (by simpa using hg'.1) hg'.2
  | complete op => exact absurd trivial hg

theorem fifo_exclusive_iff (h : Inv s) {calls : List Call}
    (hl : Along (Fifo.step rets) FifoLegal s calls) :
    Exclusive (exec (Fifo.step rets) s calls).log ↔
      Along (Fifo.step rets) FifoGuarded s calls := by
  apply exec_iff_along_while (I := Inv) (G := fun s => Exclusive s.log) (L := FifoLegal)
  · intro s c t hi _ hc hg ht
    have hi' := step_guarded s c t hi hc hg ht
    exact ⟨hi', hi'.exclusive⟩
  · intro s c t hi _ hg ht
    exact step_unguarded s c t hi hg ht
  · intro s c _ hn
    obtain ⟨pOp, op, rfl⟩ := fifo_step_eq_none hn
    trivial
  · intro s c t hG ht hG'
    exact hG (hG'.of_prefix (fifo_step_log ht))
  · exact h
  · exact h.exclusive
  · exact hl

def QueueGuarded (q : OpQueue) : Call → Prop :=
  Guarded q.runningOpPtr.isSome q.currentState q.opList.payloads

theorem operations_exclusive_iff (q₀ : OpQueue) (hheap : q₀.opList.arrayBased = false)
    (state : BitState) (callback : Option Addr) (rets : ℕ → Ret) (calls : List Call)
    (hl : Along (step rets) Legal (bleOpqInit q₀ state callback) calls) :
    Exclusive (exec (step rets) (bleOpqInit q₀ state callback) calls).log ↔
      Along (step rets) QueueGuarded (bleOpqInit q₀ state callback) calls := by
  have ha := abstracts_init hheap state callback
  have hfresh : Along (step rets) Fresh (bleOpqInit q₀ state callback) calls :=
    along_mono (fun q c hc => hc.1) hl
  have hsim := exec_simulates (step_simulates rets) ha hfresh
  have hlegal := (along_simulates (Q := FifoLegal)
    (P := fun q c => CompletesRunning q.runningOpPtr.isSome q.log c) (step_simulates rets)
    (by
      intro q s c h
      rw [FifoLegal, h.running_eq, h.log_eq]) ha hfresh).mp
    (along_mono (fun q c hc => hc.2) hl)
  have hguard := along_simulates (P := QueueGuarded) (Q := FifoGuarded) (step_simulates rets)
    (by
      intro q s c h
      rw [QueueGuarded, FifoGuarded, h.running_eq, h.currentState_eq, h.payloads]) ha hfresh
  rw [hguard, ← hsim.log_eq]
  exact fifo_exclusive_iff (inv_init state) hlegal

def zeroQueue : OpQueue where
  opList :=
    { head := none, tail := none, next := fun _ => none, prev := fun _ => none,
      arrayBased := false, count := 0, width := 0, depth := 0, nodeArray := none,
      dataArray := none, sorted := false, lastSlotIndex := 0, opt := fun _ => 0,
      dataPtr := fun _ => 0, data := fun _ => ⟨0, 0, 0, 0, 0, none⟩, live := fun _ => false }
  resultCallback := none
  currentState := 0
  runningOpPtr := none
  log := []

def toState2 : BleOp := ⟨0, 1, 2, 1, 0, some 256⟩
def toState4 : BleOp := ⟨0, 2, 4, 1, 0, some 512⟩

theorem operations_exclusive_iff_waiting :
    Exclusive (exec (step fun _ => retOk) (bleOpqInit zeroQueue 1 none)
        [.start 16 toState2 none, .start 32 toState4 (some 1024), .complete toState2,
          .process]).log ↔
      Along (step fun _ => retOk) QueueGuarded (bleOpqInit zeroQueue 1 none)
        [.start 16 toState2 none, .start 32 toState4 (some 1024), .complete toState2,
          .process] :=
  operations_exclusive_iff zeroQueue rfl 1 none (fun _ => retOk) _ (by decide)

/-- Processing the queue before the first operation has completed. -/
theorem operations_overlap :
    Along (step fun _ => retOk) Legal (bleOpqInit zeroQueue 1 none)
        [.start 16 toState2 none, .start 32 toState4 (some 1024), .process] ∧
      ¬ Exclusive (exec (step fun _ => retOk) (bleOpqInit zeroQueue 1 none)
        [.start 16 toState2 none, .start 32 toState4 (some 1024), .process]).log := by
  decide

end BleFirmware.OpQueueExclusion
