import BleFirmware.OpQueueNestedFifo

/-!
# State changes of the operation queue

The precondition of an operation is looked at when the operation starts, and
its target state is written when it completes. Meanwhile the operation is in
flight. A state written by another operation has to match its precondition as
well, or the operation later leaves a state it could not have started from.
-/

namespace BleFirmware.OpQueueTransitions
open Run OpQueueExclusion OpQueueNested

def outstandingStep (ops : List BleOp) : Event → List BleOp
  | .return op ret => if ret = retOk then ops ++ [op] else ops
  | .complete op => ops.erase op
  | _ => ops

def outstandingOps (log : List Event) : List BleOp := log.foldl outstandingStep []

def CompletesStarted (s : State) : Action → Prop
  | .complete op => op ∈ outstandingOps s.opq.log
  | _ => True

instance (s : State) : ∀ c, Decidable (CompletesStarted s c)
  | .start _ _ _ => inferInstanceAs (Decidable True)
  | .process => inferInstanceAs (Decidable True)
  | .round => inferInstanceAs (Decidable True)
  | .runnerReturns _ => inferInstanceAs (Decidable True)
  | .complete op => inferInstanceAs (Decidable (op ∈ outstandingOps s.opq.log))

def causeOp : Event → Option BleOp
  | .complete op => some op
  | .apply op => some op
  | _ => none

/-- A changed state is the target of an operation that completed or was applied,
and the state before matched the precondition of that operation. -/
def Allowed (q q' : OpQueue) : Prop :=
  q'.currentState = q.currentState ∨
    ∃ op ∈ (q'.log.drop q.log.length).filterMap causeOp,
      op.targetState = q'.currentState ∧ bitStateMatch q.currentState op.precondition = true

def TransitionAllowed (s : State) (c : Action) : Prop := ∀ t ∈ step s c, Allowed s.opq t.opq

instance (s : State) (c : Action) : Decidable (TransitionAllowed s c) := by
  unfold TransitionAllowed Allowed
  infer_instance

/-- The operations whose runner executes or has started them. -/
def inFlight (n : Nest) : List BleOp := frameOps n.frames ++ outstandingOps n.log

def Spares (ops : List BleOp) (state : BitState) : Prop :=
  ∀ op ∈ ops, bitStateMatch state op.precondition = true ∨ state = op.targetState

def Applies (state : BitState) (op : BleOp) : Prop :=
  bitStateMatch state op.targetState = false ∧ bitStateMatch state op.precondition = true ∧
    op.runnerCallback = none

/-- A state that the action writes suits the other operations in flight. -/
def Respects (n : Nest) : Action → Prop
  | .start _ op _ => n.runningOpPtr = none → n.queue = [] → Applies n.currentState op →
      Spares (inFlight n) op.targetState
  | .round => ∀ x ∈ n.queue.head?, Applies n.currentState x.2 →
      Spares (inFlight n) x.2.targetState
  | .complete op =>
      Spares (frameOps n.frames ++ (outstandingOps n.log).erase op) op.targetState
  | _ => True

instance (ops : List BleOp) (state : BitState) : Decidable (Spares ops state) := by
  unfold Spares
  infer_instance

instance (state : BitState) (op : BleOp) : Decidable (Applies state op) :=
  inferInstanceAs (Decidable (_ ∧ _))

instance (n : Nest) : ∀ c, Decidable (Respects n c)
  | .start _ _ _ => inferInstanceAs (Decidable (_ → _))
  | .process => inferInstanceAs (Decidable True)
  | .round => inferInstanceAs (Decidable (∀ x ∈ n.queue.head?, _))
  | .runnerReturns _ => inferInstanceAs (Decidable True)
  | .complete _ => inferInstanceAs (Decidable (Spares _ _))

@[simp] theorem outstandingOps_concat (log : List Event) (e : Event) :
    outstandingOps (log ++ [e]) = outstandingStep (outstandingOps log) e := by
  simp [outstandingOps]

theorem Spares.mono {ops ops' : List BleOp} {state : BitState} (h : Spares ops state)
    (hs : ∀ op ∈ ops', op ∈ ops) : Spares ops' state := fun op hm => h op (hs op hm)

theorem entered_spares {n m : Nest} {op : BleOp} {w : Option Bool} (he : Entered n op m w)
    (h : Spares (inFlight n) n.currentState)
    (ha : Applies n.currentState op → Spares (inFlight n) op.targetState) :
    outstandingOps m.log = outstandingOps n.log ∧ Spares (inFlight n) m.currentState ∧
      (w = none → bitStateMatch m.currentState op.precondition = true) := by
  cases he with
  | satisfied ht => exact ⟨by simp [Nest.note, outstandingStep], h, by simp⟩
  | invoked ht hp hf => exact ⟨by simp [Nest.note, outstandingStep], h, fun _ => hp⟩
  | applied ht hp hf => exact ⟨by simp [Nest.note, outstandingStep], ha ⟨ht, hp, hf⟩, by simp⟩
  | waits ht hp hr => exact ⟨by simp [Nest.note, outstandingStep], h, by simp⟩
  | rejected ht hp hr => exact ⟨by simp [Nest.note, outstandingStep], h, by simp⟩

theorem taken_spares {n m : Nest} {op : BleOp} {w : Option Bool} (he : Entered n op m w)
    (h : Spares (inFlight n) n.currentState)
    (ha : Applies n.currentState op → Spares (inFlight n) op.targetState) (fs : List Frame)
    (hfs : ∀ x ∈ frameOps fs, x ∈ frameOps n.frames ∨ w = none ∧ x = op) :
    Spares (inFlight { m with frames := fs }) m.currentState := by
  obtain ⟨ho, hs, hp⟩ := entered_spares he h ha
  intro x hx
  rcases List.mem_append.mp hx with hx | hx
  · rcases hfs x hx with hx | ⟨hw, rfl⟩
    · exact hs x (List.mem_append_left _ hx)
    · exact .inl (hp hw)
  · refine hs x (List.mem_append_right _ ?_)
    rwa [← ho]

theorem moves_spares {n m : Nest} {c : Action} (h : Spares (inFlight n) n.currentState)
    (hr : Respects n c) (hm : Moves n c m) : Spares (inFlight m) m.currentState := by
  cases hm with
  | @performed pOp op block m w hc hrun hq he =>
    have hn : inFlight (n.note (.submit op)) = inFlight n := by
      simp [inFlight, Nest.note, outstandingStep]
    apply taken_spares he
    · rwa [hn]
    · rw [hn]
      exact hr hrun hq
    · intro x hx
      by_cases hw : w = none <;> simp_all [Nest.note, or_comm]
  | queued hc hb hl =>
    refine h.mono fun x hx => ?_
    simpa [inFlight, Nest.note, outstandingStep] using hx
  | processed hc => exact h
  | drained hf hq =>
    refine h.mono fun x hx => ?_
    simpa [inFlight, hf] using hx
  | @popped fs p op rest m w hf hq he =>
    apply taken_spares he h
    · exact hr (p, op) (by rw [hq, List.head?_cons, Option.mem_some])
    · intro x hx
      rcases w with _ | _ | _ <;> simp_all [or_comm]
  | runs hf =>
    refine h.mono fun x hx => ?_
    simp only [inFlight, Nest.note, outstandingOps_concat, outstandingStep, hf] at hx ⊢
    simp at hx ⊢
    tauto
  | @fails fs pNode pOp op ret hf hret =>
    refine h.mono fun x hx => ?_
    have hfs : frameOps (if pNode.isSome then .loop :: fs else fs) = frameOps fs := by
      split_ifs <;> rfl
    simp only [inFlight, Nest.note, outstandingOps_concat, outstandingStep, hf, hfs,
      if_neg hret] at hx ⊢
    exact List.mem_cons_of_mem _ hx
  | completed hc =>
    rw [Respects] at hr
    simpa [inFlight, Nest.note, outstandingStep] using hr

theorem entered_allowed {n m : Nest} {op : BleOp} {w : Option Bool} (he : Entered n op m w) :
    m.currentState = n.currentState ∨ m.log = n.log ++ [.apply op] ∧
      op.targetState = m.currentState ∧ bitStateMatch n.currentState op.precondition = true := by
  cases he with
  | applied ht hp hf => exact .inr ⟨rfl, rfl, hp⟩
  | _ => exact .inl rfl

theorem moves_allowed {n m : Nest} {c : Action} (h : Spares (inFlight n) n.currentState)
    (hl : ∀ op, c = .complete op → op ∈ outstandingOps n.log) (hm : Moves n c m) :
    m.currentState = n.currentState ∨
      ∃ op ∈ (m.log.drop n.log.length).filterMap causeOp,
        op.targetState = m.currentState ∧ bitStateMatch n.currentState op.precondition = true := by
  cases hm with
  | @performed pOp op block m w hc hr hq he =>
    refine (entered_allowed he).imp_right ?_
    rintro ⟨hlog, htarget, hp⟩
    exact ⟨op, by simp [hlog, Nest.note, causeOp], htarget, hp⟩
  | @popped fs p op rest m w hf hq he =>
    refine (entered_allowed he).imp_right ?_
    rintro ⟨hlog, htarget, hp⟩
    exact ⟨op, by simp [hlog, causeOp], htarget, hp⟩
  | @completed op hc =>
    rcases h op (List.mem_append_right _ (hl op rfl)) with hp | he
    · exact .inr ⟨op, by simp [Nest.note, causeOp], rfl, hp⟩
    · exact .inl he.symm
  | _ => exact .inl rfl

theorem transitions_allowed (q₀ : OpQueue) (hheap : q₀.opList.arrayBased = false)
    (state : BitState) (callback : Option Addr) (actions : List Action)
    (hf : Along step Fresh (init q₀ state callback) actions)
    (hl : Along step CompletesStarted (init q₀ state callback) actions)
    (hr : Along step (fun s c => Respects s.nest c) (init q₀ state callback) actions) :
    Along step TransitionAllowed (init q₀ state callback) actions := by
  apply along_nest (I := fun n => Spares (inFlight n) n.currentState)
    (P := fun s c => CompletesStarted s c ∧ Respects s.nest c)
  · exact fun s c m hi hP hm => moves_spares hi hP.2 hm
  · intro s c hi hP hm t ht
    refine moves_allowed hi ?_ (hm t ht)
    rintro op rfl
    exact hP.1
  · exact linked_init hheap state callback
  · exact fun op hm => absurd hm List.not_mem_nil
  · exact hf
  · exact along_and.mpr ⟨hl, hr⟩

/-- The second operation runs beside the first, and may start from its target as well. -/
theorem transitions_allowed_overlapping :
    Along step TransitionAllowed (init zeroQueue 1 none)
      [.start 16 toState2 none, .runnerReturns retOk,
        .start 32 { toState4 with precondition := 3 } (some 1024), .process, .round,
        .runnerReturns retOk, .complete toState2, .complete { toState4 with precondition := 3 }] :=
  transitions_allowed zeroQueue rfl 1 none _ (by decide) (by decide) (by decide)

/-- The second operation starts beside the first, and moves the queue from
state 2 to state 4 although it may only start from state 1. -/
theorem transition_from_other_state :
    Along step Fresh (init zeroQueue 1 none)
        [.start 16 toState2 none, .runnerReturns retOk, .start 32 toState4 (some 1024), .process,
          .round, .runnerReturns retOk, .complete toState2, .complete toState4] ∧
      Along step CompletesStarted (init zeroQueue 1 none)
        [.start 16 toState2 none, .runnerReturns retOk, .start 32 toState4 (some 1024), .process,
          .round, .runnerReturns retOk, .complete toState2, .complete toState4] ∧
      ¬ Along step TransitionAllowed (init zeroQueue 1 none)
        [.start 16 toState2 none, .runnerReturns retOk, .start 32 toState4 (some 1024), .process,
          .round, .runnerReturns retOk, .complete toState2, .complete toState4] := by
  decide

end BleFirmware.OpQueueTransitions
