import BleFirmware.OpQueueConservation
import BleFirmware.OpQueueNested

/-!
# What the actions of a re-entrant run do

Seen from the statements about runs, the heap list is a list of nodes with the
operations copied into them. `Moves` lists what an action can do to that list,
the state, the running operation and the frames, and the machine does nothing
else as long as `malloc` returns no block that is in use.
-/

namespace BleFirmware.OpQueueNested
open Run Segment OpQueueFifo OpQueueConservation

structure Nest where
  queue : List (Addr × BleOp)
  live : Addr → Bool
  currentState : BitState
  runningOpPtr : Option Addr
  runningNode : Option Addr
  frames : List Frame
  reports : List (BleOp × Ret)
  log : List Event

def Nest.note (n : Nest) (e : Event) : Nest := { n with log := n.log ++ [e] }

/-- The operation is taken up in state `n`. The answer is `wait_event`, or
`none` when its runner is called. -/
inductive Entered (n : Nest) (op : BleOp) : Nest → Option Bool → Prop
  | satisfied (ht : bitStateMatch n.currentState op.targetState = true) :
      Entered n op (n.note (.satisfied op)) (some false)
  | invoked (ht : bitStateMatch n.currentState op.targetState = false)
      (hp : bitStateMatch n.currentState op.precondition = true)
      (hf : op.runnerCallback.isSome) : Entered n op (n.note (.invoke op)) none
  | applied (ht : bitStateMatch n.currentState op.targetState = false)
      (hp : bitStateMatch n.currentState op.precondition = true)
      (hf : op.runnerCallback = none) :
      Entered n op { n.note (.apply op) with currentState := op.targetState } (some false)
  | waits (ht : bitStateMatch n.currentState op.targetState = false)
      (hp : bitStateMatch n.currentState op.precondition = false)
      (hr : n.runningOpPtr.isSome) : Entered n op (n.note (.wait op)) (some true)
  | rejected (ht : bitStateMatch n.currentState op.targetState = false)
      (hp : bitStateMatch n.currentState op.precondition = false)
      (hr : n.runningOpPtr = none) : Entered n op (n.note (.reject op)) (some false)

inductive Moves (n : Nest) : Action → Nest → Prop
  | performed {pOp : Addr} {op : BleOp} {block : Option Addr} {m : Nest} {w : Option Bool}
      (hc : callable n.frames = true) (hr : n.runningOpPtr = none) (hq : n.queue = [])
      (he : Entered (n.note (.submit op)) op m w) :
      Moves n (.start pOp op block)
        { m with frames := if w = none then .runner none pOp op :: n.frames else n.frames }
  | queued {pOp : Addr} {op : BleOp} {p : Addr} (hc : callable n.frames = true)
      (hb : n.runningOpPtr ≠ none ∨ n.queue ≠ []) (hl : n.live p = false) :
      Moves n (.start pOp op (some p))
        { n.note (.submit op) with
          queue := n.queue ++ [(p, op)]
          live := Function.update n.live p true }
  | processed (hc : callable n.frames = true) :
      Moves n .process { n with frames := .loop :: n.frames }
  | drained {fs : List Frame} (hf : n.frames = .loop :: fs) (hq : n.queue = []) :
      Moves n .round { n with frames := fs }
  | popped {fs : List Frame} {p : Addr} {op : BleOp} {rest : List (Addr × BleOp)} {m : Nest}
      {w : Option Bool} (hf : n.frames = .loop :: fs) (hq : n.queue = (p, op) :: rest)
      (he : Entered { n with queue := rest } op m w) :
      Moves n .round
        { m with
          frames := match w with
            | none => .runner (some p) (p + alignedNodeLen) op :: fs
            | some true => fs
            | some false => .loop :: fs }
  | runs {fs : List Frame} {pNode : Option Addr} {pOp : Addr} {op : BleOp}
      (hf : n.frames = .runner pNode pOp op :: fs) :
      Moves n (.runnerReturns retOk)
        { n.note (.return op retOk) with
          runningOpPtr := some pOp
          runningNode := pNode
          frames := fs }
  | fails {fs : List Frame} {pNode : Option Addr} {pOp : Addr} {op : BleOp} {ret : Ret}
      (hf : n.frames = .runner pNode pOp op :: fs) (hret : ret ≠ retOk) :
      Moves n (.runnerReturns ret)
        { n.note (.return op ret) with
          frames := if pNode.isSome then .loop :: fs else fs }
  | completed {op : BleOp} (hc : callable n.frames = true) :
      Moves n (.complete op)
        { n.note (.complete op) with
          currentState := op.targetState
          runningOpPtr := none
          runningNode := none }

def Begins (state : BitState) (op : BleOp) : Prop :=
  bitStateMatch state op.targetState = false ∧ bitStateMatch state op.precondition = true ∧
    op.runnerCallback.isSome

theorem entered_begins {n m : Nest} {op : BleOp} {w : Option Bool} (h : Entered n op m w) :
    w = none ↔ Begins n.currentState op := by
  cases h with
  | satisfied ht => simp [Begins, ht]
  | invoked ht hp hf => simp [Begins, ht, hp, hf]
  | applied ht hp hf => simp [Begins, hf]
  | waits ht hp hr => simp [Begins, hp]
  | rejected ht hp hr => simp [Begins, hp]

theorem entered_frame {n m : Nest} {op : BleOp} {w : Option Bool} (h : Entered n op m w) :
    ∃ state e, m = { n.note e with currentState := state } := by
  cases h with
  | applied ht hp hf => exact ⟨_, _, rfl⟩
  | _ => exact ⟨n.currentState, _, rfl⟩

def frameOp : Frame → Option BleOp
  | .loop => none
  | .runner _ _ op => some op

def frameOps (fs : List Frame) : List BleOp := fs.filterMap frameOp

@[simp] theorem frameOps_loop (fs : List Frame) : frameOps (.loop :: fs) = frameOps fs := rfl

@[simp] theorem frameOps_runner (pNode : Option Addr) (pOp : Addr) (op : BleOp)
    (fs : List Frame) : frameOps (.runner pNode pOp op :: fs) = op :: frameOps fs := rfl

def State.queue (s : State) : List (Addr × BleOp) :=
  (walk s.opq.opList.next s.opq.opList.count s.opq.opList.head).map fun p =>
    (p, s.opq.opList.nodeData p)

def State.nest (s : State) : Nest where
  queue := s.queue
  live := s.opq.opList.live
  currentState := s.opq.currentState
  runningOpPtr := s.opq.runningOpPtr
  runningNode := s.runningNode
  frames := s.frames
  reports := s.reports
  log := s.opq.log

def Linked (s : State) : Prop := ∃ xs, HeapHolds s.opq.opList xs

def Fresh (s : State) : Action → Prop
  | .start _ _ (some p) => s.opq.opList.live p = false
  | _ => True

instance (s : State) (c : Action) : Decidable (Fresh s c) := by
  unfold Fresh
  split <;> infer_instance

theorem queue_eq {s : State} {xs : List Addr} (h : HeapHolds s.opq.opList xs) :
    s.queue = xs.map fun p => (p, s.opq.opList.nodeData p) := by
  have hc : s.opq.opList.count = xs.length := h.holds.count_eq
  have hw : walk s.opq.opList.next xs.length s.opq.opList.head = xs :=
    h.holds.linked.forward.walk_eq
  rw [State.queue, hc, hw]

theorem queue_nil_iff {s : State} (h : Linked s) :
    s.queue = [] ↔ linkedListEmpty s.opq.opList = true := by
  obtain ⟨xs, hx⟩ := h
  rw [queue_eq hx, List.map_eq_nil_iff, hx.empty_iff]

theorem enterCommand_entered {s : State} {op : BleOp} {q : OpQueue} {w : Option Bool}
    (h : enterCommand s.opq op = (q, w)) :
    q.opList = s.opq.opList ∧ Entered s.nest op { s with opq := q }.nest w := by
  unfold enterCommand at h
  by_cases ht : bitStateMatch s.opq.currentState op.targetState = true
  · simp only [ht] at h
    obtain ⟨rfl, rfl⟩ := Prod.mk.inj h
    exact ⟨rfl, .satisfied ht⟩
  · have ht' := Bool.eq_false_iff.mpr ht
    by_cases hp : bitStateMatch s.opq.currentState op.precondition = true
    · simp only [ht', hp] at h
      cases hf : op.runnerCallback with
      | none =>
        simp only [hf] at h
        obtain ⟨rfl, rfl⟩ := Prod.mk.inj h
        exact ⟨rfl, .applied ht' hp hf⟩
      | some f =>
        simp only [hf] at h
        obtain ⟨rfl, rfl⟩ := Prod.mk.inj h
        exact ⟨rfl, .invoked ht' hp (by rw [hf, Option.isSome_some])⟩
    · have hp' := Bool.eq_false_iff.mpr hp
      simp only [ht', hp'] at h
      cases hr : s.opq.runningOpPtr with
      | none =>
        simp only [hr] at h
        obtain ⟨rfl, rfl⟩ := Prod.mk.inj h
        exact ⟨rfl, .rejected ht' hp' hr⟩
      | some r =>
        simp only [hr] at h
        obtain ⟨rfl, rfl⟩ := Prod.mk.inj h
        exact ⟨rfl, .waits ht' hp' (by rw [State.nest, hr, Option.isSome_some])⟩

theorem start_moves {s t : State} (h : Linked s) (hc : callable s.frames = true) {pOp : Addr}
    {op : BleOp} {block : Option Addr} (hfresh : Fresh s (.start pOp op block))
    (ht : start s pOp op block = some t) :
    Linked t ∧ Moves s.nest (.start pOp op block) t.nest := by
  have hempty := queue_nil_iff h
  by_cases hidle : s.opq.runningOpPtr = none ∧ linkedListEmpty s.opq.opList = true
  · rw [start, if_pos hidle] at ht
    rcases he : enterCommand (s.opq.note (.submit op)) op with ⟨q, w⟩
    obtain ⟨hlist, hent⟩ := enterCommand_entered (s := { s with opq := s.opq.note (.submit op) }) he
    have hlink : HeapHolds q.opList = HeapHolds s.opq.opList := congrArg _ hlist
    have hm : Moves s.nest (.start pOp op block) _ :=
      .performed hc hidle.1 (hempty.mpr hidle.2) hent
    cases w with
    | none =>
      simp only [he, Option.some.injEq] at ht
      subst ht
      exact ⟨by rwa [Linked, hlink], hm⟩
    | some waitEvent =>
      simp only [he, Option.some.injEq] at ht
      subst ht
      exact ⟨by rwa [Linked, hlink], hm⟩
  · rw [start, if_neg hidle] at ht
    obtain ⟨q, hq, rfl⟩ := Option.map_eq_some_iff.mp ht
    obtain ⟨xs, hx⟩ := h
    cases block with
    | none =>
      rw [queueOp, OpQueue.note, linkedListAllocNode_null hx.heap] at hq
      simp at hq
    | some p =>
      obtain ⟨l, hl, hx', hdata, hlive⟩ := heapHolds_enqueue hx hfresh op
      simp only [queueOp, OpQueue.note, linkedListAllocNode_block hx.heap, hl, Option.map_some,
        Option.some.injEq] at hq
      subst hq
      refine ⟨⟨_, hx'⟩, ?_⟩
      have hb : s.nest.runningOpPtr ≠ none ∨ s.nest.queue ≠ [] := by
        rw [← hempty] at hidle
        exact Classical.not_and_iff_not_or_not.mp hidle
      have hm : Moves s.nest (.start pOp op (some p)) _ := .queued hc hb hfresh
      have hqueue : (xs ++ [p]).map (fun p => (p, l.nodeData p)) = s.queue ++ [(p, op)] := by
        rw [queue_eq hx, List.map_prod_left_eq_zip, hdata, List.map_prod_left_eq_zip,
          List.zip_append (by simp)]
        rfl
      convert hm using 1
      simp only [State.nest, Nest.note, hlive]
      rw [queue_eq (s := { s with opq := _ }) hx', hqueue]

theorem round_moves {s t : State} {fs : List Frame} (h : Linked s) (hf : s.frames = .loop :: fs)
    (ht : round s fs = some t) : Linked t ∧ Moves s.nest .round t.nest := by
  obtain ⟨xs, hx⟩ := h
  cases xs with
  | nil =>
    rw [round, heapHolds_pop_nil hx] at ht
    obtain rfl := Option.some.inj ht
    exact ⟨⟨[], hx⟩, .drained hf (by rw [State.nest, queue_eq hx]; rfl)⟩
  | cons p xs =>
    obtain ⟨l, hl, hx', hdata, hlive⟩ := heapHolds_pop hx
    obtain ⟨k, n, hframe⟩ := linkedListRemoveHead_frame hl
    have hptr : l.dataPtr p = p + alignedNodeLen := by
      rw [hframe]
      exact hx.dataPtr p List.mem_cons_self
    have hqueue : s.nest.queue = (p, l.nodeData p) :: xs.map fun p => (p, l.nodeData p) := by
      rw [State.nest, queue_eq hx, hdata, List.map_cons]
    rw [round] at ht
    simp only [hl] at ht
    rcases he : enterCommand { s.opq with opList := l } (l.nodeData p) with ⟨q, w⟩
    obtain ⟨hlist, hent⟩ :=
      enterCommand_entered (s := { s with opq := { s.opq with opList := l } }) he
    have hlink : HeapHolds q.opList xs := by rwa [hlist]
    have hrest : { s with opq := { s.opq with opList := l } }.nest =
        { s.nest with queue := xs.map fun p => (p, l.nodeData p) } := by
      simp only [State.nest, hlive]
      rw [queue_eq (s := { s with opq := _ }) hx']
    rw [hrest] at hent
    have hm := Moves.popped (n := s.nest) hf hqueue hent
    rw [← hptr] at hm
    rcases w with _ | _ | _
    · simp only [he, Option.some.injEq] at ht
      subst ht
      exact ⟨⟨xs, hlink⟩, hm⟩
    · simp only [he, Option.some.injEq] at ht
      subst ht
      exact ⟨⟨xs, hlink⟩, hm⟩
    · simp only [he, Option.some.injEq] at ht
      subst ht
      exact ⟨⟨xs, hlink⟩, hm⟩

theorem runnerReturns_moves {s : State} {pNode : Option Addr} {pOp : Addr} {op : BleOp}
    {fs : List Frame} (h : Linked s) (hf : s.frames = .runner pNode pOp op :: fs) (ret : Ret) :
    Linked (runnerReturns s pNode pOp op ret fs) ∧
      Moves s.nest (.runnerReturns ret) (runnerReturns s pNode pOp op ret fs).nest := by
  by_cases hret : ret = retOk
  · subst hret
    have hm := Moves.runs (n := s.nest) hf
    refine ⟨h, ?_⟩
    convert hm using 1
    simp [runnerReturns, leaveRunner, State.nest, State.queue, OpQueue.note, Nest.note]
  · have hm := Moves.fails (n := s.nest) hf hret
    have hl : leaveRunner s.opq pOp op ret = (s.opq.note (.return op ret), false) := by
      rw [leaveRunner, if_neg hret]
    refine ⟨?_, ?_⟩
    · rw [Linked, runnerReturns, hl]
      exact h
    · convert hm using 1
      simp [runnerReturns, hl, State.nest, State.queue, OpQueue.note, Nest.note]

/-- Every action of the machine is one of the moves. -/
theorem step_moves {s t : State} {c : Action} (h : Linked s) (hfresh : Fresh s c)
    (ht : step s c = some t) : Linked t ∧ Moves s.nest c t.nest := by
  cases c with
  | start pOp op block =>
    rw [step] at ht
    split_ifs at ht with hc
    exact start_moves h hc hfresh ht
  | process =>
    rw [step] at ht
    split_ifs at ht with hc
    obtain rfl := Option.some.inj ht
    exact ⟨h, .processed hc⟩
  | round =>
    rw [step] at ht
    split at ht
    · exact round_moves h ‹_› ht
    · cases ht
  | runnerReturns ret =>
    rw [step] at ht
    split at ht
    · obtain rfl := Option.some.inj ht
      exact runnerReturns_moves h ‹_› ret
    · cases ht
  | complete op =>
    rw [step] at ht
    split_ifs at ht with hc
    obtain rfl := Option.some.inj ht
    exact ⟨h, .completed hc⟩

def OutOfMemory (n : Nest) (c : Action) : Prop :=
  ∃ pOp op, c = .start pOp op none ∧ (n.runningOpPtr ≠ none ∨ n.queue ≠ [])

theorem start_eq_none {s : State} (h : Linked s) {pOp : Addr} {op : BleOp} {block : Option Addr}
    (hfresh : Fresh s (.start pOp op block)) (hn : start s pOp op block = none) :
    OutOfMemory s.nest (.start pOp op block) := by
  have hempty := queue_nil_iff h
  by_cases hidle : s.opq.runningOpPtr = none ∧ linkedListEmpty s.opq.opList = true
  · rw [start, if_pos hidle] at hn
    split at hn <;> cases hn
  · rw [start, if_neg hidle, Option.map_eq_none_iff] at hn
    rw [← hempty] at hidle
    cases block with
    | none => exact ⟨pOp, op, rfl, Classical.not_and_iff_not_or_not.mp hidle⟩
    | some p =>
      obtain ⟨xs, hx⟩ := h
      obtain ⟨l, hl, _⟩ := heapHolds_enqueue hx hfresh op
      simp [queueOp, OpQueue.note, linkedListAllocNode_block hx.heap, hl] at hn

theorem round_ne_none {s : State} (h : Linked s) (fs : List Frame) : round s fs ≠ none := by
  obtain ⟨xs, hx⟩ := h
  intro hn
  cases xs with
  | nil => simp [round, heapHolds_pop_nil hx] at hn
  | cons p xs =>
    obtain ⟨l, hl, _⟩ := heapHolds_pop hx
    rw [round] at hn
    simp only [hl] at hn
    split at hn <;> cases hn

theorem step_eq_none {s : State} {c : Action} (h : Linked s) (hfresh : Fresh s c)
    (he : Enabled s c) (hn : step s c = none) : OutOfMemory s.nest c := by
  cases c with
  | start pOp op block =>
    rw [step_start he] at hn
    exact start_eq_none h hfresh hn
  | process =>
    have hc : callable s.frames = true := he
    rw [step, if_pos hc] at hn
    cases hn
  | round =>
    obtain ⟨fs, hf⟩ := List.head?_eq_some_iff.mp he
    rw [step_round hf] at hn
    exact absurd hn (round_ne_none h fs)
  | runnerReturns ret =>
    obtain ⟨hne, hc⟩ := he
    cases hf : s.frames with
    | nil => exact absurd hf hne
    | cons f fs =>
      cases f with
      | loop => simp [hf, callable] at hc
      | runner pNode pOp op =>
        rw [step_runnerReturns hf] at hn
        cases hn
  | complete op =>
    have hc : callable s.frames = true := he
    rw [step, if_pos hc] at hn
    cases hn

theorem linked_init {q : OpQueue} (h : q.opList.arrayBased = false) (state : BitState)
    (callback : Option Addr) : Linked (init q state callback) :=
  ⟨[], heapHolds_init h⟩

theorem nest_init (q : OpQueue) (state : BitState) (callback : Option Addr) :
    (init q state callback).nest = ⟨[], q.opList.live, state, none, none, [], [], []⟩ := rfl

section Runs

variable {I : Nest → Prop} {P Q : State → Action → Prop}
  (hmove : ∀ (s : State) (c : Action) (m : Nest), I s.nest → P s c → Moves s.nest c m → I m)

include hmove

theorem step_nest {s t : State} {c : Action} (h : Linked s ∧ I s.nest) (hc : Fresh s c ∧ P s c)
    (ht : step s c = some t) : Linked t ∧ I t.nest := by
  obtain ⟨hlink, hm⟩ := step_moves h.1 hc.1 ht
  exact ⟨hlink, hmove s c t.nest h.2 hc.2 hm⟩

theorem exec_nest {s : State} (hs : Linked s) (hi : I s.nest) {actions : List Action}
    (hf : Along step Fresh s actions) (hP : Along step P s actions) :
    Linked (exec step s actions) ∧ I (exec step s actions).nest := by
  apply exec_invariant (P := fun s c => Fresh s c ∧ P s c) (I := fun s => Linked s ∧ I s.nest)
  · intro s c t
    exact step_nest hmove
  · exact ⟨hs, hi⟩
  · exact along_and.mpr ⟨hf, hP⟩

theorem along_nest (hQ : ∀ (s : State) (c : Action), I s.nest → P s c →
      (∀ t, step s c = some t → Moves s.nest c t.nest) → Q s c)
    {s : State} (hs : Linked s) (hi : I s.nest) {actions : List Action}
    (hf : Along step Fresh s actions) (hP : Along step P s actions) : Along step Q s actions := by
  apply along_of_invariant (P := fun s c => Fresh s c ∧ P s c)
    (I := fun s => Linked s ∧ I s.nest)
  · intro s c t
    exact step_nest hmove
  · rintro s c ⟨hs, hi⟩ ⟨hf, hP⟩
    exact hQ s c hi hP fun t ht => (step_moves hs hf ht).2
  · exact ⟨hs, hi⟩
  · exact along_and.mpr ⟨hf, hP⟩

end Runs

theorem exec_nest_iff {J G : Nest → Prop} {Q : Nest → Action → Prop}
    (hkeep : ∀ n c m, J n → Moves n c m → J m)
    (hgood : ∀ n c m, J n → G n → Q n c → Moves n c m → G m)
    (hbad : ∀ n c m, J n → G n → ¬ Q n c → Moves n c m → ¬ G m)
    (hlost : ∀ n c m, J n → ¬ G n → Moves n c m → ¬ G m)
    (hnull : ∀ n c, OutOfMemory n c → Q n c) {s : State} (hs : Linked s) (hJ : J s.nest)
    (hG : G s.nest) {actions : List Action} (hf : Along step Fresh s actions)
    (he : Along step Enabled s actions) :
    G (exec step s actions).nest ↔ Along step (fun s c => Q s.nest c) s actions := by
  apply exec_iff_along (J := fun s => Linked s ∧ J s.nest) (G := fun s => G s.nest)
    (L := fun s c => Fresh s c ∧ Enabled s c)
  · rintro s c t ⟨hs, hJ⟩ ⟨hf, _⟩ ht
    obtain ⟨hlink, hm⟩ := step_moves hs hf ht
    exact ⟨hlink, hkeep _ c _ hJ hm⟩
  · rintro s c t ⟨hs, hJ⟩ hG ⟨hf, _⟩ hQ ht
    exact hgood _ c _ hJ hG hQ (step_moves hs hf ht).2
  · rintro s c t ⟨hs, hJ⟩ hG ⟨hf, _⟩ hQ ht
    exact hbad _ c _ hJ hG hQ (step_moves hs hf ht).2
  · rintro s c ⟨hs, _⟩ _ ⟨hf, he⟩ hn
    exact hnull _ c (step_eq_none hs hf he hn)
  · rintro s c t ⟨hs, hJ⟩ ⟨hf, _⟩ hG ht
    exact hlost _ c _ hJ hG (step_moves hs hf ht).2
  · exact ⟨hs, hJ⟩
  · exact hG
  · exact along_and.mpr ⟨hf, he⟩

theorem along_nest_iff {I G : Nest → Prop} {Q : Nest → Action → Prop}
    (hkeep : ∀ n c m, I n → Moves n c m → I m)
    (hiff : ∀ n c m, I n → G n → Moves n c m → (G m ↔ Q n c))
    (hnull : ∀ n c, OutOfMemory n c → Q n c) {s : State} (hs : Linked s) (hI : I s.nest)
    (hG : G s.nest) {actions : List Action} (hf : Along step Fresh s actions)
    (he : Along step Enabled s actions) :
    Along step (fun s c => ∀ t ∈ step s c, G t.nest) s actions ↔
      Along step (fun s c => Q s.nest c) s actions := by
  apply along_iff_of_invariant (I := fun s => Linked s ∧ I s.nest ∧ G s.nest)
    (L := fun s c => Fresh s c ∧ Enabled s c)
  · rintro s c t ⟨hs, hI, hG⟩ ⟨hf, _⟩ hP ht
    obtain ⟨hlink, hm⟩ := step_moves hs hf ht
    exact ⟨hlink, hkeep _ c _ hI hm, hP t ht⟩
  · rintro s c ⟨hs, hI, hG⟩ ⟨hf, he⟩
    cases h : step s c with
    | none => exact iff_of_true (by simp) (hnull _ c (step_eq_none hs hf he h))
    | some t =>
      rw [← hiff _ c _ hI hG (step_moves hs hf h).2]
      simp
  · exact ⟨hs, hI, hG⟩
  · exact along_and.mpr ⟨hf, he⟩

/-- The runs with runners that leave the queue alone are among the nested runs. -/
theorem call_played (rets : ℕ → Ret) {s : State} (hc : callable s.frames = true) {c : Call}
    {q : OpQueue} (h : OpQueueFifo.step rets s.opq c = some q) :
    ∃ t, Steps s t ∧ t.opq = q ∧ t.frames = s.frames := by
  have hplay : Played (quietRunner rets) := by
    intro s pNode pOp op fs q ret _ hr
    obtain ⟨rfl, _⟩ := Prod.mk.inj (Option.some.inj hr)
    exact ⟨s, .refl, rfl, rfl⟩
  cases c with
  | start pOp op block => exact bleOpqStart_played hplay hc h
  | process => exact bleOpqProcess_played hplay hc (Option.join_eq_some_iff.mp h)
  | complete op =>
    obtain rfl := Option.some.inj h
    have hs : step s (.complete op) =
        some { s with opq := bleOpqComplete s.opq op, runningNode := none } := by
      rw [step, if_pos hc]
    exact ⟨_, .single ⟨_, hs⟩, rfl, rfl⟩

end BleFirmware.OpQueueNested
