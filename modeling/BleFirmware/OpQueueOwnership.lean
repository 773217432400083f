import BleFirmware.Base.Custody
import BleFirmware.OpQueueNestedFifo

/-!
# The list nodes of the operation queue

A node is allocated when an operation is queued, and nothing gives it back. It
is held by the queue, then by the call of `ble_opq_process` that popped it, and
last by the running operation. It is lost where its operation is resolved: when
the operation completes, fails, or does not get as far as its runner.
-/

namespace BleFirmware.OpQueueOwnership
open Run Custody OpQueueExclusion OpQueueConservation OpQueueNested

def frameNode : Frame → Option Addr
  | .loop => none
  | .runner pNode _ _ => pNode

def frameNodes (fs : List Frame) : List Addr := fs.filterMap frameNode

def nodes (n : Nest) : List Addr :=
  n.queue.map Prod.fst ++ frameNodes n.frames ++ n.runningNode.toList

/-- The blocks obtained since the start are the nodes of the queue and the node
of the running operation. -/
structure Owned (live₀ : Addr → Bool) (s : State) : Prop where
  live_iff : ∀ p, s.opq.opList.live p = true ↔
    live₀ p = true ∨ p ∈ s.queue.map Prod.fst ∨ s.runningNode = some p
  running : ∀ p, s.runningNode = some p → s.opq.runningOpPtr = some (p + alignedNodeLen)

def Bounded (live₀ : Addr → Bool) (s : State) : Prop :=
  ∀ blocks : List Addr, blocks.Nodup →
    (∀ p ∈ blocks, s.opq.opList.live p = true ∧ live₀ p = false) →
    blocks.length ≤ s.opq.opList.count + 1

def NothingFreed (s : State) (c : Action) : Prop :=
  ∀ t, step s c = some t → ∀ p, s.opq.opList.live p = true → t.opq.opList.live p = true

def Keeps (n : Nest) : Action → Prop
  | .round => ∀ x ∈ n.queue.head?, Begins n.currentState x.2
  | .runnerReturns ret => ∀ pNode pOp op, n.frames.head? = some (.runner pNode pOp op) →
      if ret = retOk then n.runningNode = none else pNode = none
  | .complete _ => n.runningNode = none
  | _ => True

def Moved (n m : Nest) (added dropped : List Addr) : Prop :=
  Transfer n.live m.live (nodes n) (nodes m) added dropped

theorem moved_of_perm {n m : Nest} {dropped : List Addr} (hl : m.live = n.live)
    (hp : (nodes m ++ dropped).Perm (nodes n)) : Moved n m [] dropped where
  perm := by simpa using hp
  live_iff p := by simp [hl]
  fresh := by simp
  nodup := List.nodup_nil

@[simp] theorem frameNodes_loop (fs : List Frame) : frameNodes (.loop :: fs) = frameNodes fs := rfl

@[simp] theorem frameNodes_runner (pNode : Option Addr) (pOp : Addr) (op : BleOp)
    (fs : List Frame) :
    frameNodes (.runner pNode pOp op :: fs) = pNode.toList ++ frameNodes fs := by
  cases pNode <;> rfl

theorem popped_transfer {n : Nest} {fs : List Frame} {p : Addr} {op : BleOp}
    {rest : List (Addr × BleOp)} (hf : n.frames = .loop :: fs) (hq : n.queue = (p, op) :: rest)
    {m : Nest} {w : Option Bool} (he : Entered { n with queue := rest } op m w)
    (top : List Frame) (ht : frameNodes top = (if w = none then [p] else []) ++ frameNodes fs) :
    ∃ added dropped, Moved n { m with frames := top } added dropped ∧
      (dropped = [] ↔ Keeps n .round) := by
  have hb := entered_begins he
  obtain ⟨state, e, rfl⟩ := entered_frame he
  have hk : Keeps n .round ↔ w = none := by
    rw [hb]
    simp [Keeps, hq]
  refine ⟨[], if w = none then [] else [p], moved_of_perm rfl ?_, ?_⟩
  · rw [List.perm_iff_count]
    intro a
    by_cases hw : w = none <;> simp [nodes, Nest.note, hf, hq, ht, hw, List.count_cons] <;> omega
  · rw [hk]
    by_cases hw : w = none <;> simp [hw]

theorem moves_transfer {n m : Nest} {c : Action} (hm : Moves n c m) :
    ∃ added dropped, Moved n m added dropped ∧ (dropped = [] ↔ Keeps n c) := by
  cases hm with
  | @performed pOp op block m w hc hr hq he =>
    obtain ⟨state, e, rfl⟩ := entered_frame he
    refine ⟨[], [], moved_of_perm rfl ?_, by simp [Keeps]⟩
    cases w <;> simp [nodes, Nest.note]
  | @queued pOp op p hc hb hl =>
    refine ⟨[p], [], ⟨?_, ?_, by simpa using hl, by simp⟩, by simp [Keeps]⟩
    · rw [List.perm_iff_count]
      intro a
      simp [nodes, Nest.note, List.count_cons]
      omega
    · intro q
      by_cases hq : q = p <;> simp [hq]
  | processed hc =>
    refine ⟨[], [], moved_of_perm rfl ?_, by simp [Keeps]⟩
    simp [nodes]
  | drained hf hq =>
    refine ⟨[], [], moved_of_perm rfl ?_, by simp [Keeps, hq]⟩
    simp [nodes, hf]
  | @popped fs p op rest m w hf hq he =>
    apply popped_transfer hf hq he
    rcases w with _ | _ | _ <;> simp
  | @runs fs pNode pOp op hf =>
    refine ⟨[], n.runningNode.toList, moved_of_perm rfl ?_, by simp [Keeps, hf]⟩
    rw [List.perm_iff_count]
    intro a
    simp [nodes, Nest.note, hf]
    omega
  | @fails fs pNode pOp op ret hf hret =>
    refine ⟨[], pNode.toList, moved_of_perm rfl ?_, by simp [Keeps, hf, hret]⟩
    rw [List.perm_iff_count]
    intro a
    cases pNode with
    | none => simp [nodes, Nest.note, hf]
    | some p =>
      simp [nodes, Nest.note, hf, List.count_cons]
      omega
  | completed hc =>
    refine ⟨[], n.runningNode.toList, moved_of_perm rfl ?_, by simp [Keeps]⟩
    simp [nodes, Nest.note]

/-- `running_op_ptr` points behind the header of the node it came from. -/
structure Inv (live₀ : Addr → Bool) (n : Nest) : Prop where
  held : Held live₀ n.live (nodes n)
  frame : ∀ p pOp op, .runner (some p) pOp op ∈ n.frames → pOp = p + alignedNodeLen
  running : ∀ p, n.runningNode = some p → n.runningOpPtr = some (p + alignedNodeLen)

theorem moves_frame {n m : Nest} {c : Action} (hm : Moves n c m)
    (h : ∀ p pOp op, .runner (some p) pOp op ∈ n.frames → pOp = p + alignedNodeLen) :
    ∀ p pOp op, .runner (some p) pOp op ∈ m.frames → pOp = p + alignedNodeLen := by
  intro p pOp op hmem
  cases hm with
  | performed hc hr hq he =>
    split_ifs at hmem with hw
    · exact h p pOp op (by simpa using hmem)
    · exact h p pOp op hmem
  | queued hc hb hl => exact h p pOp op hmem
  | processed hc => exact h p pOp op (by simpa using hmem)
  | drained hf hq => exact h p pOp op (by simp [hf, hmem])
  | popped hf hq he =>
    rw [hf] at h
    split at hmem
    · rcases List.mem_cons.mp hmem with heq | hmem
      · cases heq
        rfl
      · exact h p pOp op (List.mem_cons_of_mem _ hmem)
    · exact h p pOp op (List.mem_cons_of_mem _ hmem)
    · exact h p pOp op hmem
  | runs hf =>
    rw [hf] at h
    exact h p pOp op (List.mem_cons_of_mem _ hmem)
  | fails hf hret =>
    rw [hf] at h
    split_ifs at hmem
    · exact h p pOp op (List.mem_cons_of_mem _ (by simpa using hmem))
    · exact h p pOp op (List.mem_cons_of_mem _ hmem)
  | completed hc => exact h p pOp op hmem

theorem moves_running {n m : Nest} {c : Action} {live₀ : Addr → Bool} (h : Inv live₀ n)
    (hm : Moves n c m) :
    ∀ p, m.runningNode = some p → m.runningOpPtr = some (p + alignedNodeLen) := by
  intro p hp
  cases hm with
  | performed hc hr hq he =>
    obtain ⟨state, e, rfl⟩ := entered_frame he
    exact h.running p hp
  | popped hf hq he =>
    obtain ⟨state, e, rfl⟩ := entered_frame he
    exact h.running p hp
  | @runs fs pNode pOp op hf =>
    obtain rfl : pNode = some p := hp
    exact congrArg some (h.frame p pOp op (by simp [hf]))
  | completed hc => cases hp
  | _ => exact h.running p hp

theorem moves_inv {n m : Nest} {c : Action} {live₀ : Addr → Bool} (h : Inv live₀ n)
    (hm : Moves n c m) : Inv live₀ m := by
  obtain ⟨added, dropped, ht, _⟩ := moves_transfer hm
  exact ⟨h.held.transfer ht, moves_frame hm h.frame, moves_running h hm⟩

theorem moves_live {n m : Nest} {c : Action} (hm : Moves n c m) (p : Addr)
    (hp : n.live p = true) : m.live p = true := by
  obtain ⟨added, dropped, ht, _⟩ := moves_transfer hm
  exact (ht.live_iff p).mpr (.inl hp)

theorem inv_init (q : OpQueue) (state : BitState) (callback : Option Addr) :
    Inv q.opList.live (init q state callback).nest where
  held :=
    { nodup := List.nodup_nil
      live_of_mem := nofun
      base_of_mem := nofun
      live_of_base := fun _ hp => hp }
  frame := nofun
  running := nofun

theorem owned_iff {live₀ : Addr → Bool} {s : State} (h : Inv live₀ s.nest) (hq : s.frames = []) :
    Owned live₀ s ↔ Covers live₀ s.nest.live (nodes s.nest) := by
  have hmem : ∀ p, p ∈ nodes s.nest ↔ p ∈ s.queue.map Prod.fst ∨ s.runningNode = some p := by
    intro p
    simp [nodes, State.nest, hq, frameNodes]
  rw [covers_iff h.held]
  constructor
  · intro ho p
    rw [hmem]
    exact ho.live_iff p
  · intro hc
    refine ⟨fun p => ?_, h.running⟩
    rw [← hmem]
    exact hc p

theorem length_nodes {s : State} (hs : Linked s) (hq : s.frames = []) :
    (nodes s.nest).length ≤ s.opq.opList.count + 1 := by
  obtain ⟨xs, hx⟩ := hs
  have hc : s.opq.opList.count = xs.length := hx.holds.count_eq
  have hr : s.runningNode.toList.length ≤ 1 := by cases s.runningNode <;> simp
  simp only [nodes, State.nest, hq, queue_eq hx, frameNodes, List.length_append, List.length_map,
    List.filterMap_nil, List.length_nil, hc]
  omega

theorem nodes_owned_iff (q₀ : OpQueue) (hheap : q₀.opList.arrayBased = false) (state : BitState)
    (callback : Option Addr) (actions : List Action)
    (hf : Along step Fresh (init q₀ state callback) actions)
    (he : Along step Enabled (init q₀ state callback) actions)
    (hq : (exec step (init q₀ state callback) actions).frames = []) :
    (Owned q₀.opList.live (exec step (init q₀ state callback) actions) ↔
      Along step (fun s c => Keeps s.nest c) (init q₀ state callback) actions) ∧
    Along step NothingFreed (init q₀ state callback) actions ∧
    (Owned q₀.opList.live (exec step (init q₀ state callback) actions) →
      Bounded q₀.opList.live (exec step (init q₀ state callback) actions)) := by
  have hs := linked_init hheap state callback
  have hi := inv_init q₀ state callback
  have hP : Along step (fun _ _ => True) (init q₀ state callback) actions :=
    along_of_forall (fun _ _ => trivial) _ _
  have hmove : ∀ (s : State) (c : Action) (m : Nest), Inv q₀.opList.live s.nest → True →
      Moves s.nest c m → Inv q₀.opList.live m := fun s c m h _ hm => moves_inv h hm
  obtain ⟨hlink, hinv⟩ := exec_nest hmove hs hi hf hP
  rw [owned_iff hinv hq]
  refine ⟨?_, ?_, ?_⟩
  · apply exec_nest_iff (J := Inv q₀.opList.live)
      (G := fun n => Covers q₀.opList.live n.live (nodes n))
    · exact fun n c m hJ hm => moves_inv hJ hm
    · intro n c m hJ hG hQ hm
      obtain ⟨added, dropped, ht, hd⟩ := moves_transfer hm
      obtain rfl := hd.mpr hQ
      exact hG.transfer ht
    · intro n c m hJ hG hQ hm
      obtain ⟨added, dropped, ht, hd⟩ := moves_transfer hm
      exact not_covers_of_dropped hJ.held ht (fun h => hQ (hd.mp h))
    · intro n c m _ hG hm
      obtain ⟨added, dropped, ht, _⟩ := moves_transfer hm
      exact not_covers_of_not_covers ht hG
    · rintro n c ⟨pOp, op, rfl, _⟩
      trivial
    · exact hs
    · exact hi
    · exact fun p hp => .inl hp
    · exact hf
    · exact he
  · exact along_nest hmove (fun s c _ _ hm t ht p hp => moves_live (hm t ht) p hp) hs hi hf hP
  · intro hc blocks hn hb
    exact (hc.length_le hn hb).trans (length_nodes hlink hq)

/-- The second operation is queued while the first one runs. -/
def queuedBehind : List Action :=
  [.start 16 toState2 none, .runnerReturns retOk, .start 32 toState4 (some 1024)]

theorem nodes_owned_iff_queued :
    (Owned zeroQueue.opList.live (exec step (init zeroQueue 1 none) queuedBehind) ↔
      Along step (fun s c => Keeps s.nest c) (init zeroQueue 1 none) queuedBehind) ∧
    Along step NothingFreed (init zeroQueue 1 none) queuedBehind ∧
    (Owned zeroQueue.opList.live (exec step (init zeroQueue 1 none) queuedBehind) →
      Bounded zeroQueue.opList.live (exec step (init zeroQueue 1 none) queuedBehind)) :=
  nodes_owned_iff zeroQueue rfl 1 none queuedBehind (by decide) (by decide) (by decide)

/-- The second operation is popped after the first has completed and is turned
down, and its node belongs to nobody. -/
def turnedDown : List Action :=
  queuedBehind ++ [.complete toState2, .process, .round, .round]

theorem node_leaked :
    Along step Fresh (init zeroQueue 1 none) turnedDown ∧
      Along step Enabled (init zeroQueue 1 none) turnedDown ∧
      (exec step (init zeroQueue 1 none) turnedDown).frames = [] ∧
      ¬ Owned zeroQueue.opList.live (exec step (init zeroQueue 1 none) turnedDown) := by
  refine ⟨by decide, by decide, by decide, fun h => ?_⟩
  have hl := (h.live_iff 1024).mp (by decide)
  revert hl
  decide

end BleFirmware.OpQueueOwnership
