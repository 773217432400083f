import BleFirmware.OpQueueNestedFifo

/-!
# The order in which operations take effect

The operations are examined in the order in which they were submitted, however
the calls are nested: an operation is examined when it is popped, or at once if
nothing is queued. Those that take effect are some of the examined ones.
-/

namespace BleFirmware.OpQueueOrder
open Run Segment OpQueueExclusion OpQueueConservation OpQueueNested

def effectOp : Event → Option BleOp
  | .invoke op => some op
  | .apply op => some op
  | _ => none

def effects (log : List Event) : List BleOp := log.filterMap effectOp

structure InOrder (log : List Event) (queue : List BleOp) : Prop where
  effects_in_order : (effects log).Sublist (submitted log)
  effects_examined : (effects log).Sublist (examined log)
  submitted_eq : submitted log = examined log ++ queue

/-- A call of `ble_opq_start` whose operation takes effect finds nothing queued. -/
def NoOvertaking (s : State) : Action → Prop
  | .start pOp op block => ∀ t, step s (.start pOp op block) = some t →
      effects t.opq.log ≠ effects s.opq.log → s.opq.opList.payloads = []
  | _ => True

theorem effects_sublist_examined (log : List Event) :
    (effects log).Sublist (examined log) := by
  induction log with
  | nil => exact List.Sublist.refl _
  | cons e log ih =>
    cases e with
    | invoke op => exact ih.cons_cons op
    | apply op => exact ih.cons_cons op
    | satisfied op => exact ih.cons op
    | wait op => exact ih.cons op
    | reject op => exact ih.cons op
    | submit op => exact ih
    | «return» op ret => exact ih
    | complete op => exact ih

theorem payloads_eq (s : State) : s.opq.opList.payloads = s.queue.map Prod.snd := by
  rw [State.queue, List.map_map]
  rfl

def Accounted (n : Nest) : Prop := submitted n.log = examined n.log ++ n.queue.map Prod.snd

theorem Accounted.note {n : Nest} (h : Accounted n) {e : Event} (hs : submittedOp e = none)
    (he : examinedOp e = none) : Accounted (n.note e) := by
  simp only [Accounted, submitted, examined] at h
  simp [Accounted, Nest.note, submitted, examined, hs, he, h]

theorem entered_examined {n m : Nest} {op : BleOp} {w : Option Bool} (h : Entered n op m w) :
    m.queue = n.queue ∧ submitted m.log = submitted n.log ∧
      examined m.log = examined n.log ++ [op] := by
  cases h <;>
    simp [Nest.note, submitted, examined, submittedOp, examinedOp, disposedOp, List.filterMap_cons]

theorem submitted_note (n : Nest) (op : BleOp) :
    submitted (n.note (.submit op)).log = submitted n.log ++ [op] ∧
      examined (n.note (.submit op)).log = examined n.log := by
  simp [Nest.note, submitted, examined, submittedOp, examinedOp, disposedOp]

theorem moves_accounted {n m : Nest} {c : Action} (h : Accounted n) (hm : Moves n c m) :
    Accounted m := by
  cases hm with
  | @performed pOp op block m w hc hr hq he =>
    obtain ⟨hqueue, hsub, hex⟩ := entered_examined he
    obtain ⟨hn, hx⟩ := submitted_note n op
    have hm : submitted m.log = examined m.log ++ m.queue.map Prod.snd := by
      rw [hsub, hex, hn, hx, h, hqueue]
      simp [Nest.note, hq]
    exact hm
  | @queued pOp op p hc hb hl =>
    obtain ⟨hn, hx⟩ := submitted_note n op
    change submitted (n.note (.submit op)).log = examined (n.note (.submit op)).log ++ _
    rw [hn, hx, h, List.map_append, List.append_assoc]
    rfl
  | processed hc => exact h
  | drained hf hq => exact h
  | popped hf hq he =>
    obtain ⟨hqueue, hsub, hex⟩ := entered_examined he
    change submitted _ = examined _ ++ List.map Prod.snd _
    rw [Accounted, hq] at h
    rw [hsub, hex, hqueue]
    simpa using h
  | runs hf => exact h.note rfl rfl
  | fails hf hret => exact h.note rfl rfl
  | completed hc => exact h.note rfl rfl

theorem moves_noOvertaking {s : State} {c : Action}
    (h : ∀ t, step s c = some t → Moves s.nest c t.nest) : NoOvertaking s c := by
  cases c with
  | start pOp op block =>
    intro t ht hne
    have hm := h t ht
    generalize hn : t.nest = m at hm
    cases hm with
    | performed hc hr hq he =>
      rw [payloads_eq]
      exact congrArg (List.map Prod.snd) hq
    | queued hc hb hl =>
      have hlog : t.opq.log = s.opq.log ++ [.submit op] := congrArg Nest.log hn
      rw [hlog] at hne
      exact absurd (by simp [effects, effectOp]) hne
  | process => trivial
  | round => trivial
  | runnerReturns ret => trivial
  | complete op => trivial

theorem operations_in_order (q₀ : OpQueue) (hheap : q₀.opList.arrayBased = false)
    (state : BitState) (callback : Option Addr) (actions : List Action)
    (hf : Along step Fresh (init q₀ state callback) actions) :
    InOrder (exec step (init q₀ state callback) actions).opq.log
        (exec step (init q₀ state callback) actions).opq.opList.payloads ∧
      Along step NoOvertaking (init q₀ state callback) actions := by
  have hlink := linked_init hheap state callback
  have hP : Along step (fun _ _ => True) (init q₀ state callback) actions :=
    along_of_forall (fun _ _ => trivial) _ _
  have hmove : ∀ (s : State) (c : Action) (m : Nest), Accounted s.nest → True →
      Moves s.nest c m → Accounted m := fun s c m h _ hm => moves_accounted h hm
  have hacc := (exec_nest hmove hlink rfl hf hP).2
  have hexamined := effects_sublist_examined
    (exec step (init q₀ state callback) actions).opq.log
  refine ⟨⟨?_, hexamined, ?_⟩, ?_⟩
  · have hsub := hexamined.trans (List.sublist_append_left _
      ((exec step (init q₀ state callback) actions).queue.map Prod.snd))
    exact hacc ▸ hsub
  · rw [payloads_eq]
    exact hacc
  · exact along_nest hmove (fun s c _ _ hm => moves_noOvertaking hm) hlink rfl hf hP

/-- The runner of the first operation submits a second one, which is queued, and
processes the queue before it returns. -/
theorem operations_in_order_reentrant :
    InOrder (exec step (init zeroQueue 1 none)
          [.start 16 toState2 none, .start 32 toState4 none, .runnerReturns retOk,
            .start 48 toState8 (some 1024), .process, .round, .runnerReturns retOk]).opq.log
        (exec step (init zeroQueue 1 none)
          [.start 16 toState2 none, .start 32 toState4 none, .runnerReturns retOk,
            .start 48 toState8 (some 1024), .process, .round,
            .runnerReturns retOk]).opq.opList.payloads ∧
      Along step NoOvertaking (init zeroQueue 1 none)
        [.start 16 toState2 none, .start 32 toState4 none, .runnerReturns retOk,
          .start 48 toState8 (some 1024), .process, .round, .runnerReturns retOk] :=
  operations_in_order zeroQueue rfl 1 none _ (by decide)

end BleFirmware.OpQueueOrder
