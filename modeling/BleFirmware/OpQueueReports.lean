import BleFirmware.OpQueueNestedFifo

/-!
# Results of operations

`ble_opq_init` stores the result callback, and nothing calls it. So every
operation that is resolved goes unreported, and the reports are complete only
as long as none is: operations are queued or started, and nothing completes,
fails, is found in its target state, is applied or is turned down.
-/

namespace BleFirmware.OpQueueReports
open Run OpQueueExclusion OpQueueConservation OpQueueNested

def retErrStateNotMatch : Ret := 0xFF20 + 5

def resolvedOp : Event → Option (BleOp × Ret)
  | .complete op => some (op, retOk)
  | .satisfied op => some (op, retOk)
  | .apply op => some (op, retOk)
  | .return op ret => if ret = retOk then none else some (op, ret)
  | .reject op => some (op, retErrStateNotMatch)
  | _ => none

def resolved (log : List Event) : List (BleOp × Ret) := log.filterMap resolvedOp

/-- Every resolved operation has been reported once, in order, and no operation
has been dropped without being resolved or started. -/
def Reported (n : Nest) : Prop := n.reports = resolved n.log ∧ n.log.countP isWait = 0

instance (n : Nest) : Decidable (Reported n) := inferInstanceAs (Decidable (_ ∧ _))

def Silent (n : Nest) : Action → Prop
  | .start _ op _ => n.runningOpPtr ≠ none ∨ n.queue ≠ [] ∨ Begins n.currentState op
  | .process => True
  | .round => ∀ x ∈ n.queue.head?, Begins n.currentState x.2
  | .runnerReturns ret => ret = retOk
  | .complete _ => False

/-- No event of the log calls for a report or drops an operation. -/
def Unresolved (log : List Event) : Prop := resolved log = [] ∧ log.countP isWait = 0

theorem unresolved_concat {log : List Event} {e : Event} :
    Unresolved (log ++ [e]) ↔ Unresolved log ∧ resolvedOp e = none ∧ isWait e = false := by
  have h : resolved [e] = [] ↔ resolvedOp e = none := by
    simp [resolved]
  have hw : [e].countP isWait = 0 ↔ isWait e = false := by
    simp [List.countP_cons]
  simp only [Unresolved, resolved, List.filterMap_append, List.append_eq_nil_iff,
    List.countP_append, Nat.add_eq_zero_iff] at h ⊢
  rw [h, hw]
  exact and_and_and_comm

theorem moves_reports {n m : Nest} {c : Action} (hm : Moves n c m) : m.reports = n.reports := by
  cases hm with
  | performed hc hr hq he =>
    obtain ⟨state, e, rfl⟩ := entered_frame he
    rfl
  | popped hf hq he =>
    obtain ⟨state, e, rfl⟩ := entered_frame he
    rfl
  | _ => rfl

theorem entered_unresolved {n m : Nest} {op : BleOp} {w : Option Bool} (he : Entered n op m w) :
    Unresolved m.log ↔ Unresolved n.log ∧ Begins n.currentState op := by
  cases he with
  | satisfied ht => simp [Nest.note, unresolved_concat, resolvedOp, Begins, ht]
  | invoked ht hp hf => simp [Nest.note, unresolved_concat, resolvedOp, isWait, Begins, ht, hp, hf]
  | applied ht hp hf => simp [Nest.note, unresolved_concat, resolvedOp, Begins, hf]
  | waits ht hp hr => simp [Nest.note, unresolved_concat, isWait, Begins, hp]
  | rejected ht hp hr => simp [Nest.note, unresolved_concat, resolvedOp, Begins, hp]

theorem moves_unresolved {n m : Nest} {c : Action} (hm : Moves n c m) :
    Unresolved m.log ↔ Unresolved n.log ∧ Silent n c := by
  cases hm with
  | performed hc hr hq he =>
    rw [entered_unresolved he]
    simp [Nest.note, unresolved_concat, resolvedOp, isWait, Silent, hr, hq]
  | @queued pOp op p hc hb hl =>
    have hs : Silent n (.start pOp op (some p)) := hb.elim .inl fun hq => .inr (.inl hq)
    simp [Nest.note, unresolved_concat, resolvedOp, isWait, hs]
  | processed hc => simp [Silent]
  | drained hf hq => simp [Silent, hq]
  | popped hf hq he => simpa [Silent, hq] using entered_unresolved he
  | runs hf => simp [Nest.note, unresolved_concat, resolvedOp, isWait, Silent]
  | fails hf hret => simp [Nest.note, unresolved_concat, resolvedOp, Silent, hret]
  | completed hc => simp [Nest.note, unresolved_concat, resolvedOp, Silent]

theorem results_reported_iff (q₀ : OpQueue) (hheap : q₀.opList.arrayBased = false)
    (state : BitState) (callback : Option Addr) (actions : List Action)
    (hf : Along step Fresh (init q₀ state callback) actions)
    (he : Along step Enabled (init q₀ state callback) actions) :
    Reported (exec step (init q₀ state callback) actions).nest ↔
      Along step (fun s c => Silent s.nest c) (init q₀ state callback) actions := by
  have hiff : ∀ {n : Nest}, n.reports = [] → (Reported n ↔ Unresolved n.log) := by
    intro n hn
    rw [Reported, hn, Unresolved, eq_comm]
  apply exec_nest_iff (J := fun n => n.reports = []) (G := Reported)
  · intro n c m hJ hm
    exact (moves_reports hm).trans hJ
  · intro n c m hJ hG hQ hm
    rw [hiff hJ] at hG
    rw [hiff ((moves_reports hm).trans hJ), moves_unresolved hm]
    exact ⟨hG, hQ⟩
  · intro n c m hJ hG hQ hm
    rw [hiff ((moves_reports hm).trans hJ), moves_unresolved hm]
    exact fun h => hQ h.2
  · intro n c m hJ hG hm
    rw [hiff hJ] at hG
    rw [hiff ((moves_reports hm).trans hJ), moves_unresolved hm]
    exact fun h => hG h.1
  · rintro n c ⟨pOp, op, rfl, hb⟩
    exact hb.elim Or.inl fun hq => .inr (.inl hq)
  · exact linked_init hheap state callback
  · rfl
  · exact ⟨rfl, rfl⟩
  · exact hf
  · exact he

theorem results_reported_iff_queued :
    Reported (exec step (init zeroQueue 1 (some 64))
        [.start 16 toState2 none, .runnerReturns retOk, .start 32 toState4 (some 1024)]).nest ↔
      Along step (fun s c => Silent s.nest c) (init zeroQueue 1 (some 64))
        [.start 16 toState2 none, .runnerReturns retOk, .start 32 toState4 (some 1024)] :=
  results_reported_iff zeroQueue rfl 1 (some 64) _ (by decide) (by decide)

/-- The completion of an operation is not reported. -/
theorem completion_unreported :
    Along step Fresh (init zeroQueue 1 (some 64))
        [.start 16 toState2 none, .runnerReturns retOk, .complete toState2] ∧
      Along step Enabled (init zeroQueue 1 (some 64))
        [.start 16 toState2 none, .runnerReturns retOk, .complete toState2] ∧
      ¬ Reported (exec step (init zeroQueue 1 (some 64))
        [.start 16 toState2 none, .runnerReturns retOk, .complete toState2]).nest := by
  decide

end BleFirmware.OpQueueReports
