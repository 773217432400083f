import BleFirmware.OpQueueNestedFifo

/-!
# What `running_op_ptr` says

`running_op_ptr` is set when a runner has returned and cleared by any call of
`ble_opq_complete`. It tells whether an operation is pending as long as an
operation does not complete before its runner returns, and none completes while
another one is pending.
-/

namespace BleFirmware.OpQueueRunning
open Run OpQueueExclusion OpQueueNested

/-- The runners that are executing, the innermost first, each with whether its
operation has completed already, and the operations that are pending: started
by their runner and not completed since. -/
structure Ledger where
  active : List (BleOp × Bool)
  pending : List BleOp

def ledgerStep (l : Ledger) : Event → Ledger
  | .invoke op => { l with active := (op, false) :: l.active }
  | .return op ret =>
    match l.active with
    | (_, done) :: rest => ⟨rest, if ret = retOk ∧ done = false then op :: l.pending else l.pending⟩
    | [] => l
  | .complete op =>
    ⟨l.active.map fun x => (x.1, x.2 || x.1 == op), l.pending.filter fun x => !(x == op)⟩
  | _ => l

def ledger (log : List Event) : Ledger := log.foldl ledgerStep ⟨[], []⟩

def Truthful (n : Nest) : Prop := n.runningOpPtr.isSome = true ↔ (ledger n.log).pending ≠ []

instance (n : Nest) : Decidable (Truthful n) := inferInstanceAs (Decidable (_ ↔ _))

/-- A runner that returns `RET_OK` has not seen its operation complete, unless
another one is pending, and an operation completes only when no other is pending. -/
def Orderly (n : Nest) : Action → Prop
  | .runnerReturns ret => ret = retOk →
      (∀ x ∈ (ledger n.log).active.head?, x.2 = false) ∨ (ledger n.log).pending ≠ []
  | .complete op => ∀ x ∈ (ledger n.log).pending, x = op
  | _ => True

instance (n : Nest) : ∀ c, Decidable (Orderly n c)
  | .start _ _ _ => inferInstanceAs (Decidable True)
  | .process => inferInstanceAs (Decidable True)
  | .round => inferInstanceAs (Decidable True)
  | .runnerReturns _ => inferInstanceAs (Decidable (_ → _))
  | .complete _ => inferInstanceAs (Decidable (∀ x ∈ _, _))

@[simp] theorem ledger_concat (log : List Event) (e : Event) :
    ledger (log ++ [e]) = ledgerStep (ledger log) e := by
  simp [ledger]

def Active (n : Nest) : Prop := (ledger n.log).active.map Prod.fst = frameOps n.frames

theorem entered_ledger {n m : Nest} {op : BleOp} {w : Option Bool} (he : Entered n op m w) :
    (ledger m.log).pending = (ledger n.log).pending ∧
      (ledger m.log).active =
        if w = none then (op, false) :: (ledger n.log).active else (ledger n.log).active := by
  cases he <;> simp [Nest.note, ledgerStep]

theorem active_of_runner {n : Nest} (h : Active n) {pNode : Option Addr} {pOp : Addr} {op : BleOp}
    {fs : List Frame} (hf : n.frames = .runner pNode pOp op :: fs) :
    ∃ done rest, (ledger n.log).active = (op, done) :: rest ∧ rest.map Prod.fst = frameOps fs := by
  rw [Active, hf, frameOps_runner] at h
  obtain ⟨x, rest, hx, rfl, hrest⟩ := List.map_eq_cons_iff.mp h
  exact ⟨x.2, rest, hx, hrest⟩

theorem moves_active {n m : Nest} {c : Action} (h : Active n) (hm : Moves n c m) : Active m := by
  cases hm with
  | @performed pOp op block m w hc hr hq he =>
    have ha := (entered_ledger he).2
    rw [Active, ha]
    by_cases hw : w = none <;> simpa [hw, Nest.note, ledgerStep, Active] using h
  | queued hc hb hl => simpa [Active, Nest.note, ledgerStep] using h
  | processed hc => exact h
  | drained hf hq => simpa [Active, hf] using h
  | @popped fs p op rest m w hf hq he =>
    have ha := (entered_ledger he).2
    rw [Active, hf] at h
    rw [Active, ha]
    rcases w with _ | _ | _ <;> simpa using h
  | runs hf =>
    obtain ⟨done, rest, ha, hrest⟩ := active_of_runner h hf
    simpa [Active, Nest.note, ledgerStep, ha] using hrest
  | @fails fs pNode pOp op ret hf hret =>
    obtain ⟨done, rest, ha, hrest⟩ := active_of_runner h hf
    cases pNode <;> simpa [Active, Nest.note, ledgerStep, ha] using hrest
  | completed hc => simpa [Active, Nest.note, ledgerStep, Function.comp_def] using h

theorem moves_truthful {n m : Nest} {c : Action} (ha : Active n) (h : Truthful n)
    (hm : Moves n c m) : Truthful m ↔ Orderly n c := by
  unfold Truthful at h ⊢
  cases hm with
  | @performed pOp op block m w hc hr hq he =>
    have hp := (entered_ledger he).1
    obtain ⟨state, e, rfl⟩ := entered_frame he
    refine iff_of_true ?_ trivial
    rw [hp]
    simpa [Nest.note, ledgerStep] using h
  | queued hc hb hl =>
    refine iff_of_true ?_ trivial
    simpa [Nest.note, ledgerStep] using h
  | processed hc => exact iff_of_true h trivial
  | drained hf hq => exact iff_of_true h trivial
  | @popped fs p op rest m w hf hq he =>
    have hp := (entered_ledger he).1
    obtain ⟨state, e, rfl⟩ := entered_frame he
    refine iff_of_true ?_ trivial
    rw [hp]
    exact h
  | runs hf =>
    obtain ⟨done, rest, hact, _⟩ := active_of_runner ha hf
    cases done <;> simp [Nest.note, ledgerStep, hact, Orderly]
  | @fails fs pNode pOp op ret hf hret =>
    obtain ⟨done, rest, hact, _⟩ := active_of_runner ha hf
    refine iff_of_true ?_ (fun hok => absurd hok hret)
    simpa [Nest.note, ledgerStep, hact, hret] using h
  | completed hc => simp [Nest.note, ledgerStep, Orderly]

theorem running_truthful (q₀ : OpQueue) (hheap : q₀.opList.arrayBased = false)
    (state : BitState) (callback : Option Addr) (actions : List Action)
    (hf : Along step Fresh (init q₀ state callback) actions)
    (he : Along step Enabled (init q₀ state callback) actions) :
    (Along step (fun s c => ∀ t ∈ step s c, Truthful t.nest) (init q₀ state callback) actions ↔
      Along step (fun s c => Orderly s.nest c) (init q₀ state callback) actions) ∧
    (Along step (fun s c => Orderly s.nest c) (init q₀ state callback) actions →
      Truthful (exec step (init q₀ state callback) actions).nest) := by
  have hlink := linked_init hheap state callback
  have ht : Truthful (init q₀ state callback).nest := by simp [Truthful, nest_init, ledger]
  constructor
  · apply along_nest_iff (I := Active) (G := Truthful)
    · exact fun n c m hI hm => moves_active hI hm
    · exact fun n c m hI hG hm => moves_truthful hI hG hm
    · rintro n c ⟨pOp, op, rfl, _⟩
      trivial
    · exact hlink
    · rfl
    · exact ht
    · exact hf
    · exact he
  · intro ho
    refine (exec_nest (I := fun n => Active n ∧ Truthful n)
      (P := fun s c => Orderly s.nest c) ?_ hlink ⟨rfl, ht⟩ hf ho).2.2
    rintro s c m ⟨hI, hG⟩ hQ hm
    exact ⟨moves_active hI hm, (moves_truthful hI hG hm).mpr hQ⟩

theorem running_truthful_nested :
    (Along step (fun s c => ∀ t ∈ step s c, Truthful t.nest) (init zeroQueue 1 none)
        [.start 16 toState2 none, .start 32 toState4 none, .runnerReturns 1, .runnerReturns retOk,
          .complete toState2] ↔
      Along step (fun s c => Orderly s.nest c) (init zeroQueue 1 none)
        [.start 16 toState2 none, .start 32 toState4 none, .runnerReturns 1, .runnerReturns retOk,
          .complete toState2]) ∧
    (Along step (fun s c => Orderly s.nest c) (init zeroQueue 1 none)
        [.start 16 toState2 none, .start 32 toState4 none, .runnerReturns 1, .runnerReturns retOk,
          .complete toState2] →
      Truthful (exec step (init zeroQueue 1 none)
        [.start 16 toState2 none, .start 32 toState4 none, .runnerReturns 1, .runnerReturns retOk,
          .complete toState2]).nest) :=
  running_truthful zeroQueue rfl 1 none _ (by decide) (by decide)

/-- The operation completes while its runner executes. -/
theorem running_stale :
    Along step Fresh (init zeroQueue 1 none)
        [.start 16 toState2 none, .complete toState2, .runnerReturns retOk] ∧
      Along step Enabled (init zeroQueue 1 none)
        [.start 16 toState2 none, .complete toState2, .runnerReturns retOk] ∧
      (exec step (init zeroQueue 1 none)
        [.start 16 toState2 none, .complete toState2, .runnerReturns retOk]).frames = [] ∧
      ¬ Truthful (exec step (init zeroQueue 1 none)
        [.start 16 toState2 none, .complete toState2, .runnerReturns retOk]).nest := by
  decide

end BleFirmware.OpQueueRunning
