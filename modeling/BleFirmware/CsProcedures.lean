import BleFirmware.Base.Run
import BleFirmware.CsEventHandler

/-!
# Ranging results and started procedures

A procedure of a connection begins with the first subevent result that carries
its counter, and is over after an event with a final status or a reconnection.
The handler does not keep track of this: it starts a procedure when the counter
differs from the one it remembers, and otherwise takes the procedure for
started. A run keeps the law as long as the results that are added without a
start belong to a procedure that an earlier subevent result opened.
-/

namespace BleFirmware.CsProcedures
open Run

variable {n : ℕ}

structure Progress where
  counter : UInt16
  started : Bool
  ended : Bool
  deriving DecidableEq

def arrive (e : CsSubeventResults n) : Option Progress → Progress
  | some p =>
    if p.counter = e.procedureCounter ∧ p.ended = false then
      { p with ended := e.procedureDoneStatus.ends }
    else ⟨e.procedureCounter, false, e.procedureDoneStatus.ends⟩
  | none => ⟨e.procedureCounter, false, e.procedureDoneStatus.ends⟩

def advance (status : DoneStatus) : Option Progress → Option Progress
  | some p => if p.ended then none else some { p with ended := status.ends }
  | none => none

/-- What the delivered events and the answered calls say about the procedures:
one has started when `RRSP_ProcedureStarted` has returned `SUCCESS` for it. -/
def observe (g : Fin n → Option Progress) : CsEntry n → Fin n → Option Progress
  | .event (.subeventResult e) =>
    Function.update g e.connHandle (some (arrive e (g e.connHandle)))
  | .event (.subeventContinueResult e _) =>
    Function.update g e.connHandle (advance e.procedureDoneStatus (g e.connHandle))
  | .event (.reconnect c) => Function.update g c none
  | .called (.procedureStarted c k _) ret =>
    if ret = csSuccess then
      Function.update g c
        ((g c).map fun p => if p.counter = k then { p with started := true } else p)
    else g
  | _ => g

def observed (log : List (CsEntry n)) : Fin n → Option Progress :=
  log.foldl observe (fun _ => none)

def HasStarted (p : Option Progress) (k : Option UInt16) : Prop :=
  ∃ q, p = some q ∧ q.started = true ∧ ∀ m, k = some m → q.counter = m

/-- Results are only added to, and ends reported of, a started procedure. -/
def Allowed (g : Fin n → Option Progress) : CsEntry n → Prop
  | .called (.addSubeventResult e) _ => HasStarted (g e.connHandle) (some e.procedureCounter)
  | .called (.addSubeventContinueResult e) _ => HasStarted (g e.connHandle) none
  | .called (.procedureDone c k) _ => HasStarted (g c) (some k)
  | _ => True

def LawfulFrom (g : Fin n → Option Progress) : List (CsEntry n) → Prop
  | [] => True
  | x :: xs => Allowed g x ∧ LawfulFrom (observe g x) xs

def Lawful (log : List (CsEntry n)) : Prop := LawfulFrom (fun _ => none) log

instance (p : Option Progress) (k : Option UInt16) : Decidable (HasStarted p k) :=
  decidable_of_iff (p.any (fun q => q.started && k.all (q.counter == ·)) = true)
    (by cases p <;> cases k <;> simp [HasStarted])

instance (g : Fin n → Option Progress) : ∀ x : CsEntry n, Decidable (Allowed g x)
  | .called (.addSubeventResult _) _ => inferInstanceAs (Decidable (HasStarted _ _))
  | .called (.addSubeventContinueResult _) _ => inferInstanceAs (Decidable (HasStarted _ _))
  | .called (.procedureDone _ _) _ => inferInstanceAs (Decidable (HasStarted _ _))
  | .called (.registrationStatus _) _ | .called (.procedureStarted _ _ _) _ | .event _
  | .malloc _ _ | .free _ | .setDefaultSettings _ _ _ _ => isTrue trivial

instance LawfulFrom.decidable :
    ∀ (g : Fin n → Option Progress) (log : List (CsEntry n)), Decidable (LawfulFrom g log)
  | _, [] => inferInstanceAs (Decidable True)
  | g, x :: xs =>
    haveI := LawfulFrom.decidable (observe g x) xs
    inferInstanceAs (Decidable (_ ∧ _))

instance (log : List (CsEntry n)) : Decidable (Lawful log) :=
  inferInstanceAs (Decidable (LawfulFrom _ _))

theorem lawfulFrom_append (g : Fin n → Option Progress) (xs ys : List (CsEntry n)) :
    LawfulFrom g (xs ++ ys) ↔ LawfulFrom g xs ∧ LawfulFrom (xs.foldl observe g) ys := by
  induction xs generalizing g with
  | nil => simp [LawfulFrom]
  | cons x xs ih => simp [LawfulFrom, ih, and_assoc]

@[simp] theorem lawful_note (s : CsState n) (x : CsEntry n) :
    Lawful (s.note x).log ↔ Lawful s.log ∧ Allowed (observed s.log) x := by
  simp [Lawful, CsState.note, lawfulFrom_append, LawfulFrom, observed]

@[simp] theorem observed_note (s : CsState n) (x : CsEntry n) :
    observed (s.note x).log = observe (observed s.log) x := by
  simp [observed, CsState.note]

@[simp] theorem note_procCounts (s : CsState n) (x : CsEntry n) :
    (s.note x).procCounts = s.procCounts := rfl

section Inputs

variable (env : CsEnv n) (s : CsState n)

def registered (c : Fin n) : Prop := env.rrsp s.log (.registrationStatus c) ≠ env.rrspUnregister

def Opens (e : CsSubeventResults n) : Prop :=
  registered env s e.connHandle ∧ e.procedureDoneStatus ≠ .aborted ∧
    s.procCounts e.connHandle ≠ e.procedureCounter.toUInt32 ∧
    s.antennaPaths e.connHandle ≠ 0 ∧
    env.rrsp
      (s.note (.called (.registrationStatus e.connHandle)
        (env.rrsp s.log (.registrationStatus e.connHandle)))).log
      (.procedureStarted e.connHandle e.procedureCounter
        ⟨s.antennaPaths e.connHandle, e.configID, e.procedureCounter, e.referencePowerLevel⟩) =
      csSuccess

instance (c : Fin n) : Decidable (registered env s c) := inferInstanceAs (Decidable (_ ≠ _))

instance (e : CsSubeventResults n) : Decidable (Opens env s e) :=
  inferInstanceAs (Decidable (_ ∧ _))

end Inputs

/-- The procedures as the delivered events show them: one has started when one of
its subevent results opened it. -/
def progress (env : CsEnv n) (s : CsState n) (g : Fin n → Option Progress) :
    CsEvent n → Fin n → Option Progress
  | .subeventResult e =>
    let p := arrive e (g e.connHandle)
    Function.update g e.connHandle (some { p with started := p.started || Opens env s e })
  | .subeventContinueResult e _ =>
    Function.update g e.connHandle (advance e.procedureDoneStatus (g e.connHandle))
  | .reconnect c => Function.update g c none
  | _ => g

/-- A result that is added without starting belongs to a procedure that was
opened before and is not over. -/
def Guarded (env : CsEnv n) (s : CsState n) (g : Fin n → Option Progress) : CsEvent n → Prop
  | .subeventResult e =>
    registered env s e.connHandle → e.procedureDoneStatus ≠ .aborted →
      s.procCounts e.connHandle = e.procedureCounter.toUInt32 →
      (arrive e (g e.connHandle)).started = true
  | .subeventContinueResult e block =>
    s.currProcCount ≠ keyNodeInvalidProcedureCounter → block.isSome →
      registered env (s.note (.malloc (env.continueHeaderSize + e.dataLen) block))
        e.connHandle → e.procedureDoneStatus ≠ .aborted →
      HasStarted (advance e.procedureDoneStatus (g e.connHandle)) none
  | _ => True

structure Watched (n : ℕ) where
  state : CsState n
  current : Fin n → Option Progress

def watch (env : CsEnv n) (w : Watched n) (e : CsEvent n) : Option (Watched n) :=
  some ⟨csDeliver env w.state e, progress env (w.state.note (.event e)) w.current e⟩

def watchStatic : Watched n := ⟨csStatic, fun _ => none⟩

def WatchGuarded (env : CsEnv n) (w : Watched n) (e : CsEvent n) : Prop :=
  Guarded env (w.state.note (.event e)) w.current e

/-- The two views agree, and a started procedure has the remembered counter. -/
structure Inv (s : CsState n) (g : Fin n → Option Progress) : Prop where
  observed_eq : observed s.log = g
  counter_eq : ∀ c p, g c = some p → p.started = true →
    s.procCounts c = p.counter.toUInt32

variable {env : CsEnv n} {s : CsState n}

def answered (env : CsEnv n) (s : CsState n) (call : RrspCall n) : CsState n :=
  s.note (.called call (env.rrsp s.log call))

theorem HasStarted.counter_eq {p : Option Progress} {k : UInt16} {v : UInt32}
    (h : HasStarted p none) (hv : ∀ q, p = some q → q.started = true → v = q.counter.toUInt32)
    (hk : k = v.toUInt16) : HasStarted p (some k) := by
  obtain ⟨q, hq, hs, _⟩ := h
  refine ⟨q, hq, hs, ?_⟩
  intro m hm
  obtain rfl := Option.some.inj hm
  rw [hk, hv q hq hs]
  simp

/-- Adding a subevent result and reporting the end keeps the law if the procedure
has started, and breaks it otherwise. -/
theorem addSubevent_spec (env : CsEnv n) {s : CsState n} (e : CsSubeventResults n)
    (hc : s.procCounts e.connHandle = e.procedureCounter.toUInt32) :
    (Lawful (addSubevent env s e).1.log ↔ Lawful s.log ∧
        HasStarted (observed s.log e.connHandle) (some e.procedureCounter)) ∧
      observed (addSubevent env s e).1.log = observed s.log ∧
      (addSubevent env s e).1.procCounts = s.procCounts := by
  by_cases hd : e.procedureDoneStatus = .done ∧
      env.rrsp s.log (.addSubeventResult e) = csSuccess
  · have ht : (addSubevent env s e).1 = answered env (answered env s (.addSubeventResult e))
        (.procedureDone e.connHandle e.procedureCounter) := by
      simp [addSubevent, CsState.rrsp, hd, answered, hc]
    rw [ht]
    refine ⟨?_, ?_, rfl⟩
    · simp only [answered, lawful_note, observed_note, observe, Allowed]
      simp
    · simp only [answered, observed_note, observe]
  · have ht : (addSubevent env s e).1 = answered env s (.addSubeventResult e) := by
      simp [addSubevent, CsState.rrsp, hd, answered]
    rw [ht]
    refine ⟨?_, ?_, rfl⟩
    · simp only [answered, lawful_note, Allowed]
    · simp only [answered, observed_note, observe]

theorem addSubeventContinue_spec (e : CsSubeventResultsContinue n)
    (habort : e.procedureDoneStatus ≠ .aborted) (hreg : registered env s e.connHandle)
    (hJ : ∀ q, observed s.log e.connHandle = some q → q.started = true →
      s.procCounts e.connHandle = q.counter.toUInt32) :
    (Lawful (handleSubContinueEvent env s e).1.log ↔
        Lawful s.log ∧ HasStarted (observed s.log e.connHandle) none) ∧
      observed (handleSubContinueEvent env s e).1.log = observed s.log ∧
      (handleSubContinueEvent env s e).1.procCounts = s.procCounts := by
  have hreg' : env.rrsp s.log (.registrationStatus e.connHandle) ≠ env.rrspUnregister := hreg
  let s₁ := answered env s (.registrationStatus e.connHandle)
  by_cases hd : env.rrsp s₁.log (.addSubeventContinueResult e) = csSuccess ∧
      e.procedureDoneStatus = .done
  · have ht : (handleSubContinueEvent env s e).1 =
        answered env (answered env s₁ (.addSubeventContinueResult e))
          (.procedureDone e.connHandle (s.procCounts e.connHandle).toUInt16) := by
      simp only [s₁, answered] at hd
      simp [handleSubContinueEvent, CsState.rrsp, hreg', hd, s₁, answered]
    rw [ht]
    refine ⟨?_, ?_, rfl⟩
    · simp only [answered, s₁, lawful_note, observed_note, observe, Allowed, and_true]
      constructor
      · intro h
        exact h.1
      · intro h
        exact ⟨h, h.2.counter_eq hJ rfl⟩
    · simp only [answered, s₁, observed_note, observe]
  · have ht : (handleSubContinueEvent env s e).1 =
        answered env s₁ (.addSubeventContinueResult e) := by
      simp only [s₁, answered] at hd
      simp [handleSubContinueEvent, CsState.rrsp, hreg', habort, hd, s₁, answered]
    rw [ht]
    refine ⟨?_, ?_, rfl⟩
    · simp only [answered, s₁, lawful_note, observed_note, observe, Allowed, and_true]
    · simp only [answered, s₁, observed_note, observe]

theorem handleSubContinueEvent_skip (e : CsSubeventResultsContinue n)
    (h : ¬ (registered env s e.connHandle ∧ e.procedureDoneStatus ≠ .aborted)) :
    (handleSubContinueEvent env s e).1 = answered env s (.registrationStatus e.connHandle) := by
  by_cases hreg : env.rrsp s.log (.registrationStatus e.connHandle) ≠ env.rrspUnregister
  · have habort : e.procedureDoneStatus = .aborted := by
      by_contra hn
      exact h ⟨hreg, hn⟩
    simp [handleSubContinueEvent, CsState.rrsp, hreg, habort, answered]
  · simp [handleSubContinueEvent, CsState.rrsp, hreg, answered]

section Subevent

variable (e : CsSubeventResults n)

def remembered (s : CsState n) (e : CsSubeventResults n) : CsState n :=
  { s with
    procCounts := Function.update s.procCounts e.connHandle e.procedureCounter.toUInt32 }

def startCall (s : CsState n) (e : CsSubeventResults n) : RrspCall n :=
  .procedureStarted e.connHandle e.procedureCounter
    ⟨s.antennaPaths e.connHandle, e.configID, e.procedureCounter, e.referencePowerLevel⟩

inductive Handled (env : CsEnv n) (s : CsState n) (e : CsSubeventResults n) : CsState n → Prop
  | skipped (h : ¬ (registered env s e.connHandle ∧ e.procedureDoneStatus ≠ .aborted)) :
      Handled env s e (answered env s (.registrationStatus e.connHandle))
  | known (hr : registered env s e.connHandle) (ha : e.procedureDoneStatus ≠ .aborted)
      (hc : s.procCounts e.connHandle = e.procedureCounter.toUInt32) :
      Handled env s e (addSubevent env (answered env s (.registrationStatus e.connHandle)) e).1
  | noMask (hr : registered env s e.connHandle) (ha : e.procedureDoneStatus ≠ .aborted)
      (hc : s.procCounts e.connHandle ≠ e.procedureCounter.toUInt32)
      (hm : s.antennaPaths e.connHandle = 0) :
      Handled env s e (remembered (answered env s (.registrationStatus e.connHandle)) e)
  | refused (hr : registered env s e.connHandle) (ha : e.procedureDoneStatus ≠ .aborted)
      (hc : s.procCounts e.connHandle ≠ e.procedureCounter.toUInt32)
      (hs : env.rrsp (answered env s (.registrationStatus e.connHandle)).log (startCall s e) ≠
        csSuccess) :
      Handled env s e (answered env
        (remembered (answered env s (.registrationStatus e.connHandle)) e) (startCall s e))
  | opened (ho : Opens env s e)
      (hs : env.rrsp (answered env s (.registrationStatus e.connHandle)).log (startCall s e) =
        csSuccess) :
      Handled env s e (addSubevent env (answered env
        (remembered (answered env s (.registrationStatus e.connHandle)) e) (startCall s e)) e).1

theorem handleSubEvent_cases : Handled env s e (handleSubEvent env s e).1 := by
  by_cases hskip : registered env s e.connHandle ∧ e.procedureDoneStatus ≠ .aborted
  · obtain ⟨hreg, habort⟩ := hskip
    have hreg' : env.rrsp s.log (.registrationStatus e.connHandle) ≠ env.rrspUnregister := hreg
    by_cases hc : s.procCounts e.connHandle = e.procedureCounter.toUInt32
    · have ht : (handleSubEvent env s e).1 =
          (addSubevent env (answered env s (.registrationStatus e.connHandle)) e).1 := by
        simp [handleSubEvent, startProcedure, CsState.rrsp, hreg', habort, hc, answered]
      rw [ht]
      exact .known hreg habort hc
    · by_cases hm : s.antennaPaths e.connHandle = 0
      · have ht : (handleSubEvent env s e).1 =
            remembered (answered env s (.registrationStatus e.connHandle)) e := by
          simp [handleSubEvent, startProcedure, CsState.rrsp, hreg', habort, hc, hm, answered,
            remembered, CsState.note, csFailure, csSuccess]
        rw [ht]
        exact .noMask hreg habort hc hm
      · by_cases hs : env.rrsp (answered env s (.registrationStatus e.connHandle)).log
            (startCall s e) = csSuccess
        · have ht : (handleSubEvent env s e).1 = (addSubevent env (answered env
              (remembered (answered env s (.registrationStatus e.connHandle)) e)
              (startCall s e)) e).1 := by
            simp only [answered, startCall, CsState.note] at hs
            simp [handleSubEvent, startProcedure, CsState.rrsp, hreg', habort, hc, hm, answered,
              remembered, CsState.note, startCall, hs]
          rw [ht]
          exact .opened ⟨hreg, habort, hc, hm, hs⟩ hs
        · have ht : (handleSubEvent env s e).1 = answered env
              (remembered (answered env s (.registrationStatus e.connHandle)) e)
              (startCall s e) := by
            simp only [answered, startCall, CsState.note] at hs
            simp [handleSubEvent, startProcedure, CsState.rrsp, hreg', habort, hc, hm, answered,
              remembered, CsState.note, startCall, hs]
          rw [ht]
          exact .refused hreg habort hc hs
  · have ht : (handleSubEvent env s e).1 = answered env s (.registrationStatus e.connHandle) := by
      by_cases hreg : env.rrsp s.log (.registrationStatus e.connHandle) ≠ env.rrspUnregister
      · have habort : e.procedureDoneStatus = .aborted := by
          by_contra hn
          exact hskip ⟨hreg, hn⟩
        simp [handleSubEvent, CsState.rrsp, hreg, habort, answered]
      · simp [handleSubEvent, CsState.rrsp, hreg, answered]
    rw [ht]
    exact .skipped hskip

@[simp] theorem lawful_answered (s : CsState n) (call : RrspCall n) :
    Lawful (answered env s call).log ↔
      Lawful s.log ∧ Allowed (observed s.log) (.called call (env.rrsp s.log call)) :=
  lawful_note s _

@[simp] theorem observed_answered (s : CsState n) (call : RrspCall n) :
    observed (answered env s call).log =
      observe (observed s.log) (.called call (env.rrsp s.log call)) :=
  observed_note s _

@[simp] theorem answered_procCounts (s : CsState n) (call : RrspCall n) :
    (answered env s call).procCounts = s.procCounts := rfl

@[simp] theorem remembered_log (s : CsState n) : (remembered s e).log = s.log := rfl

@[simp] theorem remembered_procCounts (s : CsState n) : (remembered s e).procCounts =
    Function.update s.procCounts e.connHandle e.procedureCounter.toUInt32 := rfl

/-- What a subevent result does to the law and to the procedures, once its arrival
has made `p` the procedure of the connection. -/
structure SubeventSpec (env : CsEnv n) (s t : CsState n) (e : CsSubeventResults n)
    (p : Progress) : Prop where
  lawful : Lawful t.log ↔ Lawful s.log ∧
    (registered env s e.connHandle → e.procedureDoneStatus ≠ .aborted →
      s.procCounts e.connHandle = e.procedureCounter.toUInt32 → p.started = true)
  observed_eq : observed t.log = Function.update (observed s.log) e.connHandle
    (some { p with started := p.started || Opens env s e })
  other : ∀ c, c ≠ e.connHandle → t.procCounts c = s.procCounts c
  counter : p.started = true ∨ Opens env s e →
    t.procCounts e.connHandle = e.procedureCounter.toUInt32

theorem addSubevent_known {p : Progress} (hp : observed s.log e.connHandle = some p)
    (hk : p.counter = e.procedureCounter) (hr : registered env s e.connHandle)
    (ha : e.procedureDoneStatus ≠ .aborted)
    (hc : s.procCounts e.connHandle = e.procedureCounter.toUInt32) :
    SubeventSpec env s
      (addSubevent env (answered env s (.registrationStatus e.connHandle)) e).1 e p := by
  have ho : ¬ Opens env s e := fun ho => ho.2.2.1 hc
  have hself : Function.update (observed s.log) e.connHandle (some p) = observed s.log := by
    rw [← hp]
    exact Function.update_eq_self _ _
  obtain ⟨hl, hobs, hpc⟩ := addSubevent_spec env
    (s := answered env s (.registrationStatus e.connHandle)) e hc
  refine ⟨?_, ?_, ?_, ?_⟩
  · rw [hl]
    simp only [lawful_answered, observed_answered, observe, Allowed, and_true, hp]
    apply and_congr Iff.rfl
    constructor
    · rintro ⟨q, hq, hs, _⟩ _ _ _
      rwa [Option.some.inj hq]
    · intro h
      refine ⟨p, rfl, h hr ha hc, ?_⟩
      intro m hm
      rw [hk, Option.some.inj hm]
  · rw [hobs]
    simp [observe, ho, hself]
  · intro c _
    rw [hpc, answered_procCounts]
  · intro _
    rw [hpc, answered_procCounts, hc]

theorem addSubevent_opened {p : Progress} (hp : observed s.log e.connHandle = some p)
    (hk : p.counter = e.procedureCounter) (ho : Opens env s e) :
    SubeventSpec env s (addSubevent env (answered env
      (remembered (answered env s (.registrationStatus e.connHandle)) e) (startCall s e)) e).1 e
      p := by
  obtain ⟨_, _, hc, _, hs⟩ := id ho
  let s₂ := answered env (remembered (answered env s (.registrationStatus e.connHandle)) e)
    (startCall s e)
  have hobs₂ : observed s₂.log =
      Function.update (observed s.log) e.connHandle (some { p with started := true }) := by
    simp [s₂, answered, startCall, observe, hs, hp, hk]
  obtain ⟨hl, hobs, hpc⟩ := addSubevent_spec env (s := s₂) e (by simp [s₂])
  refine ⟨?_, ?_, ?_, ?_⟩
  · rw [hl, hobs₂]
    simp only [s₂, lawful_answered, remembered_log, startCall, Allowed, and_true]
    apply and_congr Iff.rfl
    refine iff_of_true ?_ (fun _ _ he => absurd he hc)
    refine ⟨{ p with started := true }, by simp, rfl, ?_⟩
    intro m hm
    rw [← Option.some.inj hm]
    exact hk
  · rw [hobs, hobs₂]
    simp [ho]
  · intro c hne
    rw [hpc]
    simp [s₂, hne]
  · intro _
    rw [hpc]
    simp [s₂]

theorem handleSubEvent_spec (env : CsEnv n) (e : CsSubeventResults n) {p : Progress}
    (hp : observed s.log e.connHandle = some p) (hk : p.counter = e.procedureCounter)
    (hJ : p.started = true → s.procCounts e.connHandle = e.procedureCounter.toUInt32) :
    SubeventSpec env s (handleSubEvent env s e).1 e p := by
  have hself : Function.update (observed s.log) e.connHandle (some p) = observed s.log := by
    rw [← hp]
    exact Function.update_eq_self _ _
  have hcases : Handled env s e (handleSubEvent env s e).1 := handleSubEvent_cases e
  generalize (handleSubEvent env s e).1 = t at hcases
  cases hcases with
  | skipped h =>
    have ho : ¬ Opens env s e := fun ho => h ⟨ho.1, ho.2.1⟩
    refine ⟨?_, ?_, fun _ _ => rfl, ?_⟩
    · simp only [lawful_answered, Allowed, and_true]
      exact (and_iff_left (fun hr ha => absurd ⟨hr, ha⟩ h)).symm
    · simp [observe, ho, hself]
    · rintro (hs | hs)
      · exact hJ hs
      · exact absurd hs ho
  | known hr ha hc => exact addSubevent_known e hp hk hr ha hc
  | noMask hr ha hc hm =>
    have ho : ¬ Opens env s e := fun ho => ho.2.2.2.1 hm
    refine ⟨?_, ?_, ?_, ?_⟩
    · simp only [remembered_log, lawful_answered, Allowed, and_true]
      exact (and_iff_left (fun _ _ he => absurd he hc)).symm
    · simp [observe, ho, hself]
    · intro c hne
      simp [hne]
    · simp
  | refused hr ha hc hs =>
    have ho : ¬ Opens env s e := fun ho => hs ho.2.2.2.2
    refine ⟨?_, ?_, ?_, ?_⟩
    · simp only [lawful_answered, remembered_log, startCall, Allowed, and_true]
      exact (and_iff_left (fun _ _ he => absurd he hc)).symm
    · simp only [startCall] at hs
      simp [startCall, observe, hs, ho, hself]
    · intro c hne
      simp [hne]
    · simp
  | opened ho => exact addSubevent_opened e hp hk ho

end Subevent

theorem arrive_counter (e : CsSubeventResults n) (p : Option Progress) :
    (arrive e p).counter = e.procedureCounter := by
  cases p with
  | none => rfl
  | some p =>
    dsimp only [arrive]
    split_ifs with h
    · exact h.1
    · rfl

theorem arrive_started {e : CsSubeventResults n} {p : Option Progress}
    (h : (arrive e p).started = true) :
    ∃ q, p = some q ∧ q.started = true ∧ q.counter = e.procedureCounter := by
  cases p with
  | none => simp [arrive] at h
  | some p =>
    dsimp only [arrive] at h
    split_ifs at h with hc
    exact ⟨p, rfl, h, hc.1⟩

theorem advance_some {status : DoneStatus} {p : Option Progress} {q : Progress}
    (h : advance status p = some q) :
    ∃ r, p = some r ∧ q.started = r.started ∧ q.counter = r.counter := by
  cases p with
  | none => simp [advance] at h
  | some p =>
    dsimp only [advance] at h
    split_ifs at h
    obtain rfl := Option.some.inj h
    exact ⟨p, rfl, rfl, rfl⟩

theorem closeGate_log (s : CsState n) (status : DoneStatus) : (closeGate s status).log = s.log := by
  unfold closeGate
  split_ifs <;> rfl

theorem closeGate_procCounts (s : CsState n) (status : DoneStatus) :
    (closeGate s status).procCounts = s.procCounts := by
  unfold closeGate
  split_ifs <;> rfl

structure Delivered (env : CsEnv n) (s t : CsState n) (g : Fin n → Option Progress)
    (e : CsEvent n) : Prop where
  lawful : Lawful t.log ↔ Lawful s.log ∧ Guarded env (s.note (.event e)) g e
  inv : Inv t (progress env (s.note (.event e)) g e)

theorem deliver_subeventResult {g : Fin n → Option Progress} (h : Inv s g)
    (e : CsSubeventResults n) :
    Delivered env s (csDeliver env s (.subeventResult e)) g (.subeventResult e) := by
  let s₁ : CsState n := { s.note (.event (.subeventResult e)) with
    currProcCount := e.procedureCounter.toUInt32 }
  have hobs₁ : observed s₁.log =
      Function.update g e.connHandle (some (arrive e (g e.connHandle))) := by
    have hn := observed_note s (.event (.subeventResult e))
    rw [h.observed_eq] at hn
    exact hn
  have hp : observed s₁.log e.connHandle = some (arrive e (g e.connHandle)) := by
    rw [hobs₁]
    simp
  have hJ : (arrive e (g e.connHandle)).started = true →
      s₁.procCounts e.connHandle = e.procedureCounter.toUInt32 := by
    intro hs
    obtain ⟨q, hq, hqs, hqc⟩ := arrive_started hs
    rw [← hqc]
    exact h.counter_eq _ q hq hqs
  have hspec := handleSubEvent_spec env e hp (arrive_counter e _) hJ
  have hlog : (csDeliver env s (.subeventResult e)).log = (handleSubEvent env s₁ e).1.log :=
    closeGate_log _ _
  have hcounts : (csDeliver env s (.subeventResult e)).procCounts =
      (handleSubEvent env s₁ e).1.procCounts := closeGate_procCounts _ _
  have hlaw : Lawful s₁.log ↔ Lawful s.log :=
    (lawful_note s (.event (.subeventResult e))).trans (and_iff_left trivial)
  refine ⟨?_, ?_, ?_⟩
  · rw [hlog, hspec.lawful, hlaw]
    rfl
  · rw [hlog, hspec.observed_eq, hobs₁, Function.update_idem]
    rfl
  · intro c p hgp hstarted
    rw [hcounts]
    dsimp only [progress] at hgp
    by_cases hne : c = e.connHandle
    · subst hne
      rw [Function.update_self, Option.some.injEq] at hgp
      subst hgp
      dsimp only at hstarted ⊢
      rw [arrive_counter]
      apply hspec.counter
      rw [Bool.or_eq_true, decide_eq_true_iff] at hstarted
      exact hstarted
    · rw [Function.update_of_ne hne] at hgp
      rw [hspec.other c hne]
      exact h.counter_eq c p hgp hstarted

inductive Continued (env : CsEnv n) (s : CsState n) (e : CsSubeventResultsContinue n) :
    Option Addr → CsState n → Prop
  | closed (block : Option Addr) (h : s.currProcCount = keyNodeInvalidProcedureCounter) :
      Continued env s e block s
  | noBlock (h : s.currProcCount ≠ keyNodeInvalidProcedureCounter) :
      Continued env s e none
        ((s.note (.malloc (env.continueHeaderSize + e.dataLen) none)).note (.free none))
  | handled (b : Addr) (h : s.currProcCount ≠ keyNodeInvalidProcedureCounter) :
      Continued env s e (some b)
        (((handleSubContinueEvent env
          (s.note (.malloc (env.continueHeaderSize + e.dataLen) (some b))) e).1.note
            (.free (some b))).note (.free (some b)))

theorem csSubeventContinueResult_cases (env : CsEnv n) (s : CsState n)
    (e : CsSubeventResultsContinue n) (block : Option Addr) :
    ∃ t, Continued env s e block t ∧
      csSubeventContinueResult env s e block = closeGate t e.procedureDoneStatus := by
  by_cases h : s.currProcCount = keyNodeInvalidProcedureCounter
  · refine ⟨_, .closed block h, ?_⟩
    simp [csSubeventContinueResult, h]
  · cases block with
    | none =>
      refine ⟨_, .noBlock h, ?_⟩
      simp [csSubeventContinueResult, h]
    | some b =>
      refine ⟨_, .handled b h, ?_⟩
      simp [csSubeventContinueResult, h]

theorem continued_spec {e : CsSubeventResultsContinue n} {block : Option Addr} {t : CsState n}
    (ht : Continued env s e block t)
    (hJ : ∀ q, observed s.log e.connHandle = some q → q.started = true →
      s.procCounts e.connHandle = q.counter.toUInt32) :
    (Lawful t.log ↔ Lawful s.log ∧
        (s.currProcCount ≠ keyNodeInvalidProcedureCounter → block.isSome →
          registered env (s.note (.malloc (env.continueHeaderSize + e.dataLen) block))
            e.connHandle → e.procedureDoneStatus ≠ .aborted →
          HasStarted (observed s.log e.connHandle) none)) ∧
      observed t.log = observed s.log ∧ t.procCounts = s.procCounts := by
  cases ht with
  | closed _ hclosed =>
    refine ⟨?_, rfl, rfl⟩
    exact (and_iff_left (fun hopen => absurd hclosed hopen)).symm
  | noBlock hopen =>
    refine ⟨?_, ?_, rfl⟩
    · simp only [lawful_note, Allowed, and_true]
      exact (and_iff_left (fun _ hb => absurd hb (by simp))).symm
    · simp only [observed_note, observe]
  | handled b hopen =>
    let s₁ : CsState n := s.note (.malloc (env.continueHeaderSize + e.dataLen) (some b))
    have hobs₁ : observed s₁.log = observed s.log := by
      simp only [s₁, observed_note, observe]
    have hlaw₁ : Lawful s₁.log ↔ Lawful s.log := by
      simp only [s₁, lawful_note, Allowed, and_true]
    by_cases hskip : registered env s₁ e.connHandle ∧ e.procedureDoneStatus ≠ .aborted
    · have hJ₁ : ∀ q, observed s₁.log e.connHandle = some q → q.started = true →
          s₁.procCounts e.connHandle = q.counter.toUInt32 := by
        rw [hobs₁]
        exact hJ
      obtain ⟨hl, ho, hc⟩ := addSubeventContinue_spec e hskip.2 hskip.1 hJ₁
      refine ⟨?_, ?_, ?_⟩
      · simp only [lawful_note, Allowed, and_true]
        rw [hl, hlaw₁, hobs₁]
        apply and_congr Iff.rfl
        constructor
        · intro hs _ _ _ _
          exact hs
        · intro hs
          exact hs hopen rfl hskip.1 hskip.2
      · simp only [observed_note, observe]
        rw [ho, hobs₁]
      · simp only [note_procCounts]
        exact hc
    · have ht := handleSubContinueEvent_skip e hskip
      refine ⟨?_, ?_, ?_⟩
      · simp only [lawful_note, Allowed, and_true]
        rw [ht, lawful_answered, hlaw₁]
        simp only [Allowed, and_true]
        exact (and_iff_left (fun _ _ hr ha => absurd ⟨hr, ha⟩ hskip)).symm
      · simp only [observed_note, observe]
        rw [ht, observed_answered, hobs₁]
        rfl
      · simp only [note_procCounts]
        rw [ht]
        rfl

theorem Inv.counter_advance {g : Fin n → Option Progress} (h : Inv s g) (status : DoneStatus)
    (c : Fin n) : ∀ d p, Function.update g c (advance status (g c)) d = some p →
      p.started = true → s.procCounts d = p.counter.toUInt32 := by
  intro d p hgp hstarted
  by_cases hne : d = c
  · subst hne
    rw [Function.update_self] at hgp
    obtain ⟨q, hq, hqs, hqc⟩ := advance_some hgp
    rw [hqc]
    exact h.counter_eq _ q hq (hqs ▸ hstarted)
  · rw [Function.update_of_ne hne] at hgp
    exact h.counter_eq d p hgp hstarted

theorem deliver_subeventContinueResult {g : Fin n → Option Progress} (h : Inv s g)
    (e : CsSubeventResultsContinue n) (block : Option Addr) :
    Delivered env s (csDeliver env s (.subeventContinueResult e block)) g
      (.subeventContinueResult e block) := by
  let s₁ : CsState n := s.note (.event (.subeventContinueResult e block))
  have hobs₁ : observed s₁.log =
      Function.update g e.connHandle (advance e.procedureDoneStatus (g e.connHandle)) := by
    have hn := observed_note s (.event (.subeventContinueResult e block))
    rw [h.observed_eq] at hn
    exact hn
  have hlaw₁ : Lawful s₁.log ↔ Lawful s.log :=
    (lawful_note s (.event (.subeventContinueResult e block))).trans (and_iff_left trivial)
  have hcounter := h.counter_advance e.procedureDoneStatus e.connHandle
  obtain ⟨t, ht, heq⟩ := csSubeventContinueResult_cases env s₁ e block
  have hlog : (csDeliver env s (.subeventContinueResult e block)).log = t.log :=
    (congrArg CsState.log heq).trans (closeGate_log _ _)
  have hcounts : (csDeliver env s (.subeventContinueResult e block)).procCounts = t.procCounts :=
    (congrArg CsState.procCounts heq).trans (closeGate_procCounts _ _)
  obtain ⟨hl, ho, hc⟩ := continued_spec ht (by
    intro q hq hqs
    rw [hobs₁] at hq
    exact hcounter _ q hq hqs)
  refine ⟨?_, ?_, ?_⟩
  · rw [hlog, hl, hlaw₁, hobs₁, Function.update_self]
    rfl
  · rw [hlog, ho, hobs₁]
    rfl
  · intro c p hgp hstarted
    rw [hcounts, hc]
    exact hcounter c p hgp hstarted

theorem deliver_procedureEnableComplete {g : Fin n → Option Progress} (h : Inv s g)
    (e : CsProcEnableComplete n) :
    Delivered env s (csDeliver env s (.procedureEnableComplete e)) g
      (.procedureEnableComplete e) := by
  let s₁ : CsState n := s.note (.event (.procedureEnableComplete e))
  have hobs₁ : observed s₁.log = g := by
    have hn := observed_note s (.event (.procedureEnableComplete e))
    rw [h.observed_eq] at hn
    exact hn
  have hlaw₁ : Lawful s₁.log ↔ Lawful s.log :=
    (lawful_note s (.event (.procedureEnableComplete e))).trans (and_iff_left trivial)
  have hlog : (handleProcedureEnable env s₁ e).log = s₁.log ∨
      (handleProcedureEnable env s₁ e).log =
        (answered env s₁ (.registrationStatus e.connHandle)).log := by
    dsimp only [handleProcedureEnable, CsState.rrsp, answered]
    split_ifs <;> simp
  have hcounts : (handleProcedureEnable env s₁ e).procCounts = s.procCounts := by
    dsimp only [handleProcedureEnable, CsState.rrsp]
    split_ifs <;> rfl
  have hsame : (Lawful (handleProcedureEnable env s₁ e).log ↔ Lawful s.log) ∧
      observed (handleProcedureEnable env s₁ e).log = g := by
    cases hlog with
    | inl hl =>
      rw [hl]
      exact ⟨hlaw₁, hobs₁⟩
    | inr hl =>
      rw [hl, lawful_answered, observed_answered]
      exact ⟨(and_iff_left trivial).trans hlaw₁, hobs₁⟩
  refine ⟨?_, hsame.2, ?_⟩
  · exact hsame.1.trans (and_iff_left trivial).symm
  · intro c p hgp hstarted
    rw [show (csDeliver env s (.procedureEnableComplete e)).procCounts = s.procCounts from hcounts]
    exact h.counter_eq c p hgp hstarted

theorem deliver_spec (env : CsEnv n) {g : Fin n → Option Progress} (h : Inv s g) (e : CsEvent n) :
    Delivered env s (csDeliver env s e) g e := by
  cases e with
  | securityEnableComplete =>
    refine ⟨?_, ?_, h.counter_eq⟩
    · simp [csDeliver, csEventHandler, Allowed, Guarded]
    · simp [csDeliver, csEventHandler, observe, progress, h.observed_eq]
  | procedureEnableComplete e => exact deliver_procedureEnableComplete h e
  | subeventResult e => exact deliver_subeventResult h e
  | subeventContinueResult e block => exact deliver_subeventContinueResult h e block
  | reconnect c =>
    refine ⟨?_, ?_, ?_⟩
    · simp [csDeliver, csEventHandler, Allowed, Guarded]
    · simp [csDeliver, csEventHandler, observe, progress, h.observed_eq]
    · intro d p hgp hstarted
      dsimp only [progress] at hgp
      by_cases hne : d = c
      · simp [hne] at hgp
      · rw [Function.update_of_ne hne] at hgp
        exact h.counter_eq d p hgp hstarted

theorem run_spec (env : CsEnv n) (es : List (CsEvent n)) {s : CsState n}
    {g : Fin n → Option Progress} (h : Inv s g) :
    Lawful (csRun env s es).log ↔
      Lawful s.log ∧ Along (watch env) (WatchGuarded env) ⟨s, g⟩ es := by
  induction es generalizing s g with
  | nil => exact (and_iff_left trivial).symm
  | cons e es ih =>
    have hd := deliver_spec env h e
    have hrest := ih hd.inv
    rw [hd.lawful, and_assoc] at hrest
    rw [along_cons_some (t := ⟨csDeliver env s e, progress env (s.note (.event e)) g e⟩) rfl]
    exact hrest

theorem inv_static : Inv (csStatic : CsState n) (fun _ => none) := by
  refine ⟨rfl, ?_⟩
  intro c p hp
  simp at hp

end BleFirmware.CsProcedures
