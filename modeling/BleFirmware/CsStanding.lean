import BleFirmware.CsProcedures

/-!
# Which events put results before their procedure

A subevent result is handled when its connection is registered and it is not
aborted. The last handled one of a connection leaves its counter behind, and it
matters what came of it: the start may have been refused, or the procedure may
be over by now. Before the first one, static storage has left the counter 0.
The law is broken by the handled results that repeat such a counter, and by the
continuations that find the gate open for such a connection.

All that is kept here is read off the events and the answers of the service.
-/

namespace BleFirmware.CsStanding
open Run CsProcedures

variable {n : ℕ}

/-- What came of the last handled subevent result of a connection. -/
inductive Standing
  | never
  | failed (counter : UInt16)
  | opened (counter : UInt16)
  | ended (counter : UInt16)
  deriving DecidableEq

namespace Standing

def counter : Standing → UInt16
  | never => 0
  | failed k | opened k | ended k => k

def finish : Standing → Standing
  | opened k => ended k
  | st => st

@[simp] theorem counter_finish (st : Standing) : st.finish.counter = st.counter := by
  cases st <;> rfl

@[simp] theorem finish_ne_opened (st : Standing) (k : UInt16) : st.finish ≠ opened k := by
  cases st <;> simp [finish]

end Standing

structure Seen (n : ℕ) where
  mask : Fin n → UInt8
  standing : Fin n → Standing
  gate : Bool

def seenStatic : Seen n := ⟨fun _ => 0, fun _ => .never, false⟩

section Answers

variable (env : CsEnv n) (log : List (CsEntry n)) (v : Seen n)

def registration (c : Fin n) : UInt8 := env.rrsp log (.registrationStatus c)

def Handles (c : Fin n) (status : DoneStatus) : Prop :=
  registration env log c ≠ env.rrspUnregister ∧ status ≠ .aborted

def Starts (e : CsSubeventResults n) : Prop :=
  v.mask e.connHandle ≠ 0 ∧
    env.rrsp
      (log ++
        [.called (.registrationStatus e.connHandle) (registration env log e.connHandle)])
      (.procedureStarted e.connHandle e.procedureCounter
        ⟨v.mask e.connHandle, e.configID, e.procedureCounter, e.referencePowerLevel⟩) =
      csSuccess

instance (c : Fin n) (status : DoneStatus) : Decidable (Handles env log c status) :=
  inferInstanceAs (Decidable (_ ∧ _))

instance (e : CsSubeventResults n) : Decidable (Starts env log v e) :=
  inferInstanceAs (Decidable (_ ∧ _))

def heard (e : CsSubeventResults n) : Standing :=
  let st := v.standing e.connHandle
  if Handles env log e.connHandle e.procedureDoneStatus ∧ e.procedureCounter ≠ st.counter then
    if Starts env log v e then
      if e.procedureDoneStatus.ends then .ended e.procedureCounter else .opened e.procedureCounter
    else .failed e.procedureCounter
  else if e.procedureDoneStatus.ends ∨ e.procedureCounter ≠ st.counter then st.finish
  else st

def see : CsEvent n → Seen n
  | .securityEnableComplete => v
  | .procedureEnableComplete e =>
    if e.csStatus = csSuccess ∧ registration env log e.connHandle ≠ env.rrspUnregister ∧
        env.calcAntPathsMask e.aci ≠ 0 then
      { v with mask := Function.update v.mask e.connHandle (env.calcAntPathsMask e.aci) }
    else v
  | .subeventResult e =>
    { v with
      standing := Function.update v.standing e.connHandle (heard env log v e)
      gate := !e.procedureDoneStatus.ends }
  | .subeventContinueResult e _ =>
    if e.procedureDoneStatus.ends then
      { v with
        standing :=
          Function.update v.standing e.connHandle (v.standing e.connHandle).finish
        gate := false }
    else v
  | .reconnect c =>
    { v with standing := Function.update v.standing c (v.standing c).finish }

/-- The events that add a result to a procedure that is not started. -/
inductive Misplaced : CsEvent n → Prop
  | zeroInitialised (e : CsSubeventResults n)
      (hh : Handles env log e.connHandle e.procedureDoneStatus)
      (hs : v.standing e.connHandle = .never) (hk : e.procedureCounter = 0) :
      Misplaced (.subeventResult e)
  | startFailed (e : CsSubeventResults n)
      (hh : Handles env log e.connHandle e.procedureDoneStatus)
      (hs : v.standing e.connHandle = .failed e.procedureCounter) :
      Misplaced (.subeventResult e)
  | procedureOver (e : CsSubeventResults n)
      (hh : Handles env log e.connHandle e.procedureDoneStatus)
      (hs : v.standing e.connHandle = .ended e.procedureCounter) :
      Misplaced (.subeventResult e)
  | gateLeftOpen (e : CsSubeventResultsContinue n) (b : Addr) (hg : v.gate = true)
      (hh : Handles env (log ++ [.malloc (env.continueHeaderSize + e.dataLen) (some b)])
        e.connHandle e.procedureDoneStatus)
      (hs : ∀ k, v.standing e.connHandle ≠ .opened k) :
      Misplaced (.subeventContinueResult e (some b))

end Answers

structure Followed (n : ℕ) where
  state : CsState n
  seen : Seen n

def follow (env : CsEnv n) (w : Followed n) (e : CsEvent n) : Option (Followed n) :=
  some ⟨csDeliver env w.state e, see env (w.state.log ++ [.event e]) w.seen e⟩

def followStatic : Followed n := ⟨csStatic, seenStatic⟩

def InPlace (env : CsEnv n) (w : Followed n) (e : CsEvent n) : Prop :=
  ¬ Misplaced env (w.state.log ++ [.event e]) w.seen e

/-- The handler's variables hold what the events have left behind, and a procedure
is started and not over where the standing says so. -/
structure Agrees (s : CsState n) (g : Fin n → Option Progress) (v : Seen n) : Prop where
  counts : ∀ c, s.procCounts c = (v.standing c).counter.toUInt32
  masks : s.antennaPaths = v.mask
  gate : v.gate = true ↔ s.currProcCount ≠ keyNodeInvalidProcedureCounter
  opened : ∀ c k, v.standing c = .opened k ↔
    ∃ p, g c = some p ∧ p.started = true ∧ p.ended = false ∧ p.counter = k

variable {env : CsEnv n} {s t : CsState n} {g : Fin n → Option Progress} {v : Seen n}

theorem agrees_static : Agrees (csStatic : CsState n) (fun _ => none) seenStatic where
  counts _ := rfl
  masks := rfl
  gate := by simp [seenStatic, csStatic]
  opened c k := by simp [seenStatic]

theorem counter_ne_invalid (k : UInt16) : k.toUInt32 ≠ keyNodeInvalidProcedureCounter := by
  intro h
  have hlt := k.toNat_lt
  have hk : k.toUInt32.toNat = 0xFFFFFFFF := congrArg UInt32.toNat h
  rw [UInt16.toNat_toUInt32] at hk
  omega

theorem Agrees.counts_eq_iff (h : Agrees s g v) (c : Fin n) (k : UInt16) :
    s.procCounts c = k.toUInt32 ↔ k = (v.standing c).counter := by
  rw [h.counts, UInt16.toUInt32_inj]
  exact eq_comm

theorem Agrees.arrive_started_iff (h : Agrees s g v) (e : CsSubeventResults n) :
    (arrive e (g e.connHandle)).started = true ↔
      v.standing e.connHandle = .opened e.procedureCounter := by
  rw [h.opened]
  constructor
  · intro hs
    cases hg : g e.connHandle with
    | none => simp [hg, arrive] at hs
    | some p =>
      rw [hg] at hs
      dsimp only [arrive] at hs
      split_ifs at hs with hc
      exact ⟨p, rfl, hs, hc.2, hc.1⟩
  · rintro ⟨p, hp, hs, he, hk⟩
    simp [hp, arrive, hk, he, hs]

theorem arrive_ended (e : CsSubeventResults n) (p : Option Progress) :
    (arrive e p).ended = e.procedureDoneStatus.ends := by
  cases p with
  | none => rfl
  | some p =>
    dsimp only [arrive]
    split_ifs <;> rfl

theorem Agrees.advance_started_iff (h : Agrees s g v) (status : DoneStatus) (c : Fin n) :
    HasStarted (CsProcedures.advance status (g c)) none ↔ ∃ k, v.standing c = .opened k := by
  simp only [h.opened]
  constructor
  · rintro ⟨q, hq, hs, -⟩
    cases hg : g c with
    | none => simp [hg, CsProcedures.advance] at hq
    | some p =>
      rw [hg] at hq
      dsimp only [CsProcedures.advance] at hq
      split_ifs at hq with he
      obtain rfl := Option.some.inj hq
      exact ⟨p.counter, p, rfl, hs, by simpa using he, rfl⟩
  · rintro ⟨k, p, hp, hs, he, -⟩
    exact ⟨{ p with ended := status.ends }, by simp [hp, CsProcedures.advance, he], hs, by simp⟩

theorem Agrees.opens_iff (h : Agrees s g v) (e : CsSubeventResults n) :
    Opens env s e ↔ (Handles env s.log e.connHandle e.procedureDoneStatus ∧
      e.procedureCounter ≠ (v.standing e.connHandle).counter) ∧ Starts env s.log v e := by
  simp only [Opens, Handles, Starts, registered, registration, Ne, h.counts_eq_iff, h.masks,
    and_assoc]
  rfl

def withLog (s : CsState n) (log : List (CsEntry n)) : CsState n := { s with log := log }

section Variables

variable (env) (s)

theorem addSubevent_eq (e : CsSubeventResults n) :
    ∃ log, (addSubevent env s e).1 = withLog s log := by
  unfold addSubevent
  dsimp only
  split <;> exact ⟨_, rfl⟩

theorem handleSubEvent_eq (e : CsSubeventResults n) :
    ∃ log, (handleSubEvent env s e).1 =
      withLog (if Handles env s.log e.connHandle e.procedureDoneStatus then remembered s e
        else s) log := by
  have h : Handled env s e (handleSubEvent env s e).1 := handleSubEvent_cases e
  generalize (handleSubEvent env s e).1 = t at h
  cases h with
  | skipped h =>
    refine ⟨(answered env s (.registrationStatus e.connHandle)).log, ?_⟩
    rw [if_neg (show ¬ Handles env s.log e.connHandle e.procedureDoneStatus from h)]
    rfl
  | known hr ha hc =>
    obtain ⟨log, hlog⟩ := addSubevent_eq env (answered env s (.registrationStatus e.connHandle)) e
    have hsame : remembered s e = s := by
      rw [remembered, ← hc, Function.update_eq_self]
    refine ⟨log, ?_⟩
    rw [hlog, hsame, ite_self]
    rfl
  | noMask hr ha =>
    refine ⟨(answered env s (.registrationStatus e.connHandle)).log, ?_⟩
    rw [if_pos ⟨hr, ha⟩]
    rfl
  | refused hr ha =>
    refine ⟨(answered env (remembered (answered env s (.registrationStatus e.connHandle)) e)
      (startCall s e)).log, ?_⟩
    rw [if_pos ⟨hr, ha⟩]
    rfl
  | opened ho =>
    obtain ⟨log, hlog⟩ := addSubevent_eq env (answered env
      (remembered (answered env s (.registrationStatus e.connHandle)) e) (startCall s e)) e
    refine ⟨log, ?_⟩
    rw [hlog, if_pos ⟨ho.1, ho.2.1⟩]
    rfl

theorem handleSubContinueEvent_eq (e : CsSubeventResultsContinue n) :
    ∃ log, (handleSubContinueEvent env s e).1 = withLog s log := by
  unfold handleSubContinueEvent
  dsimp only
  split
  · split
    · exact ⟨_, rfl⟩
    · split <;> exact ⟨_, rfl⟩
  · exact ⟨_, rfl⟩

theorem csSubeventContinueResult_eq (e : CsSubeventResultsContinue n) (block : Option Addr) :
    ∃ log, csSubeventContinueResult env s e block =
      closeGate (withLog s log) e.procedureDoneStatus := by
  obtain ⟨t, ht, heq⟩ := csSubeventContinueResult_cases env s e block
  rw [heq]
  cases ht with
  | closed => exact ⟨s.log, rfl⟩
  | noBlock => exact ⟨_, rfl⟩
  | handled b =>
    obtain ⟨log, hlog⟩ := handleSubContinueEvent_eq env
      (s.note (.malloc (env.continueHeaderSize + e.dataLen) (some b))) e
    exact ⟨_, by rw [hlog]; rfl⟩

end Variables

section Heard

variable (env) (log : List (CsEntry n)) (v) (e : CsSubeventResults n)

theorem heard_counter :
    (heard env log v e).counter =
      if Handles env log e.connHandle e.procedureDoneStatus then e.procedureCounter
      else (v.standing e.connHandle).counter := by
  dsimp only [heard]
  by_cases hh : Handles env log e.connHandle e.procedureDoneStatus
  · by_cases hk : e.procedureCounter = (v.standing e.connHandle).counter
    · rw [if_neg (fun h => h.2 hk), if_pos hh]
      split_ifs <;> simp [hk]
    · rw [if_pos ⟨hh, hk⟩, if_pos hh]
      split_ifs <;> rfl
  · rw [if_neg (fun h => hh h.1), if_neg hh]
    split_ifs <;> simp

/-- A procedure is open behind a subevent result without a final status, if it was
open before or has just been started. -/
theorem heard_eq_opened (k : UInt16) :
    heard env log v e = .opened k ↔
      e.procedureCounter = k ∧ e.procedureDoneStatus.ends = false ∧
        (v.standing e.connHandle = .opened k ∨
          (Handles env log e.connHandle e.procedureDoneStatus ∧
            e.procedureCounter ≠ (v.standing e.connHandle).counter) ∧ Starts env log v e) := by
  dsimp only [heard]
  by_cases hnew : Handles env log e.connHandle e.procedureDoneStatus ∧
      e.procedureCounter ≠ (v.standing e.connHandle).counter
  · have hne : v.standing e.connHandle = .opened k → e.procedureCounter ≠ k := by
      intro hs
      have hk := hnew.2
      rw [hs] at hk
      exact hk
    rw [if_pos hnew]
    by_cases hst : Starts env log v e
    · cases hends : e.procedureDoneStatus.ends <;> simp [hst, hnew]
    · simp only [hst, if_false, and_false, or_false, reduceCtorEq, false_iff]
      exact fun h => hne h.2.2 h.1
  · rw [if_neg hnew]
    simp only [hnew, false_and, or_false]
    split_ifs with hends
    · simp only [Standing.finish_ne_opened, false_iff]
      rintro ⟨hk, he, hs⟩
      rw [hs] at hends
      rcases hends with hends | hends
      · simp [he] at hends
      · exact hends hk
    · obtain ⟨he, hk⟩ := not_or.mp hends
      constructor
      · intro hs
        refine ⟨?_, by simpa using he, hs⟩
        rw [not_not.mp hk, hs]
        rfl
      · exact fun h => h.2.2

end Heard

theorem Agrees.note (h : Agrees s g v) (x : CsEntry n) : Agrees (s.note x) g v :=
  ⟨h.counts, h.masks, h.gate, h.opened⟩

theorem Agrees.heard_opened (h : Agrees s g v) (e : CsSubeventResults n) (d : Fin n) (k : UInt16) :
    Function.update v.standing e.connHandle (heard env s.log v e) d = .opened k ↔
      ∃ p, progress env s g (.subeventResult e) d = some p ∧ p.started = true ∧
        p.ended = false ∧ p.counter = k := by
  dsimp only [progress]
  by_cases hd : d = e.connHandle
  · subst hd
    rw [Function.update_self, Function.update_self, heard_eq_opened, ← h.opens_iff]
    simp only [Option.some.injEq, exists_eq_left', arrive_ended, arrive_counter,
      Bool.or_eq_true, decide_eq_true_iff, h.arrive_started_iff]
    constructor
    · rintro ⟨rfl, he, hs⟩
      exact ⟨hs, he, rfl⟩
    · rintro ⟨hs, he, rfl⟩
      exact ⟨rfl, he, hs⟩
  · rw [Function.update_of_ne hd, Function.update_of_ne hd]
    exact h.opened d k

theorem Agrees.heard_counts (h : Agrees s g v) (env : CsEnv n) (e : CsSubeventResults n)
    (d : Fin n) :
    (if Handles env s.log e.connHandle e.procedureDoneStatus then remembered s e else s).procCounts d =
      (Function.update v.standing e.connHandle (heard env s.log v e) d).counter.toUInt32 := by
  by_cases hd : d = e.connHandle
  · subst hd
    rw [Function.update_self, heard_counter]
    by_cases hh : Handles env s.log e.connHandle e.procedureDoneStatus
    · simp only [hh, if_true, remembered, Function.update_self]
    · simp only [hh, if_false]
      exact h.counts _
  · rw [Function.update_of_ne hd, ← h.counts]
    split_ifs
    · exact Function.update_of_ne hd _ _
    · rfl

theorem Agrees.subeventResult (h : Agrees s g v) (e : CsSubeventResults n) :
    Agrees (csSubeventResult env s e) (progress env s g (.subeventResult e))
      (see env s.log v (.subeventResult e)) := by
  let s₁ : CsState n := { s with currProcCount := e.procedureCounter.toUInt32 }
  let t := if Handles env s.log e.connHandle e.procedureDoneStatus then remembered s₁ e else s₁
  obtain ⟨log, hlog⟩ := handleSubEvent_eq env s₁ e
  have ht : csSubeventResult env s e = closeGate (withLog t log) e.procedureDoneStatus :=
    congrArg (closeGate · e.procedureDoneStatus) hlog
  have hmasks : t.antennaPaths = s.antennaPaths := by
    dsimp only [t]
    split_ifs <;> rfl
  have hcurr : t.currProcCount = e.procedureCounter.toUInt32 := by
    dsimp only [t]
    split_ifs <;> rfl
  rw [ht]
  refine ⟨fun d => ?_, ?_, ?_, h.heard_opened e⟩
  · rw [closeGate_procCounts]
    have hcounts := h.heard_counts env e d
    dsimp only [t]
    split_ifs at hcounts ⊢ <;> exact hcounts
  · dsimp only [see, closeGate]
    split_ifs <;> exact hmasks.trans h.masks
  · cases hends : e.procedureDoneStatus.ends with
    | true => simp [see, closeGate, hends]
    | false =>
      simp only [see, closeGate, hends, withLog, hcurr, Bool.not_false, true_iff,
        Bool.false_eq_true, if_false]
      exact counter_ne_invalid _

theorem Agrees.finish (h : Agrees s g v) (c : Fin n) {p : Option Progress}
    (hp : ∀ q, p = some q → q.ended = true) (d : Fin n) (k : UInt16) :
    Function.update v.standing c (v.standing c).finish d = .opened k ↔
      ∃ q, Function.update g c p d = some q ∧ q.started = true ∧ q.ended = false ∧
        q.counter = k := by
  by_cases hd : d = c
  · subst hd
    rw [Function.update_self, Function.update_self]
    simp only [Standing.finish_ne_opened, false_iff]
    rintro ⟨q, hq, -, he, -⟩
    simp [hp q hq] at he
  · rw [Function.update_of_ne hd, Function.update_of_ne hd]
    exact h.opened d k

theorem Agrees.finish_counts (h : Agrees s g v) (c d : Fin n) :
    s.procCounts d =
      (Function.update v.standing c (v.standing c).finish d).counter.toUInt32 := by
  by_cases hd : d = c
  · subst hd
    rw [Function.update_self, Standing.counter_finish]
    exact h.counts d
  · rw [Function.update_of_ne hd]
    exact h.counts d

theorem Agrees.subeventContinueResult (h : Agrees s g v) (e : CsSubeventResultsContinue n)
    (block : Option Addr) :
    Agrees (csSubeventContinueResult env s e block)
      (progress env s g (.subeventContinueResult e block))
      (see env s.log v (.subeventContinueResult e block)) := by
  obtain ⟨log, hlog⟩ := csSubeventContinueResult_eq env s e block
  rw [hlog]
  cases hends : e.procedureDoneStatus.ends with
  | true =>
    simp only [see, closeGate, progress, hends, if_true]
    refine ⟨h.finish_counts e.connHandle, h.masks, by simp, h.finish e.connHandle ?_⟩
    intro q hq
    cases hg : g e.connHandle with
    | none => simp [hg, CsProcedures.advance] at hq
    | some p =>
      simp only [hg, CsProcedures.advance] at hq
      split_ifs at hq
      obtain rfl := Option.some.inj hq
      exact hends
  | false =>
    simp only [see, closeGate, progress, hends, Bool.false_eq_true, if_false]
    refine ⟨h.counts, h.masks, h.gate, ?_⟩
    intro c k
    rw [h.opened]
    by_cases hc : c = e.connHandle
    · subst hc
      rw [Function.update_self]
      cases hg : g e.connHandle with
      | none => simp [CsProcedures.advance]
      | some p => cases hp : p.ended <;> simp [CsProcedures.advance, hp, hends]
    · rw [Function.update_of_ne hc]

theorem Agrees.procedureEnableComplete (h : Agrees s g v) (e : CsProcEnableComplete n) :
    Agrees (handleProcedureEnable env s e) g (see env s.log v (.procedureEnableComplete e)) := by
  have hreg : (s.rrsp env (.registrationStatus e.connHandle)).2 =
      registration env s.log e.connHandle := rfl
  unfold handleProcedureEnable
  dsimp only [see]
  rw [hreg]
  by_cases hs : e.csStatus = csSuccess
  · by_cases hr : registration env s.log e.connHandle ≠ env.rrspUnregister
    · by_cases hm : env.calcAntPathsMask e.aci ≠ 0
      · rw [if_pos hs, if_pos hr, if_pos hm, if_pos ⟨hs, hr, hm⟩]
        exact ⟨h.counts, congrArg (Function.update · _ _) h.masks, h.gate, h.opened⟩
      · rw [if_pos hs, if_pos hr, if_neg hm, if_neg (fun hh => hm hh.2.2)]
        exact h.note _
    · rw [if_pos hs, if_neg hr, if_neg (fun hh => hr hh.2.1)]
      exact h.note _
  · rw [if_neg hs, if_neg (fun hh => hs hh.1)]
    exact h

theorem Agrees.deliver (h : Agrees s g v) (e : CsEvent n) :
    Agrees (csDeliver env s e) (progress env (s.note (.event e)) g e)
      (see env (s.log ++ [.event e]) v e) := by
  have hn := h.note (.event e)
  cases e with
  | securityEnableComplete => exact hn.note _
  | procedureEnableComplete e => exact hn.procedureEnableComplete e
  | subeventResult e => exact hn.subeventResult e
  | subeventContinueResult e block => exact hn.subeventContinueResult e block
  | reconnect c =>
    exact ⟨hn.finish_counts c, hn.masks, hn.gate, hn.finish c (by simp)⟩

/-- A handled subevent result is misplaced when it repeats the counter of a procedure
that is not open, for one of the three reasons there are. -/
theorem misplaced_subeventResult (log : List (CsEntry n)) (e : CsSubeventResults n) :
    Misplaced env log v (.subeventResult e) ↔
      Handles env log e.connHandle e.procedureDoneStatus ∧
        e.procedureCounter = (v.standing e.connHandle).counter ∧
        v.standing e.connHandle ≠ .opened e.procedureCounter := by
  constructor
  · intro h
    cases h with
    | zeroInitialised _ hh hs hk =>
      rw [hs]
      exact ⟨hh, hk, nofun⟩
    | startFailed _ hh hs =>
      rw [hs]
      exact ⟨hh, rfl, nofun⟩
    | procedureOver _ hh hs =>
      rw [hs]
      exact ⟨hh, rfl, nofun⟩
  · rintro ⟨hh, hk, hne⟩
    cases hs : v.standing e.connHandle with
    | never => exact .zeroInitialised e hh hs (by rw [hk, hs]; rfl)
    | failed k =>
      have hk' : e.procedureCounter = k := by rw [hk, hs]; rfl
      exact .startFailed e hh (by rw [hs, hk'])
    | opened k =>
      have hk' : e.procedureCounter = k := by rw [hk, hs]; rfl
      exact absurd (by rw [hs, hk']) hne
    | ended k =>
      have hk' : e.procedureCounter = k := by rw [hk, hs]; rfl
      exact .procedureOver e hh (by rw [hs, hk'])

theorem Agrees.guarded_iff (h : Agrees s g v) (e : CsEvent n) :
    Guarded env s g e ↔ ¬ Misplaced env s.log v e := by
  cases e with
  | securityEnableComplete | procedureEnableComplete | reconnect =>
    exact iff_of_true trivial nofun
  | subeventResult e =>
    rw [misplaced_subeventResult]
    simp only [Guarded, h.arrive_started_iff, h.counts_eq_iff]
    constructor
    · rintro hg ⟨⟨hr, ha⟩, hk, hne⟩
      exact hne (hg hr ha hk)
    · intro hm hr ha hk
      by_contra hne
      exact hm ⟨⟨hr, ha⟩, hk, hne⟩
  | subeventContinueResult e block =>
    simp only [Guarded, h.advance_started_iff, ← h.gate]
    constructor
    · intro hg hm
      cases hm with
      | gateLeftOpen _ b hgate hh hs =>
        obtain ⟨k, hk⟩ := hg hgate rfl hh.1 hh.2
        exact hs k hk
    · intro hm hgate hb hr ha
      by_contra hne
      obtain ⟨b, rfl⟩ := Option.isSome_iff_exists.mp hb
      exact hm (.gateLeftOpen e b hgate ⟨hr, ha⟩ (not_exists.mp hne))

/-- In every run, results are added to started procedures only, exactly when no event
of the run is misplaced. -/
theorem results_lawful_iff (env : CsEnv n) (es : List (CsEvent n)) :
    Lawful (csRun env csStatic es).log ↔ Along (follow env) (InPlace env) followStatic es := by
  have hrun := (run_spec env es inv_static).trans (and_iff_right trivial)
  refine hrun.trans (along_simulates (L := fun _ _ => True)
    (R := fun w u => w.state = u.state ∧ Agrees w.state w.current u.seen) ?_ ?_
    ⟨rfl, agrees_static⟩ (along_of_forall (fun _ _ => trivial) _ _))
  · rintro ⟨s, g⟩ ⟨_, v⟩ e ⟨rfl, h⟩ -
    exact .inr ⟨_, _, rfl, rfl, rfl, h.deliver e⟩
  · rintro ⟨s, g⟩ ⟨_, v⟩ e ⟨rfl, h⟩
    exact (h.note (.event e)).guarded_iff e

theorem first_result_not_started :
    ¬ Lawful (csRun (acceptingService : CsEnv 2) csStatic
      [.procedureEnableComplete ⟨0, csSuccess, 1⟩,
        .subeventResult ⟨0, 0, 0, 0, .other 1, []⟩]).log := by
  decide

end BleFirmware.CsStanding
