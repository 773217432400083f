import BleFirmware.Base.Run
import BleFirmware.CsEventHandler

/-!
# Connections in channel sounding

Counters and antenna masks are kept for each connection, and the events of one
leave those of the others alone. The gate for continuations is shared: it is
open after a subevent result that did not end its procedure, of whichever
connection. A connection is served as if it were alone in those runs in which
the gate, whenever one of its continuations arrives, is as its own events have
left it.
-/

namespace BleFirmware.CsIsolation
open Run

variable {n : ℕ}

def callHandle : RrspCall n → Fin n
  | .registrationStatus c => c
  | .procedureStarted c _ _ => c
  | .addSubeventResult e => e.connHandle
  | .addSubeventContinueResult e => e.connHandle
  | .procedureDone c _ => c

def ownCall (a : Fin n) : CsEntry n → Option (RrspCall n × UInt8)
  | .called call ret => if callHandle call = a then some (call, ret) else none
  | _ => none

def ownCalls (a : Fin n) (log : List (CsEntry n)) : List (RrspCall n × UInt8) :=
  log.filterMap (ownCall a)

def isResult : RrspCall n → Bool
  | .registrationStatus _ => false
  | _ => true

/-- The calls made for a connection that start and end its procedures and add
their results. -/
def resultCalls (a : Fin n) (log : List (CsEntry n)) : List (RrspCall n) :=
  ((ownCalls a log).map Prod.fst).filter isResult

/-- What the service answers for a connection depends on its own calls. -/
def Separate (env : CsEnv n) : Prop :=
  ∀ call log log', ownCalls (callHandle call) log = ownCalls (callHandle call) log' →
    env.rrsp log call = env.rrsp log' call

def concerns (a : Fin n) : CsEvent n → Bool
  | .securityEnableComplete => false
  | .procedureEnableComplete e => e.connHandle == a
  | .subeventResult e => e.connHandle == a
  | .subeventContinueResult e _ => e.connHandle == a
  | .reconnect c => c == a

def moveGate (isOpen : Bool) : CsEvent n → Bool
  | .subeventResult e => !e.procedureDoneStatus.ends
  | .subeventContinueResult e _ => isOpen && !e.procedureDoneStatus.ends
  | _ => isOpen

/-- The gate, and the gate as it would be with the events of one connection only. -/
structure Gates where
  shared : Bool
  own : Bool

def moveGates (a : Fin n) (g : Gates) (e : CsEvent n) : Option Gates :=
  some ⟨moveGate g.shared e, if concerns a e then moveGate g.own e else g.own⟩

def MeetsOwnGate (a : Fin n) (g : Gates) : CsEvent n → Prop
  | .subeventContinueResult e (some _) => e.connHandle = a → g.shared = g.own
  | _ => True

/-- No other connection opens or closes the gate in front of a continuation. -/
def GateKept (a : Fin n) (es : List (CsEvent n)) : Prop :=
  Along (moveGates a) (MeetsOwnGate a) ⟨false, false⟩ es

instance (a : Fin n) (g : Gates) : ∀ e : CsEvent n, Decidable (MeetsOwnGate a g e)
  | .subeventContinueResult _ (some _) => inferInstanceAs (Decidable (_ → _))
  | .subeventContinueResult _ none | .securityEnableComplete | .procedureEnableComplete _
  | .subeventResult _ | .reconnect _ => isTrue trivial

instance (a : Fin n) (es : List (CsEvent n)) : Decidable (GateKept a es) :=
  inferInstanceAs (Decidable (Along _ _ _ _))

structure Alike (a : Fin n) (s t : CsState n) : Prop where
  calls : ownCalls a s.log = ownCalls a t.log
  procCounts : s.procCounts a = t.procCounts a
  antennaPaths : s.antennaPaths a = t.antennaPaths a

section Frame

variable {env : CsEnv n} {a : Fin n} {s t : CsState n}

theorem Alike.refl (a : Fin n) (s : CsState n) : Alike a s s := ⟨rfl, rfl, rfl⟩

theorem Alike.symm (h : Alike a s t) : Alike a t s :=
  ⟨h.calls.symm, h.procCounts.symm, h.antennaPaths.symm⟩

theorem Alike.trans {u : CsState n} (h : Alike a s t) (h' : Alike a t u) : Alike a s u :=
  ⟨h.calls.trans h'.calls, h.procCounts.trans h'.procCounts,
    h.antennaPaths.trans h'.antennaPaths⟩

theorem ownCalls_note (a : Fin n) (s : CsState n) (x : CsEntry n) :
    ownCalls a (s.note x).log = ownCalls a s.log ++ (ownCall a x).toList := by
  cases h : ownCall a x <;> simp [ownCalls, CsState.note, h]

theorem alike_note {x : CsEntry n} (h : ownCall a x = none) : Alike a (s.note x) s := by
  refine ⟨?_, rfl, rfl⟩
  rw [ownCalls_note, h]
  simp

theorem Alike.note (h : Alike a s t) (x : CsEntry n) : Alike a (s.note x) (t.note x) := by
  refine ⟨?_, h.procCounts, h.antennaPaths⟩
  rw [ownCalls_note, ownCalls_note, h.calls]

theorem alike_rrsp (call : RrspCall n) (h : callHandle call ≠ a) :
    Alike a (s.rrsp env call).1 s :=
  alike_note (by simp [ownCall, h])

theorem alike_closeGate (s : CsState n) (status : DoneStatus) : Alike a (closeGate s status) s := by
  unfold closeGate
  split_ifs
  · exact ⟨rfl, rfl, rfl⟩
  · exact Alike.refl a s

theorem alike_handleProcedureEnable {e : CsProcEnableComplete n} (h : e.connHandle ≠ a) :
    Alike a (handleProcedureEnable env s e) s := by
  have hr : Alike a (s.rrsp env (.registrationStatus e.connHandle)).1 s := alike_rrsp _ h
  dsimp only [handleProcedureEnable]
  split_ifs
  · refine ⟨hr.calls, hr.procCounts, ?_⟩
    rw [← hr.antennaPaths]
    exact Function.update_of_ne h.symm _ _
  · exact hr
  · exact hr
  · exact Alike.refl a s

theorem alike_startProcedure {e : CsSubeventResults n} (h : e.connHandle ≠ a) :
    Alike a (startProcedure env s e).1 s := by
  have hs : Alike a
      { s with
        procCounts := Function.update s.procCounts e.connHandle e.procedureCounter.toUInt32 } s :=
    ⟨rfl, Function.update_of_ne h.symm _ _, rfl⟩
  dsimp only [startProcedure]
  split_ifs
  · exact (alike_rrsp (.procedureStarted e.connHandle _ _) h).trans hs
  · exact hs
  · exact Alike.refl a s

theorem alike_addSubevent {e : CsSubeventResults n} (h : e.connHandle ≠ a) :
    Alike a (addSubevent env s e).1 s := by
  dsimp only [addSubevent]
  split_ifs
  · exact (alike_rrsp (.procedureDone e.connHandle _) h).trans
      (alike_rrsp (.addSubeventResult e) h)
  · exact alike_rrsp _ h

theorem alike_handleSubEvent {e : CsSubeventResults n} (h : e.connHandle ≠ a) :
    Alike a (handleSubEvent env s e).1 s := by
  have hr : Alike a (s.rrsp env (.registrationStatus e.connHandle)).1 s := alike_rrsp _ h
  dsimp only [handleSubEvent]
  split_ifs
  · exact hr
  · exact (alike_addSubevent h).trans ((alike_startProcedure h).trans hr)
  · exact (alike_startProcedure h).trans hr
  · exact hr

theorem alike_handleSubContinueEvent {e : CsSubeventResultsContinue n} (h : e.connHandle ≠ a) :
    Alike a (handleSubContinueEvent env s e).1 s := by
  have hr : Alike a (s.rrsp env (.registrationStatus e.connHandle)).1 s := alike_rrsp _ h
  have hadd {t : CsState n} : Alike a (t.rrsp env (.addSubeventContinueResult e)).1 t :=
    alike_rrsp _ h
  dsimp only [handleSubContinueEvent]
  split_ifs
  · exact hr
  · exact (alike_rrsp (.procedureDone e.connHandle _) h).trans (hadd.trans hr)
  · exact hadd.trans hr
  · exact hr

theorem alike_deliver {e : CsEvent n} (h : concerns a e = false) : Alike a (csDeliver env s e) s := by
  have hs : Alike a (s.note (.event e)) s := alike_note rfl
  cases e with
  | securityEnableComplete => exact (alike_note rfl).trans hs
  | procedureEnableComplete e =>
    exact (alike_handleProcedureEnable (beq_eq_false_iff_ne.mp h)).trans hs
  | subeventResult e =>
    apply (alike_closeGate _ _).trans
    exact (alike_handleSubEvent (beq_eq_false_iff_ne.mp h)).trans ⟨hs.calls, rfl, rfl⟩
  | subeventContinueResult e block =>
    have hne : e.connHandle ≠ a := beq_eq_false_iff_ne.mp h
    apply (alike_closeGate _ _).trans
    split_ifs
    · apply (alike_note rfl).trans
      cases block with
      | none => exact (alike_note rfl).trans hs
      | some b =>
        apply (alike_note rfl).trans
        exact (alike_handleSubContinueEvent hne).trans ((alike_note rfl).trans hs)
    · exact hs
  | reconnect c => exact hs

end Frame

structure AlikeRet (a : Fin n) (r r' : CsState n × UInt8) : Prop where
  state : Alike a r.1 r'.1
  ret : r.2 = r'.2

section Step

variable {env : CsEnv n} {a : Fin n} {s t : CsState n}

theorem alikeRet_rrsp (henv : Separate env) (h : Alike a s t) (call : RrspCall n)
    (hc : callHandle call = a) : AlikeRet a (s.rrsp env call) (t.rrsp env call) := by
  have hret : env.rrsp s.log call = env.rrsp t.log call := by
    apply henv
    rw [hc]
    exact h.calls
  refine ⟨?_, hret⟩
  dsimp only [CsState.rrsp]
  rw [hret]
  exact h.note _

theorem alike_handleProcedureEnable_own (henv : Separate env) (h : Alike a s t)
    {e : CsProcEnableComplete n} (he : e.connHandle = a) :
    Alike a (handleProcedureEnable env s e) (handleProcedureEnable env t e) := by
  have hr := alikeRet_rrsp henv h (.registrationStatus e.connHandle) he
  dsimp only [handleProcedureEnable]
  rw [hr.ret]
  split_ifs
  · refine ⟨hr.state.calls, hr.state.procCounts, ?_⟩
    dsimp only
    rw [he, Function.update_self, Function.update_self]
  · exact hr.state
  · exact hr.state
  · exact h

theorem alikeRet_startProcedure (henv : Separate env) (h : Alike a s t)
    {e : CsSubeventResults n} (he : e.connHandle = a) :
    AlikeRet a (startProcedure env s e) (startProcedure env t e) := by
  have hp : s.procCounts e.connHandle = t.procCounts e.connHandle := he ▸ h.procCounts
  have hm : s.antennaPaths e.connHandle = t.antennaPaths e.connHandle := he ▸ h.antennaPaths
  have hs : Alike a
      { s with
        procCounts := Function.update s.procCounts e.connHandle e.procedureCounter.toUInt32 }
      { t with
        procCounts := Function.update t.procCounts e.connHandle e.procedureCounter.toUInt32 } := by
    refine ⟨h.calls, ?_, h.antennaPaths⟩
    dsimp only
    rw [he, Function.update_self, Function.update_self]
  dsimp only [startProcedure]
  rw [hp, hm, Function.update_self, Function.update_self]
  split_ifs
  · exact alikeRet_rrsp henv hs _ he
  · exact ⟨hs, rfl⟩
  · exact ⟨h, rfl⟩

theorem alikeRet_addSubevent (henv : Separate env) (h : Alike a s t)
    {e : CsSubeventResults n} (he : e.connHandle = a) :
    AlikeRet a (addSubevent env s e) (addSubevent env t e) := by
  have hr := alikeRet_rrsp henv h (.addSubeventResult e) he
  have hp : s.procCounts e.connHandle = t.procCounts e.connHandle := he ▸ h.procCounts
  dsimp only [addSubevent]
  rw [hr.ret]
  split_ifs
  · have hd := alikeRet_rrsp henv hr.state
      (.procedureDone e.connHandle (s.procCounts e.connHandle).toUInt16) he
    exact hp ▸ hd
  · exact hr

theorem alikeRet_handleSubEvent (henv : Separate env) (h : Alike a s t)
    {e : CsSubeventResults n} (he : e.connHandle = a) :
    AlikeRet a (handleSubEvent env s e) (handleSubEvent env t e) := by
  have hr := alikeRet_rrsp henv h (.registrationStatus e.connHandle) he
  have hstart := alikeRet_startProcedure henv hr.state he
  dsimp only [handleSubEvent]
  rw [hr.ret, hstart.ret]
  split_ifs
  · exact ⟨hr.state, rfl⟩
  · exact alikeRet_addSubevent henv hstart.state he
  · exact hstart
  · exact ⟨hr.state, rfl⟩

theorem alikeRet_handleSubContinueEvent (henv : Separate env) (h : Alike a s t)
    {e : CsSubeventResultsContinue n} (he : e.connHandle = a) :
    AlikeRet a (handleSubContinueEvent env s e) (handleSubContinueEvent env t e) := by
  have hr := alikeRet_rrsp henv h (.registrationStatus e.connHandle) he
  have hadd := alikeRet_rrsp henv hr.state (.addSubeventContinueResult e) he
  have hp : s.procCounts e.connHandle = t.procCounts e.connHandle := he ▸ h.procCounts
  dsimp only [handleSubContinueEvent]
  rw [hr.ret, hadd.ret]
  split_ifs
  · exact ⟨hr.state, rfl⟩
  · have hd := alikeRet_rrsp henv hadd.state
      (.procedureDone e.connHandle (s.procCounts e.connHandle).toUInt16) he
    exact hp ▸ hd
  · exact hadd
  · exact ⟨hr.state, rfl⟩

end Step

section Gate

variable (env : CsEnv n) (s : CsState n)

def gateOpen (s : CsState n) : Bool := s.currProcCount != keyNodeInvalidProcedureCounter

theorem handleProcedureEnable_gate (e : CsProcEnableComplete n) :
    (handleProcedureEnable env s e).currProcCount = s.currProcCount := by
  dsimp only [handleProcedureEnable]
  split_ifs <;> rfl

theorem startProcedure_gate (e : CsSubeventResults n) :
    (startProcedure env s e).1.currProcCount = s.currProcCount := by
  dsimp only [startProcedure]
  split_ifs <;> rfl

theorem addSubevent_gate (e : CsSubeventResults n) :
    (addSubevent env s e).1.currProcCount = s.currProcCount := by
  dsimp only [addSubevent]
  split_ifs <;> rfl

theorem handleSubEvent_gate (e : CsSubeventResults n) :
    (handleSubEvent env s e).1.currProcCount = s.currProcCount := by
  dsimp only [handleSubEvent]
  split_ifs
  · rfl
  · rw [addSubevent_gate, startProcedure_gate]
    rfl
  · rw [startProcedure_gate]
    rfl
  · rfl

theorem handleSubContinueEvent_gate (e : CsSubeventResultsContinue n) :
    (handleSubContinueEvent env s e).1.currProcCount = s.currProcCount := by
  dsimp only [handleSubContinueEvent]
  split_ifs <;> rfl

theorem closeGate_gate (status : DoneStatus) :
    gateOpen (closeGate s status) = (gateOpen s && !status.ends) := by
  unfold closeGate
  split_ifs with h
  · simp [gateOpen, h]
  · simp [h]

theorem procedureCounter_ne_invalid (counter : UInt16) :
    counter.toUInt32 ≠ keyNodeInvalidProcedureCounter := by
  intro h
  have hn := congrArg UInt32.toNat h
  have hlt := counter.toNat_lt
  simp only [UInt16.toNat_toUInt32, keyNodeInvalidProcedureCounter] at hn
  simp at hn
  omega

theorem deliver_gate (e : CsEvent n) : gateOpen (csDeliver env s e) = moveGate (gateOpen s) e := by
  cases e with
  | securityEnableComplete => rfl
  | procedureEnableComplete e =>
    dsimp only [csDeliver, csEventHandler, gateOpen, moveGate]
    rw [handleProcedureEnable_gate]
    rfl
  | subeventResult e =>
    have hopen : gateOpen (handleSubEvent env
        { s.note (.event (.subeventResult e)) with
          currProcCount := e.procedureCounter.toUInt32 } e).1 = true := by
      rw [gateOpen, handleSubEvent_gate, bne_iff_ne]
      exact procedureCounter_ne_invalid _
    dsimp only [csDeliver, csEventHandler, csSubeventResult, moveGate]
    rw [closeGate_gate, hopen, Bool.true_and]
  | subeventContinueResult e block =>
    dsimp only [csDeliver, csEventHandler, csSubeventContinueResult, moveGate]
    rw [closeGate_gate]
    congr 1
    split_ifs
    · cases block with
      | none => rfl
      | some b =>
        dsimp only [gateOpen, CsState.note]
        rw [handleSubContinueEvent_gate]
    · rfl
  | reconnect c => rfl

end Gate

section Run

variable {env : CsEnv n} {a : Fin n} {s t : CsState n}

theorem alike_deliver_own (henv : Separate env) (h : Alike a s t) {e : CsEvent n}
    (he : concerns a e = true)
    (hgate : MeetsOwnGate a ⟨gateOpen s, gateOpen t⟩ e) :
    Alike a (csDeliver env s e) (csDeliver env t e) := by
  have hs : Alike a (s.note (.event e)) (t.note (.event e)) := h.note _
  cases e with
  | securityEnableComplete => exact hs.note _
  | procedureEnableComplete e => exact alike_handleProcedureEnable_own henv hs (beq_iff_eq.mp he)
  | subeventResult e =>
    apply (alike_closeGate _ _).trans
    apply Alike.trans _ (alike_closeGate _ _).symm
    apply (alikeRet_handleSubEvent henv _ (beq_iff_eq.mp he)).state
    exact ⟨hs.calls, hs.procCounts, hs.antennaPaths⟩
  | subeventContinueResult e block =>
    have hea : e.connHandle = a := beq_iff_eq.mp he
    apply (alike_closeGate _ _).trans
    apply Alike.trans _ (alike_closeGate _ _).symm
    cases block with
    | none =>
      -- without a block neither run handles the event
      split_ifs
      · exact ((hs.note _).note _)
      · exact (alike_note rfl).trans ((alike_note rfl).trans hs)
      · exact hs.trans (((alike_note rfl).trans (alike_note rfl)).symm)
      · exact hs
    | some b =>
      have hg : gateOpen s = gateOpen t := hgate hea
      have hiff : (s.note (.event (.subeventContinueResult e (some b)))).currProcCount ≠
          keyNodeInvalidProcedureCounter ↔
          (t.note (.event (.subeventContinueResult e (some b)))).currProcCount ≠
            keyNodeInvalidProcedureCounter := by
        have hs' : gateOpen s = true ↔ gateOpen t = true := by rw [hg]
        simpa [gateOpen, CsState.note] using hs'
      simp only [hiff]
      split_ifs
      · exact ((alikeRet_handleSubContinueEvent henv (hs.note _) hea).state.note _).note _
      · exact hs
  | reconnect c => exact hs

theorem run_alike (henv : Separate env) {g : Gates} (h : Alike a s t)
    (hs : gateOpen s = g.shared) (ht : gateOpen t = g.own) {es : List (CsEvent n)}
    (hes : Along (moveGates a) (MeetsOwnGate a) g es) :
    Alike a (csRun env s es) (csRun env t (es.filter (concerns a))) := by
  induction es generalizing s t g with
  | nil => exact h
  | cons e es ih =>
    rw [along_cons_some rfl] at hes
    have hmove : gateOpen (csDeliver env s e) = moveGate g.shared e := by
      rw [deliver_gate, hs]
    by_cases he : concerns a e = true
    · rw [List.filter_cons_of_pos he]
      apply ih _ hmove _ hes.2
      · apply alike_deliver_own henv h he
        rw [hs, ht]
        exact hes.1
      · rw [if_pos he, deliver_gate, ht]
    · rw [List.filter_cons_of_neg he]
      apply ih _ hmove _ hes.2
      · exact (alike_deliver (Bool.eq_false_iff.mpr he)).trans h
      · rw [if_neg he, ht]

end Run

/-- In a run in which each continuation of a connection meets the gate as the
connection itself has left it, the connection's calls are those that its own
events make. -/
theorem results_isolated {env : CsEnv n} (henv : Separate env) (a : Fin n)
    (es : List (CsEvent n)) (hes : GateKept a es) :
    resultCalls a (csRun env csStatic es).log =
      resultCalls a (csRun env csStatic (es.filter (concerns a))).log := by
  have hrun := run_alike henv (Alike.refl a csStatic) rfl rfl hes
  unfold resultCalls
  rw [hrun.calls]

theorem separate_acceptingService : Separate (acceptingService : CsEnv n) := by
  intro call log log' _
  rfl

theorem results_isolated_interleaved :
    resultCalls 0 (csRun (acceptingService : CsEnv 2) csStatic
        [.procedureEnableComplete ⟨0, csSuccess, 1⟩, .procedureEnableComplete ⟨1, csSuccess, 1⟩,
          .subeventResult ⟨0, 0, 1, 0, .other 1, []⟩, .subeventResult ⟨1, 0, 5, 0, .other 1, []⟩,
          .subeventContinueResult ⟨0, 0, 0, .done, 0, 0, 1, 1, 0, []⟩ (some 16)]).log =
      resultCalls 0 (csRun acceptingService csStatic
        [.procedureEnableComplete ⟨0, csSuccess, 1⟩, .subeventResult ⟨0, 0, 1, 0, .other 1, []⟩,
          .subeventContinueResult ⟨0, 0, 0, .done, 0, 0, 1, 1, 0, []⟩ (some 16)]).log :=
  results_isolated separate_acceptingService 0 _ (by decide)

/-- Connection 1 ends its procedure, and the continuation of connection 0 is dropped. -/
theorem results_dropped :
    Separate (acceptingService : CsEnv 2) ∧
      resultCalls 0 (csRun (acceptingService : CsEnv 2) csStatic
        [.procedureEnableComplete ⟨0, csSuccess, 1⟩, .procedureEnableComplete ⟨1, csSuccess, 1⟩,
          .subeventResult ⟨0, 0, 1, 0, .other 1, []⟩, .subeventResult ⟨1, 0, 5, 0, .done, []⟩,
          .subeventContinueResult ⟨0, 0, 0, .done, 0, 0, 1, 1, 0, []⟩ (some 16)]).log ≠
      resultCalls 0 (csRun acceptingService csStatic
        ([.procedureEnableComplete ⟨0, csSuccess, 1⟩, .procedureEnableComplete ⟨1, csSuccess, 1⟩,
          .subeventResult ⟨0, 0, 1, 0, .other 1, []⟩, .subeventResult ⟨1, 0, 5, 0, .done, []⟩,
          .subeventContinueResult ⟨0, 0, 0, .done, 0, 0, 1, 1, 0, []⟩ (some 16)].filter
            (concerns 0))).log :=
  ⟨separate_acceptingService, by decide⟩

end BleFirmware.CsIsolation
