import Mathlib.Data.UInt
import Mathlib.Logic.Function.Basic
import BleFirmware.UtilTool

/-!
# `ble_cs_event_handler.c`

The ranging service, the antenna table and the allocator belong to the SDK. An
`Env` says what they answer; the service may answer a call by everything that
has happened before. `log` records the events that are delivered and the calls
that are made, and is read by nothing but the environment.

A connection handle is below `MAX_NUM_BLE_CONNS`, here `n`, the length of the
arrays that it indexes. `reconnect` stands for the end of a connection and the
start of another with its handle, of which the handler is not told.
-/

namespace BleFirmware

def csSuccess : UInt8 := 0
def csFailure : UInt8 := 1
def csInvalidParameter : UInt8 := 2

def keyNodeInvalidProcedureCounter : UInt32 := 0xFFFFFFFF

/-- `CS_PROCEDURE_DONE`, `CS_PROCEDURE_ABORTED`, and the values in between. -/
inductive DoneStatus
  | done
  | aborted
  | other (v : UInt8)
  deriving DecidableEq

structure CsProcEnableComplete (n : ℕ) where
  connHandle : Fin n
  csStatus : UInt8
  aci : UInt8
  deriving DecidableEq

structure CsSubeventResults (n : ℕ) where
  connHandle : Fin n
  configID : UInt8
  procedureCounter : UInt16
  referencePowerLevel : UInt8
  procedureDoneStatus : DoneStatus
  data : List UInt8
  deriving DecidableEq

structure CsSubeventResultsContinue (n : ℕ) where
  csEvtOpcode : UInt8
  connHandle : Fin n
  configID : UInt8
  procedureDoneStatus : DoneStatus
  subeventDoneStatus : UInt8
  abortReason : UInt8
  numAntennaPath : UInt8
  numStepsReported : UInt8
  dataLen : UInt16
  data : List UInt8
  deriving DecidableEq

inductive CsEvent (n : ℕ)
  | securityEnableComplete
  | procedureEnableComplete (e : CsProcEnableComplete n)
  | subeventResult (e : CsSubeventResults n)
  | subeventContinueResult (e : CsSubeventResultsContinue n) (block : Option Addr)
  | reconnect (connHandle : Fin n)
  deriving DecidableEq

structure RangingHeader where
  antennaPathsMask : UInt8
  configID : UInt8
  rangingCounter : UInt16
  selectedTxPower : UInt8
  deriving DecidableEq

inductive RrspCall (n : ℕ)
  | registrationStatus (connHandle : Fin n)
  | procedureStarted (connHandle : Fin n) (procedureCounter : UInt16) (header : RangingHeader)
  | addSubeventResult (e : CsSubeventResults n)
  | addSubeventContinueResult (e : CsSubeventResultsContinue n)
  | procedureDone (connHandle : Fin n) (procedureCounter : UInt16)
  deriving DecidableEq

inductive CsEntry (n : ℕ)
  | event (e : CsEvent n)
  | called (call : RrspCall n) (ret : UInt8)
  | malloc (size : UInt16) (block : Option Addr)
  | free (block : Option Addr)
  | setDefaultSettings (connHandle roleEnable csSyncAntennaSelection maxTxPower : ℕ)
  deriving DecidableEq

structure CsEnv (n : ℕ) where
  rrsp : List (CsEntry n) → RrspCall n → UInt8
  rrspUnregister : UInt8
  calcAntPathsMask : UInt8 → UInt8
  /-- `sizeof(CS_subeventResultsContinueEvt_t)` -/
  continueHeaderSize : UInt16

structure CsState (n : ℕ) where
  procCounts : Fin n → UInt32
  antennaPaths : Fin n → UInt8
  currProcCount : UInt32
  log : List (CsEntry n)

variable {n : ℕ}

/-- Static storage: only `m_curr_proc_count` has an initializer. -/
def csStatic : CsState n where
  procCounts := fun _ => 0
  antennaPaths := fun _ => 0
  currProcCount := keyNodeInvalidProcedureCounter
  log := []

namespace CsState

def note (s : CsState n) (e : CsEntry n) : CsState n := { s with log := s.log ++ [e] }

def rrsp (env : CsEnv n) (s : CsState n) (call : RrspCall n) : CsState n × UInt8 :=
  (s.note (.called call (env.rrsp s.log call)), env.rrsp s.log call)

end CsState

def handleProcedureEnable (env : CsEnv n) (s : CsState n) (e : CsProcEnableComplete n) :
    CsState n :=
  if e.csStatus = csSuccess then
    let r := s.rrsp env (.registrationStatus e.connHandle)
    if r.2 ≠ env.rrspUnregister then
      let antennaPathsMask := env.calcAntPathsMask e.aci
      if antennaPathsMask ≠ 0 then
        { r.1 with
          antennaPaths := Function.update r.1.antennaPaths e.connHandle antennaPathsMask }
      else r.1
    else r.1
  else s

/-- The second `if` of `handle_sub_event`: a counter that is not the remembered
one is remembered and the procedure is started. -/
def startProcedure (env : CsEnv n) (s : CsState n) (e : CsSubeventResults n) :
    CsState n × UInt8 :=
  if s.procCounts e.connHandle ≠ e.procedureCounter.toUInt32 then
    let s : CsState n :=
      { s with
        procCounts := Function.update s.procCounts e.connHandle e.procedureCounter.toUInt32 }
    let antennaPathsMask := s.antennaPaths e.connHandle
    if antennaPathsMask ≠ 0 then
      s.rrsp env (.procedureStarted e.connHandle (s.procCounts e.connHandle).toUInt16
        ⟨antennaPathsMask, e.configID, e.procedureCounter, e.referencePowerLevel⟩)
    else (s, csFailure)
  else (s, csSuccess)

def addSubevent (env : CsEnv n) (s : CsState n) (e : CsSubeventResults n) : CsState n × UInt8 :=
  let r := s.rrsp env (.addSubeventResult e)
  if e.procedureDoneStatus = .done ∧ r.2 = csSuccess then
    r.1.rrsp env (.procedureDone e.connHandle (r.1.procCounts e.connHandle).toUInt16)
  else r

def handleSubEvent (env : CsEnv n) (s : CsState n) (e : CsSubeventResults n) :
    CsState n × UInt8 :=
  let r := s.rrsp env (.registrationStatus e.connHandle)
  if r.2 ≠ env.rrspUnregister then
    if e.procedureDoneStatus = .aborted then (r.1, csFailure)
    else
      let r := startProcedure env r.1 e
      if r.2 = csSuccess then addSubevent env r.1 e else r
  else (r.1, csInvalidParameter)

def handleSubContinueEvent (env : CsEnv n) (s : CsState n) (e : CsSubeventResultsContinue n) :
    CsState n × UInt8 :=
  let r := s.rrsp env (.registrationStatus e.connHandle)
  if r.2 ≠ env.rrspUnregister then
    if e.procedureDoneStatus = .aborted then (r.1, csFailure)
    else
      let r := r.1.rrsp env (.addSubeventContinueResult e)
      if r.2 = csSuccess ∧ e.procedureDoneStatus = .done then
        r.1.rrsp env (.procedureDone e.connHandle (r.1.procCounts e.connHandle).toUInt16)
      else r
  else (r.1, csInvalidParameter)

/-- `proc_status == CS_PROCEDURE_DONE || proc_status == CS_PROCEDURE_ABORTED` -/
def DoneStatus.ends (status : DoneStatus) : Bool := status == .done || status == .aborted

def closeGate (s : CsState n) (status : DoneStatus) : CsState n :=
  if status.ends then { s with currProcCount := keyNodeInvalidProcedureCounter } else s

def csSubeventResult (env : CsEnv n) (s : CsState n) (e : CsSubeventResults n) : CsState n :=
  let s : CsState n := { s with currProcCount := e.procedureCounter.toUInt32 }
  closeGate (handleSubEvent env s e).1 e.procedureDoneStatus

/-- The `CS_SUBEVENT_CONTINUE_RESULT` case. The event is copied field by field
into the block, and the block is freed a second time behind the inner `if`. -/
def csSubeventContinueResult (env : CsEnv n) (s : CsState n) (e : CsSubeventResultsContinue n)
    (block : Option Addr) : CsState n :=
  let eventSize := env.continueHeaderSize + e.dataLen
  let s :=
    if s.currProcCount ≠ keyNodeInvalidProcedureCounter then
      let s := s.note (.malloc eventSize block)
      let s :=
        match block with
        | some _ =>
          let contiEvent : CsSubeventResultsContinue n :=
            { csEvtOpcode := e.csEvtOpcode, connHandle := e.connHandle, configID := e.configID
              procedureDoneStatus := e.procedureDoneStatus
              subeventDoneStatus := e.subeventDoneStatus, abortReason := e.abortReason
              numAntennaPath := e.numAntennaPath, numStepsReported := e.numStepsReported
              dataLen := e.dataLen, data := e.data }
          (handleSubContinueEvent env s contiEvent).1.note (.free block)
        | none => s
      s.note (.free block)
    else s
  closeGate s e.procedureDoneStatus

def csEventHandler (env : CsEnv n) (s : CsState n) : CsEvent n → CsState n
  | .securityEnableComplete => s.note (.setDefaultSettings 0 3 1 10)
  | .procedureEnableComplete e => handleProcedureEnable env s e
  | .subeventResult e => csSubeventResult env s e
  | .subeventContinueResult e block => csSubeventContinueResult env s e block
  | .reconnect _ => s

def csDeliver (env : CsEnv n) (s : CsState n) (e : CsEvent n) : CsState n :=
  csEventHandler env (s.note (.event e)) e

def csRun (env : CsEnv n) (s : CsState n) (es : List (CsEvent n)) : CsState n :=
  es.foldl (csDeliver env) s

def acceptingService : CsEnv n where
  rrsp := fun _ _ => csSuccess
  rrspUnregister := 0xFF
  calcAntPathsMask := id
  continueHeaderSize := 14

end BleFirmware
