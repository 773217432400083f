import BleFirmware.LogFormat

/-!
# `log.c`

A call that prints leaves its local buffer and hands a length to
`log_backend_print`; a call that returns early is `none`. The `CFG_LOG_*`
switches are a configuration, and the mutex calls are left out.

The parts of a line are laid one after another only while the prefix has at most
`LOG_PREPEND_SIZE_MAX` bytes: each formatter cuts its start to that, and the
caller adds the whole prefix length to what the formatter returns.
-/

namespace BleFirmware
open Bytes Buffer

structure LogConfig where
  timeTickEnabled : Bool
  taskNameEnabled : Bool
  levelSymbolEnabled : Bool
  prefixSymbolLevel : LogLevel

/-- What the calls find: the configuration, `m_log_level`, the name of the running
task and the time. -/
structure LogState where
  cfg : LogConfig
  logLevel : LogLevel
  taskName : CString
  tickTime : UInt32

def logBufferSize : ℕ := logBuffSizeMax + logBufSizeOffset

theorem logBufferSize_eq : logBufferSize = 392 := rfl

def prependStateInfo (s : LogState) (level : LogLevel) (b : Buffer UInt8) : Buffer UInt8 × ℕ :=
  let r : Buffer UInt8 × ℕ := (b, 0)
  let r :=
    if s.cfg.timeTickEnabled then
      let t := logFormatPrependTickTime s.tickTime r.1 r.2
      (t.1, toUint16 (r.2 + t.2))
    else r
  let r :=
    if s.cfg.taskNameEnabled then
      let t := logFormatPrependTaskName s.taskName r.1 r.2
      (t.1, toUint16 (r.2 + t.2))
    else r
  if s.cfg.levelSymbolEnabled ∧ level.toNat ≤ s.cfg.prefixSymbolLevel.toNat then
    let t := logFormatPrependLevelSymbol level r.1 r.2
    (t.1, toUint16 (r.2 + t.2))
  else r

/-- The part that the three calls share: the prefix, a body, and the end of the
line. -/
def printLine (s : LogState) (level : LogLevel) (eol : Bool)
    (body : Buffer UInt8 → ℕ → Buffer UInt8 × ℕ) : Buffer UInt8 × ℕ :=
  let (b, len) := prependStateInfo s level Buffer.empty
  let r := body b len
  let len := toUint16 (len + r.2)
  if eol then logFormatAppendEol r.1 len else (r.1, len)

def logPrintFormat {Args : Type} (printf : Printf Args) (s : LogState) (level : LogLevel)
    (eol : Bool) (pFormat : Option CString) (args : Args) : Option (Buffer UInt8 × ℕ) :=
  match pFormat with
  | none => none
  | some format =>
    if level.toNat < s.logLevel.toNat then none
    else some (printLine s level eol (logFormatStringArgs printf format args))

def logPrintStringNumber (s : LogState) (level : LogLevel) (eol : Bool)
    (pString : Option CString) (number : UInt32) : Option (Buffer UInt8 × ℕ) :=
  match pString with
  | none => none
  | some string =>
    if level.toNat < s.logLevel.toNat then none
    else some (printLine s level eol (logFormatStringNumber (some string) number))

/-- The caption is not tested: it is a string. -/
def logPrintHexArray (s : LogState) (level : LogLevel) (eol : Bool) (caption : CString)
    (pData : Option Memory) (dataLen : UInt16) : Option (Buffer UInt8 × ℕ) :=
  match pData with
  | none => none
  | some data =>
    if level.toNat < s.logLevel.toNat then none
    else some (printLine s level eol (logFormatHexArray caption data dataLen))

end BleFirmware
