import BleFirmware.Base.Run
import BleFirmware.LogPrint
import BleFirmware.LogText

/-!
# The log shared by tasks

Each function of `log.c` tests its pointer and `m_log_level` before it takes the mutex,
and within the mutex it makes a line and sends it. Here a test, a wait, a byte that is
sent and a post are single steps of a task, and the tasks take their steps in any
order. What is sent is compared with tasks that print their lines in one step each.

`log_init` sets the mutex to 1 whoever has it. What becomes of a task that is blocked
at the mutex then is left open by the system; here it waits on at the new mutex, and
what is said about its return is about runs in which none waits at a `log_init`.
-/

namespace BleFirmware.LogTasks
open Bytes Run

variable {Args : Type}

inductive LogCall (Args : Type)
  | format (level : LogLevel) (eol : Bool) (pFormat : Option CString) (args : Args)
  | stringNumber (level : LogLevel) (eol : Bool) (pString : Option CString) (number : UInt32)
  | hexArray (level : LogLevel) (eol : Bool) (caption : CString) (pData : Option Memory)
    (dataLen : UInt16)
  | rawString (level : LogLevel) (pString : Option CString)

namespace LogCall

def returnsEarly (logLevel : LogLevel) : LogCall Args → Bool
  | format level _ pFormat _ => pFormat.isNone || level.toNat < logLevel.toNat
  | stringNumber level _ pString _ => pString.isNone || level.toNat < logLevel.toNat
  | hexArray level _ _ pData _ => pData.isNone || level.toNat < logLevel.toNat
  | rawString level pString => pString.isNone || level.toNat < logLevel.toNat

def sent (t : Buffer UInt8 × ℕ) : List (Option UInt8) := t.1.cells 0 t.2

/-- The bytes that are handed to the backend. The length of a raw string is a `uint16_t`. -/
def line (printf : Printf Args) (s : LogState) : LogCall Args → List (Option UInt8)
  | format level eol pFormat args =>
    sent (printLine s level eol (logFormatStringArgs printf (pFormat.getD []) args))
  | stringNumber level eol pString number =>
    sent (printLine s level eol (logFormatStringNumber pString number))
  | hexArray level eol caption pData dataLen =>
    sent (printLine s level eol (logFormatHexArray caption (pData.getD fun _ => 0) dataLen))
  | rawString _ pString =>
    let string := pString.getD []
    (string.take (toUint16 string.length)).map some

theorem line_format (printf : Printf Args) (s : LogState) (level : LogLevel) (eol : Bool)
    (pFormat : Option CString) (args : Args) :
    (logPrintFormat printf s level eol pFormat args).map sent =
      let c := format level eol pFormat args
      if c.returnsEarly s.logLevel then none else some (c.line printf s) := by
  cases pFormat with
  | none => rfl
  | some p => by_cases h : level.toNat < s.logLevel.toNat <;> simp [logPrintFormat, returnsEarly, line, h]

theorem line_stringNumber (printf : Printf Args) (s : LogState) (level : LogLevel) (eol : Bool)
    (pString : Option CString) (number : UInt32) :
    (logPrintStringNumber s level eol pString number).map sent =
      let c : LogCall Args := stringNumber level eol pString number
      if c.returnsEarly s.logLevel then none else some (c.line printf s) := by
  cases pString with
  | none => rfl
  | some p =>
    by_cases h : level.toNat < s.logLevel.toNat <;> simp [logPrintStringNumber, returnsEarly, line, h]

theorem line_hexArray (printf : Printf Args) (s : LogState) (level : LogLevel) (eol : Bool)
    (caption : CString) (pData : Option Memory) (dataLen : UInt16) :
    (logPrintHexArray s level eol caption pData dataLen).map sent =
      let c : LogCall Args := hexArray level eol caption pData dataLen
      if c.returnsEarly s.logLevel then none else some (c.line printf s) := by
  cases pData with
  | none => rfl
  | some p =>
    by_cases h : level.toNat < s.logLevel.toNat <;> simp [logPrintHexArray, returnsEarly, line, h]

end LogCall

inductive LogPhase (Args : Type)
  | between
  | waiting (c : LogCall Args)
  | writing (rest : List (Option UInt8))

structure LogTask (Args : Type) where
  name : CString
  phase : LogPhase Args
  calls : List (LogCall Args)

/-- `cfgLevel` is `CFG_LOG_LEVEL`, and `uart` is what was sent. -/
structure LogShared (Args : Type) where
  cfg : LogConfig
  cfgLevel : LogLevel
  logLevel : LogLevel
  tickTime : UInt32
  mutex : ℕ
  uart : List (Option UInt8)
  tasks : List (LogTask Args)

inductive LogAct
  | run (k : ℕ)
  | tick (time : UInt32)
  | setLevel (level : LogLevel)
  | init

namespace LogShared

def stateOf (s : LogShared Args) (t : LogTask Args) : LogState :=
  ⟨s.cfg, s.logLevel, t.name, s.tickTime⟩

def become (s : LogShared Args) (k : ℕ) (t : LogTask Args) : LogShared Args :=
  { s with tasks := s.tasks.set k t }

end LogShared

/-- A task that waits at a mutex of 0 does not move. -/
def runTask (printf : Printf Args) (s : LogShared Args) (k : ℕ) (t : LogTask Args) :
    LogShared Args :=
  match t.phase with
  | .between =>
    match t.calls with
    | [] => s
    | c :: calls =>
      if c.returnsEarly s.logLevel then s.become k { t with calls }
      else s.become k { t with phase := .waiting c, calls }
  | .waiting c =>
    if s.mutex = 0 then s
    else
      { s with mutex := s.mutex - 1 }.become k { t with phase := .writing (c.line printf (s.stateOf t)) }
  | .writing [] => { s with mutex := s.mutex + 1 }.become k { t with phase := .between }
  | .writing (b :: rest) =>
    { s with uart := s.uart ++ [b] }.become k { t with phase := .writing rest }

def step (printf : Printf Args) (s : LogShared Args) : LogAct → Option (LogShared Args)
  | .run k =>
    match s.tasks[k]? with
    | some t => some (runTask printf s k t)
    | none => some s
  | .tick time => some { s with tickTime := time }
  | .setLevel level => some { s with logLevel := level }
  | .init => some { s with logLevel := s.cfgLevel, mutex := 1 }

/-- After the `log_init` of `main`. -/
def start (cfg : LogConfig) (cfgLevel : LogLevel) (tasks : List (CString × List (LogCall Args))) :
    LogShared Args :=
  ⟨cfg, cfgLevel, cfgLevel, 0, 1, [], tasks.map fun t => ⟨t.1, .between, t.2⟩⟩

def LogPhase.isWriting : LogPhase Args → Bool
  | writing _ => true
  | _ => false

@[simp] theorem LogPhase.isWriting_between : (between : LogPhase Args).isWriting = false := rfl

@[simp] theorem LogPhase.isWriting_waiting (c : LogCall Args) : (waiting c).isWriting = false := rfl

@[simp] theorem LogPhase.isWriting_writing (rest : List (Option UInt8)) :
    (writing rest : LogPhase Args).isWriting = true := rfl

def LogPhase.isBetween : LogPhase Args → Bool
  | between => true
  | _ => false

def LogShared.writers (s : LogShared Args) : ℕ := s.tasks.countP (·.phase.isWriting)

def Guarded (s : LogShared Args) : Prop := s.mutex + s.writers = 1

/-- `log_init` is called while no task is within the mutex. -/
def InitOutside (s : LogShared Args) : LogAct → Prop
  | .init => s.writers = 0
  | _ => True

instance (s : LogShared Args) : DecidablePred (InitOutside s)
  | .init => inferInstanceAs (Decidable (s.writers = 0))
  | .run _ => inferInstanceAs (Decidable True)
  | .tick _ => inferInstanceAs (Decidable True)
  | .setLevel _ => inferInstanceAs (Decidable True)

variable {printf : Printf Args} {s s' : LogShared Args} {k : ℕ} {t u : LogTask Args}

theorem countP_set {tasks : List (LogTask Args)} (h : tasks[k]? = some t) (u : LogTask Args)
    (p : LogTask Args → Bool) :
    (tasks.set k u).countP p + (if p t then 1 else 0) = tasks.countP p + if p u then 1 else 0 := by
  induction tasks generalizing k with
  | nil => simp at h
  | cons v tasks ih =>
    cases k with
    | zero =>
      obtain rfl : v = t := by simpa using h
      rw [List.set_cons_zero, List.countP_cons, List.countP_cons]
      omega
    | succ k =>
      have htail := ih (k := k) (by simpa using h)
      rw [List.set_cons_succ, List.countP_cons, List.countP_cons]
      omega

theorem writers_become (h : s.tasks[k]? = some t) (u : LogTask Args) :
    (s.become k u).writers + (if t.phase.isWriting then 1 else 0) =
      s.writers + if u.phase.isWriting then 1 else 0 :=
  countP_set h u _

inductive Move (printf : Printf Args) (s : LogShared Args) (k : ℕ) (t : LogTask Args) :
    LogShared Args → Prop
  | stay : Move printf s k t s
  | drop {c calls} (phase : t.phase = .between) (head : t.calls = c :: calls)
      (early : c.returnsEarly s.logLevel = true) : Move printf s k t (s.become k { t with calls })
  | enter {c calls} (phase : t.phase = .between) (head : t.calls = c :: calls)
      (late : c.returnsEarly s.logLevel = false) :
      Move printf s k t (s.become k { t with phase := .waiting c, calls })
  | take {c} (phase : t.phase = .waiting c) (free : s.mutex ≠ 0) :
      Move printf s k t ({ s with mutex := s.mutex - 1 }.become k
        { t with phase := .writing (c.line printf (s.stateOf t)) })
  | send {b rest} (phase : t.phase = .writing (b :: rest)) :
      Move printf s k t ({ s with uart := s.uart ++ [b] }.become k { t with phase := .writing rest })
  | post (phase : t.phase = .writing []) :
      Move printf s k t ({ s with mutex := s.mutex + 1 }.become k { t with phase := .between })

theorem runTask_move (printf : Printf Args) (s : LogShared Args) (k : ℕ) (t : LogTask Args) :
    Move printf s k t (runTask printf s k t) := by
  obtain ⟨name, phase, calls⟩ := t
  cases phase with
  | between =>
    cases calls with
    | nil => exact .stay
    | cons c calls =>
      cases hearly : c.returnsEarly s.logLevel with
      | true =>
        simp only [runTask, hearly, if_true]
        exact .drop rfl rfl hearly
      | false =>
        simp only [runTask, hearly, Bool.false_eq_true, if_false]
        exact .enter rfl rfl hearly
  | waiting c =>
    by_cases hmutex : s.mutex = 0
    · simp only [runTask, if_pos hmutex]
      exact .stay
    · simp only [runTask, if_neg hmutex]
      exact .take rfl hmutex
  | writing rest =>
    cases rest with
    | nil => exact .post rfl
    | cons b rest => exact .send rfl

theorem Move.count (h : s.tasks[k]? = some t) (hmove : Move printf s k t s') :
    s'.mutex + s'.writers = s.mutex + s.writers := by
  cases hmove with
  | stay => rfl
  | @drop c calls phase head early =>
    have hcount := writers_become h { t with calls }
    change s.mutex + (s.become k { t with calls }).writers = s.mutex + s.writers
    dsimp only at hcount
    omega
  | @enter c calls phase head late =>
    have hcount := writers_become h { t with phase := .waiting c, calls }
    simp only [phase, LogPhase.isWriting_between, LogPhase.isWriting_waiting, Bool.false_eq_true,
      if_false] at hcount
    change s.mutex + (s.become k { t with phase := .waiting c, calls }).writers = s.mutex + s.writers
    omega
  | @take c phase free =>
    have hcount := writers_become h { t with phase := .writing (c.line printf (s.stateOf t)) }
    simp only [phase, LogPhase.isWriting_waiting, LogPhase.isWriting_writing, Bool.false_eq_true,
      if_false, if_true] at hcount
    change s.mutex - 1 +
      (s.become k { t with phase := .writing (c.line printf (s.stateOf t)) }).writers =
        s.mutex + s.writers
    omega
  | @send b rest phase =>
    have hcount := writers_become h { t with phase := .writing rest }
    simp only [phase, LogPhase.isWriting_writing, if_true] at hcount
    change s.mutex + (s.become k { t with phase := .writing rest }).writers = s.mutex + s.writers
    omega
  | post phase =>
    have hcount := writers_become h { t with phase := .between }
    simp only [phase, LogPhase.isWriting_between, LogPhase.isWriting_writing, Bool.false_eq_true,
      if_false, if_true] at hcount
    change s.mutex + 1 + (s.become k { t with phase := .between }).writers = s.mutex + s.writers
    omega

theorem runTask_count (printf : Printf Args) (h : s.tasks[k]? = some t) :
    (runTask printf s k t).mutex + (runTask printf s k t).writers = s.mutex + s.writers :=
  (runTask_move printf s k t).count h

theorem step_some (printf : Printf Args) (s : LogShared Args) (act : LogAct) :
    ∃ s', step printf s act = some s' := by
  cases act with
  | run k =>
    cases ht : s.tasks[k]? with
    | none => exact ⟨s, by simp only [step, ht]⟩
    | some t => exact ⟨runTask printf s k t, by simp only [step, ht]⟩
  | tick time => exact ⟨_, rfl⟩
  | setLevel level => exact ⟨_, rfl⟩
  | init => exact ⟨_, rfl⟩

theorem step_guarded {act : LogAct} (hs : Guarded s) (hstep : step printf s act = some s') :
    Guarded s' ↔ InitOutside s act := by
  cases act with
  | run k =>
    refine iff_of_true ?_ trivial
    cases ht : s.tasks[k]? with
    | none =>
      simp only [step, ht, Option.some.injEq] at hstep
      exact hstep ▸ hs
    | some t =>
      simp only [step, ht, Option.some.injEq] at hstep
      exact hstep ▸ (runTask_count printf ht).trans hs
  | tick time =>
    obtain rfl := Option.some.inj hstep
    exact iff_of_true hs trivial
  | setLevel level =>
    obtain rfl := Option.some.inj hstep
    exact iff_of_true hs trivial
  | init =>
    obtain rfl := Option.some.inj hstep
    change 1 + s.writers = 1 ↔ s.writers = 0
    omega

theorem start_guarded (cfg : LogConfig) (cfgLevel : LogLevel)
    (tasks : List (CString × List (LogCall Args))) : Guarded (start cfg cfgLevel tasks) := by
  have hnone : (start cfg cfgLevel tasks).writers = 0 := by
    refine List.countP_eq_zero.mpr fun t ht => ?_
    obtain ⟨u, -, rfl⟩ := List.mem_map.mp ht
    exact Bool.false_ne_true
  exact (congrArg (1 + ·) hnone).trans rfl

theorem step_guarded_of_outside {act : LogAct} (hs : Guarded s) (hact : InitOutside s act)
    (hstep : step printf s act = some s') : Guarded s' :=
  (step_guarded hs hstep).mpr hact

/-- The mutex counts the tasks within it after every step of a run exactly if `log_init` is
called only while no task is within. -/
theorem mutex_counts_iff (printf : Printf Args) (cfg : LogConfig) (cfgLevel : LogLevel)
    (tasks : List (CString × List (LogCall Args))) (acts : List LogAct) :
    Along (step printf) (fun s act => ∀ s', step printf s act = some s' → Guarded s')
        (start cfg cfgLevel tasks) acts ↔
      Along (step printf) InitOutside (start cfg cfgLevel tasks) acts := by
  refine along_iff_of_invariant (L := fun _ _ => True) (I := Guarded)
    (fun _ _ _ _ _ hnext hstep => hnext _ hstep) ?_ (start_guarded cfg cfgLevel tasks)
    (along_of_forall (fun _ _ => trivial) _ _)
  intro s act hs _
  obtain ⟨s', hstep⟩ := step_some printf s act
  refine ⟨fun hnext => (step_guarded hs hstep).mp (hnext s' hstep), fun hact t ht => ?_⟩
  exact step_guarded_of_outside hs hact ht

def LogTask.left (t : LogTask Args) : ℕ :=
  match t.phase with
  | .between => t.calls.length
  | _ => t.calls.length + 1

def LogShared.left (s : LogShared Args) : ℕ := (s.tasks.map LogTask.left).sum

def runTasks (printf : Printf Args) (s : LogShared Args) (ks : List ℕ) : LogShared Args :=
  exec (step printf) s (ks.map .run)

/-- A mutex of 0 is in use. -/
def Open (s : LogShared Args) : Prop := 1 ≤ s.mutex + s.writers

theorem sum_left_set {tasks : List (LogTask Args)} (h : tasks[k]? = some t) (u : LogTask Args) :
    ((tasks.set k u).map LogTask.left).sum + t.left = (tasks.map LogTask.left).sum + u.left := by
  induction tasks generalizing k with
  | nil => simp at h
  | cons v tasks ih =>
    cases k with
    | zero =>
      obtain rfl : v = t := by simpa using h
      rw [List.set_cons_zero, List.map_cons, List.map_cons, List.sum_cons, List.sum_cons]
      omega
    | succ k =>
      have htail := ih (k := k) (by simpa using h)
      rw [List.set_cons_succ, List.map_cons, List.map_cons, List.sum_cons, List.sum_cons]
      omega

theorem step_run (h : s.tasks[k]? = some t) :
    step printf s (.run k) = some (runTask printf s k t) := by
  simp only [step, h]

theorem runTasks_cons (h : s.tasks[k]? = some t) (ks : List ℕ) :
    runTasks printf s (k :: ks) = runTasks printf (runTask printf s k t) ks :=
  exec_cons_some (step_run h) _

theorem become_task (h : s.tasks[k]? = some t) (u : LogTask Args) :
    (s.become k u).tasks[k]? = some u :=
  List.getElem?_set_self (List.getElem?_eq_some_iff.mp h).1

theorem step_open {act : LogAct} (hs : Open s) (hstep : step printf s act = some s') : Open s' := by
  unfold Open at *
  cases act with
  | run k =>
    cases ht : s.tasks[k]? with
    | none =>
      simp only [step, ht, Option.some.injEq] at hstep
      exact hstep ▸ hs
    | some t =>
      rw [step_run ht, Option.some.injEq] at hstep
      rw [← hstep, runTask_count printf ht]
      exact hs
  | tick time =>
    obtain rfl := Option.some.inj hstep
    exact hs
  | setLevel level =>
    obtain rfl := Option.some.inj hstep
    exact hs
  | init =>
    obtain rfl := Option.some.inj hstep
    exact Nat.le_add_right 1 _

theorem exec_open (hs : Open s) (acts : List LogAct) : Open (exec (step printf) s acts) :=
  exec_invariant (P := fun _ _ => True) (fun _ _ _ hs _ hstep => step_open hs hstep) hs
    (along_of_forall (fun _ _ => trivial) s acts)

theorem writing_returns (printf : Printf Args) {rest : List (Option UInt8)} (h : s.tasks[k]? = some t)
    (hphase : t.phase = .writing rest) :
    ∃ ks, (runTasks printf s ks).tasks = s.tasks.set k { t with phase := .between } := by
  induction rest generalizing s t with
  | nil =>
    refine ⟨[k], ?_⟩
    rw [runTasks_cons h, runTask, hphase]
    rfl
  | cons b rest ih =>
    have hnext := become_task h { t with phase := .writing rest }
    obtain ⟨ks, hks⟩ := ih (s := { s with uart := s.uart ++ [b] }.become k
      { t with phase := .writing rest }) hnext rfl
    refine ⟨k :: ks, ?_⟩
    rw [runTasks_cons h]
    have hrun : runTask printf s k t = { s with uart := s.uart ++ [b] }.become k
        { t with phase := .writing rest } := by
      rw [runTask, hphase]
    rw [hrun, hks]
    exact List.set_set ..

theorem waiting_returns (printf : Printf Args) {c : LogCall Args} (h : s.tasks[k]? = some t)
    (hphase : t.phase = .waiting c) (hfree : s.mutex ≠ 0) :
    ∃ ks, (runTasks printf s ks).tasks = s.tasks.set k { t with phase := .between } := by
  have hrun : runTask printf s k t = { s with mutex := s.mutex - 1 }.become k
      { t with phase := .writing (c.line printf (s.stateOf t)) } := by
    rw [runTask, hphase]
    exact if_neg hfree
  have hnext := become_task (s := { s with mutex := s.mutex - 1 }) h
    { t with phase := .writing (c.line printf (s.stateOf t)) }
  obtain ⟨ks, hks⟩ := writing_returns printf hnext rfl
  refine ⟨k :: ks, ?_⟩
  rw [runTasks_cons h, hrun, hks]
  exact List.set_set ..

theorem between_returns (printf : Printf Args) {c : LogCall Args} {calls : List (LogCall Args)}
    (h : s.tasks[k]? = some t) (hphase : t.phase = .between) (hcalls : t.calls = c :: calls)
    (hfree : s.mutex ≠ 0) :
    ∃ ks, (runTasks printf s ks).tasks = s.tasks.set k { t with phase := .between, calls } := by
  cases hearly : c.returnsEarly s.logLevel with
  | true =>
    have hrun : runTask printf s k t = s.become k { t with calls } := by
      rw [runTask, hphase, hcalls]
      exact if_pos hearly
    refine ⟨[k], ?_⟩
    rw [runTasks_cons h, hrun, ← hphase]
    rfl
  | false =>
    have hrun : runTask printf s k t = s.become k { t with phase := .waiting c, calls } := by
      rw [runTask, hphase, hcalls]
      exact if_neg (Bool.eq_false_iff.mp hearly)
    have hnext := become_task h { t with phase := .waiting c, calls }
    obtain ⟨ks, hks⟩ := waiting_returns printf hnext rfl hfree
    refine ⟨k :: ks, ?_⟩
    rw [runTasks_cons h, hrun, hks]
    exact List.set_set ..

theorem left_lt (h : s.tasks[k]? = some t) (hs' : s'.tasks = s.tasks.set k u)
    (hu : u.left < t.left) : s'.left < s.left := by
  have hsum := sum_left_set h u
  have hs : s.left = (s.tasks.map LogTask.left).sum := rfl
  rw [LogShared.left, hs']
  omega

theorem exists_left (hleft : s.left ≠ 0) :
    ∃ (k : ℕ) (t : LogTask Args), s.tasks[k]? = some t ∧ t.left ≠ 0 := by
  by_contra hnone
  refine hleft (List.sum_eq_zero_iff_forall_eq_nat.mpr fun n hn => ?_)
  obtain ⟨t, ht, rfl⟩ := List.mem_map.mp hn
  obtain ⟨k, hk⟩ := List.mem_iff_getElem?.mp ht
  by_contra ht
  exact hnone ⟨k, t, hk, ht⟩

theorem writing_left (printf : Printf Args) (h : s.tasks[k]? = some t)
    (hwriting : t.phase.isWriting = true) : ∃ ks, (runTasks printf s ks).left < s.left := by
  obtain ⟨name, phase, calls⟩ := t
  cases phase with
  | writing rest =>
    obtain ⟨ks, hks⟩ := writing_returns printf h rfl
    exact ⟨ks, left_lt h hks (Nat.lt_succ_self _)⟩
  | between => exact absurd hwriting Bool.noConfusion
  | waiting c => exact absurd hwriting Bool.noConfusion

/-- At every time some call can return: if the mutex is in use, that of a writer. -/
theorem call_returns (printf : Printf Args) (hs : Open s) (hleft : s.left ≠ 0) :
    ∃ ks, (runTasks printf s ks).left < s.left := by
  by_cases hfree : s.mutex = 0
  · have hwriters : 0 < s.writers := by
      have hopen : 1 ≤ s.mutex + s.writers := hs
      omega
    obtain ⟨t, ht, hwriting⟩ := List.countP_pos_iff.mp hwriters
    obtain ⟨k, hk⟩ := List.mem_iff_getElem?.mp ht
    exact writing_left printf hk hwriting
  · obtain ⟨k, ⟨name, phase, calls⟩, hk, ht⟩ := exists_left hleft
    cases phase with
    | writing rest => exact writing_left printf hk rfl
    | waiting c =>
      obtain ⟨ks, hks⟩ := waiting_returns printf hk rfl hfree
      exact ⟨ks, left_lt hk hks (Nat.lt_succ_self _)⟩
    | between =>
      cases calls with
      | nil => exact absurd rfl ht
      | cons c calls =>
        obtain ⟨ks, hks⟩ := between_returns printf hk rfl rfl hfree
        exact ⟨ks, left_lt hk hks (Nat.lt_succ_self _)⟩

theorem runTasks_append (printf : Printf Args) (s : LogShared Args) (ks js : List ℕ) :
    runTasks printf s (ks ++ js) = runTasks printf (runTasks printf s ks) js := by
  induction ks generalizing s with
  | nil => rfl
  | cons k ks ih =>
    obtain ⟨s', hs'⟩ := step_some printf s (.run k)
    have hcons (is : List ℕ) : runTasks printf s (k :: is) = runTasks printf s' is :=
      exec_cons_some hs' _
    rw [List.cons_append, hcons, hcons, ih]

theorem all_return (printf : Printf Args) (hs : Open s) :
    ∃ ks, (runTasks printf s ks).left = 0 := by
  induction hn : s.left using Nat.strong_induction_on generalizing s with
  | _ n ih =>
    by_cases hleft : s.left = 0
    · exact ⟨[], hleft⟩
    · obtain ⟨ks, hks⟩ := call_returns printf hs hleft
      obtain ⟨js, hjs⟩ := ih _ (hn ▸ hks) (exec_open hs _) rfl
      exact ⟨ks ++ js, (congrArg LogShared.left (runTasks_append printf s ks js)).trans hjs⟩

theorem between_of_left (hleft : s.left = 0) {t : LogTask Args} (ht : t ∈ s.tasks) :
    t.phase = .between ∧ t.calls = [] := by
  have hzero : t.left = 0 := List.sum_eq_zero_iff_forall_eq_nat.mp hleft _ (List.mem_map_of_mem ht)
  obtain ⟨name, phase, calls⟩ := t
  cases phase with
  | between => exact ⟨rfl, List.length_eq_zero_iff.mp hzero⟩
  | waiting c => exact absurd hzero (Nat.succ_ne_zero _)
  | writing rest => exact absurd hzero (Nat.succ_ne_zero _)

/-- `log_init` is called while no task waits at the mutex or is within it. -/
def InitIdle (s : LogShared Args) : LogAct → Prop
  | .init => s.tasks.all (·.phase.isBetween) = true
  | _ => True

instance (s : LogShared Args) : DecidablePred (InitIdle s)
  | .init => inferInstanceAs (Decidable (s.tasks.all (·.phase.isBetween) = true))
  | .run _ => inferInstanceAs (Decidable True)
  | .tick _ => inferInstanceAs (Decidable True)
  | .setLevel _ => inferInstanceAs (Decidable True)

theorem writers_eq_zero (h : ∀ t ∈ s.tasks, t.phase = .between) : s.writers = 0 := by
  refine List.countP_eq_zero.mpr fun t ht => ?_
  rw [h t ht]
  exact Bool.false_ne_true

theorem LogPhase.eq_between {p : LogPhase Args} (h : p.isBetween = true) : p = .between := by
  cases p with
  | between => rfl
  | waiting c => exact absurd h Bool.false_ne_true
  | writing rest => exact absurd h Bool.false_ne_true

theorem InitIdle.outside {act : LogAct} (h : InitIdle s act) : InitOutside s act := by
  cases act with
  | init => exact writers_eq_zero fun t ht => LogPhase.eq_between (List.all_eq_true.mp h t ht)
  | run k => trivial
  | tick time => trivial
  | setLevel level => trivial

theorem runTasks_guarded (printf : Printf Args) (hs : Guarded s) (ks : List ℕ) :
    Guarded (runTasks printf s ks) := by
  refine exec_invariant (P := InitOutside) ?_ hs ?_
  · exact fun s act t hs hact hstep => step_guarded_of_outside hs hact hstep
  · refine along_mono ?_ (along_of_forall_mem (Q := fun act => ∃ k, act = .run k) (by simp) s)
    rintro s _ ⟨k, rfl⟩
    trivial

/-- No task is stuck, and none leaves the mutex taken: the tasks have a way on which all
calls return, and the mutex is free then. -/
theorem tasks_can_finish (printf : Printf Args) (cfg : LogConfig) (cfgLevel : LogLevel)
    (tasks : List (CString × List (LogCall Args))) (acts : List LogAct)
    (hinit : Along (step printf) InitIdle (start cfg cfgLevel tasks) acts) :
    ∃ ks,
      let s := runTasks printf (exec (step printf) (start cfg cfgLevel tasks) acts) ks
      s.mutex = 1 ∧ ∀ t ∈ s.tasks, t.phase = .between ∧ t.calls = [] := by
  have hguarded : Guarded (exec (step printf) (start cfg cfgLevel tasks) acts) :=
    exec_invariant (fun _ _ _ hs hact hstep => step_guarded_of_outside hs hact.outside hstep)
      (start_guarded cfg cfgLevel tasks) hinit
  obtain ⟨ks, hks⟩ := all_return printf hguarded.ge
  have hend := fun t => between_of_left hks (t := t)
  refine ⟨ks, ?_, hend⟩
  have hcount := runTasks_guarded printf hguarded ks
  rwa [Guarded, writers_eq_zero fun t ht => (hend t ht).1] at hcount

def twoTasks : List (CString × List (LogCall Unit)) :=
  [(LogText.chars "ble", [.rawString .info (some (LogText.chars "on")), .rawString .debug none]),
    (LogText.chars "app", [.rawString .error (some (LogText.chars "ok"))])]

def nameOnly : LogConfig := ⟨false, true, false, .debug⟩

theorem tasks_can_finish_two :
    ∃ ks,
      let s := runTasks LogText.plainPrintf
        (exec (step LogText.plainPrintf) (start nameOnly .info twoTasks)
          [.init, .run 0, .run 0, .run 0, .run 1, .setLevel .error]) ks
      s.mutex = 1 ∧ ∀ t ∈ s.tasks, t.phase = .between ∧ t.calls = [] :=
  tasks_can_finish LogText.plainPrintf nameOnly .info twoTasks _ (by decide)

end BleFirmware.LogTasks
