import BleFirmware.LogTasks

/-!
# The log as one task prints it

A serial log has no mutex: a task that passed the tests sends its whole line in one step.
A run of the tasks of `LogTasks` in which `log_init` is not called within the mutex sends
what a serial run sends, whose steps are some of its own: the lines are whole, and those of
a task are in the order of its calls.
-/

namespace BleFirmware.LogTasks
open Run

variable {Args : Type}

structure SerialTask (Args : Type) where
  name : CString
  waiting : Option (LogCall Args)
  calls : List (LogCall Args)

def SerialTask.left (t : SerialTask Args) : List (LogCall Args) := t.waiting.toList ++ t.calls

structure SerialLine (Args : Type) where
  task : ℕ
  call : LogCall Args
  state : LogState

structure Serial (Args : Type) where
  cfg : LogConfig
  cfgLevel : LogLevel
  logLevel : LogLevel
  tickTime : UInt32
  lines : List (SerialLine Args)
  tasks : List (SerialTask Args)

namespace Serial

def stateOf (a : Serial Args) (t : SerialTask Args) : LogState :=
  ⟨a.cfg, a.logLevel, t.name, a.tickTime⟩

def become (a : Serial Args) (k : ℕ) (t : SerialTask Args) : Serial Args :=
  { a with tasks := a.tasks.set k t }

def runTask (a : Serial Args) (k : ℕ) (t : SerialTask Args) : Serial Args :=
  match t.waiting, t.calls with
  | some c, _ =>
    become { a with lines := a.lines ++ [⟨k, c, a.stateOf t⟩] } k { t with waiting := none }
  | none, c :: calls =>
    if c.returnsEarly a.logLevel then a.become k { t with calls }
    else a.become k { t with waiting := some c, calls }
  | none, [] => a

def step (a : Serial Args) : LogAct → Option (Serial Args)
  | .run k =>
    match a.tasks[k]? with
    | some t => some (runTask a k t)
    | none => some a
  | .tick time => some { a with tickTime := time }
  | .setLevel level => some { a with logLevel := level }
  | .init => some { a with logLevel := a.cfgLevel }

def start (cfg : LogConfig) (cfgLevel : LogLevel) (tasks : List (CString × List (LogCall Args))) :
    Serial Args :=
  ⟨cfg, cfgLevel, cfgLevel, 0, [], tasks.map fun t => ⟨t.1, none, t.2⟩⟩

def text (printf : Printf Args) (a : Serial Args) : List (Option UInt8) :=
  a.lines.flatMap fun l => l.call.line printf l.state

def printed (a : Serial Args) (k : ℕ) : List (LogCall Args) :=
  (a.lines.filter (·.task = k)).map (·.call)

def callsOf (a : Serial Args) (k : ℕ) : List (LogCall Args) :=
  a.printed k ++ (a.tasks[k]?.map SerialTask.left).getD []

end Serial

namespace LogPhase

def waiting? : LogPhase Args → Option (LogCall Args)
  | waiting c => some c
  | _ => none

def rest : LogPhase Args → List (Option UInt8)
  | writing rest => rest
  | _ => []

@[simp] theorem waiting?_between : (between : LogPhase Args).waiting? = none := rfl

@[simp] theorem waiting?_waiting (c : LogCall Args) : (waiting c).waiting? = some c := rfl

@[simp] theorem waiting?_writing (r : List (Option UInt8)) :
    (writing r : LogPhase Args).waiting? = none := rfl

@[simp] theorem rest_between : (between : LogPhase Args).rest = [] := rfl

@[simp] theorem rest_waiting (c : LogCall Args) : (waiting c).rest = [] := rfl

@[simp] theorem rest_writing (r : List (Option UInt8)) : (writing r : LogPhase Args).rest = r := rfl

theorem rest_of_not_writing {p : LogPhase Args} (h : p.isWriting = false) : p.rest = [] := by
  cases p with
  | between => rfl
  | waiting c => rfl
  | writing rest => exact absurd h Bool.noConfusion

end LogPhase

def LogTask.serial (t : LogTask Args) : SerialTask Args := ⟨t.name, t.phase.waiting?, t.calls⟩

def LogShared.pending (s : LogShared Args) : List (Option UInt8) :=
  s.tasks.flatMap (·.phase.rest)

/-- The serial log in which a line that is being sent is sent already. -/
structure Serialised (printf : Printf Args) (s : LogShared Args) (a : Serial Args) : Prop where
  state : a = ⟨s.cfg, s.cfgLevel, s.logLevel, s.tickTime, a.lines, s.tasks.map LogTask.serial⟩
  text : s.uart ++ s.pending = a.text printf

variable {printf : Printf Args} {s s' : LogShared Args} {a : Serial Args} {k : ℕ}
  {t u : LogTask Args}

theorem flatMap_rest_none {tasks : List (LogTask Args)}
    (h : tasks.countP (·.phase.isWriting) = 0) : tasks.flatMap (·.phase.rest) = [] :=
  List.flatMap_eq_nil_iff.mpr fun v hv =>
    LogPhase.rest_of_not_writing (Bool.eq_false_iff.mpr (List.countP_eq_zero.mp h v hv))

theorem flatMap_rest_set {tasks : List (LogTask Args)} (h : tasks[k]? = some t)
    (hcount : tasks.countP (·.phase.isWriting) = if t.phase.isWriting then 1 else 0)
    (u : LogTask Args) : (tasks.set k u).flatMap (·.phase.rest) = u.phase.rest := by
  induction tasks generalizing k with
  | nil => simp at h
  | cons v tasks ih =>
    rw [List.countP_cons] at hcount
    cases k with
    | zero =>
      obtain rfl : v = t := by simpa using h
      have hnone : tasks.countP (·.phase.isWriting) = 0 := by omega
      rw [List.set_cons_zero, List.flatMap_cons, flatMap_rest_none hnone, List.append_nil]
    | succ k =>
      have htail : tasks[k]? = some t := by simpa using h
      have hleast : (if t.phase.isWriting then 1 else 0) ≤ tasks.countP (·.phase.isWriting) := by
        split_ifs with hwriting
        · exact List.countP_pos_iff.mpr ⟨t, List.mem_of_getElem? htail, hwriting⟩
        · exact Nat.zero_le _
      cases hv : v.phase.isWriting with
      | true =>
        rw [hv, if_pos rfl] at hcount
        omega
      | false =>
        rw [hv, if_neg Bool.false_ne_true, Nat.add_zero] at hcount
        rw [List.set_cons_succ, List.flatMap_cons, LogPhase.rest_of_not_writing hv,
          ih htail hcount, List.nil_append]

theorem set_self {α : Type*} {xs : List α} {x : α} (h : xs[k]? = some x) : xs.set k x = xs := by
  obtain ⟨hk, rfl⟩ := List.getElem?_eq_some_iff.mp h
  exact List.set_getElem_self hk

theorem pending_become (h : s.tasks[k]? = some t)
    (hcount : s.writers = if t.phase.isWriting then 1 else 0) (u : LogTask Args) :
    (s.become k u).pending = u.phase.rest :=
  flatMap_rest_set h hcount u

theorem pending_eq (h : s.tasks[k]? = some t)
    (hcount : s.writers = if t.phase.isWriting then 1 else 0) :
    s.pending = t.phase.rest := by
  have hset := pending_become h hcount t
  rwa [LogShared.become, set_self h] at hset

theorem writers_of_writing (hs : Guarded s) (h : s.tasks[k]? = some t)
    (hwriting : t.phase.isWriting = true) : s.writers = if t.phase.isWriting then 1 else 0 := by
  have hpos : 0 < s.writers := List.countP_pos_iff.mpr ⟨t, List.mem_of_getElem? h, hwriting⟩
  have hguard : s.mutex + s.writers = 1 := hs
  rw [if_pos hwriting]
  omega

theorem Serialised.task (hR : Serialised printf s a) (h : s.tasks[k]? = some t) :
    a.tasks[k]? = some t.serial := by
  rw [hR.state, List.getElem?_map, h]
  rfl

theorem pending_same (h : s.tasks[k]? = some t)
    (hrest : u.phase.rest = t.phase.rest) :
    (s.become k u).pending = s.pending := by
  have hmap : (s.tasks.set k u).map (·.phase.rest) =
      s.tasks.map (·.phase.rest) := by
    rw [List.map_set, hrest]
    exact set_self (by rw [List.getElem?_map, h, Option.map_some])
  change (s.tasks.set k u).flatMap _ = s.tasks.flatMap _
  rw [List.flatMap_def, List.flatMap_def, hmap]

theorem Serialised.become (hR : Serialised printf s a) (h : s.tasks[k]? = some t)
    (hrest : u.phase.rest = t.phase.rest) :
    Serialised printf (s.become k u) (a.become k u.serial) where
  state := by
    rw [hR.state]
    simp only [Serial.become, LogShared.become, List.map_set]
  text := (congrArg (s.uart ++ ·) (pending_same h hrest)).trans hR.text

theorem Serialised.within (hR : Serialised printf s a) (h : s.tasks[k]? = some t)
    (hserial : u.serial = t.serial) {mutex : ℕ} {uart : List (Option UInt8)}
    (htext : uart ++ (s.become k u).pending = s.uart ++ s.pending) :
    Serialised printf ({ s with mutex, uart }.become k u) a where
  state := by
    refine hR.state.trans ?_
    simp only [LogShared.become, List.map_set, hserial]
    rw [set_self (by rw [List.getElem?_map, h, Option.map_some])]
  text := htext.trans hR.text

theorem Serialised.take {c : LogCall Args} (hR : Serialised printf s a) (hs : Guarded s)
    (h : s.tasks[k]? = some t) (hphase : t.phase = .waiting c) (hfree : s.mutex ≠ 0) :
    Serialised printf
      ({ s with mutex := s.mutex - 1 }.become k
        { t with phase := .writing (c.line printf (s.stateOf t)) })
      (a.runTask k t.serial) := by
  have hguard : s.mutex + s.writers = 1 := hs
  have hcount : s.writers = if t.phase.isWriting then 1 else 0 := by
    rw [hphase, LogPhase.isWriting_waiting, if_neg Bool.false_ne_true]
    omega
  have hnone : s.pending = [] := by rw [pending_eq h hcount, hphase, LogPhase.rest_waiting]
  have hfound : a.stateOf t.serial = s.stateOf t := by rw [hR.state]; rfl
  have hrun : a.runTask k t.serial =
      Serial.become { a with lines := a.lines ++ [⟨k, c, s.stateOf t⟩] } k ⟨t.name, none, t.calls⟩ := by
    simp only [Serial.runTask, LogTask.serial, hphase, LogPhase.waiting?_waiting]
    rw [← hfound]
    simp only [LogTask.serial, hphase, LogPhase.waiting?_waiting]
  rw [hrun]
  refine ⟨?_, ?_⟩
  · rw [hR.state]
    simp only [Serial.become, LogShared.become, List.map_set]
    rfl
  · have hpending := pending_become h hcount { t with phase := .writing (c.line printf (s.stateOf t)) }
    have htext := hR.text
    rw [hnone, List.append_nil] at htext
    change s.uart ++ (s.become k _).pending = _
    rw [hpending, htext]
    simp only [Serial.text, Serial.become, List.flatMap_append, List.flatMap_singleton]
    rfl

theorem Serialised.move (hR : Serialised printf s a) (hs : Guarded s) (h : s.tasks[k]? = some t)
    (hmove : Move printf s k t s') :
    Serialised printf s' a ∨ Serialised printf s' (a.runTask k t.serial) := by
  have hlevel : a.logLevel = s.logLevel := by rw [hR.state]
  cases hmove with
  | stay => exact .inl hR
  | @drop c calls phase head early =>
    have hrun : a.runTask k t.serial = a.become k (LogTask.serial { t with calls }) := by
      simp only [Serial.runTask, LogTask.serial, phase, LogPhase.waiting?_between, head, hlevel, early, if_true]
    exact .inr (hrun ▸ hR.become h rfl)
  | @enter c calls phase head late =>
    have hrun : a.runTask k t.serial =
        a.become k (LogTask.serial { t with phase := .waiting c, calls }) := by
      simp only [Serial.runTask, LogTask.serial, phase, LogPhase.waiting?_between, head, hlevel, late,
        Bool.false_eq_true, if_false]
      rfl
    exact .inr (hrun ▸ hR.become h (by rw [phase]; rfl))
  | take phase free => exact .inr (hR.take hs h phase free)
  | @send b rest phase =>
    have hcount := writers_of_writing hs h (by rw [phase]; rfl)
    refine .inl (hR.within h (by simp only [LogTask.serial, phase, LogPhase.waiting?_writing]) ?_)
    rw [pending_become h hcount, pending_eq h hcount, phase]
    simp only [LogPhase.rest_writing, List.append_assoc, List.singleton_append]
  | post phase =>
    have hcount := writers_of_writing hs h (by rw [phase]; rfl)
    refine .inl (hR.within h (by simp only [LogTask.serial, phase, LogPhase.waiting?_writing,
      LogPhase.waiting?_between]) ?_)
    rw [pending_become h hcount, pending_eq h hcount, phase]
    rfl

theorem Serialised.step {act : LogAct} (hR : Serialised printf s a) (hs : Guarded s)
    (hstep : LogTasks.step printf s act = some s') :
    Serialised printf s' a ∨ ∃ a', a.step act = some a' ∧ Serialised printf s' a' := by
  cases act with
  | run k =>
    cases ht : s.tasks[k]? with
    | none =>
      simp only [LogTasks.step, ht, Option.some.injEq] at hstep
      exact .inl (hstep ▸ hR)
    | some t =>
      simp only [LogTasks.step, ht, Option.some.injEq] at hstep
      subst hstep
      have hserial : a.step (.run k) = some (a.runTask k t.serial) := by
        simp only [Serial.step, hR.task ht]
      exact (hR.move hs ht (runTask_move printf s k t)).imp_right fun hnext => ⟨_, hserial, hnext⟩
  | tick time =>
    obtain rfl := Option.some.inj hstep
    exact .inr ⟨_, rfl, by rw [hR.state], hR.text⟩
  | setLevel level =>
    obtain rfl := Option.some.inj hstep
    exact .inr ⟨_, rfl, by rw [hR.state], hR.text⟩
  | init =>
    obtain rfl := Option.some.inj hstep
    exact .inr ⟨_, rfl, by rw [hR.state], hR.text⟩

theorem start_serialised (printf : Printf Args) (cfg : LogConfig) (cfgLevel : LogLevel)
    (tasks : List (CString × List (LogCall Args))) :
    Serialised printf (start cfg cfgLevel tasks) (Serial.start cfg cfgLevel tasks) where
  state := by
    simp only [Serial.start, start, List.map_map]
    rfl
  text := by
    have hnone : (start cfg cfgLevel tasks).writers = 0 := by
      have hguard : 1 + (start cfg cfgLevel tasks).writers = 1 := start_guarded cfg cfgLevel tasks
      omega
    exact (congrArg ([] ++ ·) (flatMap_rest_none hnone)).trans rfl

namespace Serial

variable {a' : Serial Args} {v w : SerialTask Args}

theorem runTask_waiting (name : CString) (c : LogCall Args) (calls : List (LogCall Args)) :
    a.runTask k ⟨name, some c, calls⟩ =
      become { a with lines := a.lines ++ [⟨k, c, a.stateOf ⟨name, some c, calls⟩⟩] } k
        ⟨name, none, calls⟩ := rfl

theorem runTask_next (name : CString) (c : LogCall Args) (calls : List (LogCall Args)) :
    a.runTask k ⟨name, none, c :: calls⟩ =
      if c.returnsEarly a.logLevel then a.become k ⟨name, none, calls⟩
      else a.become k ⟨name, some c, calls⟩ := rfl

theorem callsOf_task (h : a.tasks[k]? = some v) : a.callsOf k = a.printed k ++ v.left := by
  rw [callsOf, h, Option.map_some, Option.getD_some]

theorem callsOf_become_self (a : Serial Args) (h : k < a.tasks.length) :
    (a.become k w).callsOf k = a.printed k ++ w.left :=
  callsOf_task (List.getElem?_set_self h)

theorem callsOf_become_ne {i : ℕ} (hi : k ≠ i) : (a.become k w).callsOf i = a.callsOf i := by
  simp only [callsOf, become, List.getElem?_set_ne hi]
  rfl

/-- A call that a task prints is the next of its calls, and those in front of it were printed
or did not pass the tests. -/
theorem callsOf_runTask (h : a.tasks[k]? = some v) (i : ℕ) :
    ((a.runTask k v).callsOf i).Sublist (a.callsOf i) := by
  obtain ⟨name, waiting, calls⟩ := v
  by_cases hi : k = i
  · subst hi
    have hk : k < a.tasks.length := (List.getElem?_eq_some_iff.mp h).1
    rw [callsOf_task h]
    cases waiting with
    | some c =>
      have hself := callsOf_become_self (w := ⟨name, none, calls⟩)
        { a with lines := a.lines ++ [⟨k, c, a.stateOf ⟨name, some c, calls⟩⟩] } hk
      have hprinted :
          printed { a with lines := a.lines ++ [⟨k, c, a.stateOf ⟨name, some c, calls⟩⟩] } k =
            a.printed k ++ [c] := by
        simp [printed]
      rw [runTask_waiting, hself, hprinted, List.append_assoc]
      exact List.Sublist.refl _
    | none =>
      cases calls with
      | nil => exact (callsOf_task h).symm ▸ List.Sublist.refl _
      | cons c calls =>
        rw [runTask_next]
        split_ifs with hearly
        · rw [callsOf_become_self a hk]
          exact (List.sublist_cons_self c calls).append_left _
        · rw [callsOf_become_self a hk]
          exact List.Sublist.refl _
  · cases waiting with
    | some c =>
      rw [runTask_waiting, callsOf_become_ne hi]
      simp [callsOf, printed, hi]
    | none =>
      cases calls with
      | nil => exact List.Sublist.refl _
      | cons c calls =>
        rw [runTask_next]
        split_ifs with hearly
        · rw [callsOf_become_ne hi]
        · rw [callsOf_become_ne hi]

theorem callsOf_step {act : LogAct} (hstep : a.step act = some a') (i : ℕ) :
    (a'.callsOf i).Sublist (a.callsOf i) := by
  cases act with
  | run k =>
    cases hv : a.tasks[k]? with
    | none =>
      simp only [step, hv, Option.some.injEq] at hstep
      exact hstep ▸ List.Sublist.refl _
    | some v =>
      simp only [step, hv, Option.some.injEq] at hstep
      exact hstep ▸ callsOf_runTask hv i
  | tick time =>
    obtain rfl := Option.some.inj hstep
    exact List.Sublist.refl _
  | setLevel level =>
    obtain rfl := Option.some.inj hstep
    exact List.Sublist.refl _
  | init =>
    obtain rfl := Option.some.inj hstep
    exact List.Sublist.refl _

theorem callsOf_exec (a : Serial Args) (acts : List LogAct) (i : ℕ) :
    ((exec step a acts).callsOf i).Sublist (a.callsOf i) :=
  exec_invariant (I := fun b => (b.callsOf i).Sublist (a.callsOf i)) (P := fun _ _ => True)
    (fun _ _ _ hb _ hstep => (callsOf_step hstep i).trans hb) (List.Sublist.refl _)
    (along_of_forall (fun _ _ => trivial) a acts)

end Serial

/-- What the tasks send is what a serial run sends, but for the end of a line of the one
task that sends, if any, and each task's lines are those of its calls in their order. -/
theorem run_is_serial (printf : Printf Args) (cfg : LogConfig) (cfgLevel : LogLevel)
    (tasks : List (CString × List (LogCall Args))) (acts : List LogAct)
    (hinit : Along (step printf) InitOutside (start cfg cfgLevel tasks) acts) :
    ∃ serial : List LogAct, serial.Sublist acts ∧
      let a := exec Serial.step (Serial.start cfg cfgLevel tasks) serial
      Serialised printf (exec (step printf) (start cfg cfgLevel tasks) acts) a ∧
        (exec (step printf) (start cfg cfgLevel tasks) acts).writers ≤ 1 ∧
        ∀ k t, tasks[k]? = some t → (a.callsOf k).Sublist t.2 := by
  have hguarded := along_of_invariant (I := Guarded) (P := InitOutside)
    (Q := fun s act => Guarded s ∧ InitOutside s act)
    (fun _ _ _ hs hact hstep => step_guarded_of_outside hs hact hstep)
    (fun _ _ hs hact => ⟨hs, hact⟩) (start_guarded cfg cfgLevel tasks) hinit
  have hstep (s : LogShared Args) (a : Serial Args) (act : LogAct) (s' : LogShared Args)
      (hR : Serialised printf s a) (hs : Guarded s ∧ InitOutside s act)
      (hs' : step printf s act = some s') :
      Serialised printf s' a ∨ ∃ a', a.step act = some a' ∧ Serialised printf s' a' :=
    hR.step hs.1 hs'
  obtain ⟨serial, hsub, hend⟩ :=
    exec_stutters hstep (start_serialised printf cfg cfgLevel tasks) hguarded
  have hone : Guarded (exec (step printf) (start cfg cfgLevel tasks) acts) :=
    exec_invariant (fun _ _ _ hs hact hstep => step_guarded_of_outside hs hact hstep)
      (start_guarded cfg cfgLevel tasks) hinit
  refine ⟨serial, hsub, hend, hone ▸ Nat.le_add_left _ _, fun k t ht => ?_⟩
  have hcalls := Serial.callsOf_exec (Serial.start cfg cfgLevel tasks) serial k
  have hfirst : (Serial.start cfg cfgLevel tasks).callsOf k = t.2 := by
    simp [Serial.callsOf, Serial.printed, Serial.start, SerialTask.left, ht]
  rwa [hfirst] at hcalls

def interleaved : List LogAct :=
  [.run 0, .run 1, .run 0, .run 0, .run 1, .tick 7, .run 0, .run 0, .run 1, .run 1, .run 0, .run 1,
    .run 1, .init]

theorem run_is_serial_two :
    ∃ serial : List LogAct, serial.Sublist interleaved ∧
      let a := exec Serial.step (Serial.start nameOnly .info twoTasks) serial
      Serialised LogText.plainPrintf
          (exec (step LogText.plainPrintf) (start nameOnly .info twoTasks) interleaved) a ∧
        (exec (step LogText.plainPrintf) (start nameOnly .info twoTasks) interleaved).writers ≤ 1 ∧
        ∀ k t, twoTasks[k]? = some t → (a.callsOf k).Sublist t.2 :=
  run_is_serial LogText.plainPrintf nameOnly .info twoTasks interleaved (by decide)

end BleFirmware.LogTasks
