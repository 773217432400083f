import BleFirmware.BleHostEvents

/-!
# The task of the host handlers

The stack keeps the connections that are open, and puts what happens to them into the
queue of the task that calls the handlers. A handler runs later than its event happens, and
asks the stack how many connections are open when it runs. The stack is no part of the
sources: it may open a connection as long as it has a free one, close any, and report at
any time, the pairing of a connection also behind its end.

From what the handlers ask of the advertising module it follows whether the device can be
found, and from the registry which links the other modules see.
-/

namespace BleFirmware.BleHostTask
open Run CSort BleLinkMap BleHostEvents

/-- What the stack puts into the queue, for the event masks of `ble_host_init.c`. -/
inductive StackEvent
  | established (event : GapEstLinkReqEvent)
  | terminated (connectionHandle : UInt16)
  | paramUpdateReq (pReq : Addr)
  | pairing (state : PairingState) (connHandle : UInt16)

/-- The open connections after an event, if it can happen. -/
def StackEvent.happen (numConns : UInt8) (active : List UInt16) : StackEvent → Option (List UInt16)
  | established event =>
    if active.length < numConns.toNat ∧ event.connectionHandle ∉ active then
      some (event.connectionHandle :: active)
    else none
  | terminated handle => if handle ∈ active then some (active.erase handle) else none
  | paramUpdateReq _ => some active
  | pairing _ _ => some active

def StackEvent.arrive (now : UInt64) (numActive numConns : UInt8) : StackEvent → HostEvent
  | established event => .gapConn (.linkEstablished event now numActive numConns)
  | terminated handle => .gapConn (.linkTerminated handle)
  | paramUpdateReq pReq => .gapConn (.linkParamUpdateReq pReq)
  | pairing state handle => .pairState state handle

structure HostTask where
  active : List UInt16
  queue : List StackEvent
  host : BleHost

inductive TaskAct
  | happen (event : StackEvent)
  | handle (now : UInt64)

/-- What cannot happen changes nothing; a handler that follows a NULL pointer ends the run. -/
def step (lib : Stdlib) (cfg : BleHostConfig) (numConns : UInt8) (s : HostTask) :
    TaskAct → Option HostTask
  | .happen event =>
    match event.happen numConns s.active with
    | some active => some { s with active, queue := s.queue ++ [event] }
    | none => some s
  | .handle now =>
    match s.queue with
    | [] => some s
    | event :: queue =>
      (hostStep lib cfg s.host (event.arrive now (UInt8.ofNat s.active.length) numConns)).map
        fun host => { s with queue, host }

/-- After `stack_init_done`, which registers the handlers and starts advertising. -/
def start (cfg : BleHostConfig) (dataArray : ℕ) : HostTask :=
  ⟨[], [], { hostStatic cfg dataArray with calls := [.advStart] }⟩

variable {lib : Stdlib} {cfg : BleHostConfig} {numConns : UInt8} {s s' : HostTask}

theorem step_cases {act : TaskAct} (h : step lib cfg numConns s act = some s') :
    s' = s ∨
    (∃ event active, act = .happen event ∧ event.happen numConns s.active = some active ∧
      s' = { s with active, queue := s.queue ++ [event] }) ∨
    ∃ event queue now host, s.queue = event :: queue ∧
      hostStep lib cfg s.host (event.arrive now (UInt8.ofNat s.active.length) numConns) =
        some host ∧ s' = { s with queue, host } := by
  cases act with
  | happen event =>
    simp only [step] at h
    split at h
    next active hactive =>
      exact Or.inr (Or.inl ⟨event, active, rfl, hactive, (Option.some.inj h).symm⟩)
    next => exact Or.inl (Option.some.inj h).symm
  | handle now =>
    simp only [step] at h
    split at h
    next => exact Or.inl (Option.some.inj h).symm
    next event queue hqueue =>
      obtain ⟨host, hhost, hs'⟩ := Option.map_eq_some_iff.mp h
      exact Or.inr (Or.inr ⟨event, queue, now, host, hqueue, hhost, hs'.symm⟩)

def isAdv (c : HostCall) : Bool := c = .advStart ∨ c = .advStop

def lastAdv (h : BleHost) : Option HostCall := (h.calls.filter isAdv).getLast?

def wanted (numConns : UInt8) (active : List UInt16) : HostCall :=
  if active.length < numConns.toNat then .advStart else .advStop

def StackEvent.asks : StackEvent → Bool
  | established _ => true
  | terminated _ => true
  | _ => false

def lastAsking (queue : List StackEvent) : Option StackEvent := (queue.filter StackEvent.asks).getLast?

/-- While its queue is not empty the task lags behind the stack. The last event that asks
settles what the host asks for; where that is a connection that ended, which asks for the
start whatever the stack answers, a connection is free. -/
structure Settles (numConns : UInt8) (s : HostTask) : Prop where
  bounded : s.active.length ≤ numConns.toNat
  asked : lastAsking s.queue = none → lastAdv s.host = some (wanted numConns s.active)
  room : ∀ handle, lastAsking s.queue = some (.terminated handle) →
    s.active.length < numConns.toNat

variable {active active' : List UInt16} {event : StackEvent} {queue : List StackEvent}

theorem happen_cases (h : event.happen numConns active = some active') :
    (∃ e, event = .established e ∧ active.length < numConns.toNat ∧
      e.connectionHandle ∉ active ∧ active' = e.connectionHandle :: active) ∨
    (∃ handle, event = .terminated handle ∧ handle ∈ active ∧ active' = active.erase handle) ∨
    event.asks = false ∧ active' = active := by
  cases event with
  | established e =>
    obtain ⟨⟨hroom, hnew⟩, h⟩ := Option.ite_none_right_eq_some.mp h
    exact Or.inl ⟨e, rfl, hroom, hnew, (Option.some.inj h).symm⟩
  | terminated handle =>
    obtain ⟨hmem, h⟩ := Option.ite_none_right_eq_some.mp h
    exact Or.inr (Or.inl ⟨handle, rfl, hmem, (Option.some.inj h).symm⟩)
  | paramUpdateReq pReq => exact Or.inr (Or.inr ⟨rfl, (Option.some.inj h).symm⟩)
  | pairing state handle => exact Or.inr (Or.inr ⟨rfl, (Option.some.inj h).symm⟩)

theorem lastAsking_append (queue : List StackEvent) (event : StackEvent) :
    lastAsking (queue ++ [event]) = if event.asks then some event else lastAsking queue := by
  unfold lastAsking
  cases hasks : event.asks <;> simp [List.filter_append, hasks]

theorem lastAsking_cons (event : StackEvent) (queue : List StackEvent) :
    lastAsking (event :: queue) =
      (lastAsking queue).or (if event.asks then some event else none) := by
  unfold lastAsking
  rw [← List.singleton_append, List.filter_append, List.getLast?_append]
  cases hasks : event.asks <;> simp [hasks]

def StackEvent.request (numActive numConns : UInt8) : StackEvent → Option HostCall
  | established _ => some (if numActive < numConns then .advStart else .advStop)
  | terminated _ => some .advStart
  | _ => none

theorem lastAdv_append (h : BleHost) (registry : BleLinkRegistry) (calls : List HostCall) :
    lastAdv ⟨registry, h.calls ++ calls⟩ = (calls.filter isAdv).getLast?.or (lastAdv h) := by
  unfold lastAdv
  rw [List.filter_append, List.getLast?_append]

theorem lastAdv_securityEnable {h h' : BleHost} {handle : UInt16} {pLink : Option ℕ}
    (hstep : securityEnable h handle pLink = some h') : lastAdv h' = lastAdv h := by
  cases pLink with
  | none => cases hstep
  | some p =>
    unfold securityEnable at hstep
    dsimp only at hstep
    split_ifs at hstep
    · obtain rfl := Option.some.inj hstep
      exact lastAdv_append h _ _
    · rw [Option.some.inj hstep]

theorem lastAdv_arrive {h h' : BleHost} {now : UInt64} {numActive : UInt8}
    (hstep : hostStep lib cfg h (event.arrive now numActive numConns) = some h') :
    lastAdv h' = (event.request numActive numConns).or (lastAdv h) := by
  cases event with
  | established e =>
    obtain ⟨r, -, rfl⟩ := Option.map_eq_some_iff.mp hstep
    rw [lastAdv_append]
    simp only [StackEvent.request]
    split_ifs <;> rfl
  | terminated handle =>
    obtain ⟨r, -, rfl⟩ := Option.map_eq_some_iff.mp hstep
    exact lastAdv_append h _ _
  | paramUpdateReq pReq =>
    obtain rfl := Option.some.inj hstep
    exact lastAdv_append h _ _
  | pairing state handle =>
    cases state with
    | complete => exact lastAdv_securityEnable hstep
    | encrypted => exact lastAdv_securityEnable hstep
    | started | bondSaved | other =>
      obtain rfl := Option.some.inj hstep
      rfl

theorem Settles.happen (hs : Settles numConns s)
    (h : event.happen numConns s.active = some active') :
    Settles numConns { s with active := active', queue := s.queue ++ [event] } := by
  obtain ⟨e, rfl, hroom, -, rfl⟩ | ⟨handle, rfl, hmem, rfl⟩ | ⟨hasks, rfl⟩ := happen_cases h
  · have hlast : lastAsking (s.queue ++ [.established e]) = some (.established e) :=
      lastAsking_append s.queue _
    refine ⟨hroom, fun hnone => ?_, fun handle hterm => ?_⟩
    · cases hlast.symm.trans hnone
    · cases hlast.symm.trans hterm
  · have hlast : lastAsking (s.queue ++ [.terminated handle]) = some (.terminated handle) :=
      lastAsking_append s.queue _
    have hpos := List.length_pos_of_mem hmem
    have hlen : (s.active.erase handle).length < numConns.toNat := by
      rw [List.length_erase_of_mem hmem]
      have hle := hs.bounded
      omega
    refine ⟨hlen.le, fun hnone => ?_, fun _ _ => hlen⟩
    cases hlast.symm.trans hnone
  · have hlast := lastAsking_append s.queue event
    rw [if_neg (Bool.eq_false_iff.mp hasks)] at hlast
    exact ⟨hs.bounded, fun hnone => hs.asked (hlast.symm.trans hnone),
      fun handle hterm => hs.room handle (hlast.symm.trans hterm)⟩

theorem numActive_lt_iff (hle : active.length ≤ numConns.toNat) :
    UInt8.ofNat active.length < numConns ↔ active.length < numConns.toNat := by
  have hmod : (UInt8.ofNat active.length).toNat = active.length :=
    Nat.mod_eq_of_lt (hle.trans_lt numConns.toNat_lt)
  rw [UInt8.lt_iff_toNat_lt, hmod]

theorem Settles.handle (hs : Settles numConns s) (hqueue : s.queue = event :: queue)
    {now : UInt64} {host : BleHost}
    (h : hostStep lib cfg s.host (event.arrive now (UInt8.ofNat s.active.length) numConns) =
      some host) : Settles numConns { s with queue, host } := by
  have hcons := lastAsking_cons event queue
  rw [← hqueue] at hcons
  refine ⟨hs.bounded, fun hnone => ?_, fun handle hterm => hs.room handle ?_⟩
  · -- nothing else asks: the handler asks by what the stack answers now
    have hadv := lastAdv_arrive h
    dsimp only at hnone ⊢
    rw [hnone, Option.none_or] at hcons
    rw [hadv]
    cases event with
    | established e =>
      simp only [StackEvent.request, wanted, numActive_lt_iff hs.bounded, Option.some_or]
    | terminated handle =>
      rw [wanted, if_pos (hs.room handle hcons)]
      rfl
    | paramUpdateReq pReq => exact hs.asked hcons
    | pairing state handle => exact hs.asked hcons
  · dsimp only at hterm
    rw [hcons, hterm, Option.some_or]

theorem step_settles {act : TaskAct} (hs : Settles numConns s)
    (h : step lib cfg numConns s act = some s') : Settles numConns s' := by
  obtain rfl | ⟨event, active, -, hhappen, rfl⟩ | ⟨event, queue, now, host, hqueue, hhost, rfl⟩ :=
    step_cases h
  · exact hs
  · exact hs.happen hhappen
  · exact hs.handle hqueue hhost

theorem start_settles (cfg : BleHostConfig) (dataArray : ℕ) (hn : 0 < numConns) :
    Settles numConns (start cfg dataArray) := by
  refine ⟨Nat.zero_le _, fun _ => ?_, nofun⟩
  exact congrArg some (if_pos (UInt8.lt_iff_toNat_lt.mp hn)).symm

theorem lastAsking_eq_none {queue : List StackEvent} :
    lastAsking queue = none ↔ ∀ event ∈ queue, event.asks = false := by
  simp [lastAsking]

/-- Whatever the stack does and however far the task lags behind: when no connection and no
disconnection waits, the host has asked for advertising last exactly if a connection is
free. -/
theorem advertises_iff_free (lib : Stdlib) (cfg : BleHostConfig) (dataArray : ℕ)
    (hn : 0 < numConns) (acts : List TaskAct) :
    let s := exec (step lib cfg numConns) (start cfg dataArray) acts
    (∀ event ∈ s.queue, event.asks = false) →
      lastAdv s.host = some (if s.active.length < numConns.toNat then .advStart else .advStop) := by
  intro s hquiet
  have hs : Settles numConns s :=
    exec_invariant (P := fun _ _ => True) (fun _ _ _ hI _ hstep => step_settles hI hstep)
      (start_settles cfg dataArray hn) (along_of_forall (fun _ _ => trivial) _ _)
  exact hs.asked (lastAsking_eq_none.mpr hquiet)

theorem advertises_iff_free_taken :
    let s := exec (step .reference ⟨⟨4, 244⟩, 65⟩ 1) (start ⟨⟨4, 244⟩, 65⟩ 512)
      [.happen (.established ⟨5, 1, 0, fun _ => 1⟩), .handle 0, .happen (.pairing .started 5)]
    (∀ event ∈ s.queue, event.asks = false) ∧ lastAdv s.host = some .advStop :=
  ⟨by decide, (advertises_iff_free .reference _ 512 (by decide) _ (by decide)).trans (by decide)⟩

variable {seen seen' : List UInt16} {only : List UInt16 → StackEvent → Prop}

theorem happen_connected {linkCount : ℕ} (hcount : numConns.toNat ≤ linkCount)
    (h : event.happen numConns seen = some seen') (now : UInt64) (numActive : UInt8) :
    connected linkCount seen (event.arrive now numActive numConns) = seen' := by
  obtain ⟨e, rfl, hroom, -, rfl⟩ | ⟨handle, rfl, -, rfl⟩ | ⟨hasks, rfl⟩ := happen_cases h
  · exact if_neg (hroom.trans_le hcount).ne
  · rfl
  · cases event with
    | established e => cases hasks
    | terminated handle => cases hasks
    | paramUpdateReq pReq => rfl
    | pairing state handle => rfl

/-- From the connections `seen` the events of the queue lead to the open ones, each of them
one that `only` admits. -/
def Leads (only : List UInt16 → StackEvent → Prop) (numConns : UInt8) (active : List UInt16) :
    List UInt16 → List StackEvent → Prop
  | seen, [] => seen = active
  | seen, event :: queue =>
    only seen event ∧ ∃ seen', event.happen numConns seen = some seen' ∧
      Leads only numConns active seen' queue

theorem Leads.append (h : Leads only numConns active seen queue) (honly : only active event)
    (hhappen : event.happen numConns active = some active') :
    Leads only numConns active' seen (queue ++ [event]) := by
  induction queue generalizing seen with
  | nil =>
    obtain rfl : seen = active := h
    exact ⟨honly, active', hhappen, rfl⟩
  | cons first queue ih =>
    obtain ⟨hfirst, seen', hseen', hrest⟩ := h
    exact ⟨hfirst, seen', hseen', ih hrest⟩

/-- The registry holds the connections of the events that were handled; those that wait lead
from there to the connections that are open. -/
def Synced (only : List UInt16 → StackEvent → Prop) (cfg : BleHostConfig) (numConns : UInt8)
    (s : HostTask) : Prop :=
  ∃ seen, Leads only numConns s.active seen s.queue ∧
    Registered cfg.toBleLinkConfig s.host.registry seen

def Reports (only : List UInt16 → StackEvent → Prop) (s : HostTask) : TaskAct → Prop
  | .happen event => only s.active event
  | .handle _ => True

theorem start_synced (only : List UInt16 → StackEvent → Prop) (cfg : BleHostConfig)
    (numConns : UInt8) (dataArray : ℕ) : Synced only cfg numConns (start cfg dataArray) :=
  ⟨[], rfl, .static dataArray⟩

theorem registered_step {e : HostEvent} {h h' : BleHost}
    (hreg : Registered cfg.toBleLinkConfig h.registry seen) (hstep : hostStep lib cfg h e = some h') :
    Registered cfg.toBleLinkConfig h'.registry (connected cfg.linkCount seen e) := by
  by_cases hreads : ReadsConnected seen e
  · obtain ⟨host, hhost, hreg'⟩ := step_connected lib hreg hreads
    obtain rfl : host = h' := Option.some.inj (hhost.symm.trans hstep)
    exact hreg'
  · cases (step_unconnected hreg hreads).symm.trans hstep

theorem Synced.handle (hcount : numConns.toNat ≤ cfg.linkCount) (hs : Synced only cfg numConns s)
    (hqueue : s.queue = event :: queue) {now : UInt64} {numActive : UInt8} {host : BleHost}
    (h : hostStep lib cfg s.host (event.arrive now numActive numConns) = some host) :
    Synced only cfg numConns { s with queue, host } := by
  obtain ⟨seen, hlead, hreg⟩ := hs
  rw [hqueue] at hlead
  obtain ⟨-, seen', hhappen, hlead'⟩ := hlead
  have hreg' := registered_step hreg h
  rw [happen_connected hcount hhappen] at hreg'
  exact ⟨seen', hlead', hreg'⟩

theorem step_synced (hcount : numConns.toNat ≤ cfg.linkCount) {act : TaskAct}
    (hs : Synced only cfg numConns s) (hreports : Reports only s act)
    (h : step lib cfg numConns s act = some s') : Synced only cfg numConns s' := by
  obtain rfl | ⟨event, active, rfl, hhappen, rfl⟩ | ⟨event, queue, now, host, hqueue, hhost, rfl⟩ :=
    step_cases h
  · exact hs
  · obtain ⟨seen, hlead, hreg⟩ := hs
    exact ⟨seen, hlead.append hreports hhappen, hreg⟩
  · exact hs.handle hcount hqueue hhost

def InTime (active : List UInt16) : StackEvent → Prop
  | .pairing _ handle => handle ∈ active
  | _ => True

theorem reads_inTime (h : InTime seen event) (now : UInt64) (numActive numConns : UInt8) :
    ReadsConnected seen (event.arrive now numActive numConns) := by
  cases event with
  | established e => trivial
  | terminated handle => trivial
  | paramUpdateReq pReq => trivial
  | pairing state handle =>
    cases state with
    | complete => exact h
    | encrypted => exact h
    | started | bondSaved | other => trivial

theorem synced_answered (lib : Stdlib) (hs : Synced InTime cfg numConns s) (act : TaskAct) :
    (step lib cfg numConns s act).isSome = true := by
  cases act with
  | happen event =>
    simp only [step]
    split <;> rfl
  | handle now =>
    cases hqueue : s.queue with
    | nil => simp only [step, hqueue, Option.isSome_some]
    | cons event queue =>
      obtain ⟨seen, hlead, hreg⟩ := hs
      rw [hqueue] at hlead
      obtain ⟨host, hhost, -⟩ := step_connected lib hreg
        (reads_inTime hlead.1 now (UInt8.ofNat s.active.length) numConns)
      simp only [step, hqueue, hhost, Option.map_some, Option.isSome_some]

structure Crowded (cfg : BleHostConfig) (k : ℕ) (s : HostTask) : Prop where
  active : s.active = (List.range k).reverse.map UInt16.ofNat
  queue : s.queue = []
  registered : ∃ handles, Registered cfg.toBleLinkConfig s.host.registry handles ∧
    handles.length = min k cfg.linkCount

theorem ofNat_inj {m n : ℕ} (hm : m < 2^16) (hn : n < 2^16)
    (h : UInt16.ofNat m = UInt16.ofNat n) : m = n := by
  have hmod := congrArg UInt16.toNat h
  simp only [UInt16.toNat_ofNat'] at hmod
  rwa [Nat.mod_eq_of_lt hm, Nat.mod_eq_of_lt hn] at hmod

theorem crowded_start (cfg : BleHostConfig) (dataArray : ℕ) : Crowded cfg 0 (start cfg dataArray) :=
  ⟨rfl, rfl, [], .static dataArray, (Nat.zero_min _).symm⟩

theorem Crowded.connect {k : ℕ} (hs : Crowded cfg k s) (hk : k < numConns.toNat) (lib : Stdlib) :
    ∃ s₁ s₂ e, step lib cfg numConns s (.happen (.established e)) = some s₁ ∧
      step lib cfg numConns s₁ (.handle 0) = some s₂ ∧ Crowded cfg (k + 1) s₂ := by
  have h8 := numConns.toNat_lt
  have hlen : s.active.length = k := by
    rw [hs.active, List.length_map, List.length_reverse, List.length_range]
  have hnew : UInt16.ofNat k ∉ s.active := by
    rw [hs.active]
    intro hmem
    obtain ⟨i, hi, heq⟩ := List.mem_map.mp hmem
    have hlt := List.mem_range.mp (List.mem_reverse.mp hi)
    exact absurd (ofNat_inj (by omega) (by omega) heq) hlt.ne
  obtain ⟨handles, hreg, hhandles⟩ := hs.registered
  let e : GapEstLinkReqEvent := ⟨UInt16.ofNat k, 1, 0, fun _ => 0⟩
  have hhappen : StackEvent.happen numConns s.active (.established e) =
      some (e.connectionHandle :: s.active) := if_pos ⟨hlen ▸ hk, hnew⟩
  let s₁ : HostTask :=
    { s with active := e.connectionHandle :: s.active, queue := s.queue ++ [.established e] }
  let arrived := (StackEvent.established e).arrive 0 (UInt8.ofNat s₁.active.length) numConns
  obtain ⟨host, hhost, hreg'⟩ : ∃ host, hostStep lib cfg s.host arrived = some host ∧
      Registered cfg.toBleLinkConfig host.registry (connected cfg.linkCount handles arrived) :=
    step_connected lib hreg trivial
  refine ⟨s₁, { s₁ with queue := [], host }, e, by simp only [step, hhappen]; rfl,
    ?_, ?_, rfl, _, hreg', ?_⟩
  · simp only [step, s₁, hs.queue, List.nil_append]
    exact congrArg (Option.map _) hhost
  · simp only [s₁, hs.active, List.range_succ, List.reverse_append, List.reverse_singleton,
      List.singleton_append, List.map_cons]
    rfl
  · simp only [arrived, connected, StackEvent.arrive]
    split_ifs with hfull
    · omega
    · rw [List.length_cons]
      omega

theorem reaches_crowded (lib : Stdlib) (cfg : BleHostConfig) (dataArray : ℕ) {k : ℕ}
    (hk : k ≤ numConns.toNat) :
    ∃ s, Reaches (step lib cfg numConns) (Reports InTime) (start cfg dataArray) s ∧
      Crowded cfg k s := by
  induction k with
  | zero => exact ⟨_, .refl _ _ _, crowded_start cfg dataArray⟩
  | succ k ih =>
    obtain ⟨s, hreach, hs⟩ := ih (Nat.le_of_succ_le hk)
    obtain ⟨s₁, s₂, e, h₁, h₂, hs₂⟩ := hs.connect hk lib
    exact ⟨s₂, (hreach.tail h₁ trivial).tail h₂ trivial, hs₂⟩

theorem reaches_unregistered (lib : Stdlib) (dataArray : ℕ)
    (hcount : cfg.linkCount < numConns.toNat) :
    ∃ s handle handles,
      Reaches (step lib cfg numConns) (Reports InTime) (start cfg dataArray) s ∧ s.queue = [] ∧
      Registered cfg.toBleLinkConfig s.host.registry handles ∧ handle ∈ s.active ∧
        handle ∉ handles := by
  obtain ⟨s, hreach, hs⟩ := reaches_crowded lib cfg dataArray hcount
  obtain ⟨handles, hreg, hlen⟩ := hs.registered
  have h8 := numConns.toNat_lt
  have hnodup : s.active.Nodup := by
    rw [hs.active]
    refine (List.nodup_reverse.mpr List.nodup_range).map_on fun m hm n hn heq => ?_
    have hlt := List.mem_range.mp (List.mem_reverse.mp hm)
    have hlt' := List.mem_range.mp (List.mem_reverse.mp hn)
    exact ofNat_inj (by omega) (by omega) heq
  obtain ⟨handle, hmem, hnot⟩ : ∃ handle ∈ s.active, handle ∉ handles := by
    by_contra! hsub
    have hle := (hnodup.subperm hsub).length_le
    rw [hs.active, List.length_map, List.length_reverse, List.length_range] at hle
    omega
  exact ⟨s, handle, handles, hreach, hs.queue, hreg, hmem, hnot⟩

/-- As long as no pairing is reported behind the end of its connection, no handler follows a
NULL link, however far the task lags behind, exactly if the registry has a slot for each
connection of the stack. -/
theorem no_null_link_iff (lib : Stdlib) (cfg : BleHostConfig) (numConns : UInt8) (dataArray : ℕ) :
    (∀ acts, Along (step lib cfg numConns) (Reports InTime) (start cfg dataArray) acts →
      Along (step lib cfg numConns) (fun s act => (step lib cfg numConns s act).isSome = true)
        (start cfg dataArray) acts) ↔
      numConns.toNat ≤ cfg.linkCount := by
  constructor
  · intro hall
    by_contra hcount
    obtain ⟨s, handle, handles, hreach, hqueue, hreg, hmem, hnot⟩ :=
      reaches_unregistered lib dataArray (Nat.not_le.mp hcount)
    -- its pairing is reported, and the handler finds no link
    let s₁ : HostTask := { s with queue := s.queue ++ [.pairing .complete handle] }
    have hhappen : step lib cfg numConns s (.happen (.pairing .complete handle)) = some s₁ := rfl
    obtain ⟨t, ht⟩ := (hreach.tail hhappen hmem).answered hall (.handle 0) trivial
    have hnone : hostStep lib cfg s.host (.pairState .complete handle) = none :=
      step_unconnected hreg hnot
    simp only [step, s₁, hqueue, List.nil_append, StackEvent.arrive, hnone] at ht
    cases ht
  · intro hcount acts hacts
    exact along_of_invariant (I := Synced InTime cfg numConns)
      (fun _ _ _ hs hreports hstep => step_synced hcount hs hreports hstep)
      (fun _ act hs _ => synced_answered lib hs act) (start_synced InTime cfg numConns dataArray)
      hacts

/-- Whenever the task has caught up with the stack, the other modules see a link exactly for
each open connection; this holds of every run exactly if the registry has a slot for each. -/
theorem links_are_connections_iff (lib : Stdlib) (cfg : BleHostConfig) (numConns : UInt8)
    (dataArray : ℕ) :
    (∀ acts, let s := exec (step lib cfg numConns) (start cfg dataArray) acts
      s.queue = [] → ∀ handle, (bleLinkGet lib s.host.registry handle).isSome ↔ handle ∈ s.active) ↔
      numConns.toNat ≤ cfg.linkCount := by
  constructor
  · intro hall
    by_contra hcount
    obtain ⟨s, handle, handles, ⟨acts, -, -, rfl⟩, hqueue, hreg, hmem, hnot⟩ :=
      reaches_unregistered lib dataArray (Nat.not_le.mp hcount)
    exact hnot ((hreg.get_isSome lib handle).mp ((hall acts hqueue handle).mpr hmem))
  · intro hcount acts s hqueue handle
    have hs : Synced (fun _ _ => True) cfg numConns s :=
      exec_invariant (P := Reports fun _ _ => True)
        (fun _ _ _ hs hreports hstep => step_synced hcount hs hreports hstep)
        (start_synced _ cfg numConns dataArray)
        (along_of_forall (fun _ act => by cases act <;> trivial) _ _)
    obtain ⟨seen, hlead, hreg⟩ := hs
    rw [hqueue] at hlead
    obtain rfl : seen = s.active := hlead
    exact hreg.get_isSome lib handle

end BleFirmware.BleHostTask
