import BleFirmware.MsgBusTasks

/-!
# Which way a message goes

A message carries a topic or a callback in the same word, and `chann_id` tells
which: the group of calls is one of the 32-bit channel numbers. A run is traced
here with the producing call of every block, so that the way a message takes
can be compared with the way its producer meant. They differ exactly for the
messages of that one channel.
-/

namespace BleFirmware.MsgBusRoutes
open Bytes CSort ListAlgo Segment Run MsgBusTopics MsgBusTasks

inductive Route
  | call
  | topics (list : ℕ)
  deriving DecidableEq

/-- The test of `mbus_consume_message`. There is no topic list beyond `chann_array`. -/
def route (s : MsgBus) (m : MbusMsg) : Option Route :=
  if m.channId = mbusCallGroupId then some .call
  else s.channArray[m.channId.toNat]?.map .topics

def follow (lib : Stdlib) (s : MsgBus) (k : ℕ) (p : Addr) (entry : ℕ) : Route → MsgBus
  | .call =>
    let msg := s.msgQueue.nodeData p
    (s.answer entry (invoke msg.callback msg)).become k (.freeing p)
  | .topics list =>
    match kvListSearch lib (s.topicLists list) (s.msgQueue.nodeData p).topicId.toNat with
    | some i => s.become k (.reading p entry list i)
    | none => (s.answer entry none).become k (.freeing p)

theorem mbusConsumeMessage_eq (lib : Stdlib) (s : MsgBus) (k : ℕ) (p : Addr) (entry : ℕ) :
    mbusConsumeMessage lib s k p entry =
      (route s (s.msgQueue.nodeData p)).map (follow lib s k p entry) := by
  unfold mbusConsumeMessage route
  by_cases hg : (s.msgQueue.nodeData p).channId = mbusCallGroupId
  · simp [hg, follow]
  · cases hl : s.channArray[(s.msgQueue.nodeData p).channId.toNat]? with
    | none => simp [hg, hl]
    | some list =>
      cases hs : kvListSearch lib (s.topicLists list) (s.msgQueue.nodeData p).topicId.toNat <;>
        simp [hg, hl, hs, follow]

inductive Source
  | message (chann topic pData value : UInt32)
  | call (callback pData value : UInt32)
  deriving DecidableEq

def Source.msg : Source → MbusMsg
  | .message chann topic pData value => ⟨chann, topic, pData, value⟩
  | .call callback pData value => ⟨mbusCallGroupId, callback, pData, value⟩

def Source.route (s : MsgBus) : Source → Option Route
  | .message chann _ _ _ => s.channArray[chann.toNat]?.map .topics
  | .call _ _ _ => some .call

/-- `origin` gives the producing call of the block it has obtained. -/
structure Traced where
  bus : MsgBus
  origin : Addr → Option Source

def origins (origin : Addr → Option Source) : MbusAct → Addr → Option Source
  | .produceMessage chann topic pData value (some p) =>
    Function.update origin p (some (.message chann topic pData value))
  | .produceCall callback pData value (some p) =>
    Function.update origin p (some (.call callback pData value))
  | _ => origin

def tracedStep (lib : Stdlib) (s : Traced) (a : MbusAct) : Option Traced :=
  (mbusStep lib s.bus a).map fun bus => ⟨bus, origins s.origin a⟩

def traced (s : MsgBus) : Traced := ⟨s, fun _ => none⟩

def FreshBlock (s : Traced) : MbusAct → Prop
  | .produceMessage _ _ _ _ block => ∀ p ∈ block, s.bus.msgQueue.live p = false
  | .produceCall _ _ _ block => ∀ p ∈ block, s.bus.msgQueue.live p = false
  | _ => True

def Routed (s : Traced) : MbusAct → Prop
  | .run k =>
    match s.bus.tasks[k]? with
    | some (.handling p _) =>
      ∃ src ∈ s.origin p, MsgBusRoutes.route s.bus (s.bus.msgQueue.nodeData p) = src.route s.bus
    | _ => True
  | _ => True

def Follows (lib : Stdlib) (s : Traced) : MbusAct → Prop
  | .run k => ∀ p entry, s.bus.tasks[k]? = some (.handling p entry) →
      mbusStep lib s.bus (.run k) =
        (MsgBusRoutes.route s.bus (s.bus.msgQueue.nodeData p)).map (follow lib s.bus k p entry)
  | _ => True

def Source.ordinary : Source → Prop
  | .message chann _ _ _ => chann ≠ mbusCallGroupId
  | .call _ _ _ => True

/-- A message that is handled does not come from the channel with the number of
the group of calls. -/
def Ordinary (s : Traced) : MbusAct → Prop
  | .run k =>
    match s.bus.tasks[k]? with
    | some (.handling p _) => ∀ src ∈ s.origin p, src.ordinary
    | _ => True
  | _ => True

section Decidable

variable (s : Traced)

instance : ∀ a, Decidable (FreshBlock s a)
  | .produceMessage _ _ _ _ block | .produceCall _ _ _ block =>
    inferInstanceAs (Decidable (∀ p ∈ block, s.bus.msgQueue.live p = false))
  | .registerTopic _ _ | .sortTopic | .consumeCall | .run _ => isTrue trivial

instance (a : MbusAct) : Decidable (Routed s a) := by
  unfold Routed
  split
  · split <;> infer_instance
  · infer_instance

end Decidable

theorem route_msg_iff (s : MsgBus) (src : Source) :
    MsgBusRoutes.route s src.msg = src.route s ↔ src.ordinary := by
  cases src with
  | message chann topic pData value =>
    by_cases hg : chann = mbusCallGroupId
    · simp [MsgBusRoutes.route, Source.msg, Source.route, Source.ordinary, hg]
    · simp [MsgBusRoutes.route, Source.msg, Source.route, Source.ordinary, hg]
  | call callback pData value =>
    simp [MsgBusRoutes.route, Source.msg, Source.route, Source.ordinary]

def Carries (origin : Addr → Option Source) (p : Addr) (m : MbusMsg) : Prop :=
  ∃ src, origin p = some src ∧ m = src.msg

def TaskCarries (s : Traced) : MbusTask → Prop
  | .copying p msg => Carries s.origin p msg
  | .pushing p msg => Carries s.origin p msg ∧ s.bus.msgQueue.nodeData p = msg
  | .handling p _ => Carries s.origin p (s.bus.msgQueue.nodeData p)
  | _ => True

/-- The tasks are those of `ts` in some order, the queue holds the nodes `xs`,
and every block in use has one holder and the message of its producer. -/
structure Carried (s : Traced) (ts : List MbusTask) (xs : List Addr) : Prop where
  tasks_perm : s.bus.tasks.Perm ts
  queue : HeapHolds s.bus.msgQueue xs
  dataPtr : ∀ p, s.bus.msgQueue.live p = true → s.bus.msgQueue.dataPtr p = p + alignedNodeLen
  nodup : (xs ++ ts.filterMap taskNode).Nodup
  live : ∀ p ∈ xs ++ ts.filterMap taskNode, s.bus.msgQueue.live p = true
  queued : ∀ p ∈ xs, Carries s.origin p (s.bus.msgQueue.nodeData p)
  tasks : ∀ t ∈ ts, TaskCarries s t

variable {lib : Stdlib} {s : Traced} {ts rest : List MbusTask} {xs : List Addr} {t : MbusTask}
  {k e : ℕ} {p : Addr} {msg : MbusMsg}

theorem carried_ready {s : MsgBus} (h : Ready s) : Carried (traced s) [] [] where
  tasks_perm := List.Perm.of_eq h.tasks
  queue := h.queue
  dataPtr p hp := by
    have hl := h.live p
    rw [show (traced s).bus = s from rfl, hl] at hp
    cases hp
  nodup := List.nodup_nil
  live := nofun
  queued := nofun
  tasks := nofun

theorem TaskCarries.congr {s s' : Traced} (h : TaskCarries s t)
    (ho : ∀ p, taskNode t = some p → s'.origin p = s.origin p)
    (hd : ∀ p, taskNode t = some p → s'.bus.msgQueue.nodeData p = s.bus.msgQueue.nodeData p) :
    TaskCarries s' t := by
  cases t with
  | copying p msg =>
    rw [TaskCarries, Carries, ho p rfl]
    exact h
  | pushing p msg =>
    rw [TaskCarries, Carries, ho p rfl, hd p rfl]
    exact h
  | handling p e =>
    rw [TaskCarries, Carries, ho p rfl, hd p rfl]
    exact h
  | _ => trivial

theorem Carried.node_live (h : Carried s ts xs) (ht : t ∈ ts) (hp : taskNode t = some p) :
    s.bus.msgQueue.live p = true :=
  h.live p (List.mem_append_right _ (List.mem_filterMap.mpr ⟨t, ht, hp⟩))

theorem Carried.node_unique (h : Carried s (t :: rest) xs) (hp : taskNode t = some p) :
    p ∉ xs ∧ ∀ u ∈ rest, taskNode u ≠ some p := by
  have hnd := h.nodup
  rw [List.filterMap_cons_some hp, List.nodup_middle, List.nodup_cons, List.mem_append] at hnd
  refine ⟨fun hm => hnd.1 (Or.inl hm), ?_⟩
  intro u hu hup
  exact hnd.1 (Or.inr (List.mem_filterMap.mpr ⟨u, hu, hup⟩))

theorem Carried.perm {ts' : List MbusTask} (h : Carried s ts xs) (hp : ts.Perm ts') :
    Carried s ts' xs := by
  have hn : (xs ++ ts.filterMap taskNode).Perm (xs ++ ts'.filterMap taskNode) :=
    (hp.filterMap _).append_left xs
  refine ⟨h.tasks_perm.trans hp, h.queue, h.dataPtr, hn.nodup_iff.mp h.nodup, ?_, h.queued, ?_⟩
  · exact fun p hm => h.live p (hn.mem_iff.mpr hm)
  · exact fun t ht => h.tasks t (hp.mem_iff.mpr ht)

theorem Carried.spawn (h : Carried s ts xs) (hn : taskNode t = none) (ht : TaskCarries s t) :
    Carried ⟨s.bus.spawn t, s.origin⟩ (t :: ts) xs := by
  refine ⟨?_, h.queue, h.dataPtr, ?_, ?_, h.queued, ?_⟩
  · exact (List.perm_append_singleton t s.bus.tasks).trans (h.tasks_perm.cons t)
  · rw [List.filterMap_cons_none hn]
    exact h.nodup
  · rw [List.filterMap_cons_none hn]
    exact h.live
  · intro u hu
    cases List.mem_cons.mp hu with
    | inl hu => exact hu ▸ ht
    | inr hu => exact h.tasks u hu

theorem Carried.turn {u : MbusTask} {bus : MsgBus} (h : Carried s (t :: rest) xs)
    (hset : bus.tasks.Perm (u :: rest)) (hq : bus.msgQueue = s.bus.msgQueue)
    (hn : taskNode u = taskNode t) (hu : TaskCarries s u) :
    Carried ⟨bus, s.origin⟩ (u :: rest) xs := by
  have hnode : (u :: rest).filterMap taskNode = (t :: rest).filterMap taskNode := by
    simp only [List.filterMap_cons, hn]
  have hcongr : ∀ v, TaskCarries s v → TaskCarries ⟨bus, s.origin⟩ v := by
    intro v hv
    exact hv.congr (fun _ _ => rfl) (fun p _ => congrArg (fun l => l.nodeData p) hq)
  refine ⟨hset, ?_, ?_, ?_, ?_, ?_, ?_⟩
  · rw [hq]
    exact h.queue
  · rw [hq]
    exact h.dataPtr
  · rw [hnode]
    exact h.nodup
  · rw [hnode, hq]
    exact h.live
  · rw [hq]
    exact h.queued
  · intro v hv
    cases List.mem_cons.mp hv with
    | inl hv => exact hcongr v (hv ▸ hu)
    | inr hv => exact hcongr v (h.tasks v (List.mem_cons_of_mem t hv))

theorem Carried.alloc (h : Carried s ts xs) (hp : s.bus.msgQueue.live p = false) (src : Source) :
    Carried ⟨({ s.bus with msgQueue := s.bus.msgQueue.addBlock p } : MsgBus).spawn
        (.copying p src.msg), Function.update s.origin p (some src)⟩ (.copying p src.msg :: ts) xs := by
  have hold : ∀ q, s.bus.msgQueue.live q = true → q ≠ p := by
    intro q hq he
    rw [he, hp] at hq
    cases hq
  have hdata : ∀ q, s.bus.msgQueue.live q = true →
      (s.bus.msgQueue.addBlock p).nodeData q = s.bus.msgQueue.nodeData q := by
    intro q hq
    simp [LinkedList.nodeData, LinkedList.addBlock, hold q hq]
  have hpn : p ∉ xs ++ ts.filterMap taskNode := by
    intro hm
    have hl := h.live p hm
    rw [hp] at hl
    cases hl
  have hnode : taskNode (.copying p src.msg) = some p := rfl
  refine ⟨?_, heapHolds_addBlock h.queue hp, ?_, ?_, ?_, ?_, ?_⟩
  · exact (List.perm_append_singleton _ s.bus.tasks).trans (h.tasks_perm.cons _)
  · intro q hq
    dsimp only [MsgBus.spawn, LinkedList.addBlock] at hq ⊢
    by_cases hqp : q = p
    · rw [hqp, Function.update_self]
    · rw [Function.update_of_ne hqp] at hq ⊢
      exact h.dataPtr q hq
  · rw [List.filterMap_cons_some hnode, List.nodup_middle]
    exact List.nodup_cons.mpr ⟨hpn, h.nodup⟩
  · intro q hq
    rw [List.filterMap_cons_some hnode, List.perm_middle.mem_iff, List.mem_cons] at hq
    dsimp only [MsgBus.spawn, LinkedList.addBlock]
    rcases hq with hq | hq
    · rw [hq, Function.update_self]
    · rw [Function.update_of_ne (hold q (h.live q hq))]
      exact h.live q hq
  · intro q hq
    have hl := h.queue.live q hq
    dsimp only [MsgBus.spawn]
    rw [Carries, Function.update_of_ne (hold q hl), hdata q hl]
    exact h.queued q hq
  · intro u hu
    cases List.mem_cons.mp hu with
    | inl hu =>
      rw [hu]
      exact ⟨src, Function.update_self .., rfl⟩
    | inr hu =>
      apply (h.tasks u hu).congr
      · exact fun q hq => Function.update_of_ne (hold q (h.node_live hu hq)) ..
      · exact fun q hq => hdata q (h.node_live hu hq)

theorem Carried.copy (h : Carried s (.copying p msg :: rest) xs)
    (hset : (s.bus.tasks.set k (.pushing p msg)).Perm (.pushing p msg :: rest)) :
    Carried ⟨writeMessage s.bus k p msg, s.origin⟩ (.pushing p msg :: rest) xs := by
  have hp := h.node_live (List.mem_cons_self ..) rfl
  obtain ⟨hpx, hother⟩ := h.node_unique rfl
  have hdata : ∀ q, s.bus.msgQueue.live q = true → q ≠ p →
      (s.bus.msgQueue.setNodeData p msg).nodeData q = s.bus.msgQueue.nodeData q := by
    intro q hq hne
    have hptr : s.bus.msgQueue.dataPtr q ≠ s.bus.msgQueue.dataPtr p := by
      rw [h.dataPtr q hq, h.dataPtr p hp]
      exact fun he => hne (Nat.add_right_cancel he)
    simp [LinkedList.nodeData, LinkedList.setNodeData, hptr]
  have hnew : (s.bus.msgQueue.setNodeData p msg).nodeData p = msg := by
    simp [LinkedList.nodeData, LinkedList.setNodeData]
  have hq := h.queue.setNodeData p msg
  refine ⟨hset, ⟨hq.holds, hq.heap, hq.live, hq.dataPtr⟩, h.dataPtr, h.nodup, h.live, ?_, ?_⟩
  · intro q hqx
    have hsame := hdata q (h.queue.live q hqx) (fun he => hpx (he ▸ hqx))
    change Carries s.origin q ((s.bus.msgQueue.setNodeData p msg).nodeData q)
    rw [hsame]
    exact h.queued q hqx
  · intro u hu
    cases List.mem_cons.mp hu with
    | inl hu =>
      rw [hu]
      exact ⟨h.tasks _ (List.mem_cons_self ..), hnew⟩
    | inr hu =>
      have hu' := List.mem_cons_of_mem (.copying p msg) hu
      apply (h.tasks u hu').congr
      · exact fun _ _ => rfl
      · exact fun q hq => hdata q (h.node_live hu' hq) (fun he => hother u hu (he ▸ hq))

theorem Carried.push (h : Carried s (.pushing p msg :: rest) xs)
    (hset : (s.bus.tasks.set k .returned).Perm (.returned :: rest)) {bus : MsgBus}
    (hb : pushMessage s.bus k p msg = some bus) :
    Carried ⟨bus, s.origin⟩ (.returned :: rest) (xs ++ [p]) := by
  have hp := h.node_live (List.mem_cons_self ..) rfl
  have hpx := (h.node_unique rfl).1
  have hmsg : Carries s.origin p msg ∧ s.bus.msgQueue.nodeData p = msg :=
    h.tasks _ (List.mem_cons_self ..)
  obtain ⟨l', hl', hq, hdata, hlive⟩ := heapHolds_push h.queue hpx hp (h.dataPtr p hp)
  obtain ⟨links, count, rfl⟩ := linkedListInsertTail_frame hl'
  rw [pushMessage, hl', Option.map_some] at hb
  obtain rfl := Option.some.inj hb
  have hheld : ((xs ++ [p]) ++ rest.filterMap taskNode).Perm
      (xs ++ (MbusTask.pushing p msg :: rest).filterMap taskNode) := by
    rw [List.append_assoc]
    rfl
  refine ⟨hset, hq, h.dataPtr, hheld.nodup_iff.mpr h.nodup, ?_, ?_, ?_⟩
  · exact fun q hm => h.live q (hheld.mem_iff.mp hm)
  · intro q hm
    cases List.mem_append.mp hm with
    | inl hm => exact h.queued q hm
    | inr hm =>
      rw [List.mem_singleton.mp hm]
      obtain ⟨src, ho, rfl⟩ := hmsg.1
      exact ⟨src, ho, hmsg.2⟩
  · intro u hu
    cases List.mem_cons.mp hu with
    | inl hu =>
      rw [hu]
      trivial
    | inr hu =>
      exact (h.tasks u (List.mem_cons_of_mem _ hu)).congr (fun _ _ => rfl) (fun _ _ => rfl)

theorem Carried.pop (h : Carried s (.draining :: rest) xs)
    (hset : ∀ u, (s.bus.tasks.set k u).Perm (u :: rest)) {bus : MsgBus}
    (hb : popMessage s.bus k = some bus) : ∃ us ys, Carried ⟨bus, s.origin⟩ us ys := by
  cases xs with
  | nil =>
    rw [popMessage, heapHolds_pop_nil h.queue] at hb
    obtain rfl := Option.some.inj hb
    exact ⟨_, _, h.turn (hset .returned) rfl rfl trivial⟩
  | cons p xs =>
    obtain ⟨l', hl', hq, _, _⟩ := heapHolds_pop h.queue
    obtain ⟨links, count, rfl⟩ := linkedListRemoveHead_frame hl'
    rw [popMessage, hl'] at hb
    obtain rfl := Option.some.inj hb
    have hheld : (xs ++ (MbusTask.handling p s.bus.consumed.length :: rest).filterMap taskNode).Perm
        ((p :: xs) ++ rest.filterMap taskNode) := List.perm_middle
    refine ⟨_, xs, hset _, hq, h.dataPtr, hheld.nodup_iff.mpr h.nodup, ?_, ?_, ?_⟩
    · exact fun q hm => h.live q (hheld.mem_iff.mp hm)
    · exact fun q hm => h.queued q (List.mem_cons_of_mem p hm)
    · intro u hu
      cases List.mem_cons.mp hu with
      | inl hu =>
        rw [hu]
        exact h.queued p List.mem_cons_self
      | inr hu =>
        exact (h.tasks u (List.mem_cons_of_mem _ hu)).congr (fun _ _ => rfl) (fun _ _ => rfl)

theorem Carried.free (h : Carried s (.freeing p :: rest) xs)
    (hset : (s.bus.tasks.set k .draining).Perm (.draining :: rest)) {bus : MsgBus}
    (hb : freeMessage s.bus k p = some bus) : Carried ⟨bus, s.origin⟩ (.draining :: rest) xs := by
  have hp := h.node_live (List.mem_cons_self ..) rfl
  have hpx := (h.node_unique rfl).1
  rw [freeMessage, linkedListFreeNode_block h.queue.heap hp, Option.map_some] at hb
  obtain rfl := Option.some.inj hb
  have hnode : taskNode (.freeing p) = some p := rfl
  have hnd := h.nodup
  rw [List.filterMap_cons_some hnode, List.nodup_middle, List.nodup_cons] at hnd
  refine ⟨hset, heapHolds_dropBlock h.queue hpx, ?_, hnd.2, ?_, h.queued, ?_⟩
  · intro q hq
    by_cases hqp : q = p
    · rw [hqp]
      exact h.dataPtr p hp
    · apply h.dataPtr q
      simpa [MsgBus.become, LinkedList.dropBlock, hqp] using hq
  · intro q hm
    have hqp : q ≠ p := fun he => hnd.1 (he ▸ hm)
    have hl := h.live q (by
      rw [List.filterMap_cons_some hnode, List.perm_middle.mem_iff]
      exact List.mem_cons_of_mem p hm)
    simpa [MsgBus.become, LinkedList.dropBlock, hqp] using hl
  · intro u hu
    cases List.mem_cons.mp hu with
    | inl hu =>
      rw [hu]
      trivial
    | inr hu =>
      exact (h.tasks u (List.mem_cons_of_mem _ hu)).congr (fun _ _ => rfl) (fun _ _ => rfl)

theorem Carried.handle (h : Carried s (.handling p e :: rest) xs)
    (hset : ∀ u, (s.bus.tasks.set k u).Perm (u :: rest)) {bus : MsgBus}
    (hb : mbusConsumeMessage lib s.bus k p e = some bus) :
    ∃ us ys, Carried ⟨bus, s.origin⟩ us ys := by
  rw [mbusConsumeMessage_eq] at hb
  obtain ⟨r, _, rfl⟩ := Option.map_eq_some_iff.mp hb
  cases r with
  | call => exact ⟨_, _, h.turn (hset (.freeing p)) rfl rfl trivial⟩
  | topics list =>
    dsimp only [follow]
    split
    · exact ⟨_, _, h.turn (hset (.reading p e list _)) rfl rfl trivial⟩
    · exact ⟨_, _, h.turn (hset (.freeing p)) rfl rfl trivial⟩

theorem Carried.run (h : Carried s ts xs) (ht : s.bus.tasks[k]? = some t) {bus : MsgBus}
    (hb : runTask lib s.bus k t = some bus) : ∃ us ys, Carried ⟨bus, s.origin⟩ us ys := by
  obtain ⟨rest, hp, hset⟩ := perm_set ht
  have hc := h.perm (h.tasks_perm.symm.trans hp)
  cases t with
  | copying p msg =>
    obtain rfl := Option.some.inj ((copyMessage_heap h.queue.heap k p msg).symm.trans hb)
    exact ⟨_, _, hc.copy (hset _)⟩
  | pushing p msg => exact ⟨_, _, hc.push (hset _) hb⟩
  | sorting i =>
    obtain rfl := Option.some.inj hb
    unfold mbusSortTopicRound
    split
    · exact ⟨_, _, hc.turn (hset (.sorting (i+1))) rfl rfl trivial⟩
    · exact ⟨_, _, hc.turn (hset .returned) rfl rfl trivial⟩
  | draining => exact hc.pop hset hb
  | handling p e => exact hc.handle hset hb
  | reading p e list i =>
    obtain rfl := Option.some.inj hb
    exact ⟨_, _, hc.turn (hset (.freeing p)) rfl rfl trivial⟩
  | freeing p => exact ⟨_, _, hc.free (hset _) hb⟩
  | returned =>
    obtain rfl := Option.some.inj hb
    exact ⟨_, _, hc⟩

theorem Carried.produce (h : Carried s ts xs) {block : Option Addr}
    (hf : ∀ p ∈ block, s.bus.msgQueue.live p = false) (src : Source) :
    ∃ us ys, Carried ⟨allocMessage s.bus src.msg block,
      match block with
      | some p => Function.update s.origin p (some src)
      | none => s.origin⟩ us ys := by
  cases block with
  | none =>
    simp only [allocMessage, linkedListAllocNode_null h.queue.heap]
    exact ⟨ts, xs, h⟩
  | some p =>
    simp only [allocMessage, linkedListAllocNode_block h.queue.heap]
    exact ⟨_, _, h.alloc (hf p rfl) src⟩

theorem Carried.step {s' : Traced} {a : MbusAct} (h : Carried s ts xs) (hf : FreshBlock s a)
    (hs : tracedStep lib s a = some s') : ∃ us ys, Carried s' us ys := by
  obtain ⟨bus, hb, rfl⟩ := Option.map_eq_some_iff.mp hs
  cases a with
  | produceMessage chann topic pData value block =>
    rw [mbusStep, if_pos (queueReadable_heap h.queue.heap)] at hb
    obtain rfl := Option.some.inj hb
    have hc := h.produce hf (.message chann topic pData value)
    cases block <;> exact hc
  | produceCall callback pData value block =>
    rw [mbusStep, if_pos (queueReadable_heap h.queue.heap)] at hb
    obtain rfl := Option.some.inj hb
    have hc := h.produce hf (.call callback pData value)
    cases block <;> exact hc
  | registerTopic channId topic =>
    dsimp only [mbusStep, mbusRegisterTopic] at hb
    split at hb
    · obtain rfl := Option.some.inj hb
      exact ⟨ts, xs, h.tasks_perm, h.queue, h.dataPtr, h.nodup, h.live, h.queued, fun t ht =>
        (h.tasks t ht).congr (fun _ _ => rfl) (fun _ _ => rfl)⟩
    · cases hb
  | sortTopic =>
    obtain rfl := Option.some.inj hb
    exact ⟨_, _, h.spawn (t := .sorting 0) rfl trivial⟩
  | consumeCall =>
    obtain rfl := Option.some.inj hb
    exact ⟨_, _, h.spawn (t := .draining) rfl trivial⟩
  | run k =>
    dsimp only [mbusStep] at hb
    cases ht : s.bus.tasks[k]? with
    | some t =>
      rw [ht] at hb
      exact h.run ht hb
    | none =>
      rw [ht] at hb
      obtain rfl := Option.some.inj hb
      exact ⟨ts, xs, h⟩

theorem Carried.routed_iff (h : Carried s ts xs) (a : MbusAct) : Routed s a ↔ Ordinary s a := by
  cases a with
  | run k =>
    simp only [Routed, Ordinary]
    cases ht : s.bus.tasks[k]? with
    | none => exact Iff.rfl
    | some t =>
      cases t with
      | handling p e =>
        have hm : MbusTask.handling p e ∈ ts := h.tasks_perm.mem_iff.mp (List.mem_of_getElem? ht)
        obtain ⟨src, ho, hmsg⟩ := h.tasks _ hm
        have hr := route_msg_iff s.bus src
        rw [← hmsg] at hr
        simp [ho, hr]
      | _ => exact Iff.rfl
  | _ => exact Iff.rfl

theorem follows (lib : Stdlib) (s : Traced) (a : MbusAct) : Follows lib s a := by
  cases a with
  | run k =>
    intro p entry ht
    simp only [mbusStep, ht, runTask, mbusConsumeMessage_eq]
  | _ => trivial

theorem messages_routed_iff (lib : Stdlib) {s : MsgBus} (h : Ready s) {acts : List MbusAct}
    (hf : Along (tracedStep lib) FreshBlock (traced s) acts) :
    (Along (tracedStep lib) Routed (traced s) acts ↔
      Along (tracedStep lib) Ordinary (traced s) acts) ∧
    Along (tracedStep lib) (Follows lib) (traced s) acts := by
  refine ⟨?_, along_of_forall (follows lib) _ _⟩
  apply along_iff_of_invariant (I := fun s => ∃ ts xs, Carried s ts xs) (L := FreshBlock)
  · intro s a t hc hf _ hs
    obtain ⟨ts, xs, hc⟩ := hc
    exact hc.step hf hs
  · intro s a hc _
    obtain ⟨ts, xs, hc⟩ := hc
    exact hc.routed_iff a
  · exact ⟨[], [], carried_ready h⟩
  · exact hf

def manyChannels : MsgBus :=
  mbusInit
    { channArray := List.replicate 256 0
      msgQueue :=
        { head := none, tail := none, next := fun _ => none, prev := fun _ => none
          arrayBased := false, count := 0, width := 0, depth := 0, nodeArray := none
          dataArray := none, sorted := false, lastSlotIndex := 0, opt := fun _ => 0
          dataPtr := fun _ => 0, data := fun _ => ⟨0, 0, 0, 0⟩, live := fun _ => false }
      topicLists := fun _ => ⟨0, 12, [⟨false, 0, 0⟩], 64, fun _ => 0, false⟩
      tasks := [], pushed := [], consumed := [] }

theorem manyChannels_ready : Ready manyChannels := by
  apply mbusInit_ready rfl (fun _ => rfl) rfl rfl rfl
  intro i _
  refine ⟨rfl, ?_⟩
  intro n hn
  rw [List.mem_singleton.mp hn]

theorem messages_routed_iff_last_channel :
    (Along (tracedStep .reference) Routed (traced manyChannels)
        [.produceMessage 254 7 1 2 (some 256), .run 0, .produceCall 90 5 6 (some 512), .run 0,
          .consumeCall, .run 1, .run 2, .run 2, .run 1] ↔
      Along (tracedStep .reference) Ordinary (traced manyChannels)
        [.produceMessage 254 7 1 2 (some 256), .run 0, .produceCall 90 5 6 (some 512), .run 0,
          .consumeCall, .run 1, .run 2, .run 2, .run 1]) ∧
    Along (tracedStep .reference) (Follows .reference) (traced manyChannels)
      [.produceMessage 254 7 1 2 (some 256), .run 0, .produceCall 90 5 6 (some 512), .run 0,
        .consumeCall, .run 1, .run 2, .run 2, .run 1] :=
  messages_routed_iff .reference manyChannels_ready (by decide +kernel)

/-- A message for channel 255 of 256, and topic 7 is called as a function. -/
theorem message_taken_for_call :
    Ready manyChannels ∧ (255 : UInt32).toNat < manyChannels.channArray.length ∧
      Along (tracedStep .reference) FreshBlock (traced manyChannels)
        [.produceMessage 255 7 1 2 (some 256), .run 0, .run 0, .consumeCall, .run 1, .run 1] ∧
      ¬ Along (tracedStep .reference) Routed (traced manyChannels)
        [.produceMessage 255 7 1 2 (some 256), .run 0, .run 0, .consumeCall, .run 1, .run 1] ∧
      (exec (tracedStep .reference) (traced manyChannels)
        [.produceMessage 255 7 1 2 (some 256), .run 0, .run 0, .consumeCall, .run 1,
          .run 1]).bus.consumed = [⟨⟨255, 7, 1, 2⟩, some (some ⟨7, 1, 2⟩)⟩] :=
  ⟨manyChannels_ready, by decide +kernel, by decide +kernel, by decide +kernel, by decide +kernel⟩

end BleFirmware.MsgBusRoutes
