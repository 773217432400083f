import BleFirmware.MsgBusTasks

/-!
# Delivery on the bus

Messages are popped in the order in which they were pushed, each once, and each
is answered once, by its own callback or by the one registered for its topic.
The order of the other steps does not matter, with one exception: a consumer
reads the topic through a pointer into the node array after the search has
released the list, and sorting the list in between moves the nodes.
-/

namespace BleFirmware.MsgBusDelivery
open Bytes CSort Segment Run MsgBusTopics MsgBusTasks

/-- What a message asks for: its own callback, or the one registered for its
topic in its channel. -/
def expected (s : MsgBus) (m : MbusMsg) : Option Invocation :=
  if m.channId = mbusCallGroupId then invoke m.callback m
  else
    match s.channArray[m.channId.toNat]? with
    | some list => invoke (callbackOf (s.topicLists list) m.topicId) m
    | none => none

def answerAt (s : MsgBus) (e : ℕ) : Option (Option Invocation) := s.consumed[e]?.bind (·.answer)

def Answers (s t : MsgBus) : Prop :=
  ∀ e < t.consumed.length, answerAt t e = answerAt s e ∨
    answerAt s e = none ∧ answerAt t e = s.consumed[e]?.map fun c => expected s c.msg

def EndsEmpty (s t : MsgBus) : MbusAct → Prop
  | .run k => s.tasks[k]? = some .draining → t.tasks[k]? = some .returned →
      t.msgQueue.payloads = []
  | _ => True

def Delivers (lib : Stdlib) (s : MsgBus) (a : MbusAct) : Prop :=
  match mbusStep lib s a with
  | some t => Answers s t ∧ EndsEmpty s t a
  | none => False

/-- What holds at every point of a run: nothing lost, duplicated or overtaken,
every live block held once, every popped message answered or in one task's hands. -/
structure Conserved (s : MsgBus) : Prop where
  fifo : s.consumed.map (·.msg) ++ s.msgQueue.payloads = s.pushed
  held_once : (walk s.msgQueue.next s.msgQueue.count s.msgQueue.head ++
    s.tasks.filterMap taskNode).Nodup
  live_iff : ∀ p, s.msgQueue.live p = true ↔
    p ∈ walk s.msgQueue.next s.msgQueue.count s.msgQueue.head ++ s.tasks.filterMap taskNode
  handled_once : (s.tasks.filterMap taskEntry).Nodup
  unanswered_iff : ∀ e, e ∈ s.tasks.filterMap taskEntry ↔
    e < s.consumed.length ∧ answerAt s e = none

/-- Messages are for channels of the bus, a block that `malloc` returns is not in
use, and topic ids stay distinct. -/
def Legal (s : MsgBus) : MbusAct → Prop
  | .produceMessage chann _ _ _ block =>
    chann.toNat < s.channArray.length ∧ chann ≠ mbusCallGroupId ∧
      ∀ p ∈ block, s.msgQueue.live p = false
  | .produceCall _ _ _ block => ∀ p ∈ block, s.msgQueue.live p = false
  | .registerTopic channId topic =>
    channId.toNat < s.channArray.length ∧ ∀ list ∈ s.channArray[channId.toNat]?,
      topic.id.toNat ∉ (s.topicLists list).entries.keys
  | _ => True

def KeepsSlot (lib : Stdlib) (s : MsgBus) (list : ℕ) : MbusTask → Prop
  | .reading _ _ l i => l = list →
      (kvListSort lib (s.topicLists list)).node i = (s.topicLists list).node i
  | _ => True

def SortKeeps (lib : Stdlib) (s : MsgBus) : MbusTask → Prop
  | .sorting i => ∀ list ∈ s.channArray[i]?, ∀ t ∈ s.tasks, KeepsSlot lib s list t
  | _ => True

/-- A list is not sorted, so as to move the node, between a search that has found
the node and the read of its topic. -/
def FoundKept (lib : Stdlib) (s : MsgBus) : MbusAct → Prop
  | .run k => ∀ t ∈ s.tasks[k]?, SortKeeps lib s t
  | _ => True

section Decidable

variable (lib : Stdlib) (s t : MsgBus)

instance : Decidable (Answers s t) :=
  inferInstanceAs (Decidable (∀ e < t.consumed.length, _ ∨ _ ∧ _))

instance : ∀ a, Decidable (EndsEmpty s t a)
  | .run _ => inferInstanceAs (Decidable (_ → _ → _))
  | .produceMessage _ _ _ _ _ | .produceCall _ _ _ _ | .registerTopic _ _ | .sortTopic
  | .consumeCall => isTrue trivial

instance (a : MbusAct) : Decidable (Delivers lib s a) :=
  match h : mbusStep lib s a with
  | some t => decidable_of_iff (Answers s t ∧ EndsEmpty s t a) (by simp [Delivers, h])
  | none => isFalse (by simp [Delivers, h])

instance : ∀ a, Decidable (Legal s a)
  | .produceMessage _ _ _ _ _ => inferInstanceAs (Decidable (_ ∧ _ ∧ _))
  | .produceCall _ _ _ block => inferInstanceAs (Decidable (∀ p ∈ block, s.msgQueue.live p = false))
  | .registerTopic channId topic => inferInstanceAs (Decidable (_ ∧
      ∀ list ∈ s.channArray[channId.toNat]?, topic.id.toNat ∉ (s.topicLists list).entries.keys))
  | .sortTopic | .consumeCall | .run _ => isTrue trivial

instance (list : ℕ) : ∀ t, Decidable (KeepsSlot lib s list t)
  | .reading _ _ _ _ => inferInstanceAs (Decidable (_ → _))
  | .copying _ _ | .pushing _ _ | .sorting _ | .draining | .handling _ _ | .freeing _
  | .returned => isTrue trivial

instance : ∀ t, Decidable (SortKeeps lib s t)
  | .sorting i => inferInstanceAs (Decidable
      (∀ list ∈ s.channArray[i]?, ∀ t ∈ s.tasks, KeepsSlot lib s list t))
  | .copying _ _ | .pushing _ _ | .draining | .handling _ _ | .reading _ _ _ _ | .freeing _
  | .returned => isTrue trivial

instance : ∀ a, Decidable (FoundKept lib s a)
  | .run k => inferInstanceAs (Decidable (∀ t ∈ s.tasks[k]?, SortKeeps lib s t))
  | .produceMessage _ _ _ _ _ | .produceCall _ _ _ _ | .registerTopic _ _ | .sortTopic
  | .consumeCall => isTrue trivial

end Decidable

variable {lib : Stdlib} {s : MsgBus} {ts rest : List MbusTask} {xs : List Addr}

theorem answers_of_eq {t : MsgBus} (h : t.consumed = s.consumed) : Answers s t := by
  intro e _
  left
  rw [answerAt, h]
  rfl

theorem answers_pop {t : MsgBus} {m : MbusMsg} (h : t.consumed = s.consumed ++ [⟨m, none⟩]) :
    Answers s t := by
  intro e he
  left
  rw [h, List.length_append, List.length_singleton] at he
  rw [answerAt, answerAt, h]
  by_cases hlt : e < s.consumed.length
  · rw [List.getElem?_append_left hlt]
  · obtain rfl : e = s.consumed.length := by omega
    simp

theorem answers_answer {e : ℕ} {m : MbusMsg} (h : s.consumed[e]? = some ⟨m, none⟩)
    {a : Option Invocation} (ha : a = expected s m) (k : ℕ) (u : MbusTask) :
    Answers s ((s.answer e a).become k u) := by
  intro i _
  dsimp only [MsgBus.become, MsgBus.answer, answerAt]
  by_cases hi : i = e
  · right
    subst hi
    simp [h, ha]
  · left
    rw [List.getElem?_modify_ne _ _ (Ne.symm hi)]

structure StepSpec (s : MsgBus) (a : MbusAct) (r : Option MsgBus) : Prop where
  spec : ∃ t, r = some t ∧ (∃ ts xs, Inv t ts xs) ∧ Answers s t ∧ EndsEmpty s t a

theorem handles_inRange {p : Addr} {e : ℕ} {m : MbusMsg} (h : Inv s ts xs)
    (hm : Handles s p e m) : InRange s m := by
  apply h.inRange
  rw [← h.conserved, List.mem_append, List.mem_map]
  exact Or.inl ⟨_, List.mem_of_getElem? hm.1, rfl⟩

section Turn

variable {k : ℕ} {p : Addr} {e : ℕ}

theorem turn_answer {t : MbusTask} {m : MbusMsg} (h : Inv s (t :: rest) xs)
    (ht : s.tasks[k]? = some t) (hset : ∀ u, (s.tasks.set k u).Perm (u :: rest))
    (hp : taskNode t = some p) (he : taskEntry t = some e) (hm : Handles s p e m)
    {a : Option Invocation} (ha : a = expected s m) :
    StepSpec s (.run k) (some ((s.answer e a).become k (.freeing p))) := by
  refine ⟨_, rfl, ⟨_, _, h.answer (hset _) hp he a⟩, answers_answer hm.1 ha _ _, ?_⟩
  intro hd _
  rw [ht] at hd
  obtain rfl := Option.some.inj hd
  simp [taskNode] at hp

theorem turn_handling (h : Inv s (.handling p e :: rest) xs)
    (ht : s.tasks[k]? = some (.handling p e)) (hset : ∀ u, (s.tasks.set k u).Perm (u :: rest)) :
    StepSpec s (.run k) (mbusConsumeMessage lib s k p e) := by
  obtain ⟨m, hm⟩ := h.tasks _ (List.mem_cons_self ..)
  have hrange := handles_inRange h hm
  dsimp only [mbusConsumeMessage]
  rw [hm.2]
  by_cases hcall : m.channId = mbusCallGroupId
  · rw [if_pos hcall]
    apply turn_answer h ht hset rfl rfl hm
    rw [expected, if_pos hcall]
  · rw [if_neg hcall]
    have hlt := hrange.resolve_left hcall
    have hlist := List.getElem?_eq_getElem hlt
    have htopics := h.topics _ (List.getElem_mem hlt)
    rw [hlist]
    dsimp only
    cases hs : kvListSearch lib (s.topicLists s.channArray[m.channId.toNat]) m.topicId.toNat with
    | none =>
      apply turn_answer h ht hset rfl rfl hm
      rw [expected, if_neg hcall, hlist]
      dsimp only
      rw [callbackOf_unregistered htopics hs]
      rfl
    | some i =>
      have hok : TaskOk s (.reading p e s.channArray[m.channId.toNat] i) :=
        ⟨m, hm, hcall, hlist, search_topicAt htopics hs⟩
      refine ⟨_, rfl, ⟨_, _, h.become (hset _) rfl rfl hok⟩, answers_of_eq rfl, ?_⟩
      intro hd
      rw [ht] at hd
      cases hd

theorem turn_reading {list i : ℕ} (h : Inv s (.reading p e list i :: rest) xs)
    (ht : s.tasks[k]? = some (.reading p e list i))
    (hset : ∀ u, (s.tasks.set k u).Perm (u :: rest)) :
    StepSpec s (.run k) (some (readTopic s k p e list i)) := by
  obtain ⟨m, hm, hcall, hlist, htop⟩ := h.tasks _ (List.mem_cons_self ..)
  have htopics := h.topics list (List.mem_of_getElem? hlist)
  have hcb := callbackOf_topicAt htopics htop
  dsimp only [readTopic]
  rw [hm.2, hcb]
  apply turn_answer h ht hset rfl rfl hm
  rw [expected, if_neg hcall, hlist]

theorem turn_draining (h : Inv s (.draining :: rest) xs) (ht : s.tasks[k]? = some .draining)
    (hset : ∀ u, (s.tasks.set k u).Perm (u :: rest)) :
    StepSpec s (.run k) (popMessage s k) := by
  cases xs with
  | nil =>
    have hpop := heapHolds_pop_nil h.queue
    have hr : popMessage s k = some (s.become k .returned) := by
      simp only [popMessage, hpop]
    refine ⟨_, hr, ⟨_, _, h.become (hset _) rfl rfl trivial⟩, answers_of_eq rfl, ?_⟩
    intro _ _
    exact h.queue.payloads_eq
  | cons p xs =>
    obtain ⟨s', hr, htasks, hc, hi⟩ := h.pop hset
    refine ⟨s', hr, ⟨_, _, hi⟩, answers_pop hc, ?_⟩
    intro _ hret
    have hk := (List.getElem?_eq_some_iff.mp ht).1
    rw [htasks, List.getElem?_set_self hk] at hret
    cases hret

theorem turn_sorting {i : ℕ} (h : Inv s (.sorting i :: rest) xs)
    (ht : s.tasks[k]? = some (.sorting i)) (hset : ∀ u, (s.tasks.set k u).Perm (u :: rest))
    (hkept : SortKeeps lib s (.sorting i)) :
    StepSpec s (.run k) (some (mbusSortTopicRound lib s k i)) := by
  have hempty : ∀ t, EndsEmpty s t (.run k) := by
    intro t hd
    rw [ht] at hd
    cases hd
  cases hc : s.channArray[i]? with
  | none =>
    have hr : mbusSortTopicRound lib s k i = s.become k .returned := by
      simp only [mbusSortTopicRound, hc]
    rw [hr]
    exact ⟨_, rfl, ⟨_, _, h.become (hset _) rfl rfl trivial⟩, answers_of_eq rfl, hempty _⟩
  | some list =>
    have hr : mbusSortTopicRound lib s k i =
        ({ s with
          topicLists := Function.update s.topicLists list
            (kvListSort lib (s.topicLists list)) } : MsgBus).become k (.sorting (i+1)) := by
      simp only [mbusSortTopicRound, hc]
    have hok := holdsTopics_sort lib (h.topics list (List.mem_of_getElem? hc))
    have hnext := h.update_topics list hok (by
      intro p e j hj id hat
      have hmem := h.tasks_perm.mem_iff.mpr hj
      have hslot := hkept list hc _ hmem rfl
      exact topicAt_congr hat (sort_depth lib _) hslot)
    rw [hr]
    exact ⟨_, rfl, ⟨_, _, hnext.become (hset _) rfl rfl trivial⟩, answers_of_eq rfl, hempty _⟩

theorem run_spec {t : MbusTask} (h : Inv s ts xs) (ht : s.tasks[k]? = some t)
    (hkept : SortKeeps lib s t) : StepSpec s (.run k) (runTask lib s k t) := by
  obtain ⟨rest, hperm, hset⟩ := perm_set ht
  have hr := h.perm (h.tasks_perm.symm.trans hperm)
  have hempty : t ≠ .draining → ∀ t, EndsEmpty s t (.run k) := by
    intro hne u hd
    rw [ht] at hd
    exact absurd (Option.some.inj hd) hne
  cases t with
  | copying p msg =>
    exact ⟨_, copyMessage_heap h.queue.heap k p msg, ⟨_, _, hr.copy (hset _)⟩, answers_of_eq rfl,
      hempty (by simp) _⟩
  | pushing p msg =>
    obtain ⟨s', hs, hc, hi⟩ := hr.push (hset _)
    exact ⟨s', hs, ⟨_, _, hi⟩, answers_of_eq hc, hempty (by simp) _⟩
  | sorting i => exact turn_sorting hr ht hset hkept
  | draining => exact turn_draining hr ht hset
  | handling p e => exact turn_handling hr ht hset
  | reading p e list i => exact turn_reading hr ht hset
  | freeing p =>
    obtain ⟨s', hs, hc, hi⟩ := hr.free (hset _)
    exact ⟨s', hs, ⟨_, _, hi⟩, answers_of_eq hc, hempty (by simp) _⟩
  | returned => exact ⟨s, rfl, ⟨_, _, h⟩, answers_of_eq rfl, hempty (by simp) _⟩

end Turn

theorem alloc_spec (h : Inv s ts xs) (msg : MbusMsg) (hmsg : InRange s msg) {block : Option Addr}
    (hb : ∀ p ∈ block, s.msgQueue.live p = false) :
    (∃ us, Inv (allocMessage s msg block) us xs) ∧
      (allocMessage s msg block).consumed = s.consumed := by
  cases block with
  | none =>
    have hn := linkedListAllocNode_null h.queue.heap sizeofMbusMsg
    have hr : allocMessage s msg none = s := by
      simp only [allocMessage, hn]
    rw [hr]
    exact ⟨⟨ts, h⟩, rfl⟩
  | some p =>
    have hn := linkedListAllocNode_block h.queue.heap p sizeofMbusMsg
    have hr : allocMessage s msg (some p) =
        ({ s with msgQueue := s.msgQueue.addBlock p } : MsgBus).spawn (.copying p msg) := by
      simp only [allocMessage, hn]
    rw [hr]
    exact ⟨⟨_, h.alloc (hb p rfl) hmsg⟩, rfl⟩

theorem step_spec (h : Inv s ts xs) {a : MbusAct} (hl : Legal s a) (hkept : FoundKept lib s a) :
    StepSpec s a (mbusStep lib s a) := by
  cases a with
  | produceMessage chann topic pData value block =>
    obtain ⟨⟨us, hi⟩, hc⟩ := alloc_spec h ⟨chann, topic, pData, value⟩ (Or.inr hl.1) hl.2.2
    exact ⟨_, if_pos (queueReadable_heap h.queue.heap), ⟨us, xs, hi⟩, answers_of_eq hc, trivial⟩
  | produceCall callback pData value block =>
    obtain ⟨⟨us, hi⟩, hc⟩ :=
      alloc_spec h ⟨mbusCallGroupId, callback, pData, value⟩ (Or.inl rfl) hl
    exact ⟨_, if_pos (queueReadable_heap h.queue.heap), ⟨us, xs, hi⟩, answers_of_eq hc, trivial⟩
  | registerTopic channId topic =>
    obtain ⟨list, hlist⟩ : ∃ list, s.channArray[channId.toNat]? = some list :=
      ⟨_, List.getElem?_eq_getElem hl.1⟩
    have htopics := h.topics list (List.mem_of_getElem? hlist)
    have hfresh := hl.2 list hlist
    let l := (kvListAdd (s.topicLists list) topic.id.toNat (MbusTopic.layout.object topic)).1
    have hr : mbusStep lib s (.registerTopic channId topic) =
        some { s with topicLists := Function.update s.topicLists list l } := by
      simp only [mbusStep, mbusRegisterTopic, hlist, l]
    have hnext := h.update_topics list (l := l) (holdsTopics_add htopics hfresh _) (by
      intro p e i _ id hat
      exact topicAt_congr hat (add_depth htopics _ _) (add_node htopics _ _ hat.valid))
    exact ⟨_, hr, ⟨ts, xs, hnext⟩, answers_of_eq rfl, trivial⟩
  | sortTopic =>
    exact ⟨_, rfl, ⟨_, _, h.spawn rfl rfl trivial⟩, answers_of_eq rfl, trivial⟩
  | consumeCall =>
    exact ⟨_, rfl, ⟨_, _, h.spawn rfl rfl trivial⟩, answers_of_eq rfl, trivial⟩
  | run k =>
    dsimp only [mbusStep]
    cases ht : s.tasks[k]? with
    | some t => exact run_spec h ht (hkept t ht)
    | none =>
      refine ⟨s, rfl, ⟨ts, xs, h⟩, answers_of_eq rfl, ?_⟩
      intro hd
      rw [ht] at hd
      cases hd

theorem Inv.conserved (h : Inv s ts xs) : Conserved s := by
  have hw : walk s.msgQueue.next s.msgQueue.count s.msgQueue.head = xs := by
    have hc : s.msgQueue.count = xs.length := h.queue.holds.count_eq
    rw [hc]
    exact h.queue.holds.linked.forward.walk_eq
  have hnodes : (xs ++ s.tasks.filterMap taskNode).Perm (xs ++ ts.filterMap taskNode) :=
    (h.tasks_perm.filterMap _).append_left xs
  have hentries := h.tasks_perm.filterMap taskEntry
  refine ⟨?_, ?_, ?_, hentries.nodup_iff.mpr h.entries_nodup, ?_⟩
  · rw [h.queue.payloads_eq]
    exact h.conserved
  · rw [hw]
    exact hnodes.nodup_iff.mpr h.nodup
  · intro p
    rw [hw, hnodes.mem_iff]
    exact h.live_iff p
  · intro e
    rw [hentries.mem_iff, h.entries_iff, answerAt]
    constructor
    · rintro ⟨m, hm⟩
      refine ⟨(List.getElem?_eq_some_iff.mp hm).1, ?_⟩
      rw [hm]
      rfl
    · rintro ⟨hlt, hn⟩
      rw [List.getElem?_eq_getElem hlt] at hn ⊢
      exact ⟨s.consumed[e].msg, congrArg some (congrArg (Consumed.mk _) hn)⟩

theorem run_delivers {acts : List MbusAct} (h : Inv s ts xs)
    (hlegal : Along (mbusStep lib) Legal s acts)
    (hkept : Along (mbusStep lib) (FoundKept lib) s acts) :
    Along (mbusStep lib) (Delivers lib) s acts ∧ Conserved (exec (mbusStep lib) s acts) := by
  induction acts generalizing s ts xs with
  | nil => exact ⟨trivial, Inv.conserved h⟩
  | cons a acts ih =>
    obtain ⟨t, hs, ⟨us, ys, ht⟩, hans, hend⟩ := (step_spec h hlegal.1 hkept.1).spec
    rw [along_cons_some hs] at hlegal hkept ⊢
    rw [exec_cons_some hs]
    obtain ⟨hd, hc⟩ := ih ht hlegal.2 hkept.2
    refine ⟨⟨?_, hd⟩, hc⟩
    rw [Delivers, hs]
    exact ⟨hans, hend⟩

/-- On a bus that is ready, every interleaving of producers, registrations, sorts
and drains delivers, if no sort moves a node that a consumer has found and not
read. -/
theorem messages_delivered (lib : Stdlib) {s : MsgBus} (h : Ready s) {acts : List MbusAct}
    (hlegal : Along (mbusStep lib) Legal s acts)
    (hkept : Along (mbusStep lib) (FoundKept lib) s acts) :
    Along (mbusStep lib) (Delivers lib) s acts ∧ Conserved (exec (mbusStep lib) s acts) :=
  run_delivers h.inv hlegal hkept

def oneChannel : MsgBus :=
  mbusInit
    { channArray := [0]
      msgQueue :=
        { head := none, tail := none, next := fun _ => none, prev := fun _ => none
          arrayBased := false, count := 0, width := 0, depth := 0, nodeArray := none
          dataArray := none, sorted := false, lastSlotIndex := 0, opt := fun _ => 0
          dataPtr := fun _ => 0, data := fun _ => ⟨0, 0, 0, 0⟩, live := fun _ => false }
      topicLists := fun _ => ⟨0, 12, [⟨false, 0, 0⟩, ⟨false, 0, 0⟩], 64, fun _ => 0, false⟩
      tasks := [], pushed := [], consumed := [] }

theorem oneChannel_ready : Ready oneChannel := by
  apply mbusInit_ready rfl (fun _ => rfl) rfl rfl rfl
  intro i _
  refine ⟨rfl, ?_⟩
  intro n hn
  rcases List.mem_cons.mp hn with rfl | hn
  · rfl
  · rw [List.mem_singleton.mp hn]

def registerAndPush : List MbusAct :=
  [.registerTopic 0 ⟨7, 0, 70⟩, .registerTopic 0 ⟨3, 0, 30⟩, .produceMessage 0 7 1 2 (some 256),
    .run 0, .run 0]

theorem messages_delivered_interleaved :
    Along (mbusStep .reference) (Delivers .reference) oneChannel (registerAndPush ++
        [.sortTopic, .consumeCall, .run 2, .run 1, .produceCall 90 5 6 (some 512), .run 1, .run 3,
          .run 2, .run 2, .run 3, .run 2, .run 2]) ∧
      Conserved (exec (mbusStep .reference) oneChannel (registerAndPush ++
        [.sortTopic, .consumeCall, .run 2, .run 1, .produceCall 90 5 6 (some 512), .run 1, .run 3,
          .run 2, .run 2, .run 3, .run 2, .run 2])) :=
  messages_delivered .reference oneChannel_ready (by decide) (by decide)

/-- The list is sorted between the search and the read, and the message for topic 7
invokes the callback of topic 3. -/
theorem wrong_callback_invoked :
    Ready oneChannel ∧
      Along (mbusStep .reference) Legal oneChannel
        (registerAndPush ++ [.consumeCall, .run 1, .run 1, .sortTopic, .run 2, .run 1]) ∧
      ¬ Along (mbusStep .reference) (Delivers .reference) oneChannel
        (registerAndPush ++ [.consumeCall, .run 1, .run 1, .sortTopic, .run 2, .run 1]) ∧
      (exec (mbusStep .reference) oneChannel (registerAndPush ++
        [.consumeCall, .run 1, .run 1, .sortTopic, .run 2, .run 1])).consumed =
        [⟨⟨0, 7, 1, 2⟩, some (some ⟨30, 1, 2⟩)⟩] :=
  ⟨oneChannel_ready, by decide, by decide, by decide⟩

end BleFirmware.MsgBusDelivery
