import BleFirmware.ArrayList
import BleFirmware.Base.Run
import BleFirmware.MsgBus

/-!
# One message through the bus

A message is produced and then consumed, with no other task in between. The
producer has its message in the queue unless no node is to be had, and the
consumer then answers it with the outcome that the channels and their topic
lists give at that moment.
-/

namespace BleFirmware.MsgBusCall
open Bytes CSort ListAlgo Run

/-- The topic behind a node, as `mbus_consume_message` reads it. -/
def topicOf (l : KvList) (i : ℕ) : MbusTopic :=
  MbusTopic.layout.ofBytes (readBytes l.data (l.node i).dataPtr MbusTopic.layout.size)

/-- What consuming a message comes to: `none` beyond the array of channels. -/
def outcome (lib : Stdlib) (s : MsgBus) (msg : MbusMsg) : Option (Option Invocation) :=
  if msg.channId = mbusCallGroupId then some (invoke msg.callback msg)
  else
    match s.channArray[msg.channId.toNat]? with
    | some list =>
      match kvListSearch lib (s.topicLists list) msg.topicId.toNat with
      | some i => some (invoke (topicOf (s.topicLists list) i).callback msg)
      | none => some none
    | none => none

def delivery (s : MsgBus) (msg : MbusMsg) (block : Addr) : List MbusAct :=
  .produceMessage msg.channId msg.word msg.dataPtr msg.value (some block) ::
    .run s.tasks.length :: .run s.tasks.length :: .consumeCall ::
      List.replicate 5 (.run (s.tasks.length+1))

/-- Every message for a topic, whatever it carries and wherever its block lies, invokes
the callback once, and both calls return. -/
structure Invokes (lib : Stdlib) (s : MsgBus) (chann topic callback : UInt32) : Prop where
  consumed_eq : ∀ pData value block,
    (exec (mbusStep lib) s (delivery s ⟨chann, topic, pData, value⟩ block)).consumed =
      s.consumed ++ [⟨⟨chann, topic, pData, value⟩, some (some ⟨callback, pData, value⟩)⟩]
  tasks_eq : ∀ pData value block,
    (exec (mbusStep lib) s (delivery s ⟨chann, topic, pData, value⟩ block)).tasks =
      s.tasks ++ [.returned, .returned]

/-- A node is to be had: from the heap, or from an array of nodes in which a free slot
comes behind the used ones, with room for a message at its `data_ptr`. -/
def Allocates (s : MsgBus) : Prop :=
  s.msgQueue.arrayBased = true → s.arrayByte = 1 ∧ s.msgQueue.nodeArray ≠ none ∧
    ∃ k < s.msgQueue.depth, (∀ j ≤ k, s.nodeAt (s.msgQueue.probed j) = true) ∧
      (∀ j < k, s.msgQueue.flag j = 1) ∧ s.msgQueue.flag k = 0 ∧
        s.roomAt (s.msgQueue.dataPtr (s.msgQueue.probed k)) = true

variable {lib : Stdlib} {s : MsgBus} {msg : MbusMsg} {p : Addr} {t : MbusTask}

theorem spawn_become (s : MsgBus) (t u : MbusTask) :
    (s.spawn t).become s.tasks.length u = s.spawn u := by
  simp [MsgBus.spawn, MsgBus.become]

theorem step_last (s : MsgBus) (t : MbusTask) :
    mbusStep lib (s.spawn t) (.run s.tasks.length) = runTask lib (s.spawn t) s.tasks.length t := by
  have htask : (s.spawn t).tasks[s.tasks.length]? = some t := List.getElem?_concat_length
  simp only [mbusStep, htask]

theorem run_last {u : MsgBus} (h : runTask lib (s.spawn t) s.tasks.length t = some u)
    (acts : List MbusAct) :
    exec (mbusStep lib) (s.spawn t) (.run s.tasks.length :: acts) = exec (mbusStep lib) u acts :=
  exec_cons_some ((step_last s t).trans h) acts

structure Queued (l : LinkedList MbusMsg) (p : Addr) (msg : MbusMsg) : Prop where
  head_eq : l.head = some p
  tail_eq : l.tail = some p
  nodeData_eq : l.nodeData p = msg
  live : l.arrayBased = true ∨ l.live p = true

def afterPop (l : LinkedList MbusMsg) : LinkedList MbusMsg :=
  { l with head := none, tail := none, count := sizeDec l.count }

theorem Queued.pop (h : Queued s.msgQueue p msg) :
    runTask lib (s.spawn .draining) s.tasks.length .draining =
      some (({ s with
        msgQueue := afterPop s.msgQueue
        consumed := s.consumed ++ [⟨msg, none⟩] } : MsgBus).spawn
          (.handling p s.consumed.length)) := by
  have hremove : linkedListRemoveHead s.msgQueue = some (afterPop s.msgQueue, some p) := by
    simp [linkedListRemoveHead, listRemoveHead, h.head_eq, h.tail_eq, afterPop]
  have hdata : (afterPop s.msgQueue).nodeData p = msg := h.nodeData_eq
  have hpop : popMessage (s.spawn .draining) s.tasks.length =
      some ((({ s with
        msgQueue := afterPop s.msgQueue
        consumed := s.consumed ++ [⟨(afterPop s.msgQueue).nodeData p, none⟩] } : MsgBus).spawn
          .draining).become s.tasks.length (.handling p s.consumed.length)) := by
    simp only [popMessage, MsgBus.spawn, hremove]
  rw [runTask, hpop, spawn_become, hdata]

theorem pop_empty (lib : Stdlib) (h : s.msgQueue.head = none) :
    runTask lib (s.spawn .draining) s.tasks.length .draining = some (s.spawn .returned) := by
  have hremove : linkedListRemoveHead s.msgQueue = some (s.msgQueue, none) := by
    simp [linkedListRemoveHead, h]
  have hpop : popMessage (s.spawn .draining) s.tasks.length =
      some ((s.spawn .draining).become s.tasks.length .returned) := by
    simp only [popMessage, MsgBus.spawn, hremove]
  rw [runTask, hpop, spawn_become]

theorem free_returns (lib : Stdlib) (h : s.msgQueue.arrayBased = true ∨ s.msgQueue.live p = true) :
    ∃ l, l.head = s.msgQueue.head ∧
      runTask lib (s.spawn (.freeing p)) s.tasks.length (.freeing p) =
        some (({ s with msgQueue := l } : MsgBus).spawn .draining) := by
  have hfree : ∃ l, linkedListFreeNode s.msgQueue p = some l ∧ l.head = s.msgQueue.head := by
    cases ha : s.msgQueue.arrayBased with
    | true => simp [linkedListFreeNode, ha]
    | false =>
      have hlive := h.resolve_left (by simp [ha])
      simp [linkedListFreeNode, ha, hlive]
  obtain ⟨l, hl, hhead⟩ := hfree
  refine ⟨l, hhead, ?_⟩
  have hstep : freeMessage (s.spawn (.freeing p)) s.tasks.length p =
      some ((({ s with msgQueue := l } : MsgBus).spawn (.freeing p)).become s.tasks.length
        .draining) := by
    simp only [freeMessage, MsgBus.spawn, hl, Option.map_some]
  rw [runTask, hstep, spawn_become]

theorem returned_run (s : MsgBus) (n : ℕ) :
    exec (mbusStep lib) (s.spawn .returned) (List.replicate n (.run s.tasks.length)) =
      s.spawn .returned := by
  induction n with
  | zero => rfl
  | succ n ih => rw [List.replicate_succ, run_last rfl, ih]

theorem freeing_run (hlive : s.msgQueue.arrayBased = true ∨ s.msgQueue.live p = true)
    (hhead : s.msgQueue.head = none) (n : ℕ) :
    ∃ l, exec (mbusStep lib) (s.spawn (.freeing p)) (List.replicate (n+2) (.run s.tasks.length)) =
      ({ s with msgQueue := l } : MsgBus).spawn .returned := by
  obtain ⟨l, hl, hfree⟩ := free_returns lib hlive
  have hpop := pop_empty lib (s := { s with msgQueue := l }) (hl.trans hhead)
  refine ⟨l, ?_⟩
  rw [List.replicate_succ, run_last hfree, List.replicate_succ]
  exact (run_last hpop _).trans (returned_run { s with msgQueue := l } n)

def popped (s : MsgBus) (l : LinkedList MbusMsg) (msg : MbusMsg) (a : Option (Option Invocation)) :
    MsgBus :=
  { s with msgQueue := l, consumed := s.consumed ++ [⟨msg, a⟩] }

theorem modify_concat (es : List Consumed) (e : Consumed) (f : Consumed → Consumed) :
    (es ++ [e]).modify es.length f = es ++ [f e] := by
  induction es with
  | nil => rfl
  | cons x es ih => simp [ih]

theorem answer_last (l : LinkedList MbusMsg) (msg : MbusMsg) (a : Option Invocation) (t u : MbusTask) :
    (((popped s l msg none).spawn t).answer s.consumed.length a).become s.tasks.length u =
      (popped s l msg (some a)).spawn u := by
  rw [← spawn_become (popped s l msg (some a)) t u]
  simp only [MsgBus.answer, MsgBus.spawn, popped, modify_concat]

theorem handle_cases (lib : Stdlib) {l : LinkedList MbusMsg} (hdata : l.nodeData p = msg)
    {k : ℕ} (hk : s.tasks.length = k) (e : ℕ) (he : s.consumed.length = e) :
    runTask lib ((popped s l msg none).spawn (.handling p e)) k (.handling p e) =
        (outcome lib s msg).map (fun a => (popped s l msg (some a)).spawn (.freeing p)) ∨
      ∃ list i, runTask lib ((popped s l msg none).spawn (.handling p e)) k (.handling p e) =
          some ((popped s l msg none).spawn (.reading p e list i)) ∧
        outcome lib s msg = some (invoke (topicOf (s.topicLists list) i).callback msg) := by
  subst hk he
  have hanswer := fun a => answer_last (s := s) l msg a (.handling p s.consumed.length)
    (.freeing p)
  have hread := fun list i => spawn_become (popped s l msg none) (.handling p s.consumed.length)
    (.reading p s.consumed.length list i)
  let u := (popped s l msg none).spawn (.handling p s.consumed.length)
  have hmsg : u.msgQueue.nodeData p = msg := hdata
  have hchann : u.channArray = s.channArray := rfl
  have hlists : u.topicLists = s.topicLists := rfl
  change mbusConsumeMessage lib u _ _ _ = _ ∨ ∃ list i, mbusConsumeMessage lib u _ _ _ = _ ∧ _
  by_cases hcall : msg.channId = mbusCallGroupId
  · left
    simp only [mbusConsumeMessage, outcome, hmsg, if_pos hcall, Option.map_some]
    exact congrArg some (hanswer _)
  · cases hlist : s.channArray[msg.channId.toNat]? with
    | none =>
      left
      simp only [mbusConsumeMessage, outcome, hmsg, if_neg hcall, hchann, hlist, Option.map_none]
    | some list =>
      cases hs : kvListSearch lib (s.topicLists list) msg.topicId.toNat with
      | none =>
        left
        simp only [mbusConsumeMessage, outcome, hmsg, if_neg hcall, hchann, hlist, hlists, hs,
          Option.map_some]
        exact congrArg some (hanswer none)
      | some i =>
        right
        refine ⟨list, i, ?_, ?_⟩
        · simp only [mbusConsumeMessage, hmsg, if_neg hcall, hchann, hlist, hlists, hs]
          exact congrArg some (hread list i)
        · simp only [outcome, if_neg hcall, hlist, hs]

theorem read_last (lib : Stdlib) {l : LinkedList MbusMsg} (hdata : l.nodeData p = msg)
    (list i : ℕ) :
    runTask lib ((popped s l msg none).spawn (.reading p s.consumed.length list i)) s.tasks.length
        (.reading p s.consumed.length list i) =
      some ((popped s l msg (some (invoke (topicOf (s.topicLists list) i).callback msg))).spawn
        (.freeing p)) := by
  rw [← answer_last l msg _ (.reading p s.consumed.length list i) (.freeing p), ← hdata]
  rfl

theorem consume_run (lib : Stdlib) (h : Queued s.msgQueue p msg) :
    match outcome lib s msg with
    | some a => ∃ l, exec (mbusStep lib) (s.spawn .draining)
        (List.replicate 5 (.run s.tasks.length)) = (popped s l msg (some a)).spawn .returned
    | none => (exec (mbusStep lib) (s.spawn .draining)
        (List.replicate 5 (.run s.tasks.length))).consumed = s.consumed ++ [⟨msg, none⟩] := by
  let l := afterPop s.msgQueue
  let v := popped s l msg none
  have hpop : runTask lib (s.spawn .draining) s.tasks.length .draining =
      some (v.spawn (.handling p s.consumed.length)) := h.pop
  have hrest : ∀ a n, ∃ m, exec (mbusStep lib) ((popped s l msg (some a)).spawn (.freeing p))
      (List.replicate (n+2) (.run s.tasks.length)) = (popped s m msg (some a)).spawn .returned :=
    fun a n => freeing_run (s := popped s l msg (some a)) h.live rfl n
  have hhandle := handle_cases (s := s) lib (l := l) h.nodeData_eq rfl s.consumed.length rfl
  rw [List.replicate_succ, run_last hpop, List.replicate_succ]
  cases hhandle with
  | inl hone =>
    cases hout : outcome lib s msg with
    | none =>
      rw [hout] at hone
      have hstop := exec_cons_none ((step_last v _).trans hone)
        (List.replicate 3 (.run s.tasks.length))
      exact congrArg MsgBus.consumed hstop
    | some a =>
      rw [hout] at hone
      have hgo := run_last (s := v) hone (List.replicate 3 (.run s.tasks.length))
      obtain ⟨m, hm⟩ := hrest a 1
      exact ⟨m, hgo.trans hm⟩
  | inr htwo =>
    obtain ⟨list, i, hread, hout⟩ := htwo
    rw [hout]
    obtain ⟨m, hm⟩ := hrest (invoke (topicOf (s.topicLists list) i).callback msg) 0
    have hgo := run_last (s := v) hread (List.replicate 3 (.run s.tasks.length))
    have hgo' := run_last (s := v) (read_last lib (l := l) h.nodeData_eq list i)
      (List.replicate 2 (.run s.tasks.length))
    exact ⟨m, hgo.trans (hgo'.trans hm)⟩

theorem allocArrayNode_first {l : LinkedList MbusMsg} {k : ℕ} (hk : k < l.depth)
    (hset : ∀ j < k, l.flag j = 1) (hfree : l.flag k = 0) :
    allocArrayNode l =
      (l.takeSlot (probeIndex l.lastSlotIndex k l.depth), some (l.probed k)) := by
  have hfind : (List.range l.depth).find? (fun i =>
      !used (l.opt (l.slot (probeIndex l.lastSlotIndex i l.depth)))) = some k := by
    rw [List.find?_range_eq_some]
    refine ⟨?_, List.mem_range.mpr hk, fun j hj => ?_⟩
    · have hk0 : l.opt (l.slot (probeIndex l.lastSlotIndex k l.depth)) % 256 = 0 := hfree
      simp [used, hk0]
    · have hj1 : l.opt (l.slot (probeIndex l.lastSlotIndex j l.depth)) % 256 = 1 := hset j hj
      simp [used, hj1]
  simp only [allocArrayNode, hfind]
  rfl

def HasRoom (s : MsgBus) (l : LinkedList MbusMsg) (p : Addr) : Prop :=
  (l.arrayBased = true ∧ s.roomAt (l.dataPtr p) = true) ∨
    (l.arrayBased = false ∧ l.live p = true)

theorem alloc_node (h : Allocates s) (block : Addr) (dataLen : ℕ) :
    ∃ l p, linkedListAllocNode s.msgQueue (fun _ => some block) dataLen = (l, some p) ∧
      l.head = s.msgQueue.head ∧ HasRoom s l p := by
  cases ha : s.msgQueue.arrayBased with
  | true =>
    obtain ⟨_, _, k, hk, _, hset, hfree, hroom⟩ := h ha
    let l := s.msgQueue.takeSlot (probeIndex s.msgQueue.lastSlotIndex k s.msgQueue.depth)
    refine ⟨l, s.msgQueue.probed k, ?_, rfl, Or.inl ⟨ha, hroom⟩⟩
    rw [linkedListAllocNode, if_pos ha, allocArrayNode_first hk hset hfree]
  | false =>
    refine ⟨s.msgQueue.addBlock block, block, linkedListAllocNode_block ha block dataLen, rfl, ?_⟩
    refine Or.inr ⟨ha, ?_⟩
    exact Function.update_self block true s.msgQueue.live

theorem Allocates.readable (h : Allocates s) : QueueReadable s := by
  intro harray
  obtain ⟨hbyte, hnode, m, _, hnodes, hset, hfree, _⟩ := h harray
  refine ⟨hbyte, fun k _ hbefore => ?_⟩
  have hle : k ≤ m := by
    by_contra hlt
    have hm := hbefore m (Nat.lt_of_not_le hlt)
    rw [hfree] at hm
    exact absurd hm (by decide)
  refine ⟨hnode, hnodes k hle, ?_⟩
  rcases Nat.lt_or_eq_of_le hle with hlt | rfl
  · exact (hset k hlt).le
  · rw [hfree]
    exact Nat.zero_le 1

theorem alloc_refused (harray : s.msgQueue.arrayBased = true)
    (hfull : ∀ k < s.msgQueue.depth, s.msgQueue.flag k = 1)
    (msg : MbusMsg) (block : Option Addr) : allocMessage s msg block = s := by
  have hused : ∀ i < s.msgQueue.depth, used (s.msgQueue.opt (s.msgQueue.slot i)) = true := by
    intro i hi
    obtain ⟨k, hk, rfl⟩ := exists_probe s.msgQueue.lastSlotIndex hi
    have hflag : s.msgQueue.opt (s.msgQueue.probed k) % 256 = 1 := hfull k hk
    rw [LinkedList.probed] at hflag
    simp [used, hflag]
  have halloc : linkedListAllocNode s.msgQueue (fun _ => block) sizeofMbusMsg =
      (s.msgQueue, none) := by
    rw [linkedListAllocNode, if_pos harray, allocArrayNode_full hused]
  simp only [allocMessage, halloc]

theorem exists_first_free (hread : QueueReadable s) (harray : s.msgQueue.arrayBased = true)
    (hnot : ¬ ∀ k < s.msgQueue.depth, s.msgQueue.flag k = 1) :
    s.msgQueue.nodeArray ≠ none ∧ ∃ k < s.msgQueue.depth,
      (∀ j ≤ k, s.nodeAt (s.msgQueue.probed j) = true) ∧ (∀ j < k, s.msgQueue.flag j = 1) ∧
        s.msgQueue.flag k = 0 := by
  have hex : ∃ k, k < s.msgQueue.depth ∧ s.msgQueue.flag k ≠ 1 := by
    push Not at hnot
    exact hnot
  obtain ⟨hk, hne⟩ := Nat.find_spec hex
  have hbefore : ∀ j < Nat.find hex, s.msgQueue.flag j = 1 := by
    intro j hj
    by_contra hj1
    exact Nat.find_min hex hj ⟨hj.trans hk, hj1⟩
  obtain ⟨hnode, _, hle⟩ := (hread harray).2 _ hk hbefore
  refine ⟨hnode, _, hk, ?_, hbefore, by omega⟩
  intro j hj
  exact ((hread harray).2 j (hj.trans_lt hk) fun i hi => hbefore i (hi.trans_le hj)).2.1

theorem copy_last (lib : Stdlib) (s : MsgBus) (p : Addr) (msg : MbusMsg)
    (hroom : HasRoom s s.msgQueue p) :
    ∃ l, runTask lib (s.spawn (.copying p msg)) s.tasks.length (.copying p msg) =
        some (({ s with msgQueue := l } : MsgBus).spawn (.pushing p msg)) ∧
      l.head = s.msgQueue.head ∧ l.nodeData p = msg ∧
      l.arrayBased = s.msgQueue.arrayBased ∧ l.live p = s.msgQueue.live p := by
  let l := s.msgQueue.setNodeData p msg
  have hcopy : runTask lib (s.spawn (.copying p msg)) s.tasks.length (.copying p msg) =
      some (writeMessage (s.spawn (.copying p msg)) s.tasks.length p msg) := by
    refine if_neg ?_
    rintro ⟨harray, hnone⟩
    have hsome := hroom.resolve_right fun h => by
      have hheap : s.msgQueue.arrayBased = false := h.1
      rw [show s.msgQueue.arrayBased = true from harray] at hheap
      exact absurd hheap (by decide)
    exact absurd (hsome.2.symm.trans hnone) (by decide)
  refine ⟨{ l with opt := Function.update l.opt p msg.value.toNat }, ?_, rfl, ?_, rfl, rfl⟩
  · rw [hcopy]
    exact congrArg some (spawn_become
      { s with msgQueue := { l with opt := Function.update l.opt p msg.value.toNat } } _ _)
  · exact Function.update_self (s.msgQueue.dataPtr p) msg s.msgQueue.data

theorem push_last (lib : Stdlib) (hhead : s.msgQueue.head = none) (hdata : s.msgQueue.nodeData p = msg)
    (hlive : s.msgQueue.arrayBased = true ∨ s.msgQueue.live p = true) :
    ∃ l, runTask lib (s.spawn (.pushing p msg)) s.tasks.length (.pushing p msg) =
        some (({ s with msgQueue := l, pushed := s.pushed ++ [msg] } : MsgBus).spawn .returned) ∧
      Queued l p msg := by
  have hinsert : ∃ l, linkedListInsertTail s.msgQueue p = some l ∧ Queued l p msg := by
    simp only [linkedListInsertTail, listInsertTail, hhead, Option.map_some]
    exact ⟨_, rfl, rfl, rfl, hdata, hlive⟩
  obtain ⟨l, hl, hq⟩ := hinsert
  have hpush : pushMessage (s.spawn (.pushing p msg)) s.tasks.length p msg =
      some ((({ s with msgQueue := l, pushed := s.pushed ++ [msg] } : MsgBus).spawn
        (.pushing p msg)).become s.tasks.length .returned) := by
    simp only [pushMessage, MsgBus.spawn, hl, Option.map_some]
  refine ⟨l, ?_, hq⟩
  rw [runTask, hpush]
  exact congrArg some (spawn_become
    { s with msgQueue := l, pushed := s.pushed ++ [msg] } _ _)

theorem produce_step (lib : Stdlib) (hread : QueueReadable s) (msg : MbusMsg) (block : Addr) :
    mbusStep lib s (.produceMessage msg.channId msg.word msg.dataPtr msg.value (some block)) =
      some (allocMessage s msg (some block)) :=
  if_pos hread

theorem produce_run (lib : Stdlib) (h : Allocates s) (hhead : s.msgQueue.head = none)
    (msg : MbusMsg) (block : Addr) (acts : List MbusAct) :
    ∃ l p, Queued l p msg ∧
      exec (mbusStep lib) s (.produceMessage msg.channId msg.word msg.dataPtr msg.value (some block)
          :: .run s.tasks.length :: .run s.tasks.length :: acts) =
        exec (mbusStep lib)
          (({ s with msgQueue := l, pushed := s.pushed ++ [msg] } : MsgBus).spawn .returned) acts := by
  obtain ⟨l, p, halloc, hl, hroom⟩ := alloc_node h block sizeofMbusMsg
  have hstep := produce_step lib h.readable msg block
  simp only [allocMessage, halloc] at hstep
  obtain ⟨k, hcopy, hk, hdata, harray, hkeep⟩ :=
    copy_last lib { s with msgQueue := l } p msg hroom
  have hlive : k.arrayBased = true ∨ k.live p = true := by
    rw [harray, hkeep]
    exact hroom.imp And.left And.right
  obtain ⟨m, hpush, hm⟩ := push_last lib (s := { s with msgQueue := k })
    (hk.trans (hl.trans hhead)) hdata hlive
  refine ⟨m, p, hm, ?_⟩
  calc exec (mbusStep lib) s _
      = exec (mbusStep lib) (({ s with msgQueue := l } : MsgBus).spawn (.copying p msg)) _ :=
        exec_cons_some hstep _
    _ = exec (mbusStep lib) (({ s with msgQueue := k } : MsgBus).spawn (.pushing p msg)) _ :=
        run_last hcopy _
    _ = _ := run_last hpush acts

theorem idle_run {k : ℕ} (h : s.tasks.length ≤ k) (n : ℕ) :
    exec (mbusStep lib) s (List.replicate n (.run k)) = s := by
  have hstep : mbusStep lib s (.run k) = some s := by
    simp only [mbusStep, List.getElem?_eq_none h]
  induction n with
  | zero => rfl
  | succ n ih => rw [List.replicate_succ, exec_cons_some hstep, ih]

/-- The consumer finds the message that the producer has left. -/
theorem delivery_run (lib : Stdlib) (h : Allocates s) (hhead : s.msgQueue.head = none)
    (msg : MbusMsg) (block : Addr) :
    let t := exec (mbusStep lib) s (delivery s msg block)
    t.consumed = s.consumed ++ [⟨msg, outcome lib s msg⟩] ∧
      ((outcome lib s msg).isSome → t.tasks = s.tasks ++ [.returned, .returned]) := by
  obtain ⟨l, p, hq, hproduce⟩ := produce_run lib h hhead msg block
    (.consumeCall :: List.replicate 5 (.run (s.tasks.length+1)))
  let v := ({ s with msgQueue := l, pushed := s.pushed ++ [msg] } : MsgBus).spawn .returned
  have hlen : v.tasks.length = s.tasks.length + 1 := List.length_append
  have hconsume := consume_run lib (s := v) hq
  have hout : outcome lib v msg = outcome lib s msg := rfl
  rw [hout, hlen] at hconsume
  have hrun : exec (mbusStep lib) s (delivery s msg block) =
      exec (mbusStep lib) (v.spawn .draining) (List.replicate 5 (.run (s.tasks.length+1))) :=
    hproduce
  dsimp only
  rw [hrun]
  cases ho : outcome lib s msg with
  | none =>
    rw [ho] at hconsume
    exact ⟨hconsume, nofun⟩
  | some a =>
    rw [ho] at hconsume
    obtain ⟨m, hm⟩ := hconsume
    rw [hm]
    refine ⟨rfl, fun _ => ?_⟩
    exact List.append_assoc s.tasks [.returned] [.returned]

theorem refused_run (lib : Stdlib) (hread : QueueReadable s)
    (harray : s.msgQueue.arrayBased = true)
    (hfull : ∀ k < s.msgQueue.depth, s.msgQueue.flag k = 1) (msg : MbusMsg) (block : Addr) :
    (exec (mbusStep lib) s (delivery s msg block)).consumed = s.consumed := by
  have hproduce := produce_step lib hread msg block
  rw [alloc_refused harray hfull] at hproduce
  have hidle : mbusStep lib s (.run s.tasks.length) = some s := by
    simp only [mbusStep, List.getElem?_eq_none (le_refl s.tasks.length)]
  have hspawn : mbusStep lib s .consumeCall = some (s.spawn .draining) := rfl
  rw [delivery, exec_cons_some hproduce, exec_cons_some hidle, exec_cons_some hidle,
    exec_cons_some hspawn, idle_run]
  · rfl
  · simp [MsgBus.spawn]

theorem no_room_run (lib : Stdlib) (hread : QueueReadable s)
    (harray : s.msgQueue.arrayBased = true) {k : ℕ} (hk : k < s.msgQueue.depth)
    (hset : ∀ j < k, s.msgQueue.flag j = 1) (hfree : s.msgQueue.flag k = 0)
    (hnone : s.roomAt (s.msgQueue.dataPtr (s.msgQueue.probed k)) = false) (msg : MbusMsg)
    (block : Addr) : (exec (mbusStep lib) s (delivery s msg block)).consumed = s.consumed := by
  let l := s.msgQueue.takeSlot (probeIndex s.msgQueue.lastSlotIndex k s.msgQueue.depth)
  let t : MsgBus := { s with msgQueue := l }
  have halloc : linkedListAllocNode s.msgQueue (fun _ => some block) sizeofMbusMsg =
      (l, some (s.msgQueue.probed k)) := by
    rw [linkedListAllocNode, if_pos harray, allocArrayNode_first hk hset hfree]
  have hstep := produce_step lib hread msg block
  simp only [allocMessage, halloc] at hstep
  have hcopy : mbusStep lib (t.spawn (.copying (s.msgQueue.probed k) msg))
      (.run s.tasks.length) = none := by
    rw [show s.tasks.length = t.tasks.length from rfl, step_last]
    exact if_pos ⟨harray, hnone⟩
  rw [delivery, exec_cons_some hstep, exec_cons_none hcopy]
  rfl

/-- One message on a bus with an empty queue is answered once, and with its outcome. -/
theorem invokes_iff (hhead : s.msgQueue.head = none) {chann topic callback : UInt32} :
    Invokes lib s chann topic callback ↔ Allocates s ∧
      ∀ pData value, outcome lib s ⟨chann, topic, pData, value⟩ =
        some (some ⟨callback, pData, value⟩) := by
  constructor
  · intro h
    have hanswered : (exec (mbusStep lib) s (delivery s ⟨chann, topic, 0, 0⟩ 0)).consumed ≠
        s.consumed := by
      rw [h.consumed_eq]
      simp
    have hread : QueueReadable s := by
      by_contra hnot
      refine hanswered ?_
      rw [delivery, exec_cons_none (if_neg hnot)]
    have halloc : Allocates s := by
      intro harray
      by_cases hfull : ∀ k < s.msgQueue.depth, s.msgQueue.flag k = 1
      · exact absurd (refused_run lib hread harray hfull _ 0) hanswered
      · obtain ⟨hnode, k, hk, hnodes, hset, hfree⟩ := exists_first_free hread harray hfull
        refine ⟨(hread harray).1, hnode, k, hk, hnodes, hset, hfree, ?_⟩
        by_contra hroom
        rw [Bool.not_eq_true] at hroom
        exact hanswered (no_room_run lib hread harray hk hset hfree hroom _ 0)
    refine ⟨halloc, fun pData value => ?_⟩
    have hrun := (delivery_run lib halloc hhead ⟨chann, topic, pData, value⟩ 0).1
    rw [h.consumed_eq] at hrun
    simpa using hrun.symm
  · rintro ⟨halloc, hout⟩
    refine ⟨fun pData value block => ?_, fun pData value block => ?_⟩
    · have hrun := (delivery_run lib halloc hhead ⟨chann, topic, pData, value⟩ block).1
      rw [hrun, hout]
    · have hrun := (delivery_run lib halloc hhead ⟨chann, topic, pData, value⟩ block).2
      exact hrun (by rw [hout]; rfl)

end BleFirmware.MsgBusCall
