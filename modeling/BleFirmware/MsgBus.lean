import BleFirmware.KvListBag
import BleFirmware.LinkedList

/-!
# `msg_bus.c`

The functions of the bus run as tasks side by side. Each operation on a linked
list or a kv list is one step of the task that calls it; between two steps of a
task the other tasks may take any number of theirs. A callback is invoked in one
step, and what it produces while it runs are tasks of their own. The wait and
the post on the event are left out: a drain may begin at any time.

A pointer is a word, NULL being zero. `pushed` records the messages that were
pushed and `consumed` those that were popped, with what was invoked for each;
no function reads them. A step answers `none` where the C code would follow a
wild pointer, read a flag that holds neither 0 nor 1, or free a block that is
not live. A block of the heap has room for the node and its message; what a
queue in an array names is found in memory or is not.
-/

namespace BleFirmware
open Bytes CSort

def mbusCallGroupId : UInt32 := 0xFF

structure MbusTopic where
  id : UInt32
  name : UInt32
  callback : UInt32
  deriving DecidableEq

def MbusTopic.layout : Layout MbusTopic :=
  (Layout.u32.prod (Layout.u32.prod Layout.u32)).iso (fun t => (t.id, t.name, t.callback))
    (fun x => ⟨x.1, x.2.1, x.2.2⟩) (fun _ => rfl)

/-- `word` is the union of `topic_id` and `callback`. -/
structure MbusMsg where
  channId : UInt32
  word : UInt32
  dataPtr : UInt32
  value : UInt32
  deriving DecidableEq

namespace MbusMsg

def topicId (m : MbusMsg) : UInt32 := m.word

def callback (m : MbusMsg) : UInt32 := m.word

end MbusMsg

def sizeofMbusMsg : ℕ := 16

structure Invocation where
  callback : UInt32
  dataPtr : UInt32
  value : UInt32
  deriving DecidableEq

/-- A message that was popped, with the answer it has been given, if any: the
invocation of a callback, or nothing to invoke. -/
structure Consumed where
  msg : MbusMsg
  answer : Option (Option Invocation)
  deriving DecidableEq

/-- Where a task is. `entry` is the position of its message in `consumed`. -/
inductive MbusTask
  | copying (pNode : Addr) (msg : MbusMsg)
  | pushing (pNode : Addr) (msg : MbusMsg)
  | sorting (i : ℕ)
  | draining
  | handling (pNode : Addr) (entry : ℕ)
  | reading (pNode : Addr) (entry : ℕ) (topicList slot : ℕ)
  | freeing (pNode : Addr)
  | returned
  deriving DecidableEq

/-- `chann_array` is given by the topic list of each channel. Outside the heap there are
nodes at the addresses of `nodeAt` and room for a message at those of `roomAt`, which
nothing else uses. `arrayByte` is the byte of `_array_based` where that is not 0. -/
structure MsgBus where
  channArray : List ℕ
  msgQueue : LinkedList MbusMsg
  topicLists : ℕ → KvList
  tasks : List MbusTask
  pushed : List MbusMsg
  consumed : List Consumed
  arrayByte : ℕ := 1
  nodeAt : Addr → Bool := fun _ => false
  roomAt : Addr → Bool := fun _ => false

namespace MsgBus

def spawn (s : MsgBus) (t : MbusTask) : MsgBus := { s with tasks := s.tasks ++ [t] }

def become (s : MsgBus) (k : ℕ) (t : MbusTask) : MsgBus := { s with tasks := s.tasks.set k t }

def answer (s : MsgBus) (entry : ℕ) (a : Option Invocation) : MsgBus :=
  { s with consumed := s.consumed.modify entry fun e => { e with answer := some a } }

end MsgBus

def mbusInit (s : MsgBus) : MsgBus :=
  { s with
    msgQueue := linkedListInitForHeap s.msgQueue
    topicLists := s.channArray.foldl
      (fun lists i => Function.update lists i (kvListInit (lists i))) s.topicLists }

/-- `mbus_init` with any array of channels, given by their topic lists. The array and
its size are not stored. -/
def mbusInitWith (s : MsgBus) (pChannArray : List ℕ) : MsgBus :=
  { s with
    msgQueue := linkedListInitForHeap s.msgQueue
    topicLists := pChannArray.foldl
      (fun lists i => Function.update lists i (kvListInit (lists i))) s.topicLists }

theorem mbusInit_eq (s : MsgBus) : mbusInit s = mbusInitWith s s.channArray := rfl

def mbusRegisterTopic (s : MsgBus) (channId : UInt32) (topic : MbusTopic) : Option MsgBus :=
  match s.channArray[channId.toNat]? with
  | some i =>
    let list := (kvListAdd (s.topicLists i) topic.id.toNat (MbusTopic.layout.object topic)).1
    some { s with topicLists := Function.update s.topicLists i list }
  | none => none

def mbusSortTopicRound (lib : Stdlib) (s : MsgBus) (k i : ℕ) : MsgBus :=
  match s.channArray[i]? with
  | some list =>
    { s with
      topicLists := Function.update s.topicLists list (kvListSort lib (s.topicLists list)) }.become k
        (.sorting (i+1))
  | none => s.become k .returned

namespace LinkedList

def probed {D : Type} (l : LinkedList D) (k : ℕ) : Addr :=
  l.slot (probeIndex l.lastSlotIndex k l.depth)

def flag {D : Type} (l : LinkedList D) (k : ℕ) : ℕ := l.opt (l.probed k) % 256

end LinkedList

/-- The slots up to the first free one are nodes, each with a 0 or a 1 for a flag. -/
def QueueReadable (s : MsgBus) : Prop :=
  s.msgQueue.arrayBased = true → s.arrayByte = 1 ∧
    ∀ k < s.msgQueue.depth, (∀ j < k, s.msgQueue.flag j = 1) →
      s.msgQueue.nodeArray ≠ none ∧ s.nodeAt (s.msgQueue.probed k) = true ∧
        s.msgQueue.flag k ≤ 1

instance (s : MsgBus) : Decidable (QueueReadable s) :=
  inferInstanceAs (Decidable (_ → _ ∧ ∀ k < _, (∀ j < k, _) → _))

def allocMessage (s : MsgBus) (msg : MbusMsg) (block : Option Addr) : MsgBus :=
  match linkedListAllocNode s.msgQueue (fun _ => block) sizeofMbusMsg with
  | (l, some p) => { s with msgQueue := l }.spawn (.copying p msg)
  | (l, none) => { s with msgQueue := l }

def writeMessage (s : MsgBus) (k : ℕ) (p : Addr) (msg : MbusMsg) : MsgBus :=
  let l := s.msgQueue.setNodeData p msg
  { s with msgQueue := { l with opt := Function.update l.opt p msg.value.toNat } }.become k
    (.pushing p msg)

/-- The `data_ptr` of a slot is the one that the array of nodes came with. -/
def copyMessage (s : MsgBus) (k : ℕ) (p : Addr) (msg : MbusMsg) : Option MsgBus :=
  if s.msgQueue.arrayBased = true ∧ s.roomAt (s.msgQueue.dataPtr p) = false then none
  else some (writeMessage s k p msg)

theorem copyMessage_heap {s : MsgBus} (h : s.msgQueue.arrayBased = false) (k : ℕ) (p : Addr)
    (msg : MbusMsg) : copyMessage s k p msg = some (writeMessage s k p msg) := by
  simp [copyMessage, h]

theorem queueReadable_heap {s : MsgBus} (h : s.msgQueue.arrayBased = false) :
    QueueReadable s := by
  intro harray
  rw [h] at harray
  exact absurd harray Bool.false_ne_true

def pushMessage (s : MsgBus) (k : ℕ) (p : Addr) (msg : MbusMsg) : Option MsgBus :=
  (linkedListInsertTail s.msgQueue p).map fun l =>
    { s with msgQueue := l, pushed := s.pushed ++ [msg] }.become k .returned

def mbusProduceMessage (s : MsgBus) (chann topic pData value : UInt32) (block : Option Addr) :
    MsgBus :=
  allocMessage s ⟨chann, topic, pData, value⟩ block

def mbusProduceCall (s : MsgBus) (callback pData value : UInt32) (block : Option Addr) : MsgBus :=
  allocMessage s ⟨mbusCallGroupId, callback, pData, value⟩ block

def invoke (callback : UInt32) (msg : MbusMsg) : Option Invocation :=
  if callback ≠ 0 then some ⟨callback, msg.dataPtr, msg.value⟩ else none

def mbusConsumeMessage (lib : Stdlib) (s : MsgBus) (k : ℕ) (p : Addr) (entry : ℕ) :
    Option MsgBus :=
  let msg := s.msgQueue.nodeData p
  if msg.channId = mbusCallGroupId then
    some ((s.answer entry (invoke msg.callback msg)).become k (.freeing p))
  else
    match s.channArray[msg.channId.toNat]? with
    | some list =>
      match kvListSearch lib (s.topicLists list) msg.topicId.toNat with
      | some i => some (s.become k (.reading p entry list i))
      | none => some ((s.answer entry none).become k (.freeing p))
    | none => none

def readTopic (s : MsgBus) (k : ℕ) (p : Addr) (entry list i : ℕ) : MsgBus :=
  let msg := s.msgQueue.nodeData p
  let l := s.topicLists list
  let topic := MbusTopic.layout.ofBytes
    (readBytes l.data (l.node i).dataPtr MbusTopic.layout.size)
  (s.answer entry (invoke topic.callback msg)).become k (.freeing p)

def popMessage (s : MsgBus) (k : ℕ) : Option MsgBus :=
  match linkedListRemoveHead s.msgQueue with
  | some (l, some p) =>
    let e : Consumed := ⟨l.nodeData p, none⟩
    some ({ s with msgQueue := l, consumed := s.consumed ++ [e] }.become k
      (.handling p s.consumed.length))
  | some (l, none) => some ({ s with msgQueue := l }.become k .returned)
  | none => none

def freeMessage (s : MsgBus) (k : ℕ) (p : Addr) : Option MsgBus :=
  (linkedListFreeNode s.msgQueue p).map fun l => { s with msgQueue := l }.become k .draining

def runTask (lib : Stdlib) (s : MsgBus) (k : ℕ) : MbusTask → Option MsgBus
  | .copying p msg => copyMessage s k p msg
  | .pushing p msg => pushMessage s k p msg
  | .sorting i => some (mbusSortTopicRound lib s k i)
  | .draining => popMessage s k
  | .handling p entry => mbusConsumeMessage lib s k p entry
  | .reading p entry list i => some (readTopic s k p entry list i)
  | .freeing p => freeMessage s k p
  | .returned => some s

/-- A call of a function of the bus, or the next step of one that is under way.
What `malloc` returns comes with the call. -/
inductive MbusAct
  | produceMessage (chann topic pData value : UInt32) (block : Option Addr)
  | produceCall (callback pData value : UInt32) (block : Option Addr)
  | registerTopic (channId : UInt32) (topic : MbusTopic)
  | sortTopic
  | consumeCall
  | run (k : ℕ)
  deriving DecidableEq

def mbusStep (lib : Stdlib) (s : MsgBus) : MbusAct → Option MsgBus
  | .produceMessage chann topic pData value block =>
    if QueueReadable s then some (mbusProduceMessage s chann topic pData value block) else none
  | .produceCall callback pData value block =>
    if QueueReadable s then some (mbusProduceCall s callback pData value block) else none
  | .registerTopic channId topic => mbusRegisterTopic s channId topic
  | .sortTopic => some (s.spawn (.sorting 0))
  | .consumeCall => some (s.spawn .draining)
  | .run k =>
    match s.tasks[k]? with
    | some t => runTask lib s k t
    | none => some s

end BleFirmware
