import BleFirmware.KvListInit
import BleFirmware.MsgBusCall
import BleFirmware.MsgBusTopics

/-!
# What `mbus_init` leaves to its caller

`mbus_init` takes the channels as arguments and empties their topic lists and
the queue, but every later function reads the channels from the bus, and the
queue keeps the kind that its memory had. So the bus is usable exactly when it
was wired to the channels before the call, with storage as good as new.
-/

namespace BleFirmware.MsgBusInit
open Bytes CSort KvListInit MsgBusCall MsgBusTopics

/-- The whole of `mbus_t`: what can be read through `chann_array`, and `chann_count`. -/
structure Mbus extends MsgBus where
  channCount : UInt32

namespace Mbus

def init (b : Mbus) (pChannArray : List ℕ) : Mbus :=
  { b with toMsgBus := mbusInitWith b.toMsgBus pChannArray }

def registerTopic (b : Mbus) (channId : UInt32) (topic : MbusTopic) : Option Mbus :=
  (mbusRegisterTopic b.toMsgBus channId topic).map fun s => { b with toMsgBus := s }

end Mbus

def sortChannel (lib : Stdlib) (s : MsgBus) (i : ℕ) : Option MsgBus :=
  s.channArray[i]?.map fun list =>
    { s with topicLists := Function.update s.topicLists list (kvListSort lib (s.topicLists list)) }

def sortChannels (lib : Stdlib) (s : MsgBus) : ℕ → Option MsgBus
  | 0 => some s
  | n+1 => (sortChannels lib s n).bind fun t => sortChannel lib t n

def Mbus.sortTopic (lib : Stdlib) (b : Mbus) : Option Mbus :=
  (sortChannels lib b.toMsgBus b.channCount.toNat).map fun s => { b with toMsgBus := s }

theorem mbusSortTopicRound_eq (lib : Stdlib) (s : MsgBus) (k i : ℕ) :
    mbusSortTopicRound lib s k i =
      match sortChannel lib s i with
      | some t => t.become k (.sorting (i+1))
      | none => s.become k .returned := by
  rw [mbusSortTopicRound, sortChannel]
  cases s.channArray[i]? <;> rfl

def InOrder (l : KvList) : Prop :=
  l.sorted = true ∧ l.nodeArray.Pairwise (fun m n => compareNodeKey m n ≤ 0)

def Stored (b : Mbus) (list : ℕ) (topic : MbusTopic) : Prop :=
  ⟨topic.id.toNat, MbusTopic.layout.toBytes topic⟩ ∈ (b.topicLists list).entries

structure Usable (lib : Stdlib) (b : Mbus) (channels : List ℕ) : Prop where
  sorts : ∃ u, b.sortTopic lib = some u ∧ ∀ i ∈ channels, InOrder (u.topicLists i)
  registers : ∀ (chann : UInt32) list topic, channels[chann.toNat]? = some list →
    ∃ r u, b.registerTopic chann topic = some r ∧ Stored r list topic ∧
      r.sortTopic lib = some u ∧ (∀ i ∈ channels, InOrder (u.topicLists i)) ∧
      (topic.callback ≠ 0 → Invokes lib r.toMsgBus chann topic.id topic.callback ∧
        Invokes lib u.toMsgBus chann topic.id topic.callback)

/-- The bus reads the channels already, none of them has the number of the group of
calls, the queue can hand out a node with room for a message, and no topic list holds a
node that is marked valid. -/
structure Wired (b : Mbus) (channels : List ℕ) : Prop where
  reads : channels <+: b.channArray
  count_le : b.channCount.toNat ≤ b.channArray.length
  counted : ∀ i ∈ channels, i ∈ b.channArray.take b.channCount.toNat
  calls : channels.length ≤ mbusCallGroupId.toNat
  allocates : channels ≠ [] → Allocates b.toMsgBus
  free : ∀ i ∈ channels, ∀ n ∈ (b.topicLists i).nodeArray, n.valid = false

variable {lib : Stdlib} {b : Mbus} {channels : List ℕ} {s : MsgBus} {l : KvList}

theorem sortChannels_eq (lib : Stdlib) (s : MsgBus) {n : ℕ} (hn : n ≤ s.channArray.length) :
    sortChannels lib s n = some { s with
      topicLists := fun i =>
        (kvListSort lib)^[(s.channArray.take n).count i] (s.topicLists i) } := by
  induction n with
  | zero => simp [sortChannels]
  | succ n ih =>
    have hlist := List.getElem?_eq_getElem (show n < s.channArray.length from hn)
    have hcount : ∀ i, (s.channArray.take (n+1)).count i =
        (s.channArray.take n).count i + [s.channArray[n]].count i := by
      intro i
      rw [List.take_add_one, hlist, List.count_append]
      rfl
    rw [sortChannels, ih (by omega), Option.bind_some, sortChannel, hlist, Option.map_some]
    congr 2
    funext i
    rw [hcount]
    by_cases hi : i = s.channArray[n]
    · subst hi
      rw [Function.update_self, List.count_singleton_self, Function.iterate_succ_apply']
    · have hzero : [s.channArray[n]].count i = 0 := by simp [Ne.symm hi]
      rw [Function.update_of_ne hi, hzero, Nat.add_zero]

theorem iterate_sort_holdsTopics (lib : Stdlib) (h : HoldsTopics l) (n : ℕ) :
    HoldsTopics ((kvListSort lib)^[n] l) := by
  induction n with
  | zero => exact h
  | succ n ih =>
    rw [Function.iterate_succ_apply']
    exact holdsTopics_sort lib ih

theorem iterate_sort_entries (lib : Stdlib) (l : KvList) (n : ℕ) :
    ((kvListSort lib)^[n] l).entries.Perm l.entries := by
  induction n with
  | zero => exact List.Perm.refl _
  | succ n ih =>
    rw [Function.iterate_succ_apply']
    exact (kvListSort_entries lib _).trans ih

theorem iterate_sort_inOrder (lib : Stdlib) (l : KvList) {n : ℕ} (hn : n ≠ 0) :
    InOrder ((kvListSort lib)^[n] l) := by
  obtain ⟨n, rfl⟩ := Nat.exists_eq_succ_of_ne_zero hn
  rw [Nat.succ_eq_add_one, Function.iterate_succ_apply']
  exact ⟨rfl, lib.qsort_sorted _ compareNodeKey_isPreorder⟩

/-- Whatever the lists hold: a channel is sorted when the loop comes to it, and only then. -/
theorem sortTopic_inOrder (lib : Stdlib) (channels : List ℕ)
    (hn : b.channCount.toNat ≤ b.channArray.length)
    (hc : ∀ i ∈ channels, i ∈ b.channArray.take b.channCount.toNat) :
    ∃ lists, b.sortTopic lib = some { b with topicLists := lists } ∧
      (∀ i, lists i = (kvListSort lib)^[(b.channArray.take b.channCount.toNat).count i]
        (b.topicLists i)) ∧
      ∀ i ∈ channels, InOrder (lists i) := by
  refine ⟨_, congrArg (Option.map _) (sortChannels_eq lib b.toMsgBus hn), fun _ => rfl,
    fun i hi => ?_⟩
  exact iterate_sort_inOrder lib (b.topicLists i) (List.count_pos_iff.mpr (hc i hi)).ne'

def registered (b : Mbus) (list : ℕ) (topic : MbusTopic) : Mbus :=
  { b with
    topicLists := Function.update b.topicLists list
      (kvListAdd (b.topicLists list) topic.id.toNat (MbusTopic.layout.object topic)).1 }

theorem registerTopic_eq {chann : UInt32} {list : ℕ}
    (h : b.channArray[chann.toNat]? = some list) (topic : MbusTopic) :
    b.registerTopic chann topic = some (registered b list topic) := by
  simp only [Mbus.registerTopic, mbusRegisterTopic, h, Option.map_some, registered]

theorem registered_init_list {list : ℕ} (h : list ∈ channels) (topic : MbusTopic) :
    (registered (b.init channels) list topic).topicLists list =
      (kvListAdd (kvListInit (b.topicLists list)) topic.id.toNat
        (MbusTopic.layout.object topic)).1 := by
  have hlist : (b.init channels).topicLists list = kvListInit (b.topicLists list) :=
    mbusInitWith_list b.toMsgBus h
  rw [registered, hlist]
  exact Function.update_self _ _ _

theorem add_first (h : Fresh l) (hdepth : 0 < l.depth) (topic : MbusTopic) :
    let k := (kvListAdd (kvListInit l) topic.id.toNat (MbusTopic.layout.object topic)).1
    HoldsTopics k ∧ k.entries = [⟨topic.id.toNat, MbusTopic.layout.toBytes topic⟩] := by
  have hinit := h.holdsTopics
  have hnone := kvListInit_entries h.free
  refine ⟨holdsTopics_add hinit (by rw [hnone]; exact List.not_mem_nil) _, ?_⟩
  have hroom : (kvListInit l).count < (kvListInit l).depth := by
    simpa [kvListInit, KvList.depth] using hdepth
  obtain ⟨i, hi, hv, hadd⟩ := kvListAdd_room hinit.wf hroom topic.id.toNat
    (MbusTopic.layout.object topic)
  have hentries := addAt_entries hinit.wf hi hv topic.id.toNat (MbusTopic.layout.object topic)
  rw [hnone, hinit.width_eq, Layout.firstBytes_object] at hentries
  rw [hadd]
  exact List.perm_singleton.mp hentries

theorem outcome_stored {chann : UInt32} {list : ℕ} {topic : MbusTopic}
    (hlist : s.channArray[chann.toNat]? = some list) (hcall : chann ≠ mbusCallGroupId)
    (h : HoldsTopics (s.topicLists list))
    (hentries : (s.topicLists list).entries =
      [⟨topic.id.toNat, MbusTopic.layout.toBytes topic⟩]) (pData value : UInt32) :
    outcome lib s ⟨chann, topic.id, pData, value⟩ =
      some (invoke topic.callback ⟨chann, topic.id, pData, value⟩) := by
  have hfound : (kvListSearch lib (s.topicLists list) topic.id.toNat).isSome := by
    rw [kvListSearch_isSome lib h.wf, hentries]
    exact List.mem_singleton_self _
  obtain ⟨i, hi⟩ := Option.isSome_iff_exists.mp hfound
  have hread := callbackOf_topicAt h (search_topicAt h hi)
  have hcb : callbackOf (s.topicLists list) topic.id = topic.callback := by
    rw [callbackOf, hentries]
    simp [MbusTopic.layout.ofBytes_toBytes]
  rw [hcb] at hread
  simp only [outcome, if_neg hcall, hlist, MbusMsg.topicId, hi, topicOf, hread]

theorem invokes_stored {chann : UInt32} {list : ℕ} {topic : MbusTopic}
    (hhead : s.msgQueue.head = none) (halloc : Allocates s)
    (hlist : s.channArray[chann.toNat]? = some list) (hcall : chann ≠ mbusCallGroupId)
    (h : HoldsTopics (s.topicLists list))
    (hentries : (s.topicLists list).entries =
      [⟨topic.id.toNat, MbusTopic.layout.toBytes topic⟩]) (hcb : topic.callback ≠ 0) :
    Invokes lib s chann topic.id topic.callback := by
  apply (invokes_iff hhead).mpr ⟨halloc, fun pData value => ?_⟩
  rw [outcome_stored hlist hcall h hentries, invoke, if_pos hcb]

def TopicList (l : KvList) : Prop := 0 < l.depth ∧ l.width = MbusTopic.layout.size

theorem Wired.usable (h : Wired b channels) (hlists : ∀ i ∈ channels, TopicList (b.topicLists i))
    (lib : Stdlib) : Usable lib (b.init channels) channels := by
  constructor
  · obtain ⟨lists, hu, _, horder⟩ := sortTopic_inOrder lib channels
      (b := b.init channels) h.count_le h.counted
    exact ⟨_, hu, horder⟩
  · intro chann list topic hchann
    have hmem := List.mem_of_getElem? hchann
    have hlt := (List.getElem?_eq_some_iff.mp hchann).1
    have hread : b.channArray[chann.toNat]? = some list := by
      obtain ⟨rest, hrest⟩ := h.reads
      rw [← hrest, List.getElem?_append_left hlt, hchann]
    have hcall : chann ≠ mbusCallGroupId := by
      rintro rfl
      exact absurd hlt (not_lt.mpr h.calls)
    have halloc := h.allocates (List.ne_nil_of_mem hmem)
    have hfresh : Fresh (b.topicLists list) := ⟨(hlists list hmem).2, h.free list hmem⟩
    obtain ⟨hholds, hentries⟩ := add_first hfresh (hlists list hmem).1 topic
    rw [← registered_init_list hmem topic] at hholds hentries
    let r := registered (b.init channels) list topic
    obtain ⟨lists, hu, hlisted, horder⟩ := sortTopic_inOrder lib channels
      (b := r) h.count_le h.counted
    refine ⟨r, _, registerTopic_eq (b := b.init channels) hread topic, ?_, hu, horder,
      fun hcb => ⟨?_, ?_⟩⟩
    · rw [Stored, hentries]
      exact List.mem_singleton_self _
    · exact invokes_stored rfl halloc hread hcall hholds hentries hcb
    · have hsame := iterate_sort_entries lib (r.topicLists list)
        ((r.channArray.take r.channCount.toNat).count list)
      rw [← hlisted, hentries] at hsame
      refine invokes_stored rfl halloc hread hcall ?_ (List.perm_singleton.mp hsame) hcb
      change HoldsTopics (lists list)
      rw [hlisted]
      exact iterate_sort_holdsTopics lib hholds _

structure Front (l : KvList) (m : ℕ) : Prop where
  topicList : TopicList l
  front : (l.node 0).valid = false
  index_ne : m ≠ 0
  stale : (l.node m).valid = true

def lastId : UInt32 := 0xFFFFFFFF

def frontNode (l : KvList) : KvNode :=
  { (kvListInit l).node 0 with valid := true, key := lastId.toNat }

def frontNodes (l : KvList) : List KvNode := (kvListInit l).nodeArray.set 0 (frontNode l)

namespace Front

variable {m : ℕ}

theorem lt_depth (h : Front l m) : m < (kvListInit l).nodeArray.length := by
  simpa [kvListInit, KvList.depth] using lt_depth_of_valid h.stale

theorem apart (h : Front l m) :
    (frontNodes l).Pairwise (fun m n => Apart l.width m.dataPtr n.dataPtr) := by
  obtain ⟨as, bs, has, hs⟩ :=
    KvList.split_slot (kvListInit l).nodeArray (Nat.zero_lt_of_lt h.lt_depth)
  have hmap := map_dataPtr_set (m := frontNode l) hs has rfl
  have hp := (kvListInit l).windows_apart
  rw [← kvListInit_windows, ← hmap] at hp
  exact List.pairwise_map.mp hp

end Front

end BleFirmware.MsgBusInit
