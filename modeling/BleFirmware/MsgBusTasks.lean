import BleFirmware.Base.Run
import BleFirmware.HeapList
import BleFirmware.MsgBusTopics

/-!
# The tasks of the bus

Every block that was allocated and not freed is held exactly once, by the queue
or by one task. A message that was popped and has no answer yet is in the hands
of exactly one task. Tasks are only told apart by where they are, so that the
invariant speaks of them in any order.
-/

namespace BleFirmware.MsgBusTasks
open Bytes CSort ListAlgo MsgBusTopics

def taskNode : MbusTask → Option Addr
  | .copying p _ => some p
  | .pushing p _ => some p
  | .handling p _ => some p
  | .reading p _ _ _ => some p
  | .freeing p => some p
  | .sorting _ => none
  | .draining => none
  | .returned => none

def taskEntry : MbusTask → Option ℕ
  | .handling _ entry => some entry
  | .reading _ entry _ _ => some entry
  | _ => none

def InRange (s : MsgBus) (m : MbusMsg) : Prop :=
  m.channId = mbusCallGroupId ∨ m.channId.toNat < s.channArray.length

/-- A task handles a message that waits for its answer. -/
def Handles (s : MsgBus) (p : Addr) (entry : ℕ) (m : MbusMsg) : Prop :=
  s.consumed[entry]? = some ⟨m, none⟩ ∧ s.msgQueue.nodeData p = m

def TaskOk (s : MsgBus) : MbusTask → Prop
  | .copying _ msg => InRange s msg
  | .pushing p msg => InRange s msg ∧ s.msgQueue.nodeData p = msg
  | .handling p entry => ∃ m, Handles s p entry m
  | .reading p entry list i => ∃ m, Handles s p entry m ∧ m.channId ≠ mbusCallGroupId ∧
      s.channArray[m.channId.toNat]? = some list ∧ TopicAt (s.topicLists list) i m.topicId
  | _ => True

/-- The tasks are those of `ts` in some order, and the queue holds the nodes `xs`. -/
structure Inv (s : MsgBus) (ts : List MbusTask) (xs : List Addr) : Prop where
  tasks_perm : s.tasks.Perm ts
  queue : HeapHolds s.msgQueue xs
  dataPtr : ∀ p, s.msgQueue.live p = true → s.msgQueue.dataPtr p = p + alignedNodeLen
  nodup : (xs ++ ts.filterMap taskNode).Nodup
  live_iff : ∀ p, s.msgQueue.live p = true ↔ p ∈ xs ++ ts.filterMap taskNode
  conserved : s.consumed.map (·.msg) ++ xs.map s.msgQueue.nodeData = s.pushed
  inRange : ∀ m ∈ s.pushed, InRange s m
  entries_nodup : (ts.filterMap taskEntry).Nodup
  entries_iff : ∀ e, e ∈ ts.filterMap taskEntry ↔ ∃ m, s.consumed[e]? = some ⟨m, none⟩
  tasks : ∀ t ∈ ts, TaskOk s t
  topics : ∀ i ∈ s.channArray, HoldsTopics (s.topicLists i)

structure Ready (s : MsgBus) : Prop where
  queue : HeapHolds s.msgQueue []
  live : ∀ p, s.msgQueue.live p = false
  tasks : s.tasks = []
  pushed : s.pushed = []
  consumed : s.consumed = []
  topics : ∀ i ∈ s.channArray, HoldsTopics (s.topicLists i)

variable {s : MsgBus} {ts rest : List MbusTask} {xs : List Addr}

theorem Ready.inv (h : Ready s) : Inv s [] [] := by
  refine ⟨?_, h.queue, ?_, List.nodup_nil, ?_, ?_, ?_, List.nodup_nil, ?_, ?_, h.topics⟩
  · rw [h.tasks]
  · intro p hp
    rw [h.live p] at hp
    exact absurd hp (by simp)
  · intro p
    simp [h.live p]
  · simp [h.consumed, h.pushed]
  · simp [h.pushed]
  · simp [h.consumed]
  · simp

theorem mbusInit_ready (hheap : s.msgQueue.arrayBased = false)
    (hlive : ∀ p, s.msgQueue.live p = false) (htasks : s.tasks = []) (hpushed : s.pushed = [])
    (hconsumed : s.consumed = [])
    (hlists : ∀ i ∈ s.channArray, Fresh (s.topicLists i)) : Ready (mbusInit s) := by
  refine ⟨heapHolds_init hheap, hlive, htasks, hpushed, hconsumed, ?_⟩
  intro i hi
  exact initLists_holdsTopics hlists (Or.inl hi)

theorem Inv.perm {ts' : List MbusTask} (h : Inv s ts xs) (hp : ts.Perm ts') : Inv s ts' xs := by
  have hn : (xs ++ ts.filterMap taskNode).Perm (xs ++ ts'.filterMap taskNode) :=
    (hp.filterMap _).append_left xs
  have he := hp.filterMap taskEntry
  refine ⟨h.tasks_perm.trans hp, h.queue, h.dataPtr, hn.nodup_iff.mp h.nodup, ?_, h.conserved,
    h.inRange, he.nodup_iff.mp h.entries_nodup, ?_, ?_, h.topics⟩
  · intro p
    rw [h.live_iff, hn.mem_iff]
  · intro e
    rw [← he.mem_iff, h.entries_iff]
  · intro t ht
    exact h.tasks t (hp.mem_iff.mpr ht)

theorem perm_set {k : ℕ} {t : MbusTask} (h : ts[k]? = some t) :
    ∃ rest, ts.Perm (t :: rest) ∧ ∀ u, (ts.set k u).Perm (u :: rest) := by
  obtain ⟨hk, ht⟩ := List.getElem?_eq_some_iff.mp h
  refine ⟨ts.take k ++ ts.drop (k+1), ?_, ?_⟩
  · have hd := List.drop_eq_getElem_cons hk
    conv_lhs => rw [← List.take_append_drop k ts, hd, ht]
    exact List.perm_middle
  · intro u
    rw [List.set_eq_take_cons_drop u hk]
    exact List.perm_middle

theorem TaskOk.congr {s' : MsgBus} {t : MbusTask} (h : TaskOk s t)
    (hchann : s'.channArray = s.channArray)
    (hdata : ∀ p, taskNode t = some p → s'.msgQueue.nodeData p = s.msgQueue.nodeData p)
    (hentry : ∀ e, taskEntry t = some e → s'.consumed[e]? = s.consumed[e]?)
    (htopic : ∀ p e list i, t = .reading p e list i → ∀ id, TopicAt (s.topicLists list) i id →
      TopicAt (s'.topicLists list) i id) : TaskOk s' t := by
  have hrange : ∀ m, InRange s m → InRange s' m := by
    intro m hm
    rwa [InRange, hchann]
  cases t with
  | copying p msg => exact hrange msg h
  | pushing p msg =>
    refine ⟨hrange msg h.1, ?_⟩
    rw [hdata p rfl]
    exact h.2
  | handling p e =>
    obtain ⟨m, hc, hm⟩ := h
    refine ⟨m, ?_, ?_⟩
    · rw [hentry e rfl]
      exact hc
    · rw [hdata p rfl]
      exact hm
  | reading p e list i =>
    obtain ⟨m, ⟨hc, hm⟩, hne, hlist, htop⟩ := h
    refine ⟨m, ⟨?_, ?_⟩, hne, ?_, htopic p e list i rfl _ htop⟩
    · rw [hentry e rfl]
      exact hc
    · rw [hdata p rfl]
      exact hm
    · rw [hchann]
      exact hlist
  | sorting i => trivial
  | draining => trivial
  | freeing p => trivial
  | returned => trivial

section Steps

variable {t : MbusTask} {k : ℕ}

theorem Inv.spawn (h : Inv s ts xs) (hn : taskNode t = none) (he : taskEntry t = none)
    (ht : TaskOk s t) : Inv (s.spawn t) (t :: ts) xs := by
  refine ⟨?_, h.queue, h.dataPtr, ?_, ?_, h.conserved, h.inRange, ?_, ?_, ?_, h.topics⟩
  · exact (List.perm_append_singleton t s.tasks).trans (h.tasks_perm.cons t)
  · rw [List.filterMap_cons_none hn]
    exact h.nodup
  · rw [List.filterMap_cons_none hn]
    exact h.live_iff
  · rw [List.filterMap_cons_none he]
    exact h.entries_nodup
  · rw [List.filterMap_cons_none he]
    exact h.entries_iff
  · intro u hu
    cases List.mem_cons.mp hu with
    | inl hu => exact hu ▸ ht
    | inr hu => exact h.tasks u hu

theorem Inv.become {u : MbusTask} (h : Inv s (t :: rest) xs)
    (hset : (s.tasks.set k u).Perm (u :: rest)) (hn : taskNode u = taskNode t)
    (he : taskEntry u = taskEntry t) (hu : TaskOk s u) :
    Inv (s.become k u) (u :: rest) xs := by
  have hnode : (u :: rest).filterMap taskNode = (t :: rest).filterMap taskNode := by
    simp only [List.filterMap_cons, hn]
  have hentry : (u :: rest).filterMap taskEntry = (t :: rest).filterMap taskEntry := by
    simp only [List.filterMap_cons, he]
  refine ⟨hset, h.queue, h.dataPtr, ?_, ?_, h.conserved, h.inRange, ?_, ?_, ?_, h.topics⟩
  · rw [hnode]
    exact h.nodup
  · rw [hnode]
    exact h.live_iff
  · rw [hentry]
    exact h.entries_nodup
  · rw [hentry]
    exact h.entries_iff
  · intro v hv
    cases List.mem_cons.mp hv with
    | inl hv => exact hv ▸ hu
    | inr hv => exact h.tasks v (List.mem_cons_of_mem t hv)

theorem Inv.node_live (h : Inv s ts xs) (ht : t ∈ ts) {p : Addr} (hp : taskNode t = some p) :
    s.msgQueue.live p = true := by
  rw [h.live_iff, List.mem_append]
  exact Or.inr (List.mem_filterMap.mpr ⟨t, ht, hp⟩)

theorem Inv.node_unique (h : Inv s (t :: rest) xs) {p : Addr} (hp : taskNode t = some p) :
    p ∉ xs ∧ ∀ u ∈ rest, taskNode u ≠ some p := by
  have hnd := h.nodup
  rw [List.filterMap_cons_some hp, List.nodup_middle, List.nodup_cons, List.mem_append] at hnd
  refine ⟨fun hm => hnd.1 (Or.inl hm), ?_⟩
  intro u hu hup
  exact hnd.1 (Or.inr (List.mem_filterMap.mpr ⟨u, hu, hup⟩))

theorem Inv.entry_unique (h : Inv s (t :: rest) xs) {e : ℕ} (he : taskEntry t = some e) :
    ∀ u ∈ rest, taskEntry u ≠ some e := by
  have hnd := h.entries_nodup
  rw [List.filterMap_cons_some he, List.nodup_cons] at hnd
  intro u hu hue
  exact hnd.1 (List.mem_filterMap.mpr ⟨u, hu, hue⟩)

theorem Inv.alloc (h : Inv s ts xs) {p : Addr} (hp : s.msgQueue.live p = false) {msg : MbusMsg}
    (hmsg : InRange s msg) :
    Inv (({ s with msgQueue := s.msgQueue.addBlock p } : MsgBus).spawn (.copying p msg))
      (.copying p msg :: ts) xs := by
  have hold : ∀ q, s.msgQueue.live q = true → q ≠ p := by
    intro q hq he
    rw [he, hp] at hq
    exact absurd hq (by simp)
  have hdata : ∀ q, s.msgQueue.live q = true →
      (s.msgQueue.addBlock p).nodeData q = s.msgQueue.nodeData q := by
    intro q hq
    simp [LinkedList.nodeData, LinkedList.addBlock, hold q hq]
  have hpn : p ∉ xs ++ ts.filterMap taskNode := by
    rw [← h.live_iff, hp]
    simp
  have hnode : taskNode (.copying p msg) = some p := rfl
  refine ⟨?_, heapHolds_addBlock h.queue hp, ?_, ?_, ?_, ?_, h.inRange, h.entries_nodup,
    h.entries_iff, ?_, h.topics⟩
  · exact (List.perm_append_singleton _ s.tasks).trans (h.tasks_perm.cons _)
  · intro q hq
    dsimp only [MsgBus.spawn, LinkedList.addBlock] at hq ⊢
    by_cases hqp : q = p
    · rw [hqp, Function.update_self]
    · rw [Function.update_of_ne hqp] at hq ⊢
      exact h.dataPtr q hq
  · rw [List.filterMap_cons_some hnode, List.nodup_middle]
    exact List.nodup_cons.mpr ⟨hpn, h.nodup⟩
  · intro q
    have hl := h.live_iff q
    rw [List.filterMap_cons_some hnode, List.perm_middle.mem_iff, List.mem_cons, ← hl]
    dsimp only [MsgBus.spawn, LinkedList.addBlock]
    by_cases hqp : q = p
    · simp [hqp]
    · simp [hqp]
  · rw [← h.conserved]
    apply congrArg
    apply List.map_congr_left
    intro q hq
    exact hdata q (h.queue.live q hq)
  · intro u hu
    cases List.mem_cons.mp hu with
    | inl hu =>
      rw [hu]
      exact hmsg
    | inr hu =>
      refine (h.tasks u hu).congr rfl ?_ (fun _ _ => rfl) (fun _ _ _ _ _ _ ht => ht)
      intro q hq
      exact hdata q (h.node_live hu hq)

section Turn

variable {p : Addr} {msg : MbusMsg}

theorem Inv.copy (h : Inv s (.copying p msg :: rest) xs)
    (hset : (s.tasks.set k (.pushing p msg)).Perm (.pushing p msg :: rest)) :
    Inv (writeMessage s k p msg) (.pushing p msg :: rest) xs := by
  have hp := h.node_live (List.mem_cons_self ..) rfl
  obtain ⟨hpx, hother⟩ := h.node_unique rfl
  have hdata : ∀ q, s.msgQueue.live q = true → q ≠ p →
      (s.msgQueue.setNodeData p msg).nodeData q = s.msgQueue.nodeData q := by
    intro q hq hne
    have hptr : s.msgQueue.dataPtr q ≠ s.msgQueue.dataPtr p := by
      rw [h.dataPtr q hq, h.dataPtr p hp]
      exact fun he => hne (Nat.add_right_cancel he)
    simp [LinkedList.nodeData, LinkedList.setNodeData, hptr]
  have hnew : (s.msgQueue.setNodeData p msg).nodeData p = msg := by
    simp [LinkedList.nodeData, LinkedList.setNodeData]
  have hq := h.queue.setNodeData p msg
  refine ⟨hset, ⟨hq.holds, hq.heap, hq.live, hq.dataPtr⟩, h.dataPtr, h.nodup, h.live_iff, ?_,
    h.inRange, h.entries_nodup, h.entries_iff, ?_, h.topics⟩
  · have hsame : xs.map (s.msgQueue.setNodeData p msg).nodeData = xs.map s.msgQueue.nodeData := by
      apply List.map_congr_left
      intro q hqx
      exact hdata q (h.queue.live q hqx) (fun he => hpx (he ▸ hqx))
    exact (congrArg _ hsame).trans h.conserved
  · intro u hu
    cases List.mem_cons.mp hu with
    | inl hu =>
      rw [hu]
      exact ⟨h.tasks _ (List.mem_cons_self ..), hnew⟩
    | inr hu =>
      have hu' := List.mem_cons_of_mem (.copying p msg) hu
      refine (h.tasks u hu').congr rfl ?_ (fun _ _ => rfl) (fun _ _ _ _ _ _ ht => ht)
      intro q hq
      exact hdata q (h.node_live hu' hq) (fun he => hother u hu (he ▸ hq))

theorem Inv.push (h : Inv s (.pushing p msg :: rest) xs)
    (hset : (s.tasks.set k .returned).Perm (.returned :: rest)) :
    ∃ s', pushMessage s k p msg = some s' ∧ s'.consumed = s.consumed ∧
      Inv s' (.returned :: rest) (xs ++ [p]) := by
  have hp := h.node_live (List.mem_cons_self ..) rfl
  have hpx := (h.node_unique rfl).1
  have hmsg : InRange s msg ∧ s.msgQueue.nodeData p = msg := h.tasks _ (List.mem_cons_self ..)
  obtain ⟨l', hl', hq, _, _⟩ := heapHolds_push h.queue hpx hp (h.dataPtr p hp)
  obtain ⟨links, count, rfl⟩ := linkedListInsertTail_frame hl'
  have ht := congrArg (Option.map fun l =>
    ({ s with msgQueue := l, pushed := s.pushed ++ [msg] } : MsgBus).become k .returned) hl'
  refine ⟨_, ht, rfl, ?_⟩
  have hheld : ((xs ++ [p]) ++ rest.filterMap taskNode).Perm
      (xs ++ (MbusTask.pushing p msg :: rest).filterMap taskNode) := by
    rw [List.append_assoc]
    rfl
  refine ⟨hset, hq, h.dataPtr, hheld.nodup_iff.mpr h.nodup, ?_, ?_, ?_, h.entries_nodup,
    h.entries_iff, ?_, h.topics⟩
  · intro q
    rw [List.filterMap_cons_none rfl, hheld.mem_iff]
    exact h.live_iff q
  · rw [List.map_append, ← List.append_assoc]
    exact congrArg₂ (· ++ ·) h.conserved (congrArg (fun m => [m]) hmsg.2)
  · intro m hm
    cases List.mem_append.mp hm with
    | inl hm => exact h.inRange m hm
    | inr hm =>
      rw [List.mem_singleton.mp hm]
      exact hmsg.1
  · intro u hu
    cases List.mem_cons.mp hu with
    | inl hu =>
      rw [hu]
      trivial
    | inr hu =>
      exact (h.tasks u (List.mem_cons_of_mem _ hu)).congr rfl (fun _ _ => rfl)
        (fun _ _ => rfl) (fun _ _ _ _ _ _ ht => ht)

theorem Inv.pop (h : Inv s (.draining :: rest) (p :: xs))
    (hset : ∀ u, (s.tasks.set k u).Perm (u :: rest)) :
    ∃ s', popMessage s k = some s' ∧
      s'.tasks = s.tasks.set k (.handling p s.consumed.length) ∧
      s'.consumed = s.consumed ++ [⟨s.msgQueue.nodeData p, none⟩] ∧
      Inv s' (.handling p s.consumed.length :: rest) xs := by
  obtain ⟨l', hl', hq, _, _⟩ := heapHolds_pop h.queue
  obtain ⟨links, count, rfl⟩ := linkedListRemoveHead_frame hl'
  let e : Consumed := ⟨s.msgQueue.nodeData p, none⟩
  have ht : popMessage s k = some (({ s with
      msgQueue := { s.msgQueue with toLinkList := links, count := count }
      consumed := s.consumed ++ [e] } : MsgBus).become k (.handling p s.consumed.length)) := by
    simp only [popMessage, hl']
    rfl
  refine ⟨_, ht, rfl, rfl, ?_⟩
  have hheld : (xs ++ (MbusTask.handling p s.consumed.length :: rest).filterMap taskNode).Perm
      ((p :: xs) ++ rest.filterMap taskNode) := List.perm_middle
  have hentry : taskEntry (.handling p s.consumed.length) = some s.consumed.length := rfl
  have hbound : ∀ e ∈ rest.filterMap taskEntry, e < s.consumed.length := by
    intro e he
    obtain ⟨m, hm⟩ := (h.entries_iff e).mp he
    exact (List.getElem?_eq_some_iff.mp hm).1
  refine ⟨hset _, hq, h.dataPtr, hheld.nodup_iff.mpr h.nodup, ?_, ?_, h.inRange, ?_, ?_, ?_,
    h.topics⟩
  · intro q
    rw [hheld.mem_iff]
    exact h.live_iff q
  · have hmid : (s.consumed ++ [e]).map (·.msg) ++ xs.map s.msgQueue.nodeData =
        s.consumed.map (·.msg) ++ (p :: xs).map s.msgQueue.nodeData := by
      simp [e]
    exact hmid.trans h.conserved
  · rw [List.filterMap_cons_some hentry, List.nodup_cons]
    refine ⟨?_, h.entries_nodup⟩
    intro hm
    exact absurd (hbound _ hm) (lt_irrefl _)
  · intro i
    have hi := h.entries_iff i
    rw [List.filterMap_cons_none rfl] at hi
    rw [List.filterMap_cons_some hentry, List.mem_cons, hi]
    dsimp only [MsgBus.become]
    rcases lt_trichotomy i s.consumed.length with hlt | heq | hgt
    · rw [List.getElem?_append_left hlt]
      simp [Nat.ne_of_lt hlt]
    · simp [heq, e]
    · have hnone : (s.consumed ++ [e])[i]? = none := List.getElem?_eq_none (by simp; omega)
      have hnone' : s.consumed[i]? = none := List.getElem?_eq_none hgt.le
      simp [hnone, hnone', Nat.ne_of_gt hgt]
  · intro u hu
    cases List.mem_cons.mp hu with
    | inl hu =>
      rw [hu]
      exact ⟨s.msgQueue.nodeData p, List.getElem?_concat_length, rfl⟩
    | inr hu =>
      refine (h.tasks u (List.mem_cons_of_mem _ hu)).congr rfl (fun _ _ => rfl) ?_
        (fun _ _ _ _ _ _ ht => ht)
      intro e he
      apply List.getElem?_append_left
      exact hbound e (List.mem_filterMap.mpr ⟨u, hu, he⟩)

theorem Inv.answer (h : Inv s (t :: rest) xs)
    (hset : (s.tasks.set k (.freeing p)).Perm (.freeing p :: rest)) (hp : taskNode t = some p)
    {e : ℕ} (he : taskEntry t = some e) (a : Option Invocation) :
    Inv ((s.answer e a).become k (.freeing p)) (.freeing p :: rest) xs := by
  have hother := h.entry_unique he
  have hheld : (xs ++ (MbusTask.freeing p :: rest).filterMap taskNode) =
      xs ++ (t :: rest).filterMap taskNode := by
    rw [List.filterMap_cons_some hp]
    rfl
  have hmsgs : (s.answer e a).consumed.map (·.msg) = s.consumed.map (·.msg) := by
    apply List.ext_getElem?
    intro i
    simp only [MsgBus.answer, List.getElem?_map, List.getElem?_modify]
    cases s.consumed[i]? with
    | none => simp
    | some c => by_cases hei : e = i <;> simp [hei]
  refine ⟨hset, h.queue, h.dataPtr, ?_, ?_, ?_, h.inRange, ?_, ?_, ?_, h.topics⟩
  · rw [hheld]
    exact h.nodup
  · rw [hheld]
    exact h.live_iff
  · exact (congrArg (· ++ _) hmsgs).trans h.conserved
  · have hnd := h.entries_nodup
    rw [List.filterMap_cons_some he, List.nodup_cons] at hnd
    exact hnd.2
  · intro i
    have hi := h.entries_iff i
    rw [List.filterMap_cons_some he, List.mem_cons] at hi
    rw [List.filterMap_cons_none rfl]
    dsimp only [MsgBus.become, MsgBus.answer]
    by_cases hie : i = e
    · subst hie
      refine iff_of_false ?_ ?_
      · intro hm
        obtain ⟨u, hu, hue⟩ := List.mem_filterMap.mp hm
        exact hother u hu hue
      · rintro ⟨m, hm⟩
        rw [List.getElem?_modify] at hm
        cases hc : s.consumed[i]? <;> simp [hc] at hm
    · rw [List.getElem?_modify_ne _ _ (Ne.symm hie), ← hi]
      exact (or_iff_right hie).symm
  · intro u hu
    cases List.mem_cons.mp hu with
    | inl hu =>
      rw [hu]
      trivial
    | inr hu =>
      refine (h.tasks u (List.mem_cons_of_mem _ hu)).congr rfl (fun _ _ => rfl) ?_
        (fun _ _ _ _ _ _ ht => ht)
      intro i hi
      apply List.getElem?_modify_ne
      intro hei
      exact hother u hu (hei ▸ hi)

theorem Inv.free (h : Inv s (.freeing p :: rest) xs)
    (hset : (s.tasks.set k .draining).Perm (.draining :: rest)) :
    ∃ s', freeMessage s k p = some s' ∧ s'.consumed = s.consumed ∧
      Inv s' (.draining :: rest) xs := by
  have hp := h.node_live (List.mem_cons_self ..) rfl
  obtain ⟨hpx, hother⟩ := h.node_unique rfl
  have ht := congrArg (Option.map fun l =>
    ({ s with msgQueue := l } : MsgBus).become k .draining)
    (linkedListFreeNode_block h.queue.heap hp)
  refine ⟨_, ht, rfl, ?_⟩
  have hnode : taskNode (.freeing p) = some p := rfl
  have hnd := h.nodup
  rw [List.filterMap_cons_some hnode, List.nodup_middle, List.nodup_cons] at hnd
  refine ⟨hset, heapHolds_dropBlock h.queue hpx, ?_, hnd.2, ?_, h.conserved, h.inRange,
    h.entries_nodup, h.entries_iff, ?_, h.topics⟩
  · intro q hq
    by_cases hqp : q = p
    · rw [hqp]
      exact h.dataPtr p hp
    · apply h.dataPtr q
      simpa [MsgBus.become, LinkedList.dropBlock, hqp] using hq
  · intro q
    have hl := h.live_iff q
    rw [List.filterMap_cons_some hnode, List.perm_middle.mem_iff, List.mem_cons] at hl
    rw [List.filterMap_cons_none rfl]
    dsimp only [MsgBus.become, LinkedList.dropBlock]
    by_cases hqp : q = p
    · rw [hqp, Function.update_self]
      exact iff_of_false Bool.false_ne_true hnd.1
    · rw [Function.update_of_ne hqp, hl]
      exact or_iff_right hqp
  · intro u hu
    cases List.mem_cons.mp hu with
    | inl hu =>
      rw [hu]
      trivial
    | inr hu =>
      exact (h.tasks u (List.mem_cons_of_mem _ hu)).congr rfl (fun _ _ => rfl)
        (fun _ _ => rfl) (fun _ _ _ _ _ _ ht => ht)

end Turn

theorem Inv.update_topics (h : Inv s ts xs) (list : ℕ) {l : KvList} (hl : HoldsTopics l)
    (hkeep : ∀ p e i, .reading p e list i ∈ ts → ∀ id, TopicAt (s.topicLists list) i id →
      TopicAt l i id) :
    Inv { s with topicLists := Function.update s.topicLists list l } ts xs := by
  refine ⟨h.tasks_perm, h.queue, h.dataPtr, h.nodup, h.live_iff, h.conserved, h.inRange,
    h.entries_nodup, h.entries_iff, ?_, ?_⟩
  · intro u hu
    refine (h.tasks u hu).congr rfl (fun _ _ => rfl) (fun _ _ => rfl) ?_
    intro p e j i hr id ht
    dsimp only
    by_cases hj : j = list
    · subst hj
      rw [Function.update_self]
      exact hkeep p e i (hr ▸ hu) id ht
    · rw [Function.update_of_ne hj]
      exact ht
  · intro i hi
    dsimp only at hi ⊢
    by_cases hil : i = list
    · rw [hil, Function.update_self]
      exact hl
    · rw [Function.update_of_ne hil]
      exact h.topics i hi

end Steps

end BleFirmware.MsgBusTasks
