import BleFirmware.Base.Refine
import BleFirmware.LinkedList
import BleFirmware.LwList

/-!
# Both list modules are double-ended queues

The abstract deque is a sequence of nodes. `lw_list.c` is proved to refine it,
and `linked_list.c` does to its links and count exactly what `lw_list.c` does,
so that it refines the deque through its image.
-/

namespace BleFirmware.Deque
open ListAlgo Segment Refine

inductive Op
  | insertHead (p : Addr)
  | insertTail (p : Addr)
  | removeHead
  | removeTail
  deriving DecidableEq

def spec (xs : List Addr) : Op → List Addr × Option Addr
  | .insertHead p => (p :: xs, some p)
  | .insertTail p => (xs ++ [p], some p)
  | .removeHead => (xs.tail, xs.head?)
  | .removeTail => (xs.dropLast, xs.getLast?)

/-- A node is inserted only while it is not linked. -/
def allowed (xs : List Addr) : Op → Prop
  | .insertHead p => p ∉ xs
  | .insertTail p => p ∉ xs
  | .removeHead => True
  | .removeTail => True

instance (xs : List Addr) (op : Op) : Decidable (allowed xs op) := by
  cases op <;> unfold allowed <;> infer_instance

def lwListStep (l : LwList) : Op → Option (LwList × Option Addr)
  | .insertHead p => some (lwListInsertHead l p, some p)
  | .insertTail p => (lwListInsertTail l p).map fun k => (k, some p)
  | .removeHead => lwListRemoveHead l
  | .removeTail => lwListRemoveTail l

def linkedListStep {D : Type} (l : LinkedList D) : Op → Option (LinkedList D × Option Addr)
  | .insertHead p => some (linkedListInsertHead l p, some p)
  | .insertTail p => (linkedListInsertTail l p).map fun k => (k, some p)
  | .removeHead => linkedListRemoveHead l
  | .removeTail => linkedListRemoveTail l

/-- What a user of a list module sees of a list that stands for `xs`. -/
structure Observes {σ : Type*} (links : σ → LinkList Addr) (count : σ → ℕ)
    (removeHead removeTail : σ → Option (σ × Option Addr))
    (exist : ℕ → σ → Addr → Option Bool) (s : σ) (xs : List Addr) : Prop where
  walk_next : Seg (links s).next (links s).head xs none
  walk_next_ends : (links s).tail = xs.getLast?
  walk_prev : Seg (links s).prev (links s).tail xs.reverse none
  walk_prev_ends : (links s).head = xs.reverse.getLast?
  nodup : xs.Nodup
  head_prev : ∀ h, (links s).head = some h → (links s).prev h = none
  tail_next : ∀ t, (links s).tail = some t → (links s).next t = none
  head_null : (links s).head = none ↔ (links s).tail = none
  tail_null : (links s).tail = none ↔ count s = 0
  count_eq : count s = xs.length
  removeHead_eq : ∃ t, removeHead s = some (t, xs.head?) ∧
    ∀ p, xs.head? = some p → (links t).next p = none ∧ (links t).prev p = none
  removeTail_eq : ∃ t, removeTail s = some (t, xs.getLast?) ∧
    ∀ p, xs.getLast? = some p → (links t).next p = none ∧ (links t).prev p = none
  exist_eq : ∀ p, ∃ fuel, exist fuel s p = some (decide (p ∈ xs))

structure Holds (l : LwList) (xs : List Addr) : Prop where
  linked : Linked l.toLinkList xs
  count_eq : l.count = xs.length

theorem holds_init (l : LwList) : Holds (lwListInit l) [] := ⟨linked_nil rfl rfl, rfl⟩

theorem lwListInsertTail_spec {l : LwList} {xs : List Addr} (h : Holds l xs) {p : Addr}
    (hp : p ∉ xs) : ∃ l', lwListInsertTail l p = some l' ∧ Holds l' (xs ++ [p]) := by
  obtain ⟨k, hk, hlink⟩ := linked_insertTail h.linked hp
  refine ⟨{ l with toLinkList := k, count := l.count+1 }, ?_, hlink, ?_⟩
  · simp only [lwListInsertTail, hk, Option.map_some]
  · simp [h.count_eq]

theorem lwListRemoveHead_spec {l : LwList} {xs : List Addr} (h : Holds l xs) :
    ∃ l', lwListRemoveHead l = some (l', xs.head?) ∧ Holds l' xs.tail ∧
      ∀ p, xs.head? = some p → l'.next p = none ∧ l'.prev p = none := by
  cases xs with
  | nil =>
    have hh : l.head = none := h.linked.head_eq
    exact ⟨l, by simp only [lwListRemoveHead, hh, List.head?_nil], h, by simp⟩
  | cons x xs =>
    have hh : l.head = some x := h.linked.head_eq
    obtain ⟨k, hk, hlink, hn, hp⟩ := linked_removeHead h.linked
    refine ⟨{ l with toLinkList := k, count := sizeDec l.count }, ?_, ⟨hlink, ?_⟩, ?_⟩
    · simp only [lwListRemoveHead, hh, hk, Option.map_some, List.head?_cons]
    · simp [h.count_eq, sizeDec_succ]
    · rintro p hx
      obtain rfl : x = p := Option.some.inj hx
      exact ⟨hn, hp⟩

theorem lwListRemoveTail_spec {l : LwList} {xs : List Addr} (h : Holds l xs) :
    ∃ l', lwListRemoveTail l = some (l', xs.getLast?) ∧ Holds l' xs.dropLast ∧
      ∀ p, xs.getLast? = some p → l'.next p = none ∧ l'.prev p = none := by
  cases xs using List.reverseRecOn with
  | nil =>
    have ht : l.tail = none := h.linked.tail_eq
    exact ⟨l, by simp only [lwListRemoveTail, ht, List.getLast?_nil], h, by simp⟩
  | append_singleton xs x =>
    have ht : l.tail = some x := by rw [h.linked.tail_eq, List.getLast?_concat]
    obtain ⟨k, hk, hlink, hn, hp⟩ := linked_removeTail h.linked
    refine ⟨{ l with toLinkList := k, count := sizeDec l.count }, ?_, ⟨?_, ?_⟩, ?_⟩
    · simp only [lwListRemoveTail, ht, hk, Option.map_some, List.getLast?_concat]
    · rwa [List.dropLast_concat]
    · simp [h.count_eq, sizeDec_succ]
    · intro p hx
      rw [List.getLast?_concat] at hx
      obtain rfl : x = p := Option.some.inj hx
      exact ⟨hn, hp⟩

theorem lwListStep_refines (l : LwList) (xs : List Addr) (op : Op) (h : Holds l xs)
    (ha : allowed xs op) :
    ∃ l', lwListStep l op = some (l', (spec xs op).2) ∧ Holds l' (spec xs op).1 := by
  cases op with
  | insertHead p =>
    exact ⟨_, rfl, linked_insertHead h.linked ha, by simp [lwListInsertHead, spec, h.count_eq]⟩
  | insertTail p =>
    obtain ⟨l', hl', hh⟩ := lwListInsertTail_spec h ha
    exact ⟨l', by simp only [lwListStep, hl', Option.map_some, spec], hh⟩
  | removeHead =>
    obtain ⟨l', hl', hh, _⟩ := lwListRemoveHead_spec h
    exact ⟨l', hl', hh⟩
  | removeTail =>
    obtain ⟨l', hl', hh, _⟩ := lwListRemoveTail_spec h
    exact ⟨l', hl', hh⟩

theorem Holds.observes {l : LwList} {xs : List Addr} (h : Holds l xs) :
    Observes (fun l : LwList => l.toLinkList) (fun l => l.count) lwListRemoveHead lwListRemoveTail
      lwListExist l xs where
  walk_next := h.linked.forward
  walk_next_ends := h.linked.tail_eq
  walk_prev := h.linked.backward
  walk_prev_ends := by rw [List.getLast?_reverse]; exact h.linked.head_eq
  nodup := h.linked.nodup
  head_prev p hp := h.linked.backward.last_step (by
    rw [List.getLast?_reverse, ← h.linked.head_eq]
    exact hp)
  tail_next p hp := h.linked.forward.last_step (by
    rw [← h.linked.tail_eq]
    exact hp)
  head_null := h.linked.head_eq_none.trans h.linked.tail_eq_none.symm
  tail_null := by rw [h.linked.tail_eq_none, h.count_eq, List.length_eq_zero_iff]
  count_eq := h.count_eq
  removeHead_eq := by
    obtain ⟨l', hl', _, hn⟩ := lwListRemoveHead_spec h
    exact ⟨l', hl', hn⟩
  removeTail_eq := by
    obtain ⟨l', hl', _, hn⟩ := lwListRemoveTail_spec h
    exact ⟨l', hl', hn⟩
  exist_eq p := listNodeExists_seg h.linked.forward p

section LinkedList

variable {D : Type}

def image (l : LinkedList D) : LwList := { l.toLinkList with count := l.count }

theorem linkedListRemoveHead_image (l : LinkedList D) :
    lwListRemoveHead (image l) =
      (linkedListRemoveHead l).map fun r => (image r.1, r.2) := by
  simp only [linkedListRemoveHead, lwListRemoveHead, image]
  cases l.head with
  | none => rfl
  | some p => simp [Option.map_map, Function.comp_def]

theorem linkedListRemoveTail_image (l : LinkedList D) :
    lwListRemoveTail (image l) =
      (linkedListRemoveTail l).map fun r => (image r.1, r.2) := by
  simp only [linkedListRemoveTail, lwListRemoveTail, image]
  cases l.tail with
  | none => rfl
  | some p => simp [Option.map_map, Function.comp_def]

theorem linkedListStep_image (l : LinkedList D) (op : Op) :
    lwListStep (image l) op = (linkedListStep l op).map fun r => (image r.1, r.2) := by
  cases op with
  | insertHead p => rfl
  | insertTail p =>
    simp [lwListStep, linkedListStep, lwListInsertTail, linkedListInsertTail, image,
      Option.map_map, Function.comp_def]
  | removeHead => exact linkedListRemoveHead_image l
  | removeTail => exact linkedListRemoveTail_image l

theorem linkedListStep_refines (l : LinkedList D) (xs : List Addr) (op : Op)
    (h : Holds (image l) xs) (ha : allowed xs op) :
    ∃ l', linkedListStep l op = some (l', (spec xs op).2) ∧ Holds (image l') (spec xs op).1 := by
  obtain ⟨m, hm, hh⟩ := lwListStep_refines (image l) xs op h ha
  rw [linkedListStep_image] at hm
  obtain ⟨⟨l', x⟩, hl', he⟩ := Option.map_eq_some_iff.mp hm
  obtain ⟨rfl, rfl⟩ := Prod.mk.inj he
  exact ⟨l', hl', hh⟩

theorem Holds.observes_image {l : LinkedList D} {xs : List Addr} (h : Holds (image l) xs) :
    Observes (fun l : LinkedList D => l.toLinkList) (fun l => l.count) linkedListRemoveHead
      linkedListRemoveTail linkedListExist l xs := by
  have ho := h.observes
  refine { ho with removeHead_eq := ?_, removeTail_eq := ?_, exist_eq := ho.exist_eq }
  · obtain ⟨m, hm, hn⟩ := ho.removeHead_eq
    rw [linkedListRemoveHead_image] at hm
    obtain ⟨⟨l', x⟩, hl', he⟩ := Option.map_eq_some_iff.mp hm
    obtain ⟨rfl, rfl⟩ := Prod.mk.inj he
    exact ⟨l', hl', hn⟩
  · obtain ⟨m, hm, hn⟩ := ho.removeTail_eq
    rw [linkedListRemoveTail_image] at hm
    obtain ⟨⟨l', x⟩, hl', he⟩ := Option.map_eq_some_iff.mp hm
    obtain ⟨rfl, rfl⟩ := Prod.mk.inj he
    exact ⟨l', hl', hn⟩

theorem linkedListInitForArray_header [Inhabited D] (l : LinkedList D) :
    (linkedListInitForArray l).head = none ∧ (linkedListInitForArray l).tail = none ∧
      (linkedListInitForArray l).count = 0 := by
  simp only [linkedListInitForArray]
  split_ifs
  · exact ⟨rfl, rfl, rfl⟩
  · obtain ⟨next, prev, opt, dataPtr, hs⟩ := initSlots_frame
      { l with head := none, tail := none, count := 0, sorted := false } l.depth
    rw [hs]
    exact ⟨rfl, rfl, rfl⟩
  · exact ⟨rfl, rfl, rfl⟩

theorem holds_initForArray [Inhabited D] (l : LinkedList D) :
    Holds (image (linkedListInitForArray l)) [] :=
  have h := linkedListInitForArray_header l
  ⟨linked_nil h.1 h.2.1, h.2.2⟩

theorem holds_initForHeap (l : LinkedList D) : Holds (image (linkedListInitForHeap l)) [] :=
  ⟨linked_nil rfl rfl, rfl⟩

end LinkedList

/-- The run `ops` succeeds, answers as the abstract deque does, and leaves a
list that shows the abstract sequence. -/
def LinkedListRefines {D : Type} (l₀ : LinkedList D) (ops : List Op) : Prop :=
  ∃ l, runOps linkedListStep l₀ ops = some (l, (runSpec spec [] ops).2) ∧
    Observes (fun l : LinkedList D => l.toLinkList) (fun l => l.count) linkedListRemoveHead
      linkedListRemoveTail linkedListExist l (runSpec spec [] ops).1

def LwListRefines (l₀ : LwList) (ops : List Op) : Prop :=
  ∃ l, runOps lwListStep l₀ ops = some (l, (runSpec spec [] ops).2) ∧
    Observes (fun l : LwList => l.toLinkList) (fun l => l.count) lwListRemoveHead
      lwListRemoveTail lwListExist l (runSpec spec [] ops).1

theorem linkedList_run_refines {D : Type} {l₀ : LinkedList D} (h₀ : Holds (image l₀) [])
    {ops : List Op} (h : Legal spec allowed [] ops) : LinkedListRefines l₀ ops := by
  obtain ⟨l, hl, hh⟩ := run_refines (fun l xs => Holds (image l) xs) linkedListStep_refines h₀ h
  exact ⟨l, hl, hh.observes_image⟩

theorem lwList_run_refines {l₀ : LwList} (h₀ : Holds l₀ []) {ops : List Op}
    (h : Legal spec allowed [] ops) : LwListRefines l₀ ops := by
  obtain ⟨l, hl, hh⟩ := run_refines Holds lwListStep_refines h₀ h
  exact ⟨l, hl, hh.observes⟩

theorem list_modules_refine_deque {D : Type} [Inhabited D] (l₀ : LinkedList D) (m₀ : LwList)
    (ops : List Op) (h : Legal spec allowed [] ops) :
    LinkedListRefines (linkedListInitForArray l₀) ops ∧
      LinkedListRefines (linkedListInitForHeap l₀) ops ∧
      LwListRefines (lwListInit m₀) ops :=
  ⟨linkedList_run_refines (holds_initForArray l₀) h,
    linkedList_run_refines (holds_initForHeap l₀) h, lwList_run_refines (holds_init m₀) h⟩

def staleLinks : LinkList Addr := ⟨some 48, some 16, fun p => some (p+16), fun p => some p⟩

theorem list_modules_refine_deque_run :
    LinkedListRefines (linkedListInitForArray
        (⟨staleLinks, true, 7, 4, 3, some 16, some 512, true, 2, fun _ => 1, fun _ => 0,
          fun _ => 5, fun _ => false⟩ : LinkedList ℕ))
        [.insertTail 16, .insertHead 32, .insertTail 48, .removeHead, .insertHead 32,
          .removeTail] ∧
      LinkedListRefines (linkedListInitForHeap
        (⟨staleLinks, true, 7, 4, 3, some 16, some 512, true, 2, fun _ => 1, fun _ => 0,
          fun _ => 5, fun _ => false⟩ : LinkedList ℕ))
        [.insertTail 16, .insertHead 32, .insertTail 48, .removeHead, .insertHead 32,
          .removeTail] ∧
      LwListRefines (lwListInit ⟨staleLinks, 9⟩)
        [.insertTail 16, .insertHead 32, .insertTail 48, .removeHead, .insertHead 32,
          .removeTail] :=
  list_modules_refine_deque _ _ _ (by decide)

end BleFirmware.Deque
