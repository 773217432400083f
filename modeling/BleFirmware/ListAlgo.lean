import BleFirmware.Base.Loop
import BleFirmware.Base.Segment
import Mathlib.Data.List.Induction
import Mathlib.Tactic.Common

/-!
# The list macros of `list_algo_macro.h`

The macros are text that both list modules expand over their own node type, so
they are written once over an arbitrary type of node addresses. A `LinkList`
is what they read and write: the two ends in the list header, and the `next`
and `prev` fields of every node in memory, linked or not. A macro answers
`none` where the C text would follow a NULL pointer.

`Linked l xs` says that the list holds the nodes `xs` from head to tail.
-/

namespace BleFirmware.ListAlgo
open Segment

variable {α : Type*}

structure LinkList (α : Type*) where
  head : Option α
  tail : Option α
  next : α → Option α
  prev : α → Option α

structure Linked (l : LinkList α) (xs : List α) : Prop where
  forward : Seg l.next l.head xs none
  backward : Seg l.prev l.tail xs.reverse none

def LinkList.mirror (l : LinkList α) : LinkList α := ⟨l.tail, l.head, l.prev, l.next⟩

namespace Linked

variable {l : LinkList α} {xs : List α}

theorem mirror (h : Linked l xs) : Linked l.mirror xs.reverse := by
  refine ⟨h.backward, ?_⟩
  rw [List.reverse_reverse]
  exact h.forward

theorem nodup (h : Linked l xs) : xs.Nodup := h.forward.nodup

theorem head_eq (h : Linked l xs) : l.head = xs.head? := h.forward.start_eq

theorem tail_eq (h : Linked l xs) : l.tail = xs.getLast? := by
  simpa using h.backward.start_eq

theorem head_eq_none (h : Linked l xs) : l.head = none ↔ xs = [] := by
  simp [h.head_eq]

theorem tail_eq_none (h : Linked l xs) : l.tail = none ↔ xs = [] := by
  simp [h.tail_eq]

theorem ends_eq_iff (h : Linked l xs) : l.head = l.tail ↔ xs.length ≤ 1 := by
  rw [h.head_eq, h.tail_eq]
  cases xs with
  | nil => simp
  | cons x ys =>
    cases ys using List.reverseRecOn with
    | nil => simp
    | append_singleton ys y =>
      have hne : x ≠ y := by
        have hd := h.nodup
        simp only [List.nodup_cons, List.mem_append, List.mem_singleton, not_or] at hd
        exact hd.1.2
      have hl : (x :: (ys ++ [y])).getLast? = some y := by
        rw [← List.cons_append, List.getLast?_concat]
      simp [hl, hne]

section Inner

variable {as bs : List α} {p : α}

theorem notMem_left (h : Linked l (as ++ p :: bs)) : p ∉ as := by
  have hnd := h.nodup
  rw [List.nodup_append] at hnd
  exact fun hm => hnd.2.2 p hm p List.mem_cons_self rfl

theorem next_eq (h : Linked l (as ++ p :: bs)) : l.next p = bs.head? := by
  obtain ⟨r, _, _, hb⟩ := seg_append.mp h.forward
  exact hb.start_eq

theorem head_eq_some (h : Linked l (as ++ p :: bs)) : l.head = some p ↔ as = [] := by
  rw [h.head_eq]
  cases as with
  | nil => simp
  | cons a as =>
    have hne : a ≠ p := by
      rintro rfl
      exact absurd h.nodup (by simp)
    simp [hne]

theorem mirror_inner (h : Linked l (as ++ p :: bs)) :
    Linked l.mirror (bs.reverse ++ p :: as.reverse) := by
  have hm := h.mirror
  rwa [List.reverse_append, List.reverse_cons, List.append_assoc] at hm

theorem prev_eq (h : Linked l (as ++ p :: bs)) : l.prev p = as.getLast? := by
  rw [← List.head?_reverse]
  exact next_eq h.mirror_inner

theorem tail_eq_some (h : Linked l (as ++ p :: bs)) : l.tail = some p ↔ bs = [] := by
  rw [← List.reverse_eq_nil_iff]
  exact head_eq_some h.mirror_inner

end Inner

end Linked

theorem linked_nil {l : LinkList α} (hh : l.head = none) (ht : l.tail = none) :
    Linked l [] := ⟨hh, ht⟩

/-- The ends and the links of the nodes in `S` lead into `S` or nowhere. Whatever the
macros do to a list, they make no pointer up: one that they write was NULL, a node they
were given, or a pointer they read. -/
structure Within (S : α → Prop) (l : LinkList α) : Prop where
  head : ∀ p ∈ l.head, S p
  tail : ∀ p ∈ l.tail, S p
  next : ∀ q, S q → ∀ p ∈ l.next q, S p
  prev : ∀ q, S q → ∀ p ∈ l.prev q, S p

namespace Within

variable {S : α → Prop} {l : LinkList α}

theorem withHead (h : Within S l) {q : Option α} (hq : ∀ p ∈ q, S p) :
    Within S { l with head := q } :=
  ⟨hq, h.tail, h.next, h.prev⟩

theorem withTail (h : Within S l) {q : Option α} (hq : ∀ p ∈ q, S p) :
    Within S { l with tail := q } :=
  ⟨h.head, hq, h.next, h.prev⟩

theorem mirror (h : Within S l) : Within S l.mirror := ⟨h.tail, h.head, h.prev, h.next⟩

theorem emptied (h : Within S l) : Within S { l with head := none, tail := none } :=
  ⟨by simp, by simp, h.next, h.prev⟩

theorem of_walk (h : Within S l) {q : Option α} (hq : ∀ p ∈ q, S p) (n : ℕ) :
    ∀ p ∈ walk l.next n q, S p := by
  induction n generalizing q with
  | zero => simp [walk]
  | succ n ih =>
    cases q with
    | none => simp [walk]
    | some r =>
      have hr : S r := hq r rfl
      intro p hm
      rcases List.mem_cons.mp hm with rfl | hm
      · exact hr
      · exact ih (h.next r hr) p hm

end Within

variable [DecidableEq α]

def LinkList.setNext (l : LinkList α) (p : α) (q : Option α) : LinkList α :=
  { l with next := Function.update l.next p q }

def LinkList.setPrev (l : LinkList α) (p : α) (q : Option α) : LinkList α :=
  { l with prev := Function.update l.prev p q }

@[simp] theorem setNext_head (l : LinkList α) (p : α) (q : Option α) :
    (l.setNext p q).head = l.head := rfl
@[simp] theorem setNext_tail (l : LinkList α) (p : α) (q : Option α) :
    (l.setNext p q).tail = l.tail := rfl
@[simp] theorem setNext_next (l : LinkList α) (p : α) (q : Option α) :
    (l.setNext p q).next = Function.update l.next p q := rfl
@[simp] theorem setNext_prev (l : LinkList α) (p : α) (q : Option α) :
    (l.setNext p q).prev = l.prev := rfl
@[simp] theorem setPrev_head (l : LinkList α) (p : α) (q : Option α) :
    (l.setPrev p q).head = l.head := rfl
@[simp] theorem setPrev_tail (l : LinkList α) (p : α) (q : Option α) :
    (l.setPrev p q).tail = l.tail := rfl
@[simp] theorem setPrev_next (l : LinkList α) (p : α) (q : Option α) :
    (l.setPrev p q).next = l.next := rfl
@[simp] theorem setPrev_prev (l : LinkList α) (p : α) (q : Option α) :
    (l.setPrev p q).prev = Function.update l.prev p q := rfl

def listInsertHead (l : LinkList α) (pNode : α) : LinkList α :=
  match l.head with
  | none =>
    let l := (l.setPrev pNode none).setNext pNode none
    { l with head := some pNode, tail := some pNode }
  | some h =>
    let l := ((l.setPrev pNode none).setNext pNode (some h)).setPrev h (some pNode)
    { l with head := some pNode }

def listInsertTail (l : LinkList α) (pNode : α) : Option (LinkList α) :=
  match l.head, l.tail with
  | none, _ =>
    let l := (l.setPrev pNode none).setNext pNode none
    some { l with head := some pNode, tail := some pNode }
  | some _, some t =>
    let l := ((l.setPrev pNode (some t)).setNext pNode none).setNext t (some pNode)
    some { l with tail := some pNode }
  -- `(p_list)->tail->next` with a NULL tail
  | some _, none => none

def listRemoveHead (l : LinkList α) (pHead : α) : Option (LinkList α) :=
  if l.head = l.tail then
    some { l with head := none, tail := none }
  else
    match l.next pHead with
    | some n =>
      let l := { l with head := some n }
      some ((l.setPrev n none).setNext pHead none)
    | none => none

def listRemoveTail (l : LinkList α) (pTail : α) : Option (LinkList α) :=
  if l.head = l.tail then
    some { l with head := none, tail := none }
  else
    match l.prev pTail with
    | some n =>
      let l := { l with tail := some n }
      some ((l.setNext n none).setPrev pTail none)
    | none => none

/-- `LIST_REMOVE_NODE`, with the `p_out_node` that the macro captures: `none`
where it is overwritten by NULL. -/
def listRemoveNode (l : LinkList α) (pNode : α) : LinkList α × Option α :=
  if l.head = l.tail then
    if l.head = some pNode then ({ l with head := none, tail := none }, some pNode)
    else (l, none)
  else if l.head = some pNode then
    (({ l with head := l.next pNode } : LinkList α).setPrev pNode none, some pNode)
  else if l.tail = some pNode then
    (({ l with tail := l.prev pNode } : LinkList α).setNext pNode none, some pNode)
  else
    let l := match l.prev pNode with
      | some a => (l.setNext a (l.next pNode)).setPrev pNode none
      | none => l
    -- `p_node->prev` is read again here, after the branch above has cleared it
    let l := match l.next pNode with
      | some b => (l.setPrev b (l.prev pNode)).setNext pNode none
      | none => l
    (l, some pNode)

def listNodeExistsBody (l : LinkList α) (pNode : α) : Option α → Option α ⊕ Bool
  | none => .inr false
  | some pIter => if pIter = pNode then .inr true else .inl (l.next pIter)

/-- `LIST_NODE_EXISTS` run for at most `fuel` rounds. -/
def listNodeExists (fuel : ℕ) (l : LinkList α) (pNode : α) : Option Bool :=
  Loop.run (listNodeExistsBody l pNode) fuel l.head

theorem linked_insertHead {l : LinkList α} {xs : List α} (h : Linked l xs) {p : α}
    (hp : p ∉ xs) : Linked (listInsertHead l p) (p :: xs) := by
  cases xs with
  | nil =>
    have hh : l.head = none := h.head_eq
    simp only [listInsertHead, hh]
    exact ⟨by simp, by simp⟩
  | cons x xs =>
    have hh : l.head = some x := h.head_eq
    have hxp : x ≠ p := fun he => hp (by simp [he])
    have hpx : p ∉ xs := fun hm => hp (by simp [hm])
    have hx : x ∉ xs := (List.nodup_cons.mp h.nodup).1
    simp only [listInsertHead, hh]
    constructor
    · refine ⟨rfl, ?_⟩
      have hf := h.forward.update (r := some x) hp
      rw [h.head_eq] at hf
      simpa using hf
    · -- The old head is the last node of the backward walk, and only it gains an arm.
      have hb := h.backward
      rw [List.reverse_cons, seg_concat] at hb
      rw [List.reverse_cons, List.reverse_cons, seg_concat, seg_concat]
      have hu := (hb.1.update (r := none) (y := p) (by simpa using hpx)).update
        (r := some p) (y := x) (by simpa using hx)
      refine ⟨⟨hu, by simp⟩, by simp [hxp.symm]⟩

theorem listInsertTail_eq_mirror {l : LinkList α} {xs : List α} (h : Linked l xs) (p : α) :
    listInsertTail l p = some (listInsertHead l.mirror p).mirror := by
  cases hxs : xs with
  | nil =>
    have hh := h.head_eq_none.mpr hxs
    have ht := h.tail_eq_none.mpr hxs
    simp [listInsertTail, listInsertHead, LinkList.mirror, hh, ht,
      LinkList.setNext, LinkList.setPrev]
  | cons x ys =>
    obtain ⟨t, ht⟩ := Option.ne_none_iff_exists'.mp (h.tail_eq_none.not.mpr (by simp [hxs]))
    have hh : l.head = some x := by rw [h.head_eq, hxs]; rfl
    simp [listInsertTail, listInsertHead, LinkList.mirror, hh, ht,
      LinkList.setNext, LinkList.setPrev]

theorem linked_insertTail {l : LinkList α} {xs : List α} (h : Linked l xs) {p : α}
    (hp : p ∉ xs) : ∃ l', listInsertTail l p = some l' ∧ Linked l' (xs ++ [p]) := by
  refine ⟨_, listInsertTail_eq_mirror h p, ?_⟩
  have hm := (linked_insertHead h.mirror (p := p) (by simpa using hp)).mirror
  simpa using hm

theorem linked_removeHead {l : LinkList α} {x : α} {xs : List α} (h : Linked l (x :: xs)) :
    ∃ l', listRemoveHead l x = some l' ∧ Linked l' xs ∧ l'.next x = none ∧ l'.prev x = none := by
  have hx : x ∉ xs := (List.nodup_cons.mp h.nodup).1
  have hprev : l.prev x = none := by
    have hb := h.backward
    rw [List.reverse_cons, seg_concat] at hb
    exact hb.2
  have hnext : l.next x = xs.head? := h.forward.2.start_eq
  cases xs with
  | nil =>
    have he : l.head = l.tail := h.ends_eq_iff.mpr (by simp)
    have hr : listRemoveHead l x = some { l with head := none, tail := none } := by
      simp only [listRemoveHead, if_pos he]
    exact ⟨_, hr, linked_nil rfl rfl, hnext, hprev⟩
  | cons y ys =>
    have he : l.head ≠ l.tail := by simp [h.ends_eq_iff]
    have hy : l.next x = some y := hnext
    have hyx : x ≠ y := fun he => hx (by simp [he])
    have hyy : y ∉ ys := (List.nodup_cons.mp (List.nodup_cons.mp h.nodup).2).1
    have hr : listRemoveHead l x =
        some ((({ l with head := some y } : LinkList α).setPrev y none).setNext x none) := by
      simp only [listRemoveHead, if_neg he, hy]
    refine ⟨_, hr, ⟨?_, ?_⟩, by simp, by simp [hyx, hprev]⟩
    · have hf : Seg l.next (some y) (y :: ys) none := by
        have hf := h.forward.2
        rwa [hy] at hf
      exact hf.update hx
    · have hb := h.backward
      rw [List.reverse_cons, List.reverse_cons, seg_concat, seg_concat] at hb
      rw [List.reverse_cons, seg_concat]
      exact ⟨hb.1.1.update (by simpa using hyy), by simp⟩

theorem listRemoveTail_eq_mirror (l : LinkList α) (p : α) :
    listRemoveTail l p = (listRemoveHead l.mirror p).map LinkList.mirror := by
  simp only [listRemoveTail, listRemoveHead]
  by_cases he : l.head = l.tail
  · rw [if_pos he, if_pos (show l.mirror.head = l.mirror.tail from he.symm)]
    rfl
  · rw [if_neg he, if_neg (show l.mirror.head ≠ l.mirror.tail from fun h => he h.symm)]
    change (match l.prev p with | some n => _ | none => none) =
      Option.map _ (match l.prev p with | some n => _ | none => none)
    cases l.prev p <;> rfl

theorem linked_removeTail {l : LinkList α} {x : α} {xs : List α} (h : Linked l (xs ++ [x])) :
    ∃ l', listRemoveTail l x = some l' ∧ Linked l' xs ∧ l'.next x = none ∧ l'.prev x = none := by
  have hm : Linked l.mirror (x :: xs.reverse) := by simpa using h.mirror
  obtain ⟨l', hl', hlink, hn, hp⟩ := linked_removeHead hm
  refine ⟨l'.mirror, ?_, ?_, hp, hn⟩
  · rw [listRemoveTail_eq_mirror, hl']
    rfl
  · simpa using hlink.mirror

/-- The traversal stops after at most one round a node, with the right answer. -/
theorem listNodeExists_seg {l : LinkList α} {p : Option α} {xs : List α}
    (h : Seg l.next p xs none) (x : α) :
    Loop.Returns (listNodeExistsBody l x) p (decide (x ∈ xs)) := by
  induction xs generalizing p with
  | nil =>
    obtain rfl : p = none := h
    have hb : listNodeExistsBody l x none = .inr false := rfl
    exact (Loop.returns_inr hb).mpr (by simp)
  | cons y ys ih =>
    obtain ⟨rfl, ht⟩ := h
    by_cases hy : y = x
    · have hb : listNodeExistsBody l x (some y) = .inr true := by simp [listNodeExistsBody, hy]
      exact (Loop.returns_inr hb).mpr (by simp [hy])
    · have hb : listNodeExistsBody l x (some y) = .inl (l.next y) := by
        simp [listNodeExistsBody, hy]
      have hmem : x ∈ y :: ys ↔ x ∈ ys := by simp [Ne.symm hy]
      rw [Loop.returns_inl hb, decide_eq_decide.mpr hmem]
      exact ih ht

namespace Within

variable {S : α → Prop} {l l' : LinkList α} {p : α}

theorem setNext (h : Within S l) (p : α) {q : Option α} (hq : ∀ p ∈ q, S p) :
    Within S (l.setNext p q) := by
  refine ⟨h.head, h.tail, ?_, h.prev⟩
  intro r hr
  by_cases hrp : r = p
  · rw [setNext_next, hrp, Function.update_self]
    exact hq
  · rw [setNext_next, Function.update_of_ne hrp]
    exact h.next r hr

theorem setPrev (h : Within S l) (p : α) {q : Option α} (hq : ∀ p ∈ q, S p) :
    Within S (l.setPrev p q) :=
  (h.mirror.setNext p hq).mirror

theorem clearNext (h : Within S l) (p : α) : Within S (l.setNext p none) :=
  h.setNext p (by simp)

theorem clearPrev (h : Within S l) (p : α) : Within S (l.setPrev p none) :=
  h.setPrev p (by simp)

theorem insertHead (h : Within S l) (hp : S p) : Within S (listInsertHead l p) := by
  have hnew : ∀ r ∈ some p, S r := by simpa using hp
  unfold listInsertHead
  cases hh : l.head with
  | none => exact (((h.clearPrev p).clearNext p).withHead hnew).withTail hnew
  | some q =>
    have hold : ∀ r ∈ some q, S r := hh ▸ h.head
    exact (((h.clearPrev p).setNext p hold).setPrev q hnew).withHead hnew

theorem insertTail (h : Within S l) (hp : S p) (hl : listInsertTail l p = some l') :
    Within S l' := by
  have hnew : ∀ r ∈ some p, S r := by simpa using hp
  cases hh : l.head with
  | none =>
    simp only [listInsertTail, hh, Option.some.injEq] at hl
    subst hl
    exact (((h.clearPrev p).clearNext p).withHead hnew).withTail hnew
  | some q =>
    cases ht : l.tail with
    | none => simp [listInsertTail, hh, ht] at hl
    | some t =>
      simp only [listInsertTail, hh, ht, Option.some.injEq] at hl
      subst hl
      have hold : ∀ r ∈ some t, S r := ht ▸ h.tail
      exact (((h.setPrev p hold).clearNext p).setNext t hnew).withTail hnew

theorem removeHead (h : Within S l) (hp : S p) (hl : listRemoveHead l p = some l') :
    Within S l' := by
  unfold listRemoveHead at hl
  split_ifs at hl
  · obtain rfl := Option.some.inj hl
    exact h.emptied
  · cases hn : l.next p with
    | none => simp [hn] at hl
    | some n =>
      simp only [hn, Option.some.injEq] at hl
      subst hl
      exact ((h.withHead (hn ▸ h.next p hp)).clearPrev n).clearNext p

theorem removeTail (h : Within S l) (hp : S p) (hl : listRemoveTail l p = some l') :
    Within S l' := by
  rw [listRemoveTail_eq_mirror] at hl
  obtain ⟨k, hk, rfl⟩ := Option.map_eq_some_iff.mp hl
  exact (h.mirror.removeHead hp hk).mirror

theorem removeNode (h : Within S l) (hp : S p) : Within S (listRemoveNode l p).1 := by
  unfold listRemoveNode
  split_ifs
  · exact h.emptied
  · exact h
  · exact (h.withHead (h.next p hp)).clearPrev p
  · exact (h.withTail (h.prev p hp)).clearNext p
  · have hleft : Within S (match l.prev p with
        | some a => (l.setNext a (l.next p)).setPrev p none
        | none => l) := by
      cases l.prev p with
      | none => exact h
      | some a => exact (h.setNext a (h.next p hp)).clearPrev p
    have hright : ∀ k : LinkList α, Within S k → Within S (match k.next p with
        | some b => (k.setPrev b (k.prev p)).setNext p none
        | none => k) := by
      intro k hk
      cases k.next p with
      | none => exact hk
      | some b => exact (hk.setPrev b (hk.prev p hp)).clearNext p
    exact hright _ hleft

end Within

end BleFirmware.ListAlgo
