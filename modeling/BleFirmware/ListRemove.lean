import BleFirmware.Base.Run
import BleFirmware.Deque

/-!
# Removing a given node

`LIST_REMOVE_NODE` forgets one link in each of its cases: the back link of the
new head, the forward link of the new tail, and of the node behind an inner one
it clears the back link, because it reads `p_node->prev` after clearing it. The
list stays linked both ways only when the node was alone. The callers count
down even when the macro has refused the node, which it does for a list of at
most one other node.
-/

namespace BleFirmware.ListRemove
open ListAlgo Segment Deque Run

theorem lwListRemoveNode_image {D : Type} (l : LinkedList D) (p : Option Addr) :
    lwListRemoveNode (image l) p =
      (image (linkedListRemoveNode l p).1, (linkedListRemoveNode l p).2) := by
  cases p <;> rfl

/-- The list `k` is the list of `xs` without `p`, which has no links and none to it. -/
structure Removed (xs : List Addr) (p : Addr) (k : LwList) (out : Option Addr) : Prop where
  out_eq : out = some p
  holds : Holds k (xs.erase p)
  count_eq : k.count + 1 = xs.length
  next_null : k.next p = none
  prev_null : k.prev p = none
  unreferenced : ∀ q ∈ xs.erase p, k.next q ≠ some p ∧ k.prev q ≠ some p

variable {l k : LwList} {xs : List Addr} {p : Addr} {out : Option Addr}

theorem removeNode_only (h : Holds l [p]) :
    lwListRemoveNode l (some p) =
      ({ l with head := none, tail := none, count := sizeDec l.count }, some p) := by
  have hhead : l.head = some p := h.linked.head_eq
  have htail : l.tail = some p := h.linked.tail_eq
  simp only [lwListRemoveNode, listRemoveNode, hhead, htail, if_true]

theorem removed_only (h : Holds l [p]) :
    Removed [p] p (lwListRemoveNode l (some p)).1 (lwListRemoveNode l (some p)).2 := by
  have hcount : sizeDec l.count = 0 := by
    rw [h.count_eq]
    rfl
  rw [removeNode_only h]
  refine ⟨rfl, ?_, ?_, h.linked.forward.2, h.linked.backward.2, ?_⟩
  · rw [List.erase_cons_head]
    exact ⟨linked_nil rfl rfl, hcount⟩
  · simp only [hcount, List.length_singleton]
  · rw [List.erase_cons_head]
    exact nofun

section Neighbours

variable {as bs : List Addr} (h : Linked l.toLinkList (as ++ p :: bs))

include h

theorem removeNode_head (hb : bs ≠ []) (ha : as = []) :
    (lwListRemoveNode l (some p)).1.next p = bs.head? := by
  have hends : l.head ≠ l.tail := by
    rw [h.head_eq_some.mpr ha]
    exact fun he => hb (h.tail_eq_some.mp he.symm)
  simp only [lwListRemoveNode, listRemoveNode, if_neg hends, if_pos (h.head_eq_some.mpr ha)]
  exact h.next_eq

theorem removeNode_tail (ha : as ≠ []) (hb : bs = []) :
    (lwListRemoveNode l (some p)).1.prev p = as.getLast? := by
  have hhead : l.head ≠ some p := h.head_eq_some.not.mpr ha
  have htail := h.tail_eq_some.mpr hb
  have hends : l.head ≠ l.tail := by rwa [htail]
  simp only [lwListRemoveNode, listRemoveNode, if_neg hends, if_neg hhead, if_pos htail]
  exact h.prev_eq

theorem removeNode_inner {a b : Addr} (ha : as.getLast? = some a) (hb : bs.head? = some b) :
    (lwListRemoveNode l (some p)).1.prev b = none := by
  have hhead : l.head ≠ some p := h.head_eq_some.not.mpr (by rintro rfl; cases ha)
  have htail : l.tail ≠ some p := h.tail_eq_some.not.mpr (by rintro rfl; cases hb)
  have hends : l.head ≠ l.tail := by
    rw [Ne, h.ends_eq_iff]
    obtain ⟨as, rfl⟩ := List.getLast?_eq_some_iff.mp ha
    simp only [List.length_append, List.length_cons]
    omega
  have hprev : l.prev p = some a := h.prev_eq.trans ha
  have hnext : l.next p = some b := h.next_eq.trans hb
  have hap : p ≠ a := by
    rintro rfl
    exact h.notMem_left (List.mem_of_getLast? ha)
  simp only [lwListRemoveNode, listRemoveNode, if_neg hends, if_neg hhead, if_neg htail, hprev,
    hnext, setPrev_next, setNext_next, Function.update_of_ne hap]
  simp

end Neighbours

theorem not_removed {as bs : List Addr} (h : Linked l.toLinkList (as ++ p :: bs))
    (hne : as ≠ [] ∨ bs ≠ []) :
    ¬ Removed (as ++ p :: bs) p (lwListRemoveNode l (some p)).1
      (lwListRemoveNode l (some p)).2 := by
  intro hr
  cases ha : as.getLast? with
  | none =>
    obtain rfl := List.getLast?_eq_none_iff.mp ha
    have hb : bs ≠ [] := hne.resolve_left (fun hn => hn rfl)
    have hnull := hr.next_null
    rw [removeNode_head h hb rfl, List.head?_eq_none_iff] at hnull
    exact hb hnull
  | some a =>
    have ha' : as ≠ [] := by
      rintro rfl
      cases ha
    cases hb : bs.head? with
    | none =>
      have hnull := hr.prev_null
      rw [removeNode_tail h ha' (List.head?_eq_none_iff.mp hb), ha] at hnull
      cases hnull
    | some b =>
      obtain ⟨cs, rfl⟩ := List.head?_eq_some_iff.mp hb
      have hlinked := hr.holds.linked
      rw [List.erase_append_right _ h.notMem_left, List.erase_cons_head] at hlinked
      have hback := hlinked.prev_eq
      rw [removeNode_inner h ha hb, ha] at hback
      cases hback

theorem removed_iff (h : Holds l xs) (hp : p ∈ xs) :
    Removed xs p (lwListRemoveNode l (some p)).1 (lwListRemoveNode l (some p)).2 ↔ xs = [p] := by
  constructor
  · intro hr
    obtain ⟨as, bs, rfl⟩ := List.append_of_mem hp
    by_contra hne
    refine not_removed h.linked ?_ hr
    by_contra hnil
    push Not at hnil
    rw [hnil.1, hnil.2] at hne
    exact hne rfl
  · rintro rfl
    exact removed_only h

/-- Removing a member works in a list of one node and in no other. -/
theorem member_removed_iff (xs : List Addr) (p : Addr) (hp : p ∈ xs) :
    (∀ {D : Type} (l : LinkedList D), Holds (image l) xs →
      (Removed xs p (image (linkedListRemoveNode l (some p)).1)
        (linkedListRemoveNode l (some p)).2 ↔ xs = [p])) ∧
    ∀ l : LwList, Holds l xs →
      (Removed xs p (lwListRemoveNode l (some p)).1 (lwListRemoveNode l (some p)).2 ↔ xs = [p]) := by
  refine ⟨fun l h => ?_, fun l h => removed_iff h hp⟩
  have hi := removed_iff h hp
  rwa [lwListRemoveNode_image] at hi

def pairList : LwList := lwListInsertHead (lwListInsertHead (lwListInit ⟨staleLinks, 9⟩) 32) 16

theorem pairList_holds : Holds pairList [16, 32] := by
  have h := linked_insertHead (holds_init ⟨staleLinks, 9⟩).linked (p := 32) List.not_mem_nil
  exact ⟨linked_insertHead h (p := 16) (by decide), rfl⟩

def pairLinkedList : LinkedList ℕ :=
  ⟨pairList.toLinkList, false, 2, 4, 0, none, none, false, 0, fun _ => 0, fun _ => 0,
    fun _ => 5, fun _ => false⟩

theorem member_removed_iff_pair :
    (Removed [16, 32] 32 (image (linkedListRemoveNode pairLinkedList (some 32)).1)
        (linkedListRemoveNode pairLinkedList (some 32)).2 ↔ [16, 32] = [32]) ∧
      (Removed [16, 32] 16 (lwListRemoveNode pairList (some 16)).1
        (lwListRemoveNode pairList (some 16)).2 ↔ [16, 32] = [16]) :=
  ⟨(member_removed_iff [16, 32] 32 (by decide)).1 pairLinkedList pairList_holds,
    (member_removed_iff [16, 32] 16 (by decide)).2 pairList pairList_holds⟩

theorem removed_head_linked :
    Holds pairList [16, 32] ∧ (lwListRemoveNode pairList (some 16)).1.next 16 = some 32 ∧
      (lwListRemoveNode pairList (some 16)).1.prev 32 = some 16 ∧
      ¬ Removed [16, 32] 16 (lwListRemoveNode pairList (some 16)).1
        (lwListRemoveNode pairList (some 16)).2 := by
  have hlinked : Linked pairList.toLinkList ([] ++ 16 :: [32]) := pairList_holds.linked
  have hnot := not_removed hlinked (Or.inr (List.cons_ne_nil _ _))
  exact ⟨pairList_holds, by decide, by decide, hnot⟩

theorem removeNode_refused_iff {q : Addr} :
    (lwListRemoveNode l (some q)).2 = none ↔ l.head = l.tail ∧ l.head ≠ some q := by
  simp only [lwListRemoveNode, listRemoveNode]
  split_ifs <;> simp_all

theorem removeNode_refused {q : Addr} (h : (lwListRemoveNode l (some q)).2 = none) :
    (lwListRemoveNode l (some q)).1 = { l with count := sizeDec l.count } := by
  obtain ⟨hends, hhead⟩ := removeNode_refused_iff.mp h
  simp only [lwListRemoveNode, listRemoveNode, if_pos hends, if_neg hhead]

theorem sizeDec_ne {n : ℕ} : sizeDec n ≠ n := by
  cases n with
  | zero => decide
  | succ n =>
    rw [sizeDec_succ]
    omega

theorem refused_unchanged_iff (h : Holds l xs) (p : Option Addr) :
    ((lwListRemoveNode l p).2 = none → (lwListRemoveNode l p).1 = l) ↔
      p = none ∨ 2 ≤ xs.length ∨ ∃ q, p = some q ∧ xs = [q] := by
  cases p with
  | none => exact iff_of_true (fun _ => rfl) (Or.inl rfl)
  | some q =>
    have hcount : (lwListRemoveNode l (some q)).2 = none →
        ¬ (lwListRemoveNode l (some q)).1 = l := by
      intro hr he
      rw [removeNode_refused hr] at he
      exact sizeDec_ne (congrArg LwList.count he)
    have hrefused : (lwListRemoveNode l (some q)).2 = none ↔ xs.length ≤ 1 ∧ xs ≠ [q] := by
      rw [removeNode_refused_iff, h.linked.ends_eq_iff]
      refine and_congr_right fun hlen => not_congr ?_
      rw [h.linked.head_eq, List.head?_eq_some_iff]
      constructor
      · rintro ⟨ys, rfl⟩
        rw [List.length_cons] at hlen
        obtain rfl : ys = [] := List.eq_nil_of_length_eq_zero (by omega)
        rfl
      · rintro rfl
        exact ⟨[], rfl⟩
    have hgood : ((lwListRemoveNode l (some q)).2 = none →
        (lwListRemoveNode l (some q)).1 = l) ↔ ¬ (lwListRemoveNode l (some q)).2 = none :=
      ⟨fun hr hn => hcount hn (hr hn), fun hr hn => absurd hn hr⟩
    rw [hgood, hrefused]
    simp only [reduceCtorEq, false_or, Option.some.injEq, exists_eq_left']
    by_cases hq : xs = [q]
    · simp [hq]
    · simp only [hq, or_false, ne_eq, not_false_iff, and_true]
      omega

inductive Call
  | deque (op : Deque.Op)
  | removeNode (p : Option Addr)
  deriving DecidableEq

def lwStep (l : LwList) : Call → Option LwList
  | .deque op => (lwListStep l op).map Prod.fst
  | .removeNode p => some (lwListRemoveNode l p).1

def linkedStep {D : Type} (l : LinkedList D) : Call → Option (LinkedList D)
  | .deque op => (linkedListStep l op).map Prod.fst
  | .removeNode p => some (linkedListRemoveNode l p).1

/-- Nodes are inserted that are not linked, and what is removed by its node is refused. -/
def Legal (l : LwList) : Call → Prop
  | .deque op => ∀ xs, Linked l.toLinkList xs → allowed xs op
  | .removeNode p => (lwListRemoveNode l p).2 = none

/-- The count is the number of the nodes that are met from the head on, so that
`count == 0` tells an empty list. -/
def CountExact (l : LwList) : Prop :=
  ∃ xs, Linked l.toLinkList xs ∧ l.count = xs.length ∧ (l.count = 0 ↔ l.head = none)

def Call.OfNull : Call → Prop
  | .deque _ => True
  | .removeNode p => p = none

theorem countExact_of_holds (h : Holds l xs) : CountExact l := by
  refine ⟨xs, h.linked, h.count_eq, ?_⟩
  rw [h.count_eq, List.length_eq_zero_iff, h.linked.head_eq_none]

theorem CountExact.holds (h : CountExact l) : ∃ xs, Holds l xs := by
  obtain ⟨xs, hl, hc, _⟩ := h
  exact ⟨xs, hl, hc⟩

theorem lwStep_countExact_iff (h : Holds l xs) {c : Call} (hl : Legal l c) :
    (∀ k, lwStep l c = some k → CountExact k) ↔ c.OfNull := by
  cases c with
  | deque op =>
    refine iff_of_true (fun k hk => ?_) trivial
    obtain ⟨k', hk', hh⟩ := lwListStep_refines l xs op h (hl xs h.linked)
    rw [lwStep, hk'] at hk
    obtain rfl := Option.some.inj hk
    exact countExact_of_holds hh
  | removeNode p =>
    have hstep : ∀ k, lwStep l (.removeNode p) = some k ↔ (lwListRemoveNode l p).1 = k :=
      fun k => Option.some_inj
    simp only [hstep, forall_eq']
    cases p with
    | none => exact iff_of_true (countExact_of_holds h) rfl
    | some q =>
      refine iff_of_false (fun hc => ?_) nofun
      rw [removeNode_refused hl] at hc
      -- The links are those of before, the count is not.
      obtain ⟨ys, hys, hlen, _⟩ := hc
      obtain rfl := h.linked.forward.unique hys.forward
      exact sizeDec_ne (hlen.trans h.count_eq.symm)

theorem lwStep_run_iff (h : Holds l xs) {calls : List Call} (hl : Along lwStep Legal l calls) :
    Along lwStep (fun l c => ∀ k, lwStep l c = some k → CountExact k) l calls ↔
      Along lwStep (fun _ c => c.OfNull) l calls := by
  apply along_iff_of_invariant (I := fun l => ∃ xs, Holds l xs) (L := Legal)
  · intro l c k _ _ hc hk
    exact (hc k hk).holds
  · rintro l c ⟨xs, h⟩ hl
    exact lwStep_countExact_iff h hl
  · exact ⟨xs, h⟩
  · exact hl

theorem linkedStep_image {D : Type} (l : LinkedList D) (c : Call) :
    lwStep (image l) c = (linkedStep l c).map image := by
  cases c with
  | deque op =>
    rw [lwStep, linkedStep, linkedListStep_image, Option.map_map, Option.map_map]
    rfl
  | removeNode p =>
    rw [lwStep, lwListRemoveNode_image]
    rfl

theorem linkedStep_simulates {D : Type} (l : LinkedList D) (m : LwList) (c : Call)
    (hm : m = image l) : Simulates linkedStep lwStep (fun l m => m = image l) l m c := by
  subst hm
  have hi := linkedStep_image l c
  cases hs : linkedStep l c with
  | none =>
    rw [hs] at hi
    exact Or.inl ⟨hs, hi⟩
  | some k =>
    rw [hs] at hi
    exact Or.inr ⟨k, image k, hs, hi, rfl⟩

theorem along_image {D : Type} (P : LwList → Call → Prop) (l : LinkedList D) (calls : List Call) :
    Along linkedStep (fun l c => P (image l) c) l calls ↔ Along lwStep P (image l) calls := by
  apply along_simulates (R := fun l m => m = image l) (L := fun _ _ => True)
  · intro l m c hm _
    exact linkedStep_simulates l m c hm
  · rintro l m c rfl
    exact Iff.rfl
  · rfl
  · exact along_of_forall (fun _ _ => trivial) _ _

theorem linkedListRemoveNode_unchanged {D : Type} (l : LinkedList D) (p : Option Addr) :
    (linkedListRemoveNode l p).1 = l ↔ (lwListRemoveNode (image l) p).1 = image l := by
  rw [lwListRemoveNode_image]
  refine ⟨congrArg image, fun he => ?_⟩
  cases p with
  | none => rfl
  | some q =>
    have hlinks : (listRemoveNode l.toLinkList q).1 = l.toLinkList := congrArg LwList.toLinkList he
    have hcount : sizeDec l.count = l.count := congrArg LwList.count he
    rw [linkedListRemoveNode]
    simp only [hlinks, hcount]

theorem linkedStep_run_iff {D : Type} {l : LinkedList D} (h : Holds (image l) xs)
    {calls : List Call} (hl : Along linkedStep (fun l c => Legal (image l) c) l calls) :
    Along linkedStep (fun l c => ∀ k, linkedStep l c = some k → CountExact (image k)) l calls ↔
      Along linkedStep (fun _ c => c.OfNull) l calls := by
  have hexact : (fun (l : LinkedList D) c => ∀ k, linkedStep l c = some k → CountExact (image k)) =
      fun l c => ∀ k, lwStep (image l) c = some k → CountExact k := by
    funext l c
    simp [linkedStep_image]
  have hrun := lwStep_run_iff h ((along_image Legal l calls).mp hl)
  rw [← along_image, ← along_image] at hrun
  rw [hexact]
  exact hrun

/-- A refusal changes nothing for NULL, and for a node as long as the list has two others
or more; a run of refusals keeps the count exactly when all of them are of NULL. -/
theorem refused_removal_iff (xs : List Addr) :
    (∀ {D : Type} (l : LinkedList D) (p : Option Addr), Holds (image l) xs →
      (((linkedListRemoveNode l p).2 = none → (linkedListRemoveNode l p).1 = l) ↔
        p = none ∨ 2 ≤ xs.length ∨ ∃ q, p = some q ∧ xs = [q])) ∧
    (∀ (l : LwList) (p : Option Addr), Holds l xs →
      (((lwListRemoveNode l p).2 = none → (lwListRemoveNode l p).1 = l) ↔
        p = none ∨ 2 ≤ xs.length ∨ ∃ q, p = some q ∧ xs = [q])) ∧
    (∀ {D : Type} (l : LinkedList D) (calls : List Call), Holds (image l) xs →
      Along linkedStep (fun l c => Legal (image l) c) l calls →
      (Along linkedStep (fun l c => ∀ k, linkedStep l c = some k → CountExact (image k)) l calls ↔
        Along linkedStep (fun _ c => c.OfNull) l calls)) ∧
    ∀ (l : LwList) (calls : List Call), Holds l xs → Along lwStep Legal l calls →
      (Along lwStep (fun l c => ∀ k, lwStep l c = some k → CountExact k) l calls ↔
        Along lwStep (fun _ c => c.OfNull) l calls) := by
  refine ⟨fun l p h => ?_, fun l p h => refused_unchanged_iff h p,
    fun l calls h hl => linkedStep_run_iff h hl, fun l calls h hl => lwStep_run_iff h hl⟩
  rw [linkedListRemoveNode_unchanged, ← refused_unchanged_iff h p, lwListRemoveNode_image]

def emptying : List Call := [.deque .removeHead, .removeNode none, .deque .removeTail]

theorem emptying_legal : ∀ c ∈ emptying, ∀ l, Legal l c := by
  intro c hc l
  rcases List.mem_cons.mp hc with rfl | hc
  · exact fun _ _ => trivial
  · rcases List.mem_cons.mp hc with rfl | hc
    · exact rfl
    · obtain rfl := List.mem_singleton.mp hc
      exact fun _ _ => trivial

theorem emptying_ofNull : ∀ c ∈ emptying, c.OfNull := by
  intro c hc
  rcases List.mem_cons.mp hc with rfl | hc
  · trivial
  · rcases List.mem_cons.mp hc with rfl | hc
    · exact rfl
    · obtain rfl := List.mem_singleton.mp hc
      trivial

theorem refused_removal_iff_pair :
    ((linkedListRemoveNode pairLinkedList (some 48)).2 = none →
        (linkedListRemoveNode pairLinkedList (some 48)).1 = pairLinkedList) ∧
      ((lwListRemoveNode pairList (some 48)).2 = none →
        (lwListRemoveNode pairList (some 48)).1 = pairList) ∧
      Along linkedStep (fun l c => ∀ k, linkedStep l c = some k → CountExact (image k))
        pairLinkedList emptying ∧
      Along lwStep (fun l c => ∀ k, lwStep l c = some k → CountExact k) pairList emptying :=
  ⟨((refused_removal_iff [16, 32]).1 pairLinkedList (some 48) pairList_holds).mpr
      (Or.inr (Or.inl (Nat.le_refl 2))),
    ((refused_removal_iff [16, 32]).2.1 pairList (some 48) pairList_holds).mpr
      (Or.inr (Or.inl (Nat.le_refl 2))),
    ((refused_removal_iff [16, 32]).2.2.1 pairLinkedList emptying pairList_holds
      (along_mono (fun l _ h => h (image l)) (along_of_forall_mem emptying_legal _))).mpr
      (along_of_forall_mem emptying_ofNull _),
    ((refused_removal_iff [16, 32]).2.2.2 pairList emptying pairList_holds
      (along_mono (fun l _ h => h l) (along_of_forall_mem emptying_legal _))).mpr
      (along_of_forall_mem emptying_ofNull _)⟩

/-- In an empty list the removal of any node is refused, and the count is `SIZE_MAX` then. -/
theorem refused_count_wraps :
    Holds (lwListInit ⟨staleLinks, 9⟩) [] ∧
      (lwListRemoveNode (lwListInit ⟨staleLinks, 9⟩) (some 48)).2 = none ∧
      (lwListRemoveNode (lwListInit ⟨staleLinks, 9⟩) (some 48)).1.head = none ∧
      (lwListRemoveNode (lwListInit ⟨staleLinks, 9⟩) (some 48)).1.count = sizeMax :=
  ⟨holds_init _, by decide, by decide, by decide⟩

end BleFirmware.ListRemove
