import BleFirmware.LinkedList
import BleFirmware.ListChain
import Mathlib.Data.List.Range

/-!
# Sorting an array list

`qsort` moves the nodes of the whole array, and the first `count` slots are
then linked in order, whatever was linked before. With a comparator of the
documented shape the allocated nodes come first, so these are the allocated
ones when there are `count` of them.
-/

namespace BleFirmware
open CSort ListAlgo Segment

variable {D : Type}

/-- The documented shape of a `list_cmp_fn`. -/
def listCmp (payloadCmp : D → D → ℤ) : ListCmp D := fun m n =>
  if used m.opt && used n.opt then payloadCmp m.payload n.payload
  else (used n.opt).toInt - (used m.opt).toInt

theorem listCmp_isPreorder {payloadCmp : D → D → ℤ} (h : IsPreorder payloadCmp) :
    IsPreorder (listCmp payloadCmp) := by
  constructor
  · intro m n
    unfold listCmp
    cases used m.opt <;> cases used n.opt <;> simp
    exact h.swap _ _
  · intro k m n
    unfold listCmp
    cases used k.opt <;> cases used m.opt <;> cases used n.opt <;> simp
    exact h.trans _ _ _

theorem listCmp_used {payloadCmp : D → D → ℤ} {m n : NodeView D}
    (h : listCmp payloadCmp m n ≤ 0) (hn : used n.opt = true) : used m.opt = true := by
  unfold listCmp at h
  cases hm : used m.opt with
  | true => rfl
  | false => simp [hm, hn] at h

namespace LinkedList

def viewOf (data : Addr → D) (n : ListNode) : NodeView D := ⟨n.opt, data n.dataPtr⟩

def views (l : LinkedList D) : List (NodeView D) :=
  (List.range l.depth).map fun i => l.view (l.slot i)

theorem views_eq_nodes (l : LinkedList D) : l.views = l.nodes.map (viewOf l.data) := by
  simp only [views, nodes, List.map_map]
  rfl

theorem slot_injective (l : LinkedList D) : Function.Injective l.slot := by
  intro i j hij
  exact Nat.eq_of_mul_eq_mul_right (by decide) (Nat.add_left_cancel hij)

theorem writeNodes_frame (l : LinkedList D) (i : ℕ) (ns : List ListNode) :
    ∃ next prev opt dataPtr, l.writeNodes i ns =
      { l with next := next, prev := prev, opt := opt, dataPtr := dataPtr } := by
  induction ns generalizing l i with
  | nil => exact ⟨l.next, l.prev, l.opt, l.dataPtr, rfl⟩
  | cons n ns ih =>
    obtain ⟨next, prev, opt, dataPtr, h⟩ := ih (l.writeNode (l.slot i) n) (i+1)
    exact ⟨next, prev, opt, dataPtr, h⟩

theorem writeNodes_slot (l : LinkedList D) (i : ℕ) (ns : List ListNode) :
    (l.writeNodes i ns).slot = l.slot := by
  obtain ⟨next, prev, opt, dataPtr, h⟩ := l.writeNodes_frame i ns
  rw [h]
  rfl

theorem readNode_writeNode_self (l : LinkedList D) (p : Addr) (n : ListNode) :
    (l.writeNode p n).readNode p = n := by
  simp [readNode, writeNode]

theorem readNode_writeNode_ne (l : LinkedList D) {p q : Addr} (h : q ≠ p) (n : ListNode) :
    (l.writeNode p n).readNode q = l.readNode q := by
  simp [readNode, writeNode, h]

theorem readNode_initSlots (l : LinkedList D) (n i : ℕ) :
    (initSlots l n).readNode (l.slot i) =
      if i < n then ⟨none, none, setUsed (l.opt (l.slot i)) false, l.window i⟩
      else l.readNode (l.slot i) := by
  induction n with
  | zero => rfl
  | succ n ih =>
    obtain ⟨next, prev, opt, dataPtr, hframe⟩ := initSlots_frame l n
    have hslot : (initSlots l n).slot = l.slot := by
      rw [hframe]
      rfl
    have hwindow : (initSlots l n).window = l.window := by
      rw [hframe]
      rfl
    rw [initSlots, initSlot, hslot, hwindow]
    by_cases hin : i = n
    · subst hin
      rw [if_neg (Nat.lt_irrefl i)] at ih
      have hopt : (initSlots l i).opt (l.slot i) = l.opt (l.slot i) := congrArg ListNode.opt ih
      rw [readNode_writeNode_self, if_pos (Nat.lt_succ_self i), hopt]
    · have hne : l.slot i ≠ l.slot n := fun he => hin (l.slot_injective he)
      have hlt : i < n+1 ↔ i < n := by omega
      rw [readNode_writeNode_ne _ hne, ih]
      simp only [hlt]

theorem readNode_writeNodes (l : LinkedList D) (i : ℕ) (ns : List ListNode) (j : ℕ) :
    (l.writeNodes i ns).readNode (l.slot j) =
      if i ≤ j then ns[j-i]?.getD (l.readNode (l.slot j)) else l.readNode (l.slot j) := by
  induction ns generalizing l i with
  | nil => simp [writeNodes]
  | cons n ns ih =>
    have hrest := ih (l.writeNode (l.slot i) n) (i+1)
    have hslot : (l.writeNode (l.slot i) n).slot = l.slot := rfl
    rw [hslot] at hrest
    rw [writeNodes, hrest]
    rcases Nat.lt_trichotomy i j with hlt | heq | hgt
    · have hne : l.slot j ≠ l.slot i := fun he => by
        have := l.slot_injective he
        omega
      have hsub : j - i = (j - (i+1)) + 1 := by omega
      rw [if_pos (Nat.succ_le_of_lt hlt), if_pos hlt.le, readNode_writeNode_ne l hne, hsub, List.getElem?_cons_succ]
    · subst heq
      rw [if_neg (by omega), if_pos (le_refl i), readNode_writeNode_self]
      simp
    · have hne : l.slot j ≠ l.slot i := fun he => by
        have := l.slot_injective he
        omega
      rw [if_neg (by omega), if_neg (by omega), readNode_writeNode_ne l hne]

theorem nodes_writeNodes (l : LinkedList D) {ns : List ListNode} (h : ns.length = l.depth) :
    (l.writeNodes 0 ns).nodes = ns := by
  obtain ⟨next, prev, opt, dataPtr, hf⟩ := l.writeNodes_frame 0 ns
  have hdepth : (l.writeNodes 0 ns).depth = l.depth := by
    rw [hf]
  apply List.ext_getElem
  · simp [nodes, hdepth, h]
  · intro j h₁ h₂
    simp only [nodes, List.getElem_map, List.getElem_range]
    rw [writeNodes_slot, readNode_writeNodes]
    simp [h₂]

theorem nodes_length (l : LinkedList D) : l.nodes.length = l.depth := by
  simp [nodes]

theorem relinkSlots_frame (l : LinkedList D) (n : ℕ) :
    ∃ next prev, relinkSlots l n = { l with next := next, prev := prev } := by
  induction n with
  | zero => exact ⟨l.next, l.prev, rfl⟩
  | succ n ih =>
    obtain ⟨next, prev, h⟩ := ih
    rw [relinkSlots, h]
    exact ⟨_, _, rfl⟩

theorem relinkSlots_slot (l : LinkedList D) (n : ℕ) : (relinkSlots l n).slot = l.slot := by
  obtain ⟨next, prev, h⟩ := relinkSlots_frame l n
  rw [h]
  rfl

theorem relinkSlots_next (l : LinkedList D) {n i : ℕ} (h : i < n) :
    (relinkSlots l n).next (l.slot i) = some (l.slot (i+1)) := by
  induction n with
  | zero => exact absurd h (Nat.not_lt_zero i)
  | succ n ih =>
    simp only [relinkSlots, relinkSlot, relinkSlots_slot, setPrev_next, setNext_next]
    by_cases hin : i = n
    · rw [hin, Function.update_self]
    · have hne : l.slot i ≠ l.slot n := fun he => hin (l.slot_injective he)
      rw [Function.update_of_ne hne]
      exact ih (by omega)

theorem relinkSlots_prev (l : LinkedList D) {n i : ℕ} (h : i < n) :
    (relinkSlots l n).prev (l.slot (i+1)) = some (l.slot i) := by
  induction n with
  | zero => exact absurd h (Nat.not_lt_zero i)
  | succ n ih =>
    simp only [relinkSlots, relinkSlot, relinkSlots_slot, setPrev_prev, setNext_prev]
    by_cases hin : i = n
    · rw [hin, Function.update_self]
    · have hne : l.slot (i+1) ≠ l.slot (n+1) := by
        intro he
        have hi := l.slot_injective he
        omega
      rw [Function.update_of_ne hne]
      exact ih (by omega)

end LinkedList

theorem seg_slots {l : LinkedList D} {next : Addr → Option Addr} {m : ℕ}
    (hnext : ∀ i < m, next (l.slot i) = some (l.slot (i+1))) (hlast : next (l.slot m) = none)
    {i k : ℕ} (hk : i + k = m) :
    Seg next (some (l.slot i)) ((List.range' i (k+1)).map l.slot) none := by
  induction k generalizing i with
  | zero =>
    obtain rfl : i = m := by omega
    exact ⟨rfl, hlast⟩
  | succ k ih =>
    rw [List.range'_succ, List.map_cons]
    refine ⟨rfl, ?_⟩
    rw [hnext i (by omega)]
    exact ih (by omega)

section Sorting

variable {lib : Stdlib} {compare : ListCmp D} {l : LinkedList D}

def nodeCmp (l : LinkedList D) (compare : ListCmp D) (m n : ListNode) : ℤ :=
  compare (LinkedList.viewOf l.data m) (LinkedList.viewOf l.data n)

theorem nodeCmp_isPreorder (h : IsPreorder compare) (l : LinkedList D) :
    IsPreorder (nodeCmp l compare) := h.comap (LinkedList.viewOf l.data)

theorem linkedListSort_array (ha : l.arrayBased = true) :
    linkedListSort lib l compare = { qsortArrayList lib l compare with sorted := true } := by
  simp [linkedListSort, ha]

theorem qsortArrayList_uncounted (hcount : l.count = 0) : qsortArrayList lib l compare = l := by
  simp [qsortArrayList, hcount]

/-- What sorting a list of `m+1` nodes leaves behind. -/
structure Sorted (lib : Stdlib) (compare : ListCmp D) (l t : LinkedList D) (m : ℕ) : Prop where
  frame : ∃ links opt dataPtr,
    t = { l with toLinkList := links, opt := opt, dataPtr := dataPtr }
  views_eq : t.views = (lib.qsort (nodeCmp l compare) l.nodes).map (LinkedList.viewOf l.data)
  head_eq : t.head = some (l.slot 0)
  tail_eq : t.tail = some (l.slot m)
  next_eq : ∀ i < m, t.next (l.slot i) = some (l.slot (i+1))
  next_last : t.next (l.slot m) = none
  prev_eq : ∀ i < m, t.prev (l.slot (i+1)) = some (l.slot i)
  prev_head : t.prev (l.slot 0) = none

theorem qsortArrayList_sorted (hcmp : IsPreorder compare) {m : ℕ} (hcount : l.count = m+1) :
    Sorted lib compare l (qsortArrayList lib l compare) m := by
  let ns := lib.qsort (nodeCmp l compare) l.nodes
  let w := l.writeNodes 0 ns
  let r := relinkSlots w m
  have hlen : ns.length = l.depth := by
    rw [lib.length_qsort (nodeCmp_isPreorder hcmp l), l.nodes_length]
  obtain ⟨next₁, prev₁, opt, dataPtr, hw⟩ := l.writeNodes_frame 0 ns
  obtain ⟨next₂, prev₂, hr⟩ := LinkedList.relinkSlots_frame w m
  have hws : w.slot = l.slot := l.writeNodes_slot 0 ns
  have hrs : r.slot = l.slot := (LinkedList.relinkSlots_slot w m).trans hws
  let links : LinkList Addr :=
    (LinkList.setPrev { r.toLinkList with head := some (r.slot 0), tail := some (r.slot m) }
      (r.slot 0) none).setNext (r.slot m) none
  have ht : qsortArrayList lib l compare = { w with toLinkList := links } := by
    have hq : qsortArrayList lib l compare = { r with toLinkList := links } := by
      simp only [qsortArrayList, hcount, Nat.add_eq_zero_iff, one_ne_zero, and_false, if_false,
        Nat.add_sub_cancel]
      rfl
    rw [hq]
    simp only [r, hr]
  have hnext : ∀ i < m, r.next (l.slot i) = some (l.slot (i+1)) := by
    intro i hi
    have h := LinkedList.relinkSlots_next w hi
    rwa [hws] at h
  have hprev : ∀ i < m, r.prev (l.slot (i+1)) = some (l.slot i) := by
    intro i hi
    have h := LinkedList.relinkSlots_prev w hi
    rwa [hws] at h
  rw [ht]
  refine ⟨⟨links, opt, dataPtr, ?_⟩, ?_, ?_, ?_, ?_, ?_, ?_, ?_⟩
  · simp only [w, hw]
  · have hv : w.views = ns.map (LinkedList.viewOf w.data) := by
      rw [LinkedList.views_eq_nodes, l.nodes_writeNodes hlen]
    have hd : w.data = l.data := by
      simp only [w, hw]
    rw [hd] at hv
    exact hv
  · simp only [links, hrs, setNext_head, setPrev_head]
  · simp only [links, hrs, setNext_tail, setPrev_tail]
  · intro i hi
    have hne : l.slot i ≠ l.slot m := fun he => (Nat.ne_of_lt hi) (l.slot_injective he)
    simp only [links, hrs, setNext_next, setPrev_next, Function.update_of_ne hne]
    exact hnext i hi
  · simp only [links, hrs, setNext_next, Function.update_self]
  · intro i hi
    have hne : l.slot (i+1) ≠ l.slot 0 := by
      intro he
      have h := l.slot_injective he
      omega
    simp only [links, hrs, setNext_prev, setPrev_prev, Function.update_of_ne hne]
    exact hprev i hi
  · simp only [links, hrs, setNext_prev, setPrev_prev, Function.update_self]

theorem Sorted.header {t : LinkedList D} {m : ℕ} (h : Sorted lib compare l t m) :
    t.slot = l.slot ∧ t.depth = l.depth ∧ t.arrayBased = l.arrayBased := by
  obtain ⟨links, opt, dataPtr, rfl⟩ := h.frame
  exact ⟨rfl, rfl, rfl⟩

theorem Sorted.chained {t : LinkedList D} {m : ℕ} (h : Sorted lib compare l t m) :
    Chained t.toLinkList ((List.range (m+1)).map l.slot) := by
  refine ⟨?_, ?_⟩
  · rw [h.head_eq, List.range_eq_range']
    exact seg_slots h.next_eq h.next_last (Nat.zero_add m)
  · rw [List.isChain_map, List.isChain_range]
    intro i hi
    exact Or.inl (h.prev_eq i (by omega))

theorem Sorted.ordered {t : LinkedList D} {m : ℕ} (h : Sorted lib compare l t m)
    (hcmp : IsPreorder compare) : t.views.Pairwise (fun v w => compare v w ≤ 0) := by
  rw [h.views_eq, List.pairwise_map]
  exact lib.qsort_sorted l.nodes (nodeCmp_isPreorder hcmp l)

theorem Sorted.views_perm {t : LinkedList D} {m : ℕ} (h : Sorted lib compare l t m)
    (hcmp : IsPreorder compare) : t.views.Perm l.views := by
  rw [h.views_eq, l.views_eq_nodes]
  exact (lib.qsort_perm l.nodes (nodeCmp_isPreorder hcmp l)).map _

end Sorting

end BleFirmware
