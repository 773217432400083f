import BleFirmware.ArrayList

/-!
# The slot allocator

The nodes of an array list are handed out by `linked_list_alloc_node` and taken
back by `linked_list_free_node`, in any order and whether they are linked or
not. A pool carries, beside the list, the nodes that are out: no function of
the list sees them.
-/

namespace BleFirmware.ArrayPool
open ListAlgo Deque LinkedListSearch Run

variable {D : Type}

structure Pool (D : Type) where
  list : LinkedList D
  out : List Addr

inductive Op
  | alloc (dataLen : ℕ)
  | free (p : Addr)
  | deque (op : Deque.Op)
  deriving DecidableEq

def step (s : Pool D) : Op → Option (Pool D)
  | .alloc dataLen =>
    match linkedListAllocNode s.list (fun _ => none) dataLen with
    | (l, some p) => some ⟨l, s.out ++ [p]⟩
    | (l, none) => some ⟨l, s.out⟩
  | .free p => (linkedListFreeNode s.list p).map fun l => ⟨l, s.out.erase p⟩
  | .deque op => (linkedListStep s.list op).map fun r => ⟨r.1, s.out⟩

def Legal (s : Pool D) : Op → Prop
  | .free p => p ∈ s.out
  | .alloc _ => True
  | .deque _ => True

instance (s : Pool D) : ∀ op, Decidable (Legal s op)
  | .free p => inferInstanceAs (Decidable (p ∈ s.out))
  | .alloc _ | .deque _ => isTrue trivial

structure SameArrays (l k : LinkedList D) : Prop where
  arrayBased : k.arrayBased = l.arrayBased
  nodeArray : k.nodeArray = l.nodeArray
  dataArray : k.dataArray = l.dataArray
  width : k.width = l.width
  depth : k.depth = l.depth

def MarksOnly (s k : LinkedList D) (p : Addr) : Prop :=
  used (k.opt p) = true ∧ ∃ opt last, k = { s with opt := opt, lastSlotIndex := last } ∧
    ∀ q, q ≠ p → opt q = s.opt q

/-- What a user of the allocator relies on, for a pool over the arrays of `l`. -/
structure Safe (l : LinkedList D) (s : Pool D) : Prop where
  arrays : SameArrays l s.list
  out_nodup : s.out.Nodup
  out_isSlot : ∀ p ∈ s.out, IsSlot l p
  used_iff : ∀ i < l.depth, used (s.list.opt (l.slot i)) = true ↔ l.slot i ∈ s.out
  alloc_none : ∀ malloc dataLen, (linkedListAllocNode s.list malloc dataLen).2 = none ↔
    ∀ i < l.depth, l.slot i ∈ s.out
  alloc_some : ∀ malloc dataLen k p, linkedListAllocNode s.list malloc dataLen = (k, some p) →
    IsSlot l p ∧ p ∉ s.out ∧ MarksOnly s.list k p
  window : ∀ p ∈ s.out, l.dataArray.getD 0 ≤ s.list.dataPtr p ∧
    s.list.dataPtr p + l.width ≤ l.dataArray.getD 0 + l.depth * l.width
  disjoint : ∀ p ∈ s.out, ∀ q ∈ s.out, p ≠ q →
    s.list.dataPtr p + l.width ≤ s.list.dataPtr q ∨ s.list.dataPtr q + l.width ≤ s.list.dataPtr p
  last_lt : s.list.lastSlotIndex < l.depth
  probe_eq : power2Check l.depth = true → ∀ i,
    power2GetMod (s.list.lastSlotIndex + i) l.depth = (s.list.lastSlotIndex + i) % l.depth

structure Inv (l : LinkedList D) (s : Pool D) : Prop where
  arrays : SameArrays l s.list
  pool : SlotPool s.list s.out
  last_lt : s.list.lastSlotIndex < l.depth

variable {l : LinkedList D} {s : Pool D}

theorem SameArrays.relink {k : LinkedList D} (h : SameArrays l k) (links : LinkList Addr)
    (opt : Addr → ℕ) (count last : ℕ) (b : Bool) :
    SameArrays l { k with
      toLinkList := links, opt := opt, count := count, lastSlotIndex := last, sorted := b } :=
  ⟨h.arrayBased, h.nodeArray, h.dataArray, h.width, h.depth⟩

theorem Inv.slot_eq (h : Inv l s) : s.list.slot = l.slot := by
  funext i
  rw [LinkedList.slot, LinkedList.slot, h.arrays.nodeArray]

theorem Inv.window_eq (h : Inv l s) : s.list.window = l.window := by
  funext i
  rw [LinkedList.window, LinkedList.window, h.arrays.dataArray, h.arrays.width]

theorem Inv.isSlot_iff (h : Inv l s) (p : Addr) : IsSlot s.list p ↔ IsSlot l p := by
  rw [IsSlot, IsSlot, h.slot_eq, h.arrays.depth]

theorem Inv.alloc_eq (h : Inv l s) (malloc : ℕ → Option Addr) (dataLen : ℕ) :
    linkedListAllocNode s.list malloc dataLen = allocArrayNode s.list :=
  if_pos h.pool.arrayBased

/-- An allocation takes a slot whose node is not out, if there is one. -/
theorem Inv.alloc_cases (h : Inv l s) :
    (∃ i < l.depth, l.slot i ∉ s.out ∧
      allocArrayNode s.list = (s.list.takeSlot i, some (l.slot i))) ∨
    ((∀ i < l.depth, l.slot i ∈ s.out) ∧ allocArrayNode s.list = (s.list, none)) := by
  by_cases hall : ∀ i < l.depth, l.slot i ∈ s.out
  · right
    refine ⟨hall, allocArrayNode_full fun i hi => ?_⟩
    rw [h.pool.used_iff i hi, h.slot_eq]
    exact hall i (h.arrays.depth ▸ hi)
  · left
    push Not at hall
    obtain ⟨j, hj, hout⟩ := hall
    rw [← h.arrays.depth] at hj
    rw [← h.slot_eq, ← h.pool.used_iff j hj, Bool.not_eq_true] at hout
    obtain ⟨i, hi, hfree, halloc⟩ := allocArrayNode_free hj hout
    rw [← Bool.not_eq_true, h.pool.used_iff i hi] at hfree
    rw [← h.slot_eq, ← h.arrays.depth]
    exact ⟨i, hi, hfree, halloc⟩

theorem window_bounds (l : LinkedList D) {i : ℕ} (hi : i < l.depth) :
    l.dataArray.getD 0 ≤ l.window i ∧
      l.window i + l.width ≤ l.dataArray.getD 0 + l.depth * l.width := by
  refine ⟨Nat.le_add_right _ _, ?_⟩
  rw [LinkedList.window, Nat.add_assoc]
  exact Nat.add_le_add_left (succ_mul_le l.width hi) _

theorem window_disjoint (l : LinkedList D) {i j : ℕ} (hij : i < j) :
    l.window i + l.width ≤ l.window j := by
  rw [LinkedList.window, LinkedList.window, Nat.add_assoc]
  exact Nat.add_le_add_left (succ_mul_le l.width hij) _

theorem Inv.out_slot (h : Inv l s) {p : Addr} (hp : p ∈ s.out) :
    ∃ i < l.depth, p = l.slot i ∧ s.list.dataPtr p = l.window i := by
  obtain ⟨i, hi, rfl⟩ := h.pool.isSlot p hp
  rw [h.pool.dataPtr i hi, h.slot_eq, h.window_eq]
  exact ⟨i, h.arrays.depth ▸ hi, rfl, rfl⟩

theorem marksOnly_takeSlot (l : LinkedList D) (i : ℕ) :
    MarksOnly l (l.takeSlot i) (l.slot i) := by
  refine ⟨?_, _, i, rfl, fun q hq => Function.update_of_ne hq _ _⟩
  simp [LinkedList.takeSlot]

theorem Inv.safe (h : Inv l s) : Safe l s where
  arrays := h.arrays
  out_nodup := h.pool.nodup
  out_isSlot p hp := (h.isSlot_iff p).mp (h.pool.isSlot p hp)
  used_iff i hi := by
    rw [← h.slot_eq]
    exact h.pool.used_iff i (h.arrays.depth ▸ hi)
  alloc_none malloc dataLen := by
    rw [h.alloc_eq]
    rcases h.alloc_cases with ⟨i, hi, hout, halloc⟩ | ⟨hall, halloc⟩
    · rw [halloc]
      exact iff_of_false nofun (fun hall => hout (hall i hi))
    · rw [halloc]
      exact iff_of_true rfl hall
  alloc_some malloc dataLen k p hk := by
    rw [h.alloc_eq] at hk
    rcases h.alloc_cases with ⟨i, hi, hout, halloc⟩ | ⟨_, halloc⟩
    · obtain ⟨rfl, hp⟩ := Prod.mk.inj (hk.symm.trans halloc)
      obtain rfl := Option.some.inj hp
      refine ⟨⟨i, hi, rfl⟩, hout, ?_⟩
      rw [← h.slot_eq]
      exact marksOnly_takeSlot s.list i
    · rw [halloc] at hk
      cases hk
  window p hp := by
    obtain ⟨i, hi, _, hw⟩ := h.out_slot hp
    rw [hw]
    exact window_bounds l hi
  disjoint p hp q hq hne := by
    obtain ⟨i, _, rfl, hi⟩ := h.out_slot hp
    obtain ⟨j, _, rfl, hj⟩ := h.out_slot hq
    rw [hi, hj]
    rcases Nat.lt_trichotomy i j with hij | rfl | hij
    · exact Or.inl (window_disjoint l hij)
    · exact absurd rfl hne
    · exact Or.inr (window_disjoint l hij)
  last_lt := h.last_lt
  probe_eq h2 i := power2GetMod_eq (Nat.ne_of_gt (Nat.zero_lt_of_lt h.last_lt)) h2

theorem linkedListStep_frame {k : LinkedList D} {op : Deque.Op} {out : Option Addr}
    (h : linkedListStep l op = some (k, out)) :
    ∃ links n b, k = { l with toLinkList := links, count := n, sorted := b } := by
  cases op with
  | insertHead p =>
    obtain rfl := (Prod.mk.inj (Option.some.inj h)).1
    exact ⟨_, _, _, rfl⟩
  | insertTail p =>
    obtain ⟨m, hm, he⟩ := Option.map_eq_some_iff.mp h
    obtain rfl := (Prod.mk.inj he).1
    obtain ⟨links, n, rfl⟩ := linkedListInsertTail_frame hm
    exact ⟨links, n, false, rfl⟩
  | removeHead =>
    obtain ⟨links, n, rfl⟩ := linkedListRemoveHead_frame h
    exact ⟨links, n, l.sorted, rfl⟩
  | removeTail =>
    obtain ⟨links, n, rfl⟩ := linkedListRemoveTail_frame h
    exact ⟨links, n, l.sorted, rfl⟩

theorem step_inv {s t : Pool D} (h : Inv l s) {op : Op} (hl : Legal s op) (hs : step s op = some t) :
    Inv l t := by
  cases op with
  | alloc dataLen =>
    have heq := h.alloc_eq (fun _ => none) dataLen
    rcases h.alloc_cases with ⟨i, hi, hout, halloc⟩ | ⟨_, halloc⟩
    · rw [step, heq, halloc] at hs
      obtain rfl := Option.some.inj hs
      have hpool := h.pool.takeSlot (h.arrays.depth.symm ▸ hi) (h.slot_eq.symm ▸ hout)
      rw [h.slot_eq] at hpool
      exact ⟨h.arrays.relink _ _ _ i _, hpool, hi⟩
    · rw [step, heq, halloc] at hs
      obtain rfl := Option.some.inj hs
      exact h
  | free p =>
    rw [step, linkedListFreeNode_array h.pool.arrayBased] at hs
    obtain rfl := Option.some.inj hs
    exact ⟨h.arrays.relink _ _ _ _ _, (h.pool.perm (List.perm_cons_erase hl)).giveNode, h.last_lt⟩
  | deque op =>
    obtain ⟨⟨k, out⟩, hk, rfl⟩ := Option.map_eq_some_iff.mp hs
    obtain ⟨links, n, b, rfl⟩ := linkedListStep_frame hk
    exact ⟨h.arrays.relink links _ n _ b, h.pool.relink links n b, h.last_lt⟩

theorem inv_init [Inhabited D] (h : Defined l) : Inv l ⟨linkedListInitForArray l, []⟩ := by
  have hpool := (arrayHolds_init h).1.pool
  obtain ⟨next, prev, opt, dataPtr, data, hinit, _⟩ := h.init_eq
  rw [hinit] at hpool ⊢
  exact ⟨⟨rfl, rfl, rfl, rfl, rfl⟩, hpool, Nat.pos_of_ne_zero h.depth⟩

/-- Along every run that frees nothing but what is out, insertions and removals
in between, the allocator is safe in every state. -/
theorem slots_safe [Inhabited D] {l : LinkedList D} (h : Defined l) {ops : List Op}
    (hl : Along step Legal ⟨linkedListInitForArray l, []⟩ ops) :
    Safe l (exec step ⟨linkedListInitForArray l, []⟩ ops) := by
  have hinv := exec_invariant (I := Inv l) (fun _ _ _ h hl hs => step_inv h hl hs) (inv_init h) hl
  exact hinv.safe

section Runs

def threeSlots : LinkedList UInt8 := { twoSlots with depth := 3 }

theorem threeSlots_defined : Defined threeSlots := by
  constructor <;> decide

/-- Given back while the last slot is taken, the first one is found by wrapping around. -/
theorem slots_safe_threeSlots :
    Safe threeSlots (exec step ⟨linkedListInitForArray threeSlots, []⟩
      [.alloc 1, .deque (.insertTail 256), .alloc 1, .deque (.insertHead 272), .alloc 1, .alloc 1,
        .deque .removeTail, .free 256, .alloc 1]) :=
  slots_safe threeSlots_defined (by decide)

end Runs

end BleFirmware.ArrayPool
