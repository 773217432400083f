import BleFirmware.ArrayList

/-!
# What a sort leaves linked

`qsort_array_list` sorts the whole array and links the first `count` slots. These
are the nodes that were linked before only if `count` is in step with the links
and every other node of the array, free or taken but not linked, compares behind
all linked ones.
-/

namespace BleFirmware.ListSortPerm
open CSort ListAlgo Segment Run LinkedListSearch

variable {D : Type}

/-- The nodes `zs` that are met after sorting `l` to `t`: linked both ways, over the
windows that were linked before. -/
structure SortedLinked (compare : ListCmp D) (l t : LinkedList D) (zs : List Addr) : Prop where
  linked : Linked t.toLinkList zs
  once : (zs.map t.dataPtr).Nodup
  windows : ∀ w, w ∈ zs.map t.dataPtr ↔ w ∈ (linkedNodes l).map l.dataPtr
  ordered : zs.Pairwise fun p q => compare (t.view p) (t.view q) ≤ 0
  count_eq : t.count = l.count

def SortsLinked (lib : Stdlib) (compare : ListCmp D) (l : LinkedList D) : Prop :=
  ∃ zs, SortedLinked compare l (linkedListSort lib l compare) zs

def linkedCount (l : LinkedList D) : ℕ :=
  (List.range l.depth).countP fun i => decide (l.slot i ∈ linkedNodes l)

/-- With a zero count nothing is moved. Otherwise the linked nodes are counted right,
and the other nodes of the array compare behind them. -/
def LinkedFirst (compare : ListCmp D) (l : LinkedList D) : Prop :=
  if l.count = 0 then
    Linked l.toLinkList (linkedNodes l) ∧
      (linkedNodes l).Pairwise fun p q => compare (l.view p) (l.view q) ≤ 0
  else
    linkedCount l = l.count ∧ ∀ i < l.depth, ∀ j < l.depth, l.slot i ∈ linkedNodes l →
      l.slot j ∉ linkedNodes l → compare (l.view (l.slot i)) (l.view (l.slot j)) < 0

def Legal (l : LinkedList D) : Op D → Prop
  | .insertHead p | .insertTail p | .free p => IsSlot l p
  | .removeNode p => ∀ q ∈ p, IsSlot l q
  | .sort => l.count ≤ l.depth
  | .alloc _ | .removeHead | .removeTail | .setNodeData _ _ => True

def dataPtrs (l : LinkedList D) : List Addr :=
  (List.range l.depth).map fun i => l.dataPtr (l.slot i)

structure Inv (l : LinkedList D) : Prop where
  arrayBased : l.arrayBased = true
  within : Within (IsSlot l) l.toLinkList
  nodup : (dataPtrs l).Nodup

variable {lib : Stdlib} {compare : ListCmp D} {l t : LinkedList D}

theorem dataPtrs_eq_nodes (l : LinkedList D) : dataPtrs l = l.nodes.map ListNode.dataPtr := by
  simp only [dataPtrs, LinkedList.nodes, List.map_map]
  rfl

theorem qsortArrayList_frame (lib : Stdlib) (compare : ListCmp D) (hcount : l.count ≠ 0) :
    ∃ links, qsortArrayList lib l compare =
      { l.writeNodes 0 (lib.qsort (nodeCmp l compare) l.nodes) with toLinkList := links } := by
  let w := l.writeNodes 0 (lib.qsort (nodeCmp l compare) l.nodes)
  obtain ⟨next, prev, hr⟩ := LinkedList.relinkSlots_frame w (l.count-1)
  let r := relinkSlots w (l.count-1)
  have hq : ∃ links, qsortArrayList lib l compare = { r with toLinkList := links } := by
    simp only [qsortArrayList, if_neg hcount]
    exact ⟨_, rfl⟩
  obtain ⟨links, hq⟩ := hq
  simp only [r, hr] at hq
  exact ⟨links, hq⟩

theorem dataPtrs_perm (lib : Stdlib) (hcmp : IsPreorder compare) (l : LinkedList D) :
    ((lib.qsort (nodeCmp l compare) l.nodes).map ListNode.dataPtr).Perm (dataPtrs l) := by
  rw [dataPtrs_eq_nodes]
  exact (lib.qsort_perm l.nodes (nodeCmp_isPreorder hcmp l)).map ListNode.dataPtr

theorem dataPtrs_sort (hcmp : IsPreorder compare) (hcount : l.count ≠ 0) :
    dataPtrs (qsortArrayList lib l compare) =
      (lib.qsort (nodeCmp l compare) l.nodes).map ListNode.dataPtr := by
  let ns := lib.qsort (nodeCmp l compare) l.nodes
  obtain ⟨links, hq⟩ := qsortArrayList_frame lib compare hcount
  have hlen : ns.length = l.depth := by
    rw [lib.length_qsort (nodeCmp_isPreorder hcmp l), l.nodes_length]
  have hw : dataPtrs (l.writeNodes 0 ns) = ns.map ListNode.dataPtr := by
    rw [dataPtrs_eq_nodes, l.nodes_writeNodes hlen]
  rw [hq]
  exact hw

theorem seg_slots_back (l : LinkedList D) {prev : Addr → Option Addr} {m : ℕ}
    (hprev : ∀ i < m, prev (l.slot (i+1)) = some (l.slot i)) (hfirst : prev (l.slot 0) = none) :
    Seg prev (some (l.slot m)) ((List.range (m+1)).map l.slot).reverse none := by
  induction m with
  | zero => exact ⟨rfl, hfirst⟩
  | succ m ih =>
    rw [List.range_succ, List.map_append, List.reverse_append]
    refine ⟨rfl, ?_⟩
    rw [hprev m (Nat.lt_succ_self m)]
    exact ih fun i hi => hprev i (by omega)

theorem sorted_linked {m : ℕ} (h : Sorted lib compare l t m) :
    Linked t.toLinkList ((List.range (m+1)).map l.slot) := by
  refine ⟨h.chained.forward, ?_⟩
  rw [h.tail_eq]
  exact seg_slots_back l h.prev_eq h.prev_head

theorem Inv.isSlot (h : Inv l) : ∀ p ∈ linkedNodes l, IsSlot l p :=
  h.within.of_walk h.within.head l.depth

theorem Inv.relink (h : Inv l) {links : LinkList Addr} (hk : Within (IsSlot l) links)
    (count last : ℕ) (b : Bool) (opt : Addr → ℕ) (data : Addr → D) :
    Inv { l with
      toLinkList := links, count := count, lastSlotIndex := last, sorted := b, opt := opt,
      data := data } :=
  ⟨h.arrayBased, hk, h.nodup⟩

theorem within_writeNodes {S : Addr → Prop} (h : Within S l.toLinkList) {ns : List ListNode}
    (hns : ∀ n ∈ ns, (∀ p ∈ n.next, S p) ∧ ∀ p ∈ n.prev, S p) (i : ℕ) :
    Within S (l.writeNodes i ns).toLinkList := by
  induction ns generalizing l i with
  | nil => exact h
  | cons n ns ih =>
    obtain ⟨hn, hns⟩ := List.forall_mem_cons.mp hns
    have hw : Within S (l.writeNode (l.slot i) n).toLinkList :=
      (h.setNext (l.slot i) hn.1).setPrev (l.slot i) hn.2
    exact ih hw hns (i+1)

theorem within_relinkSlots {S : Addr → Prop} (h : Within S l.toLinkList) {n : ℕ}
    (hn : ∀ i ≤ n, S (l.slot i)) : Within S (relinkSlots l n).toLinkList := by
  induction n with
  | zero => exact h
  | succ n ih =>
    have hr := ih fun i hi => hn i (by omega)
    have hnext : ∀ p ∈ some (l.slot (n+1)), S p := by simpa using hn (n+1) (le_refl _)
    have hprev : ∀ p ∈ some (l.slot n), S p := by simpa using hn n (Nat.le_succ n)
    rw [relinkSlots, relinkSlot, LinkedList.relinkSlots_slot]
    exact (hr.setNext (l.slot n) hnext).setPrev (l.slot (n+1)) hprev

theorem within_sort (lib : Stdlib) (hcmp : IsPreorder compare) (h : Within (IsSlot l) l.toLinkList)
    (hcount : l.count ≠ 0) (hd : l.count ≤ l.depth) :
    Within (IsSlot l) (qsortArrayList lib l compare).toLinkList := by
  let w := l.writeNodes 0 (lib.qsort (nodeCmp l compare) l.nodes)
  have hns : ∀ n ∈ lib.qsort (nodeCmp l compare) l.nodes,
      (∀ p ∈ n.next, IsSlot l p) ∧ ∀ p ∈ n.prev, IsSlot l p := by
    intro n hn
    have hm := (lib.qsort_perm l.nodes (nodeCmp_isPreorder hcmp l)).mem_iff.mp hn
    obtain ⟨i, hi, rfl⟩ := List.mem_map.mp hm
    have hslot : IsSlot l (l.slot i) := ⟨i, List.mem_range.mp hi, rfl⟩
    exact ⟨h.next _ hslot, h.prev _ hslot⟩
  have hws : w.slot = l.slot := l.writeNodes_slot 0 _
  have hslots : ∀ i ≤ l.count-1, IsSlot l (w.slot i) := by
    intro i hi
    exact ⟨i, by omega, by rw [hws]⟩
  have hr := within_relinkSlots (within_writeNodes h hns 0) hslots
  have hrs := LinkedList.relinkSlots_slot w (l.count-1)
  have hhead : ∀ p ∈ some ((relinkSlots w (l.count-1)).slot 0), IsSlot l p := by
    rw [hrs]
    simpa using hslots 0 (Nat.zero_le _)
  have htail : ∀ p ∈ some ((relinkSlots w (l.count-1)).slot (l.count-1)), IsSlot l p := by
    rw [hrs]
    simpa using hslots _ (le_refl _)
  simp only [qsortArrayList, if_neg hcount]
  exact (((hr.withHead hhead).withTail htail).clearPrev _).clearNext _

theorem step_sort (hcmp : IsPreorder compare) (h : Inv l) (hd : l.count ≤ l.depth) :
    Inv (linkedListSort lib l compare) := by
  rw [linkedListSort_array h.arrayBased]
  by_cases hcount : l.count = 0
  · rw [qsortArrayList_uncounted hcount]
    exact h.relink h.within _ _ _ _ _
  · have hw := within_sort lib hcmp h.within hcount hd
    have hn : (dataPtrs (qsortArrayList lib l compare)).Nodup := by
      rw [dataPtrs_sort hcmp hcount, (dataPtrs_perm lib hcmp l).nodup_iff]
      exact h.nodup
    obtain ⟨m, hm⟩ := Nat.exists_eq_succ_of_ne_zero hcount
    have hsort : Sorted lib compare l (qsortArrayList lib l compare) m :=
      qsortArrayList_sorted hcmp hm
    obtain ⟨hslot, hdepth, harray⟩ := hsort.header
    have hisSlot : IsSlot (qsortArrayList lib l compare) = IsSlot l := by
      funext p
      rw [IsSlot, IsSlot, hslot, hdepth]
    rw [← hisSlot] at hw
    have hinv : Inv (qsortArrayList lib l compare) := ⟨harray.trans h.arrayBased, hw, hn⟩
    exact hinv.relink hinv.within _ _ _ _ _

theorem step_removeHead (h : Inv l) (ht : (linkedListRemoveHead l).map Prod.fst = some t) :
    Inv t := by
  obtain ⟨⟨k, out⟩, hr, rfl⟩ := Option.map_eq_some_iff.mp ht
  rcases linkedListRemoveHead_cases hr with rfl | ⟨p, links, hp, hlinks, rfl⟩
  · exact h
  · exact h.relink (h.within.removeHead (h.within.head p hp) hlinks) _ _ _ _ _

theorem step_removeTail (h : Inv l) (ht : (linkedListRemoveTail l).map Prod.fst = some t) :
    Inv t := by
  obtain ⟨⟨k, out⟩, hr, rfl⟩ := Option.map_eq_some_iff.mp ht
  rcases linkedListRemoveTail_cases hr with rfl | ⟨p, links, hp, hlinks, rfl⟩
  · exact h
  · exact h.relink (h.within.removeTail (h.within.tail p hp) hlinks) _ _ _ _ _

theorem step_inv (hcmp : IsPreorder compare) (h : Inv l) {op : Op D} (hl : Legal l op)
    (ht : step lib compare l op = some t) : Inv t := by
  cases op with
  | alloc dataLen =>
    obtain rfl := Option.some.inj ht
    rw [linkedListAllocNode, if_pos h.arrayBased, allocArrayNode]
    split
    · exact h.relink h.within _ _ _ _ _
    · exact h
  | insertHead p =>
    obtain rfl := Option.some.inj ht
    exact h.relink (h.within.insertHead hl) _ _ _ _ _
  | insertTail p =>
    obtain ⟨k, hk, rfl⟩ := Option.map_eq_some_iff.mp ht
    exact h.relink (h.within.insertTail hl hk) _ _ _ _ _
  | removeHead => exact step_removeHead h ht
  | removeTail => exact step_removeTail h ht
  | removeNode p =>
    obtain rfl := Option.some.inj ht
    cases p with
    | none => exact h
    | some p => exact h.relink (h.within.removeNode (hl p rfl)) _ _ _ _ _
  | free p =>
    rw [step, linkedListFreeNode_array h.arrayBased] at ht
    obtain rfl := Option.some.inj ht
    exact h.relink ((h.within.clearNext p).clearPrev p) _ _ _ _ _
  | setNodeData p x =>
    obtain rfl := Option.some.inj ht
    exact h.relink h.within _ _ _ _ _
  | sort =>
    obtain rfl := Option.some.inj ht
    exact step_sort hcmp h hl

theorem inv_init [Inhabited D] (h : Defined l) : Inv (linkedListInitForArray l) := by
  obtain ⟨next, prev, opt, dataPtr, data, hinit, hslots⟩ := h.init_eq
  have hwithin : Within (IsSlot l) ⟨none, none, next, prev⟩ := by
    refine ⟨by simp, by simp, ?_, ?_⟩
    · rintro q ⟨i, hi, rfl⟩
      simp [(hslots i hi).1]
    · rintro q ⟨i, hi, rfl⟩
      simp [(hslots i hi).2.1]
  have hptrs : (List.range l.depth).map (fun i => dataPtr (l.slot i)) =
      (List.range l.depth).map l.window :=
    List.map_congr_left fun i hi => (hslots i (List.mem_range.mp hi)).2.2.2
  have hnodup : ((List.range l.depth).map fun i => dataPtr (l.slot i)).Nodup := by
    rw [hptrs]
    exact List.nodup_range.map (l.window_injective h.width)
  rw [hinit]
  exact ⟨h.arrayBased, hwithin, hnodup⟩

theorem mem_take_iff {α : Type} {ds ws : List α} (hd : ds.Nodup) (hw : ws ⊆ ds) (k : ℕ) :
    (∀ w, w ∈ ds.take k ↔ w ∈ ws) ↔ (∀ w ∈ ds.take k, w ∈ ws) ∧ ∀ w ∈ ds.drop k, w ∉ ws := by
  rw [← List.take_append_drop k ds, List.nodup_append] at hd
  constructor
  · intro h
    refine ⟨fun w hm => (h w).mp hm, ?_⟩
    intro w hm hws
    exact hd.2.2 w ((h w).mpr hws) w hm rfl
  · rintro ⟨htake, hdrop⟩ w
    refine ⟨htake w, ?_⟩
    intro hws
    have hm := hw hws
    rw [← List.take_append_drop k ds] at hm
    rcases List.mem_append.mp hm with hm | hm
    · exact hm
    · exact absurd hws (hdrop w hm)

theorem Inv.linked_windows (h : Inv l) : (linkedNodes l).map l.dataPtr ⊆ dataPtrs l := by
  intro w hw
  obtain ⟨p, hp, rfl⟩ := List.mem_map.mp hw
  obtain ⟨i, hi, rfl⟩ := h.isSlot p hp
  exact List.mem_map_of_mem (List.mem_range.mpr hi)

theorem Inv.dataPtr_inj (h : Inv l) {p q : Addr} (hp : IsSlot l p) (hq : IsSlot l q)
    (he : l.dataPtr p = l.dataPtr q) : p = q := by
  obtain ⟨i, hi, rfl⟩ := hp
  obtain ⟨j, hj, rfl⟩ := hq
  rw [List.inj_on_of_nodup_map h.nodup (List.mem_range.mpr hi) (List.mem_range.mpr hj) he]

theorem Inv.mem_linked_windows (h : Inv l) {p : Addr} (hp : IsSlot l p) :
    l.dataPtr p ∈ (linkedNodes l).map l.dataPtr ↔ p ∈ linkedNodes l := by
  refine ⟨?_, List.mem_map_of_mem⟩
  intro hm
  obtain ⟨q, hq, he⟩ := List.mem_map.mp hm
  rwa [h.dataPtr_inj (h.isSlot q hq) hp he] at hq

theorem SortedLinked.length_le {zs : List Addr} (hz : SortedLinked compare l t zs) (h : Inv l) :
    zs.length ≤ l.depth := by
  have hsub : zs.map t.dataPtr ⊆ dataPtrs l :=
    fun w hw => h.linked_windows ((hz.windows w).mp hw)
  have hle := (List.subperm_of_subset hz.once hsub).length_le
  simpa [dataPtrs] using hle

section FirstSlots

variable {m : ℕ}

def firstSlots (l : LinkedList D) (m : ℕ) : List Addr := (List.range m).map l.slot

def isLinked (l : LinkedList D) (n : ListNode) : Bool :=
  decide (n.dataPtr ∈ (linkedNodes l).map l.dataPtr)

theorem map_firstSlots {α : Type} (l : LinkedList D) (f : Addr → α) (hm : m ≤ l.depth) :
    (firstSlots l m).map f = ((List.range l.depth).map fun i => f (l.slot i)).take m := by
  rw [firstSlots, List.map_map, ← List.map_take, List.take_range, Nat.min_eq_left hm]
  rfl

theorem sortsLinked_qsort (ha : l.arrayBased = true) :
    SortsLinked lib compare l ↔ ∃ zs, SortedLinked compare l (qsortArrayList lib l compare) zs := by
  rw [SortsLinked, linkedListSort_array ha]
  constructor
  · rintro ⟨zs, h⟩
    exact ⟨zs, h.linked, h.once, h.windows, h.ordered, h.count_eq⟩
  · rintro ⟨zs, h⟩
    exact ⟨zs, h.linked, h.once, h.windows, h.ordered, h.count_eq⟩

theorem Inv.sorted_nodup (h : Inv l) (lib : Stdlib) (hcmp : IsPreorder compare) :
    ((lib.qsort (nodeCmp l compare) l.nodes).map ListNode.dataPtr).Nodup ∧
      (linkedNodes l).map l.dataPtr ⊆
        (lib.qsort (nodeCmp l compare) l.nodes).map ListNode.dataPtr := by
  have hperm := dataPtrs_perm lib hcmp l
  exact ⟨hperm.nodup_iff.mpr h.nodup, fun w hw => hperm.mem_iff.mpr (h.linked_windows hw)⟩

theorem sortsLinked_iff (lib : Stdlib) (hcmp : IsPreorder compare) (h : Inv l) (hcount : l.count = m+1)
    (hm : m+1 ≤ l.depth) :
    SortsLinked lib compare l ↔
      (∀ n ∈ (lib.qsort (nodeCmp l compare) l.nodes).take (m+1), isLinked l n = true) ∧
        ∀ n ∈ (lib.qsort (nodeCmp l compare) l.nodes).drop (m+1), isLinked l n = false := by
  let ns := lib.qsort (nodeCmp l compare) l.nodes
  let t := qsortArrayList lib l compare
  have hs : Sorted lib compare l t m := qsortArrayList_sorted hcmp hcount
  obtain ⟨hslot, hdepth, _⟩ := hs.header
  obtain ⟨hnodup, hsub⟩ := h.sorted_nodup lib hcmp
  have hlinked : Linked t.toLinkList (firstSlots l (m+1)) := sorted_linked hs
  have htake : ∀ {α : Type} (f : Addr → α), (firstSlots l (m+1)).map f =
      ((List.range t.depth).map fun i => f (t.slot i)).take (m+1) := by
    intro α f
    rw [hslot, hdepth]
    exact map_firstSlots l f hm
  have hptrs : (firstSlots l (m+1)).map t.dataPtr = (ns.map ListNode.dataPtr).take (m+1) := by
    rw [htake, ← dataPtrs_sort hcmp (by omega)]
    rfl
  have hwindows : SortsLinked lib compare l ↔
      ∀ w, w ∈ (ns.map ListNode.dataPtr).take (m+1) ↔ w ∈ (linkedNodes l).map l.dataPtr := by
    rw [sortsLinked_qsort h.arrayBased, ← hptrs]
    constructor
    · rintro ⟨zs, hz⟩
      rw [hlinked.forward.unique hz.linked.forward]
      exact hz.windows
    · intro hw
      refine ⟨firstSlots l (m+1), hlinked, ?_, hw, ?_, ?_⟩
      · rw [hptrs]
        exact (List.take_sublist _ _).nodup hnodup
      · have hord : ((firstSlots l (m+1)).map t.view).Pairwise fun v w => compare v w ≤ 0 := by
          rw [htake]
          exact (hs.ordered hcmp).sublist (List.take_sublist _ _)
        exact List.pairwise_map.mp hord
      · obtain ⟨links, opt, dataPtr, ht⟩ := hs.frame
        exact (congrArg LinkedList.count ht).trans rfl
  rw [hwindows, mem_take_iff hnodup hsub, ← List.map_take, ← List.map_drop, List.forall_mem_map,
    List.forall_mem_map]
  simp only [isLinked, decide_eq_true_eq, decide_eq_false_iff_not]

theorem linkedCount_le (l : LinkedList D) : linkedCount l ≤ l.depth := by
  have hle := List.countP_le_length (p := fun i => decide (l.slot i ∈ linkedNodes l))
    (l := List.range l.depth)
  rwa [List.length_range] at hle

theorem not_sortsLinked (hcmp : IsPreorder compare) (h : Inv l) (hcount : l.count = m+1)
    (hm : l.depth < m+1) : ¬ SortsLinked lib compare l := by
  rw [sortsLinked_qsort h.arrayBased]
  rintro ⟨zs, hz⟩
  have hs : Sorted lib compare l (qsortArrayList lib l compare) m :=
    qsortArrayList_sorted hcmp hcount
  obtain rfl := hs.chained.forward.unique hz.linked.forward
  have hle := hz.length_le h
  simp only [List.length_map, List.length_range] at hle
  omega

end FirstSlots

theorem Inv.isLinked_readNode (h : Inv l) {i : ℕ} (hi : i < l.depth) :
    isLinked l (l.readNode (l.slot i)) = decide (l.slot i ∈ linkedNodes l) :=
  decide_eq_decide.mpr (h.mem_linked_windows ⟨i, hi, rfl⟩)

theorem Inv.countP_isLinked (h : Inv l) : l.nodes.countP (isLinked l) = linkedCount l := by
  rw [LinkedList.nodes, List.countP_map, linkedCount]
  apply List.countP_congr
  intro i hi
  simp only [Function.comp_apply, h.isLinked_readNode (List.mem_range.mp hi)]

theorem Inv.below_iff (h : Inv l) (compare : ListCmp D) :
    (∀ x ∈ l.nodes, ∀ y ∈ l.nodes, isLinked l x = true → isLinked l y = false →
      nodeCmp l compare x y < 0) ↔
    ∀ i < l.depth, ∀ j < l.depth, l.slot i ∈ linkedNodes l → l.slot j ∉ linkedNodes l →
      compare (l.view (l.slot i)) (l.view (l.slot j)) < 0 := by
  simp only [LinkedList.nodes, List.forall_mem_map, List.mem_range]
  refine forall₂_congr fun i hi => forall₂_congr fun j hj => ?_
  rw [h.isLinked_readNode hi, h.isLinked_readNode hj, decide_eq_true_eq, decide_eq_false_iff_not]
  rfl

theorem sortsLinked_uncounted (h : Inv l) (hcount : l.count = 0) :
    SortsLinked lib compare l ↔ Linked l.toLinkList (linkedNodes l) ∧
      (linkedNodes l).Pairwise fun p q => compare (l.view p) (l.view q) ≤ 0 := by
  rw [sortsLinked_qsort h.arrayBased, qsortArrayList_uncounted hcount]
  constructor
  · rintro ⟨zs, hz⟩
    have hzs : linkedNodes l = zs := hz.linked.forward.walk_of_le (hz.length_le h)
    rw [hzs]
    exact ⟨hz.linked, hz.ordered⟩
  · rintro ⟨hlinked, hordered⟩
    refine ⟨linkedNodes l, hlinked, ?_, fun w => Iff.rfl, hordered, rfl⟩
    apply hlinked.nodup.map_on
    intro p hp q hq he
    exact h.dataPtr_inj (h.isSlot p hp) (h.isSlot q hq) he

theorem sortsLinked_iff_linkedFirst (hcmp : IsPreorder compare) (h : Inv l) :
    (∀ lib : Stdlib, SortsLinked lib compare l) ↔ LinkedFirst compare l := by
  unfold LinkedFirst
  by_cases hcount : l.count = 0
  · rw [if_pos hcount]
    constructor
    · intro hall
      exact (sortsLinked_uncounted h hcount).mp (hall Stdlib.reference)
    · intro hright lib
      exact (sortsLinked_uncounted h hcount).mpr hright
  · rw [if_neg hcount]
    obtain ⟨m, hm⟩ := Nat.exists_eq_succ_of_ne_zero hcount
    by_cases hd : m+1 ≤ l.depth
    · rw [forall_congr' fun lib => sortsLinked_iff lib hcmp h hm hd,
        Stdlib.qsort_front_iff (nodeCmp_isPreorder hcmp l) _ (l.nodes_length.symm ▸ hd),
        h.countP_isLinked, h.below_iff, hm]
    · apply iff_of_false
      · intro hall
        exact not_sortsLinked hcmp h hm (by omega) (hall Stdlib.reference)
      · rintro ⟨hlinked, _⟩
        have hle := linkedCount_le l
        omega

/-- In every state of every run, whatever its sorts did: the next sort is right, however
the library orders equal nodes, exactly when the linked nodes come first. -/
theorem sort_keeps_linked_iff [Inhabited D] (lib₀ : Stdlib) {payloadCmp₀ payloadCmp : D → D → ℤ}
    (hcmp₀ : IsPreorder payloadCmp₀) (hcmp : IsPreorder payloadCmp) {l : LinkedList D}
    (h : Defined l) {ops : List (Op D)}
    (hl : Along (step lib₀ (listCmp payloadCmp₀)) Legal (linkedListInitForArray l) ops) :
    (∀ lib : Stdlib, SortsLinked lib (listCmp payloadCmp)
      (exec (step lib₀ (listCmp payloadCmp₀)) (linkedListInitForArray l) ops)) ↔
    LinkedFirst (listCmp payloadCmp)
      (exec (step lib₀ (listCmp payloadCmp₀)) (linkedListInitForArray l) ops) := by
  have hinv := exec_invariant (I := Inv)
    (fun _ _ _ h hl ht => step_inv (listCmp_isPreorder hcmp₀) h hl ht) (inv_init h) hl
  exact sortsLinked_iff_linkedFirst (listCmp_isPreorder hcmp) hinv

section Runs

instance (l : LinkedList D) : ∀ op, Decidable (Legal l op)
  | .insertHead _ | .insertTail _ | .free _ => inferInstanceAs (Decidable (IsSlot l _))
  | .removeNode p => inferInstanceAs (Decidable (∀ q ∈ p, IsSlot l q))
  | .sort => inferInstanceAs (Decidable (_ ≤ _))
  | .alloc _ | .removeHead | .removeTail | .setNodeData _ _ => isTrue trivial

theorem sort_keeps_linked_iff_twoSlots :
    (∀ lib : Stdlib, SortsLinked lib (listCmp compareNum)
      (exec (step Stdlib.reference (listCmp compareNum)) (linkedListInitForArray twoSlots)
        [.alloc 1, .setNodeData 256 7, .insertTail 256, .alloc 1, .setNodeData 272 3,
          .insertTail 272, .sort, .removeHead, .free 256])) ↔
    LinkedFirst (listCmp compareNum)
      (exec (step Stdlib.reference (listCmp compareNum)) (linkedListInitForArray twoSlots)
        [.alloc 1, .setNodeData 256 7, .insertTail 256, .alloc 1, .setNodeData 272 3,
          .insertTail 272, .sort, .removeHead, .free 256]) :=
  sort_keeps_linked_iff Stdlib.reference compareNum_isPreorder compareNum_isPreorder
    twoSlots_defined (by decide)

/-- Taken from the array but not linked yet, a node with a smaller payload goes first. -/
theorem unlinked_node_sorted_in :
    ¬ SortsLinked Stdlib.reference (listCmp compareNum)
      (exec (step Stdlib.reference (listCmp compareNum)) (linkedListInitForArray twoSlots)
        [.alloc 1, .setNodeData 256 7, .insertTail 256, .alloc 1, .setNodeData 272 3]) := by
  let l := exec (step Stdlib.reference (listCmp compareNum)) (linkedListInitForArray twoSlots)
    [.alloc 1, .setNodeData 256 7, .insertTail 256, .alloc 1, .setNodeData 272 3]
  let t := linkedListSort Stdlib.reference l (listCmp compareNum)
  have hhead : t.head = some 256 := by decide
  have hnext : t.next 256 = none := by decide
  have hforward : Seg t.next t.head [256] none := ⟨hhead, hnext⟩
  rintro ⟨zs, hz⟩
  obtain rfl : [256] = zs := hforward.unique hz.linked.forward
  have hlinked : 512 ∈ (linkedNodes l).map l.dataPtr := by decide
  have hmet : 512 ∈ [256].map t.dataPtr := (hz.windows 512).mpr hlinked
  exact absurd hmet (by decide)

end Runs

end BleFirmware.ListSortPerm
