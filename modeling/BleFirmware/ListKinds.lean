import BleFirmware.ArrayList
import Mathlib.Data.List.Find

/-!
# Array lists and heap lists behind one interface

The same pushes, pops and searches run on a list of either kind. The abstract
list is the queue of payloads, each with the block that the heap list got for
it; the two kinds differ in which nodes a comparator of the documented shape
takes for allocated, because it reads `opt.used`. A linked node of an array list
has a 1 there, one of a heap list the low byte of its `opt.value`. C knows two
values of a `bool`, the bytes 0 and 1; what the comparator does with another
byte is up to the compiler.
-/

namespace BleFirmware.ListKinds
open CSort ListAlgo Segment Deque Refine
open LinkedListSearch (Defined search_run twoSlots twoSlots_defined compareNum
  compareNum_isPreorder)

variable {D : Type}

/-- A block as `OSAL_MALLOC` hands it over, with the word that is found in its
`opt`, and what the caller stores in `opt.value` afterwards, if anything. -/
structure Block where
  addr : Addr
  opt : ℕ
  set : Option ℕ

def Block.value (b : Block) : ℕ := b.set.getD b.opt

/-- The block of a push is used by the heap list only. -/
inductive Op (D : Type)
  | push (x : D) (b : Block)
  | pop
  | search (x : D)

structure Seen (D : Type) where
  count : ℕ
  payloads : List D
  found : Option D

def seen (l : LinkedList D) (found : Option D) : Seen D := ⟨linkedListCount l, l.payloads, found⟩

/-- The word of `opt` is written as a whole. -/
def setOpt (l : LinkedList D) (p : Addr) (v : ℕ) : LinkedList D :=
  { l with opt := Function.update l.opt p v }

def arrayPush (dataLen : ℕ) (l : LinkedList D) (x : D) : Option (LinkedList D) :=
  match linkedListAllocNode l (fun _ => none) dataLen with
  | (l, some pNode) => linkedListInsertTail (l.setNodeData pNode x) pNode
  | (_, none) => none

def heapPush (dataLen : ℕ) (l : LinkedList D) (x : D) (b : Block) : Option (LinkedList D) :=
  match linkedListAllocNode (setOpt l b.addr b.opt) (fun _ => some b.addr) dataLen with
  | (l, some pNode) =>
    let l := l.setNodeData pNode x
    let l :=
      match b.set with
      | some v => setOpt l pNode v
      | none => l
    linkedListInsertTail l pNode
  | (_, none) => none

def popAndFree (l : LinkedList D) : Option (LinkedList D) :=
  match linkedListRemoveHead l with
  | some (l, some pNode) => linkedListFreeNode l pNode
  | some (l, none) => some l
  | none => none

/-- A comparator of the documented shape, as it is compiled: the source says what it
does with flags that hold a 0 or a 1. -/
def Documented (payloadCmp : D → D → ℤ) (compare : ListCmp D) : Prop :=
  ∀ m n, m.opt % 256 ≤ 1 → n.opt % 256 ≤ 1 → compare m n = listCmp payloadCmp m n

def step (lib : Stdlib) (fuel : ℕ) (compare : ListCmp D)
    (push : LinkedList D → D → Block → Option (LinkedList D)) (l : LinkedList D) :
    Op D → Option (LinkedList D × Seen D)
  | .push x b => (push l x b).map fun l => (l, seen l none)
  | .pop => (popAndFree l).map fun l => (l, seen l none)
  | .search x =>
    (linkedListSearch lib fuel l x compare).map fun r => (l, seen l (r.map l.nodeData))

def arrayStep (lib : Stdlib) (fuel : ℕ) (compare : ListCmp D) (dataLen : ℕ) :
    LinkedList D → Op D → Option (LinkedList D × Seen D) :=
  step lib fuel compare fun l x _ => arrayPush dataLen l x

def heapStep (lib : Stdlib) (fuel : ℕ) (compare : ListCmp D) (dataLen : ℕ) :
    LinkedList D → Op D → Option (LinkedList D × Seen D) :=
  step lib fuel compare (heapPush dataLen)

/-- The queue of payloads; a search for `x` finds the first node `y` with `finds y x`. -/
def spec (finds : D × Block → D → Bool) (xs : List (D × Block)) :
    Op D → List (D × Block) × Seen D
  | .push x b => (xs ++ [(x, b)], ⟨xs.length + 1, xs.map Prod.fst ++ [x], none⟩)
  | .pop => (xs.tail, ⟨xs.length - 1, (xs.map Prod.fst).tail, none⟩)
  | .search x =>
    (xs, ⟨xs.length, xs.map Prod.fst,
      (xs.find? fun y => finds y x).map Prod.fst⟩)

def arrayFinds (payloadCmp : D → D → ℤ) (y : D × Block) (x : D) : Bool := payloadCmp y.1 x == 0

def heapFinds (compare : ListCmp D) (y : D × Block) (x : D) : Bool :=
  compare ⟨y.2.value, y.1⟩ (targetView x) == 0

/-- The depth is not exceeded, and a block is handed over while it is not live. -/
def allowed (depth : ℕ) (live : Addr → Bool) (xs : List (D × Block)) : Op D → Prop
  | .push _ b => xs.length < depth ∧ live b.addr = false ∧ b.addr ∉ xs.map fun y => y.2.addr
  | .pop => True
  | .search _ => True

instance (depth : ℕ) (live : Addr → Bool) (xs : List (D × Block)) :
    ∀ op : Op D, Decidable (allowed depth live xs op)
  | .push _ _ => inferInstanceAs (Decidable (_ ∧ _ ∧ _))
  | .pop => inferInstanceAs (Decidable True)
  | .search _ => inferInstanceAs (Decidable True)

def Op.ValueIn (values : ℕ → Prop) : Op D → Prop
  | .push _ b => values b.value
  | .pop => True
  | .search _ => True

/-- The runs on an array list and on a heap list, both just initialised, return and
show the same after every operation. A traversal takes `fuel` rounds at most. -/
def Interchangeable [Inhabited D] (lib : Stdlib) (dataLen : ℕ) (compare : ListCmp D)
    (l₀ m₀ : LinkedList D) (ops : List (Op D)) : Prop :=
  ∀ fuel, l₀.depth < fuel → ∃ l m shown,
    runOps (arrayStep lib fuel compare dataLen) (linkedListInitForArray l₀) ops =
        some (l, shown) ∧
      runOps (heapStep lib fuel compare dataLen) (linkedListInitForHeap m₀) ops =
        some (m, shown)

structure Shows (compare : ListCmp D) (finds : D × Block → D → Bool) (l : LinkedList D)
    (ps : List Addr) (xs : List (D × Block)) : Prop where
  holds : Holds (image l) ps
  unsorted : l.sorted = false
  cells : ps.map (fun p => (l.nodeData p, fun x => compare (l.view p) (targetView x) == 0)) =
    xs.map fun y => (y.1, finds y)

section Shows

variable {compare : ListCmp D} {finds : D × Block → D → Bool} {l : LinkedList D} {ps : List Addr}
  {xs : List (D × Block)}

theorem Shows.length_eq (h : Shows compare finds l ps xs) : ps.length = xs.length := by
  simpa using congrArg List.length h.cells

theorem Shows.map_nodeData (h : Shows compare finds l ps xs) :
    ps.map l.nodeData = xs.map Prod.fst := by
  simpa [Function.comp_def] using congrArg (List.map Prod.fst) h.cells

theorem Shows.seen_eq (h : Shows compare finds l ps xs) (found : Option D) :
    seen l found = ⟨xs.length, xs.map Prod.fst, found⟩ := by
  have hcount : l.count = ps.length := h.holds.count_eq
  have hwalk : walk l.next ps.length l.head = ps := h.holds.linked.forward.walk_eq
  have hpayloads : l.payloads = xs.map Prod.fst := by
    rw [LinkedList.payloads, hcount, hwalk, h.map_nodeData]
  rw [seen, linkedListCount, hcount, hpayloads, h.length_eq]

theorem Shows.search_eq (h : Shows compare finds l ps xs) (lib : Stdlib) {fuel : ℕ}
    (hfuel : xs.length < fuel) (x : D) :
    (linkedListSearch lib fuel l x compare).map (fun r => r.map l.nodeData) =
      some ((xs.find? fun y => finds y x).map Prod.fst) := by
  have hrun := search_run compare l x h.holds.linked.forward
    (show ps.length < fuel by rw [h.length_eq]; exact hfuel)
  have hsearch : linkedListSearch lib fuel l x compare =
      some (ps.find? fun q => compare (l.view q) (targetView x) = 0) := by
    rw [← hrun]
    simp [linkedListSearch, h.unsorted, image]
  -- Both searches look at the cells only.
  let test : D × (D → Bool) → Bool := fun c => c.2 x
  have hleft : (ps.map fun p =>
      (l.nodeData p, fun x => compare (l.view p) (targetView x) == 0)).find? test = _ :=
    List.find?_map
  have hright : (xs.map fun y => (y.1, finds y)).find? test = _ := List.find?_map
  rw [hsearch, Option.map_some]
  rw [h.cells, hright] at hleft
  have hfst := congrArg (Option.map Prod.fst) hleft
  simp only [Option.map_map] at hfst
  exact congrArg some hfst.symm

theorem Shows.step_search (h : Shows compare finds l ps xs) (lib : Stdlib)
    (push : LinkedList D → D → Block → Option (LinkedList D)) {fuel : ℕ}
    (hfuel : xs.length < fuel) (x : D) :
    step lib fuel compare push l (.search x) = some (l, (spec finds xs (.search x)).2) := by
  have hsearch := h.search_eq lib hfuel x
  obtain ⟨r, hr, hfound⟩ := Option.map_eq_some_iff.mp hsearch
  simp only [step, hr, Option.map_some, hfound, h.seen_eq, spec]

end Shows

theorem Documented.target {payloadCmp : D → D → ℤ} {compare : ListCmp D}
    (h : Documented payloadCmp compare) {opt : ℕ} (hopt : opt % 256 = 1) (d x : D) :
    compare ⟨opt, d⟩ (targetView x) = payloadCmp d x := by
  rw [h _ _ hopt.le le_rfl]
  simp [listCmp, used, hopt, targetView]

structure ArrayNodes (depth : ℕ) (l : LinkedList D) (xs : List (D × Block)) (ps : List Addr) :
    Prop where
  holds : ArrayHolds l ps
  depth_eq : l.depth = depth
  length_le : xs.length ≤ depth
  payloads : ps.map l.nodeData = xs.map Prod.fst
  flags : ∀ p ∈ ps, l.opt p % 256 = 1

def ArrayRel (depth : ℕ) (l : LinkedList D) (xs : List (D × Block)) : Prop :=
  ∃ ps, ArrayNodes depth l xs ps

theorem setUsed_true_mod (opt : ℕ) : setUsed opt true % 256 = 1 := by
  simp only [setUsed, Bool.toNat_true]
  omega

theorem ArrayNodes.shows {payloadCmp : D → D → ℤ} {compare : ListCmp D}
    (hcmp : Documented payloadCmp compare) {depth : ℕ} {l : LinkedList D}
    {xs : List (D × Block)} {ps : List Addr} (h : ArrayNodes depth l xs ps) :
    Shows compare (arrayFinds payloadCmp) l ps xs := by
  refine ⟨h.holds.holds, h.holds.unsorted, ?_⟩
  have hflag : ps.map (fun p =>
        (l.nodeData p, fun x => compare (l.view p) (targetView x) == 0)) =
      (ps.map l.nodeData).map fun d => (d, fun x => payloadCmp d x == 0) := by
    rw [List.map_map]
    apply List.map_congr_left
    intro p hp
    have htarget := hcmp.target (h.flags p hp) (l.nodeData p)
    simp only [Function.comp_apply, ← htarget]
    rfl
  rw [hflag, h.payloads, List.map_map]
  rfl

theorem arrayPush_spec {depth : ℕ} {l : LinkedList D} {ps : List Addr} {xs : List (D × Block)}
    (dataLen : ℕ) (h : ArrayNodes depth l xs ps) (hlen : xs.length < depth) (x : D) (b : Block) :
    ∃ l', arrayPush dataLen l x = some l' ∧ ArrayRel depth l' (xs ++ [(x, b)]) := by
  have hps : ps.length = xs.length := by simpa using congrArg List.length h.payloads
  have hroom : ps.length < l.depth := by rw [hps, h.depth_eq]; exact hlen
  obtain ⟨i, hi, hout, halloc⟩ := h.holds.pool.alloc hroom
  obtain ⟨l', hl', hh, hpayloads, hdepth⟩ := arrayHolds_takeSlot h.holds hi hout x
  refine ⟨l', ?_, ps ++ [l.slot i], hh, hdepth.trans h.depth_eq, ?_, ?_, ?_⟩
  · simp only [arrayPush, linkedListAllocNode, h.holds.pool.arrayBased, if_true, halloc]
    exact hl'
  · rw [List.length_append, List.length_singleton]
    omega
  · rw [hpayloads, h.payloads, List.map_append, List.map_singleton]
  · -- the new node has just got its flag, the others keep theirs
    obtain ⟨links, n, rfl⟩ := linkedListInsertTail_frame hl'
    intro p hp
    change Function.update l.opt (l.slot i) (setUsed (l.opt (l.slot i)) true) p % 256 = 1
    by_cases hpi : p = l.slot i
    · rw [hpi, Function.update_self]
      exact setUsed_true_mod _
    · rw [Function.update_of_ne hpi]
      exact h.flags p ((List.mem_append.mp hp).resolve_right fun hm => hpi (List.mem_singleton.mp hm))

theorem arrayPop_spec {l : LinkedList D} {xs : List (D × Block)} {depth : ℕ}
    (h : ArrayRel depth l xs) :
    ∃ l', popAndFree l = some l' ∧ ArrayRel depth l' xs.tail := by
  obtain ⟨ps, h⟩ := h
  cases ps with
  | nil =>
    obtain rfl : xs = [] := List.map_eq_nil_iff.mp h.payloads.symm
    have hhead : l.head = none := h.holds.holds.linked.head_eq
    have hpop : linkedListRemoveHead l = some (l, none) := by
      simp only [linkedListRemoveHead, hhead]
    exact ⟨l, by simp only [popAndFree, hpop], [], h⟩
  | cons p ps =>
    have hp : p ∉ ps := (List.nodup_cons.mp h.holds.pool.nodup).1
    obtain ⟨l', l'', hpop, hfree, hh, hnode, hdepth⟩ := arrayHolds_pop h.holds
    refine ⟨l'', by simp only [popAndFree, hpop, hfree], ps, hh, hdepth.trans h.depth_eq, ?_, ?_, ?_⟩
    · rw [List.length_tail]
      have := h.length_le
      omega
    · rw [hnode, List.map_tail, ← h.payloads]
      rfl
    · obtain ⟨links, n, rfl⟩ := linkedListRemoveHead_frame hpop
      rw [linkedListFreeNode_array (by exact h.holds.pool.arrayBased)] at hfree
      obtain rfl := Option.some.inj hfree
      intro q hq
      have hqp : q ≠ p := fun he => hp (he ▸ hq)
      change Function.update l.opt p (setUsed (l.opt p) false) q % 256 = 1
      rw [Function.update_of_ne hqp]
      exact h.flags q (List.mem_cons_of_mem p hq)

section Compiled

variable {payloadCmp : D → D → ℤ} {compare : ListCmp D}

theorem arrayStep_refines (lib : Stdlib) {fuel depth : ℕ} (hfuel : depth < fuel)
    (hcmp : Documented payloadCmp compare) (dataLen : ℕ) (live : Addr → Bool) (l : LinkedList D)
    (xs : List (D × Block)) (op : Op D) (h : ArrayRel depth l xs)
    (ha : allowed depth live xs op) :
    ∃ l', arrayStep lib fuel compare dataLen l op =
        some (l', (spec (arrayFinds payloadCmp) xs op).2) ∧
      ArrayRel depth l' (spec (arrayFinds payloadCmp) xs op).1 := by
  cases op with
  | push x b =>
    obtain ⟨ps, h⟩ := h
    obtain ⟨l', hl', hrel⟩ := arrayPush_spec dataLen h ha.1 x b
    refine ⟨l', ?_, hrel⟩
    obtain ⟨qs, hq⟩ := hrel
    simp only [arrayStep, step, hl', Option.map_some, (hq.shows hcmp).seen_eq, spec,
      List.length_append, List.length_singleton, List.map_append, List.map_singleton]
  | pop =>
    obtain ⟨l', hl', hrel⟩ := arrayPop_spec h
    refine ⟨l', ?_, hrel⟩
    obtain ⟨qs, hq⟩ := hrel
    simp only [arrayStep, step, hl', Option.map_some, (hq.shows hcmp).seen_eq, spec,
      List.length_tail, List.map_tail]
  | search x =>
    obtain ⟨ps, h⟩ := h
    have hstep := (h.shows hcmp).step_search lib (fun l x _ => arrayPush dataLen l x)
      (h.length_le.trans_lt hfuel) x
    exact ⟨l, hstep, ps, h⟩

end Compiled

/-- The nodes of the heap list are the blocks of the queue, each with the value that
its push left in it. -/
structure HeapRel (depth : ℕ) (live : Addr → Bool) (l : LinkedList D)
    (xs : List (D × Block)) : Prop where
  holds : HeapHolds l (xs.map fun y => y.2.addr)
  unsorted : l.sorted = false
  length_le : xs.length ≤ depth
  cell : ∀ y ∈ xs, l.nodeData y.2.addr = y.1 ∧ l.opt y.2.addr = y.2.value
  live : ∀ p, l.live p = true → live p = true ∨ p ∈ xs.map fun y => y.2.addr

theorem HeapRel.shows (compare : ListCmp D) {depth : ℕ} {live : Addr → Bool} {l : LinkedList D}
    {xs : List (D × Block)} (h : HeapRel depth live l xs) :
    Shows compare (heapFinds compare) l (xs.map fun y => y.2.addr) xs := by
  refine ⟨h.holds.holds, h.unsorted, ?_⟩
  rw [List.map_map]
  apply List.map_congr_left
  intro y hy
  obtain ⟨hnode, hopt⟩ := h.cell y hy
  have hview : l.view y.2.addr = ⟨y.2.value, y.1⟩ := by rw [← hopt, ← hnode]; rfl
  simp only [Function.comp_apply, hnode, hview]
  rfl

theorem setOpt_setOpt (l : LinkedList D) (p : Addr) (v w : ℕ) :
    setOpt (setOpt l p v) p w = setOpt l p w := by
  simp only [setOpt, Function.update_idem]

theorem heapPush_eq (dataLen : ℕ) {l : LinkedList D} (h : l.arrayBased = false) (x : D)
    (b : Block) :
    heapPush dataLen l x b =
      linkedListInsertTail (((setOpt l b.addr b.value).addBlock b.addr).setNodeData b.addr x)
        b.addr := by
  have halloc : linkedListAllocNode (setOpt l b.addr b.opt) (fun _ => some b.addr) dataLen =
      ((setOpt l b.addr b.opt).addBlock b.addr, some b.addr) :=
    linkedListAllocNode_block (show (setOpt l b.addr b.opt).arrayBased = false from h) b.addr dataLen
  simp only [heapPush, halloc]
  cases hset : b.set with
  | none =>
    have hvalue : b.value = b.opt := by rw [Block.value, hset, Option.getD_none]
    rw [hvalue]
  | some v =>
    have hvalue : b.value = v := by rw [Block.value, hset, Option.getD_some]
    rw [hvalue, ← setOpt_setOpt l b.addr b.opt v]
    rfl

theorem HeapRel.dead {depth : ℕ} {live : Addr → Bool} {l : LinkedList D}
    {xs : List (D × Block)} (h : HeapRel depth live l xs) {p : Addr} (hp : live p = false)
    (hxs : p ∉ xs.map fun y => y.2.addr) : l.live p = false := by
  by_contra hlive
  rcases h.live p (by simpa using hlive) with hl | hm
  · rw [hp] at hl
    exact absurd hl Bool.false_ne_true
  · exact hxs hm

theorem heapPush_spec {depth : ℕ} {live : Addr → Bool} {l : LinkedList D}
    {xs : List (D × Block)} (dataLen : ℕ) (h : HeapRel depth live l xs) (x : D) (b : Block)
    (ha : allowed depth live xs (.push x b)) :
    ∃ l', heapPush dataLen l x b = some l' ∧ HeapRel depth live l' (xs ++ [(x, b)]) := by
  obtain ⟨hlen, hnot, hfresh⟩ := ha
  let k := setOpt l b.addr b.value
  have hk : HeapHolds k (xs.map fun y => y.2.addr) :=
    ⟨h.holds.holds, h.holds.heap, h.holds.live, h.holds.dataPtr⟩
  obtain ⟨l', hl', hh, hdata, hlive⟩ := heapHolds_enqueue hk (h.dead hnot hfresh) x
  obtain ⟨links, n, hframe⟩ := linkedListInsertTail_frame hl'
  have hmap : (xs ++ [(x, b)]).map (fun y => y.2.addr) =
      (xs.map fun y => y.2.addr) ++ [b.addr] := by
    rw [List.map_append, List.map_singleton]
  have hopt : l'.opt = Function.update l.opt b.addr b.value := by rw [hframe]; rfl
  refine ⟨l', by rw [heapPush_eq dataLen h.holds.heap]; exact hl', ?_, ?_, ?_, ?_, ?_⟩
  · rw [hmap]
    exact hh
  · rw [hframe]
  · rw [List.length_append, List.length_singleton]
    omega
  · -- what stands before the new block is left as it was
    rw [List.map_append, List.map_singleton] at hdata
    obtain ⟨hold, hnew⟩ := List.append_inj hdata (by simp)
    intro y hy
    rcases List.mem_append.mp hy with hy | hy
    · have hmem := List.mem_map_of_mem (f := fun y : D × Block => y.2.addr) hy
      have hne : y.2.addr ≠ b.addr := fun he => hfresh (he ▸ hmem)
      obtain ⟨hnode, hval⟩ := h.cell y hy
      refine ⟨(List.map_inj_left.mp hold _ hmem).trans hnode, ?_⟩
      rw [hopt, Function.update_of_ne hne, hval]
    · obtain rfl := List.mem_singleton.mp hy
      refine ⟨List.singleton_inj.mp hnew, ?_⟩
      rw [hopt, Function.update_self]
  · intro p hp
    rw [hlive] at hp
    rw [hmap, List.mem_append, List.mem_singleton]
    by_cases hpb : p = b.addr
    · exact Or.inr (Or.inr hpb)
    · rw [Function.update_of_ne hpb] at hp
      rcases h.live p hp with hp | hp
      · exact Or.inl hp
      · exact Or.inr (Or.inl hp)

theorem heapPop_spec {depth : ℕ} {live : Addr → Bool} {l : LinkedList D}
    {xs : List (D × Block)} (h : HeapRel depth live l xs) :
    ∃ l', popAndFree l = some l' ∧ HeapRel depth live l' xs.tail := by
  cases xs with
  | nil => exact ⟨l, by simp only [popAndFree, heapHolds_pop_nil h.holds], h⟩
  | cons y ys =>
    obtain ⟨l', hpop, hh, hnode, hlive⟩ := heapHolds_pop h.holds
    obtain ⟨links, n, rfl⟩ := linkedListRemoveHead_frame hpop
    have hlen : ys.length + 1 ≤ depth := h.length_le
    have hy : y.2.addr ∉ ys.map fun y => y.2.addr :=
      (List.nodup_cons.mp h.holds.holds.linked.nodup).1
    have hfree := linkedListFreeNode_block hh.heap (h.holds.live y.2.addr List.mem_cons_self)
    refine ⟨_, by simp only [popAndFree, hpop, hfree], heapHolds_dropBlock hh hy, h.unsorted,
      by rw [List.tail_cons]; omega, ?_, ?_⟩
    · intro z hz
      have hne : z.2.addr ≠ y.2.addr := fun he =>
        hy (he ▸ List.mem_map_of_mem (f := fun y : D × Block => y.2.addr) hz)
      obtain ⟨hdata, hval⟩ := h.cell z (List.mem_cons_of_mem y hz)
      refine ⟨hdata, ?_⟩
      change Function.update l.opt y.2.addr 0 z.2.addr = z.2.value
      rw [Function.update_of_ne hne, hval]
    · intro p hp
      change Function.update l.live y.2.addr false p = true at hp
      by_cases hpy : p = y.2.addr
      · rw [hpy, Function.update_self] at hp
        exact absurd hp Bool.false_ne_true
      · rw [Function.update_of_ne hpy] at hp
        rcases h.live p hp with hp | hp
        · exact Or.inl hp
        · exact Or.inr ((List.mem_cons.mp hp).resolve_left hpy)

theorem heapStep_refines (lib : Stdlib) {fuel depth : ℕ} (hfuel : depth < fuel)
    (compare : ListCmp D) (dataLen : ℕ) (live : Addr → Bool) (l : LinkedList D)
    (xs : List (D × Block)) (op : Op D) (h : HeapRel depth live l xs)
    (ha : allowed depth live xs op) :
    ∃ l', heapStep lib fuel compare dataLen l op =
        some (l', (spec (heapFinds compare) xs op).2) ∧
      HeapRel depth live l' (spec (heapFinds compare) xs op).1 := by
  cases op with
  | push x b =>
    obtain ⟨l', hl', hrel⟩ := heapPush_spec dataLen h x b ha
    refine ⟨l', ?_, hrel⟩
    simp only [heapStep, step, hl', Option.map_some, (hrel.shows compare).seen_eq, spec,
      List.length_append, List.length_singleton, List.map_append, List.map_singleton]
  | pop =>
    obtain ⟨l', hl', hrel⟩ := heapPop_spec h
    refine ⟨l', ?_, hrel⟩
    simp only [heapStep, step, hl', Option.map_some, (hrel.shows compare).seen_eq, spec,
      List.length_tail, List.map_tail]
  | search x =>
    have hstep := (h.shows compare).step_search lib (heapPush dataLen)
      (h.length_le.trans_lt hfuel) x
    exact ⟨l, hstep, h⟩

section Runs

variable {payloadCmp : D → D → ℤ} {compare : ListCmp D} {depth : ℕ} {live : Addr → Bool}

theorem spec_next (finds finds' : D × Block → D → Bool) (xs : List (D × Block)) (op : Op D) :
    (spec finds xs op).1 = (spec finds' xs op).1 := by
  cases op <;> rfl

theorem legal_finds (finds finds' : D × Block → D → Bool) {xs : List (D × Block)}
    {ops : List (Op D)} (h : Legal (spec finds) (allowed depth live) xs ops) :
    Legal (spec finds') (allowed depth live) xs ops := by
  induction ops generalizing xs with
  | nil => trivial
  | cons op ops ih =>
    refine ⟨h.1, ?_⟩
    rw [← spec_next finds finds']
    exact ih h.2

theorem runSpec_eq (hcmp : Documented payloadCmp compare) {xs : List (D × Block)}
    {ops : List (Op D)} (hxs : ∀ y ∈ xs, y.2.value % 256 = 1)
    (hops : ∀ op ∈ ops, op.ValueIn fun v => v % 256 = 1) :
    runSpec (spec (heapFinds compare)) xs ops = runSpec (spec (arrayFinds payloadCmp)) xs ops := by
  induction ops generalizing xs with
  | nil => rfl
  | cons op ops ih =>
    obtain ⟨hop, hrest⟩ := List.forall_mem_cons.mp hops
    have hstep : spec (heapFinds compare) xs op = spec (arrayFinds payloadCmp) xs op := by
      cases op with
      | push x b => rfl
      | pop => rfl
      | search x =>
        have hfind : (xs.find? fun y => heapFinds compare y x) =
            xs.find? fun y => arrayFinds payloadCmp y x := by
          apply List.find?_congr
          intro y hy
          rw [heapFinds, arrayFinds, hcmp.target (hxs y hy)]
        simp only [spec, hfind]
    have hnext : ∀ y ∈ (spec (arrayFinds payloadCmp) xs op).1, y.2.value % 256 = 1 := by
      cases op with
      | push x b =>
        intro y hy
        rcases List.mem_append.mp hy with hy | hy
        · exact hxs y hy
        · obtain rfl := List.mem_singleton.mp hy
          exact hop
      | pop => exact fun y hy => hxs y (List.mem_of_mem_tail hy)
      | search x => exact hxs
    simp only [runSpec, hstep, ih hnext hrest]

variable {l₀ m₀ : LinkedList D}

theorem array_run [Inhabited D] (lib : Stdlib) (dataLen : ℕ) (hcmp : Documented payloadCmp compare)
    (hl : Defined l₀) {fuel : ℕ} (hfuel : l₀.depth < fuel) {ops : List (Op D)}
    (h : Legal (spec (arrayFinds payloadCmp)) (allowed l₀.depth live) [] ops) :
    ∃ l, runOps (arrayStep lib fuel compare dataLen) (linkedListInitForArray l₀) ops =
      some (l, (runSpec (spec (arrayFinds payloadCmp)) [] ops).2) := by
  obtain ⟨hinit, hdepth⟩ := arrayHolds_init hl
  have hrel : ArrayRel l₀.depth (linkedListInitForArray l₀) [] :=
    ⟨[], hinit, hdepth, Nat.zero_le _, rfl, by simp⟩
  obtain ⟨l, hrun, _⟩ := run_refines (ArrayRel l₀.depth)
    (arrayStep_refines lib hfuel hcmp dataLen live) hrel h
  exact ⟨l, hrun⟩

theorem heap_run (lib : Stdlib) (dataLen : ℕ) (compare : ListCmp D) (hm : m₀.arrayBased = false)
    {fuel : ℕ} (hfuel : depth < fuel) {ops : List (Op D)}
    (h : Legal (spec (arrayFinds payloadCmp)) (allowed depth m₀.live) [] ops) :
    ∃ m, runOps (heapStep lib fuel compare dataLen) (linkedListInitForHeap m₀) ops =
      some (m, (runSpec (spec (heapFinds compare)) [] ops).2) := by
  have hrel : HeapRel depth m₀.live (linkedListInitForHeap m₀) [] :=
    ⟨heapHolds_init hm, rfl, Nat.zero_le _, by simp, fun p hp => Or.inl hp⟩
  obtain ⟨m, hrun, _⟩ := run_refines (HeapRel depth m₀.live)
    (heapStep_refines lib hfuel compare dataLen m₀.live) hrel
    (legal_finds (arrayFinds payloadCmp) (heapFinds compare) h)
  exact ⟨m, hrun⟩

variable [Inhabited D]

theorem interchangeable_of_flags (lib : Stdlib) (dataLen : ℕ) (hcmp : Documented payloadCmp compare)
    (hl : Defined l₀) (hm : m₀.arrayBased = false) {ops : List (Op D)}
    (h : Legal (spec (arrayFinds payloadCmp)) (allowed l₀.depth m₀.live) [] ops)
    (hops : ∀ op ∈ ops, op.ValueIn fun v => v % 256 = 1) :
    Interchangeable lib dataLen compare l₀ m₀ ops := by
  intro fuel hfuel
  obtain ⟨l, hrun⟩ := array_run lib dataLen hcmp hl hfuel h
  obtain ⟨m, hrun'⟩ := heap_run lib dataLen compare hm hfuel h
  rw [runSpec_eq hcmp (by simp) hops] at hrun'
  exact ⟨l, m, _, hrun, hrun'⟩

theorem not_interchangeable (lib : Stdlib) (dataLen : ℕ) (hcmp : Documented payloadCmp compare)
    (hl : Defined l₀) (hm : m₀.arrayBased = false) {b : Block} (hb : m₀.live b.addr = false)
    {x : D} (hmiss : compare ⟨b.value, x⟩ (targetView x) ≠ 0) (hx : payloadCmp x x = 0) :
    Legal (spec (arrayFinds payloadCmp)) (allowed l₀.depth m₀.live) [] [.push x b, .search x] ∧
      ¬ Interchangeable lib dataLen compare l₀ m₀ [.push x b, .search x] := by
  have hlegal : Legal (spec (arrayFinds payloadCmp)) (allowed l₀.depth m₀.live) []
      [.push x b, .search x] :=
    ⟨⟨Nat.pos_of_ne_zero hl.depth, hb, List.not_mem_nil⟩, trivial, trivial⟩
  refine ⟨hlegal, ?_⟩
  intro h
  obtain ⟨l, m, shown, harray, hheap⟩ := h (l₀.depth + 1) (Nat.lt_succ_self _)
  obtain ⟨l', hrun⟩ := array_run lib dataLen hcmp hl (Nat.lt_succ_self _) hlegal
  obtain ⟨m', hrun'⟩ := heap_run lib dataLen compare hm (Nat.lt_succ_self _) hlegal
  rw [harray] at hrun
  rw [hheap] at hrun'
  have hshown := (Prod.mk.inj (Option.some.inj hrun)).2
  have hshown' := (Prod.mk.inj (Option.some.inj hrun')).2
  rw [hshown] at hshown'
  simp [runSpec, spec, arrayFinds, heapFinds, hmiss, hx] at hshown'

end Runs

/-- A compiler may take every flag that is neither 0 nor 1 for one of no node. -/
def strictCmp (payloadCmp : D → D → ℤ) : ListCmp D := fun m n =>
  if m.opt % 256 ≤ 1 ∧ n.opt % 256 ≤ 1 then listCmp payloadCmp m n else 1

theorem strictCmp_documented (payloadCmp : D → D → ℤ) :
    Documented payloadCmp (strictCmp payloadCmp) :=
  fun _ _ hm hn => if_pos ⟨hm, hn⟩

theorem strictCmp_miss (payloadCmp : D → D → ℤ) {v : ℕ} (hv : v % 256 ≠ 1) (x : D) :
    strictCmp payloadCmp ⟨v, x⟩ (targetView x) ≠ 0 := by
  by_cases h0 : v % 256 = 0
  · simp [strictCmp, listCmp, used, targetView, h0]
  · have hbig : ¬ v % 256 ≤ 1 := by omega
    simp [strictCmp, hbig]

theorem kinds_interchangeable_iff [Inhabited D] (lib : Stdlib) (dataLen : ℕ)
    {payloadCmp : D → D → ℤ} (hcmp : IsPreorder payloadCmp) {l₀ m₀ : LinkedList D}
    (hl : Defined l₀) (hm : m₀.arrayBased = false) (hmalloc : ∃ p, m₀.live p = false)
    (values : ℕ → Prop) :
    (∀ compare, Documented payloadCmp compare → ∀ ops : List (Op D),
        Legal (spec (arrayFinds payloadCmp)) (allowed l₀.depth m₀.live) [] ops →
        (∀ op ∈ ops, op.ValueIn values) →
        Interchangeable lib dataLen compare l₀ m₀ ops) ↔
      ∀ v, values v → v % 256 = 1 := by
  constructor
  · intro h v hv
    by_contra hflag
    obtain ⟨p, hp⟩ := hmalloc
    have hrefl : payloadCmp (default : D) default = 0 := by
      have hswap := hcmp.swap default default
      omega
    have hdoc := strictCmp_documented payloadCmp
    obtain ⟨hlegal, hnot⟩ := not_interchangeable (b := ⟨p, v, none⟩) lib dataLen hdoc hl hm hp
      (strictCmp_miss payloadCmp hflag default) hrefl
    refine hnot (h _ hdoc _ hlegal ?_)
    intro op hop
    rcases List.mem_cons.mp hop with rfl | hop
    · exact hv
    · obtain rfl := List.mem_singleton.mp hop
      trivial
  · intro hflags compare hdoc ops hlegal hvalues
    refine interchangeable_of_flags lib dataLen hdoc hl hm hlegal ?_
    intro op hop
    have hv := hvalues op hop
    cases op with
    | push x b => exact hflags _ hv
    | pop => trivial
    | search x => trivial

def heapHeader : LinkedList UInt8 := { twoSlots with arrayBased := false }

theorem documented_listCmp (payloadCmp : D → D → ℤ) :
    Documented payloadCmp (listCmp payloadCmp) := fun _ _ _ _ => rfl

theorem kinds_interchangeable_iff_byte :
    Interchangeable Stdlib.reference 1 (listCmp compareNum) twoSlots heapHeader
      [.push 7 ⟨1024, 0, some 1⟩, .push 9 ⟨2048, 1, none⟩, .search 9, .pop,
        .push 9 ⟨1024, 0, some 257⟩, .search 7, .search 9] :=
  (kinds_interchangeable_iff Stdlib.reference 1 compareNum_isPreorder twoSlots_defined rfl
    ⟨0, rfl⟩ (fun v => v = 1 ∨ v = 257)).mpr (fun v hv => by rcases hv with rfl | rfl <;> rfl) _
    (documented_listCmp compareNum) _ (by decide) (by simp [Op.ValueIn, Block.value])

theorem linked_payload_not_found :
    Legal (spec (arrayFinds compareNum)) (allowed twoSlots.depth heapHeader.live) []
        [.push 7 ⟨1024, 0, none⟩, .search 7] ∧
      ¬ Interchangeable Stdlib.reference 1 (listCmp compareNum) twoSlots heapHeader
        [.push 7 ⟨1024, 0, none⟩, .search 7] :=
  not_interchangeable Stdlib.reference 1 (documented_listCmp compareNum) twoSlots_defined rfl rfl
    (by decide) rfl

end BleFirmware.ListKinds
