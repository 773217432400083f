import BleFirmware.Base.Run
import BleFirmware.KvListSearch

/-!
# A kv list shared by tasks

`kv_list_add` looks at `count`, and `kv_list_remove_node` at `valid`, before
they take the mutex, and `kv_list_remove` gives it back between the search and
the removal. Here every test outside the mutex and every section under it is
one step of a task, and the tasks take their steps in any order.

A removal does what it should exactly as long as the node is still valid, and
still has the key that was searched for, when the section runs.
-/

namespace BleFirmware.KvListTasks
open Bytes CSort Run

def kvListAddSection (l : KvList) (key : ℕ) (pValue : Memory) : KvList × Option ℕ :=
  match l.nodeArray.findIdx? (fun n => !n.valid) with
  | some i =>
    let n := { l.node i with valid := true, key := key }
    ({ l with
        nodeArray := l.nodeArray.set i n
        data := memcpy l.data n.dataPtr pValue l.width
        count := l.count+1
        sorted := false },
      some i)
  | none => (l, none)

def kvListRemoveSection (l : KvList) (i : ℕ) : KvList :=
  { l with
    nodeArray := l.nodeArray.set i { l.node i with valid := false, key := kvKeyInvalid }
    count := sizeDec l.count
    sorted := false }

theorem kvListAdd_eq (l : KvList) (key : ℕ) (pValue : Memory) :
    kvListAdd l key pValue =
      if l.count ≥ l.depth then (l, none) else kvListAddSection l key pValue := rfl

theorem kvListRemoveNode_eq (l : KvList) (i : ℕ) :
    kvListRemoveNode l (some i) =
      if (l.node i).valid then some (kvListRemoveSection l i) else some l := rfl

/-- The node of `removeNode` is the pointer that the caller passes. -/
inductive KvCall
  | add (key : ℕ) (pValue : Memory)
  | remove (key : ℕ)
  | removeNode (pNode : Option ℕ)
  | sort
  | clear

/-- A call before its next step. `key` is the key given to `kv_list_remove`. -/
inductive KvTask
  | called (c : KvCall)
  | adding (key : ℕ) (pValue : Memory)
  | found (pNode : Option ℕ) (key : ℕ)
  | removing (i : ℕ) (key : Option ℕ)
  | returned

structure KvShared where
  list : KvList
  tasks : List KvTask

inductive KvAct
  | call (c : KvCall)
  | run (k : ℕ)

def KvShared.become (s : KvShared) (k : ℕ) (t : KvTask) : KvShared :=
  { s with tasks := s.tasks.set k t }

def testNode (s : KvShared) (k : ℕ) (pNode key : Option ℕ) : Option KvShared :=
  pNode.map fun i => s.become k (if (s.list.node i).valid then .removing i key else .returned)

def runTask (lib : Stdlib) (s : KvShared) (k : ℕ) : KvTask → Option KvShared
  | .called (.add key pValue) =>
    some (s.become k (if s.list.count ≥ s.list.depth then .returned else .adding key pValue))
  | .called (.remove key) => some (s.become k (.found (kvListSearch lib s.list key) key))
  | .called (.removeNode pNode) => testNode s k pNode none
  | .called .sort => some ({ s with list := kvListSort lib s.list }.become k .returned)
  | .called .clear => some ({ s with list := kvListClear s.list }.become k .returned)
  | .adding key pValue =>
    some ({ s with list := (kvListAddSection s.list key pValue).1 }.become k .returned)
  | .found pNode key => testNode s k pNode (some key)
  | .removing i _ => some ({ s with list := kvListRemoveSection s.list i }.become k .returned)
  | .returned => some s

def step (lib : Stdlib) (s : KvShared) : KvAct → Option KvShared
  | .call c => some { s with tasks := s.tasks ++ [.called c] }
  | .run k =>
    match s.tasks[k]? with
    | some t => runTask lib s k t
    | none => some s

def init (l : KvList) : KvShared := ⟨kvListInit l, []⟩

def Counted (l : KvList) : Prop := l.count = l.nodeArray.countP (·.valid)

/-- A removal by key that removes a node removes one with that key. -/
def RemovesKey (s : KvShared) : KvAct → Prop
  | .run k =>
    match s.tasks[k]? with
    | some (.removing i (some key)) => (s.list.node i).valid = true → (s.list.node i).key = key
    | _ => True
  | .call _ => True

def Safe (lib : Stdlib) (s : KvShared) (c : KvAct) : Prop :=
  (∀ t ∈ step lib s c, Counted t.list) ∧ RemovesKey s c

/-- A node about to be removed is still valid and still has the key that was
searched for. -/
def StillThere (s : KvShared) : KvAct → Prop
  | .run k =>
    match s.tasks[k]? with
    | some (.removing i none) => (s.list.node i).valid = true
    | some (.removing i (some key)) =>
      (s.list.node i).valid = true ∧ (s.list.node i).key = key
    | _ => True
  | .call _ => True

instance (s : KvShared) (c : KvAct) : Decidable (RemovesKey s c) := by
  unfold RemovesKey
  split
  · split <;> infer_instance
  · infer_instance

instance (lib : Stdlib) (s : KvShared) (c : KvAct) : Decidable (Safe lib s c) := by
  unfold Safe Counted
  infer_instance

theorem addSection_wf {l : KvList} (h : l.Wf) (key : ℕ) (pValue : Memory) :
    (kvListAddSection l key pValue).1.Wf := by
  cases hf : l.nodeArray.findIdx? (fun n => !n.valid) with
  | none => simpa only [kvListAddSection, hf] using h
  | some i =>
    obtain ⟨hi, hv, _⟩ := List.findIdx?_eq_some_iff_getElem.mp hf
    have hfree : (l.node i).valid = false := by simpa [KvList.node, hi] using hv
    have hadd : (kvListAddSection l key pValue).1 = l.addAt i key pValue := by
      simp only [kvListAddSection, hf, KvList.addAt]
    rw [hadd]
    exact addAt_wf h hi hfree key pValue

theorem countP_removeSection {l : KvList} {i : ℕ} (hv : (l.node i).valid = false) :
    (kvListRemoveSection l i).nodeArray.countP (·.valid) = l.nodeArray.countP (·.valid) := by
  by_cases hi : i < l.nodeArray.length
  · obtain ⟨as, bs, has, hs⟩ := KvList.split_slot l.nodeArray hi
    have hn : (l.nodeArray.getD i default).valid = false := hv
    simp only [kvListRemoveSection]
    rw [set_slot hs has, hs, List.countP_append, List.countP_append,
      List.countP_cons_of_neg (by simp), List.countP_cons_of_neg (by rw [hn]; simp)]
  · simp only [kvListRemoveSection]
    rw [List.set_eq_of_length_le (Nat.le_of_not_lt hi)]

/-- The section may run only on a valid node: on a free one it counts a node
that it does not remove. -/
theorem removeSection_counted_iff {l : KvList} (h : l.Wf) (i : ℕ) :
    Counted (kvListRemoveSection l i) ↔ (l.node i).valid = true := by
  cases hv : (l.node i).valid with
  | true => exact iff_of_true (removeAt_wf h (lt_depth_of_valid hv) hv).count_eq rfl
  | false =>
    refine iff_of_false ?_ Bool.false_ne_true
    rw [Counted, countP_removeSection hv, ← h.count_eq]
    change sizeDec l.count ≠ l.count
    unfold sizeDec sizeMax
    split_ifs <;> omega

variable {lib : Stdlib}

theorem testNode_list {s t : KvShared} {k : ℕ} {pNode key : Option ℕ}
    (h : testNode s k pNode key = some t) : t.list = s.list := by
  obtain ⟨i, _, rfl⟩ := Option.map_eq_some_iff.mp h
  rfl

theorem runTask_wf {s t : KvShared} {k : ℕ} {task : KvTask} (h : s.list.Wf)
    (hr : ∀ i key, task ≠ .removing i key) (ht : runTask lib s k task = some t) : t.list.Wf := by
  cases task with
  | called c =>
    cases c with
    | add key pValue =>
      obtain rfl := Option.some.inj ht
      exact h
    | remove key =>
      obtain rfl := Option.some.inj ht
      exact h
    | removeNode pNode =>
      rw [testNode_list ht]
      exact h
    | sort =>
      obtain rfl := Option.some.inj ht
      exact kvListSort_wf h
    | clear =>
      obtain rfl := Option.some.inj ht
      exact kvListClear_wf h
  | adding key pValue =>
    obtain rfl := Option.some.inj ht
    exact addSection_wf h key pValue
  | found pNode key =>
    rw [testNode_list ht]
    exact h
  | removing i key => exact absurd rfl (hr i key)
  | returned =>
    obtain rfl := Option.some.inj ht
    exact h

theorem run_removing {s : KvShared} {k i : ℕ} {key : Option ℕ}
    (hk : s.tasks[k]? = some (.removing i key)) :
    step lib s (.run k) =
      some ({ s with list := kvListRemoveSection s.list i }.become k .returned) := by
  simp only [step, hk, runTask]

theorem safe_iff {s : KvShared} (h : s.list.Wf) (c : KvAct) :
    Safe lib s c ↔ StillThere s c := by
  have hcount : Counted s.list := h.count_eq
  cases c with
  | call c => simpa [Safe, RemovesKey, StillThere, step] using hcount
  | run k =>
    cases hk : s.tasks[k]? with
    | none => simpa [Safe, RemovesKey, StillThere, step, hk] using hcount
    | some task =>
      cases task with
      | removing i key =>
        have hc := removeSection_counted_iff h i
        have hs : Safe lib s (.run k) ↔ (s.list.node i).valid = true ∧ RemovesKey s (.run k) := by
          rw [Safe, run_removing hk, ← hc]
          simp [KvShared.become]
        rw [hs]
        cases key with
        | none => simp [RemovesKey, StillThere, hk]
        | some key => simp +contextual [RemovesKey, StillThere, hk]
      | _ =>
        refine iff_of_true ⟨fun t ht => ?_, by simp [RemovesKey, hk]⟩ (by simp [StillThere, hk])
        simp only [step, hk] at ht
        exact (runTask_wf h (by simp) ht).count_eq

theorem step_wf {s t : KvShared} {c : KvAct} (h : s.list.Wf) (hs : Safe lib s c)
    (ht : step lib s c = some t) : t.list.Wf := by
  cases c with
  | call c =>
    obtain rfl := Option.some.inj ht
    exact h
  | run k =>
    cases hk : s.tasks[k]? with
    | none =>
      simp only [step, hk] at ht
      obtain rfl := Option.some.inj ht
      exact h
    | some task =>
      by_cases hr : ∃ i key, task = .removing i key
      · obtain ⟨i, key, rfl⟩ := hr
        rw [run_removing hk] at ht
        obtain rfl := Option.some.inj ht
        have hv := (removeSection_counted_iff h i).mp (hs.1 _ (run_removing hk))
        exact removeAt_wf h (lt_depth_of_valid hv) hv
      · simp only [step, hk] at ht
        exact runTask_wf h (fun i key he => hr ⟨i, key, he⟩) ht

/-- A call that is not interrupted does what the function does. -/
theorem add_uninterrupted (lib : Stdlib) (s : KvShared) (key : ℕ) (pValue : Memory) :
    (exec (step lib) s [.call (.add key pValue), .run s.tasks.length, .run s.tasks.length]).list =
      (kvListAdd s.list key pValue).1 := by
  by_cases hc : s.list.count ≥ s.list.depth
  · simp [exec, step, runTask, KvShared.become, kvListAdd_eq, hc]
  · simp [exec, step, runTask, KvShared.become, kvListAdd_eq, hc]

theorem remove_uninterrupted (lib : Stdlib) (s : KvShared) {key : ℕ} {l : KvList}
    (h : kvListRemove lib s.list key = some l) :
    (exec (step lib) s [.call (.remove key), .run s.tasks.length, .run s.tasks.length,
      .run s.tasks.length]).list = l := by
  cases hs : kvListSearch lib s.list key with
  | none => simp [kvListRemove, hs, kvListRemoveNode] at h
  | some i =>
    rw [kvListRemove, hs, kvListRemoveNode_eq] at h
    cases hv : (s.list.node i).valid <;>
      simp_all [exec, step, runTask, testNode, KvShared.become]

theorem shared_list_safe_iff (lib : Stdlib) (l₀ : KvList)
    (h₀ : ∀ n ∈ l₀.nodeArray, n.valid = false) (actions : List KvAct) :
    Along (step lib) (Safe lib) (init l₀) actions ↔
      Along (step lib) StillThere (init l₀) actions := by
  apply along_iff_of_invariant (I := fun s => s.list.Wf) (L := fun _ _ => True)
  · exact fun s c t h _ hs ht => step_wf h hs ht
  · exact fun s c h _ => safe_iff h c
  · exact kvListInit_wf h₀
  · exact along_of_forall (fun _ _ => trivial) _ _

def twoFree : KvList := ⟨0, 1, [⟨false, 0, 0⟩, ⟨false, 0, 0⟩], 100, fun _ => 0, false⟩

theorem shared_list_safe_iff_two_tasks :
    Along (step Stdlib.reference) (Safe Stdlib.reference) (init twoFree)
        [.call (.add 7 fun _ => 1), .call (.add 3 fun _ => 1), .run 0, .run 1, .run 1, .run 0,
          .call (.remove 3), .run 2, .run 2, .run 2] ↔
      Along (step Stdlib.reference) StillThere (init twoFree)
        [.call (.add 7 fun _ => 1), .call (.add 3 fun _ => 1), .run 0, .run 1, .run 1, .run 0,
          .call (.remove 3), .run 2, .run 2, .run 2] :=
  shared_list_safe_iff Stdlib.reference twoFree (by decide) _

/-- Two tasks remove the same key: both find the node valid before either of
them runs its section. -/
theorem two_removals_miscount :
    ¬ Along (step Stdlib.reference) (Safe Stdlib.reference) (init twoFree)
      [.call (.add 7 fun _ => 1), .run 0, .run 0, .call (.remove 7), .call (.remove 7), .run 1,
        .run 2, .run 1, .run 2, .run 1, .run 2] := by
  decide

/-- The list is sorted between the search and the removal, and another key goes. -/
theorem sort_moves_node :
    ¬ Along (step Stdlib.reference) (Safe Stdlib.reference) (init twoFree)
      [.call (.add 7 fun _ => 1), .run 0, .run 0, .call (.add 3 fun _ => 1), .run 1, .run 1,
        .call (.remove 7), .run 2, .call .sort, .run 3, .run 2, .run 2] := by
  decide

end BleFirmware.KvListTasks
