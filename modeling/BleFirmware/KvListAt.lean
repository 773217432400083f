import BleFirmware.KvListRuns

/-!
# Positions in a kv list

`kv_list_at` counts up to the position, but the slot whose `valid` lets the
counter move is the one with the number of the position, not the next one. So
position 0 never gives a live entry, any other the entry of its own slot, which
is the right one when no slot before it is free; over a free slot the loop does
not end.
-/

namespace BleFirmware.KvListAt
open CSort Loop

variable {l : KvList} {index : ℕ}

theorem kvListAt_mono {n m : ℕ} {x : Option ℕ} (h : kvListAt n l index = some x) (hnm : n ≤ m) :
    kvListAt m l index = some x := by
  unfold kvListAt at h ⊢
  split_ifs at h ⊢ with hi
  · exact h
  · exact run_mono h hnm

theorem kvListAt_zero_free (hc : 0 < l.count) (hv : (l.node 0).valid = false) (n : ℕ) :
    kvListAt (n+1) l 0 = some (some 0) := by
  have hb : kvListAtBody l 0 0 = .inr (some 0) := by simp [kvListAtBody, hc, hv]
  rw [kvListAt, if_neg (by omega), run_succ_inr hb]

theorem kvListAt_zero_valid (hv : (l.node 0).valid = true) (n j : ℕ) :
    kvListAt n l 0 ≠ some (some j) := by
  have hrun : ∀ n i, run (kvListAtBody l 0) n i ≠ some (some j) := by
    intro n
    induction n with
    | zero => simp [run]
    | succ n ih =>
      intro i
      by_cases hi : i < l.count
      · have hb : kvListAtBody l 0 i = .inl (i+1) := by simp [kvListAtBody, hi, hv]
        rw [run_succ_inl hb]
        exact ih (i+1)
      · have hb : kvListAtBody l 0 i = .inr none := by simp [kvListAtBody, hi]
        rw [run_succ_inr hb]
        simp
  unfold kvListAt
  split_ifs
  · simp
  · exact hrun n 0

theorem kvListAt_valid (hpos : 0 < index) (hc : index < l.count)
    (hv : (l.node index).valid = true) : kvListAt index l index = some (some index) := by
  have hrun : ∀ k, k < index → run (kvListAtBody l index) (index-k) k = some (some index) := by
    intro k hk
    obtain ⟨d, hd⟩ : ∃ d, index - k = d+1 := ⟨index-k-1, by omega⟩
    rw [hd]
    induction d generalizing k with
    | zero =>
      have hlast : k+1 = index := by omega
      have hb : kvListAtBody l index k = .inr (some index) := by
        simp [kvListAtBody, hv, hlast, show k < l.count by omega]
      exact run_succ_inr hb 0
    | succ d ih =>
      have hne : k+1 ≠ index := by omega
      have hb : kvListAtBody l index k = .inl (k+1) := by
        simp [kvListAtBody, hv, hne, show k < l.count by omega]
      rw [run_succ_inl hb]
      exact ih (k+1) (by omega) (by omega)
  have h := hrun 0 hpos
  rw [kvListAt, if_neg (by omega)]
  simpa using h

theorem kvListAt_free (hpos : 0 < index) (hc : index < l.count)
    (hv : (l.node index).valid = false) (n : ℕ) : kvListAt n l index = none := by
  rw [kvListAt, if_neg (by omega)]
  apply diverges_of_invariant (fun i => i = 0)
  · rintro _ rfl
    have hne : 0 ≠ index := by omega
    exact ⟨0, by simp [kvListAtBody, hv, hne, show 0 < l.count by omega], rfl⟩
  · rfl

theorem kvListAt_index {n i : ℕ} (h : kvListAt n l index = some (some i)) : i = index := by
  rw [kvListAt] at h
  split_ifs at h
  · cases Option.some.inj h
  · obtain ⟨k, hk⟩ := exists_of_run h
    simp only [kvListAtBody] at hk
    grind

/-- `kv_list_at` returns at this position: NULL past the end, else a valid node with
the key that `kv_list_walk` reports there, and the node of no other position. -/
structure EnumeratesAt (l : KvList) (index : ℕ) : Prop where
  returns : ∃ fuel r, kvListAt fuel l index = some r
  null_iff : ∀ fuel r, kvListAt fuel l index = some r → (r = none ↔ l.count ≤ index)
  entry : ∀ fuel i, kvListAt fuel l index = some (some i) →
    (l.node i).valid = true ∧ (kvListWalk l)[index]? = some (l.node i).key
  distinct : ∀ fuel fuel' index' i, index' ≠ index → kvListAt fuel l index = some (some i) →
    kvListAt fuel' l index' ≠ some (some i)

def AtPlace (l : KvList) (index : ℕ) : Prop :=
  0 < index ∧ (l.node index).valid = true ∧ (kvListWalk l)[index]? = some (l.node index).key

theorem enumeratesAt_end (h : l.count ≤ index) : EnumeratesAt l index := by
  have hnull : ∀ fuel, kvListAt fuel l index = some none := by
    intro fuel
    rw [kvListAt, if_pos h]
  refine ⟨⟨0, none, hnull 0⟩, ?_, ?_, ?_⟩
  · intro fuel r hr
    rw [hnull] at hr
    exact iff_of_true (Option.some.inj hr).symm h
  · intro fuel i hi
    rw [hnull] at hi
    cases hi
  · intro fuel fuel' index' i _ hi
    rw [hnull] at hi
    cases hi

theorem enumeratesAt_place (hc : index < l.count) (h : AtPlace l index) :
    EnumeratesAt l index := by
  obtain ⟨hpos, hv, hwalk⟩ := h
  have hat := kvListAt_valid hpos hc hv
  refine ⟨⟨index, some index, hat⟩, ?_, ?_, ?_⟩
  · intro fuel r hr
    have hr' := kvListAt_mono hr (Nat.le_max_left fuel index)
    rw [kvListAt_mono hat (Nat.le_max_right fuel index)] at hr'
    obtain rfl := Option.some.inj hr'
    exact iff_of_false (Option.some_ne_none index) (Nat.not_le.mpr hc)
  · intro fuel i hi
    obtain rfl := kvListAt_index hi
    exact ⟨hv, hwalk⟩
  · intro fuel fuel' index' i hne hi hi'
    exact hne ((kvListAt_index hi').symm.trans (kvListAt_index hi))

theorem EnumeratesAt.atPlace (h : EnumeratesAt l index) (hc : index < l.count) :
    AtPlace l index := by
  obtain ⟨fuel, r, hr⟩ := h.returns
  cases r with
  | none => exact absurd ((h.null_iff fuel none hr).mp rfl) (Nat.not_le.mpr hc)
  | some i =>
    obtain rfl := kvListAt_index hr
    obtain ⟨hv, hwalk⟩ := h.entry fuel i hr
    refine ⟨?_, hv, hwalk⟩
    by_contra hzero
    obtain rfl : i = 0 := by omega
    exact kvListAt_zero_valid hv fuel 0 hr

theorem walk_place {i : ℕ} (hv : (l.node i).valid = true) :
    (kvListWalk l)[(l.nodeArray.take i).countP (·.valid)]? = some (l.node i).key := by
  have hi : i < l.nodeArray.length := lt_depth_of_valid hv
  have hnode : l.node i = l.nodeArray[i] := by simp [KvList.node, hi]
  have hsplit : l.nodeArray = l.nodeArray.take i ++ l.node i :: l.nodeArray.drop (i+1) := by
    rw [hnode, ← List.drop_eq_getElem_cons hi, List.take_append_drop]
  let key? := fun n : KvNode => if n.valid then some n.key else none
  have hlen : ∀ ns : List KvNode, (ns.filterMap key?).length = ns.countP (·.valid) := by
    intro ns
    induction ns with
    | nil => rfl
    | cons n ns ih => cases hn : n.valid <;> simp [key?, hn, ih]
  have hwalk : kvListWalk l = (l.nodeArray.take i).filterMap key? ++
      (l.node i).key :: (l.nodeArray.drop (i+1)).filterMap key? := by
    have hkey : key? (l.node i) = some (l.node i).key := by simp [key?, hv]
    rw [← List.filterMap_cons_some hkey, ← List.filterMap_append, ← hsplit]
    rfl
  rw [hwalk, ← hlen, List.getElem?_append_right (Nat.le_refl _), Nat.sub_self,
    List.getElem?_cons_zero]

theorem take_nodeArray {i : ℕ} (hi : i ≤ l.depth) :
    l.nodeArray.take i = (List.range i).map l.node := by
  have hi' : i ≤ l.nodeArray.length := hi
  apply List.ext_getElem
  · simp [hi']
  · intro j h₁ h₂
    have hj : j < l.nodeArray.length := by
      rw [List.length_take] at h₁
      omega
    simp [KvList.node, hj]

theorem countP_take_iff {i : ℕ} (hi : i ≤ l.depth) :
    (l.nodeArray.take i).countP (·.valid) = i ↔ ∀ j < i, (l.node j).valid = true := by
  have hlen : ((List.range i).map l.node).length = i := by simp
  rw [take_nodeArray hi]
  conv_lhs => rhs; rw [← hlen]
  rw [List.countP_eq_length]
  simp

/-- Unless keys repeat, the entry of a position is in its slot only when no slot up
to there is free. -/
theorem atPlace_iff (hnodup : l.entries.keys.Nodup) :
    AtPlace l index ↔ 0 < index ∧ ∀ j ≤ index, (l.node j).valid = true := by
  rw [← KvList.filterMap_walk] at hnodup
  constructor
  · rintro ⟨hpos, hv, hwalk⟩
    have hplace := walk_place hv
    rw [← hwalk] at hplace
    have hlt : index < (kvListWalk l).length := (List.getElem?_eq_some_iff.mp hwalk).1
    have hcount := (List.getElem?_inj hlt hnodup).mp hplace.symm
    have hall := (countP_take_iff (lt_depth_of_valid hv).le).mp hcount.symm
    refine ⟨hpos, ?_⟩
    intro j hj
    rcases Nat.lt_or_eq_of_le hj with hlt | rfl
    · exact hall j hlt
    · exact hv
  · rintro ⟨hpos, hall⟩
    have hv := hall index le_rfl
    have hplace := walk_place hv
    rw [(countP_take_iff (lt_depth_of_valid hv).le).mpr fun j hj => hall j hj.le] at hplace
    exact ⟨hpos, hv, hplace⟩

theorem at_enumerates_iff (l : KvList) (index : ℕ) :
    (EnumeratesAt l index ↔ l.count ≤ index ∨ AtPlace l index) ∧
      (l.entries.keys.Nodup →
        (AtPlace l index ↔ 0 < index ∧ ∀ j ≤ index, (l.node j).valid = true)) := by
  refine ⟨⟨?_, ?_⟩, atPlace_iff⟩
  · intro h
    by_cases hc : l.count ≤ index
    · exact Or.inl hc
    · exact Or.inr (h.atPlace (Nat.lt_of_not_le hc))
  · rintro (hc | hplace)
    · exact enumeratesAt_end hc
    · by_cases hc : l.count ≤ index
      · exact enumeratesAt_end hc
      · exact enumeratesAt_place (Nat.lt_of_not_le hc) hplace

/-- With one entry in slot 0, position 0 gives NULL. -/
theorem first_entry_missed :
    ¬ EnumeratesAt (Run.exec (KvListRuns.step Stdlib.reference) (kvListInit KvListRuns.twoFree)
      [.add 7 fun _ => 1]) 0 := by
  intro h
  have hnull := (h.null_iff 2 none (by decide)).mp rfl
  exact absurd hnull (by decide)

end BleFirmware.KvListAt
