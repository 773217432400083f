import BleFirmware.Base.Run
import BleFirmware.BleLink
import BleFirmware.KvListMap

/-!
# The link registry as a map from handle to link

`kv_list_add` does not look for the key it is given, so the registry is a map
only while no handle is added that a live link carries. That the node which
`ble_link_add` writes through is never NULL does not depend on the handles.
-/

namespace BleFirmware.BleLinkMap
open Bytes CSort Run KvListMap

inductive Call
  | add (a : NewLink)
  | remove (handle : UInt16)

def step (lib : Stdlib) (cfg : BleLinkConfig) (r : BleLinkRegistry) : Call → Option BleLinkRegistry
  | .add a => (bleLinkAdd cfg r a).map fun x => x.1
  | .remove handle => bleLinkRemove lib r handle

def live (r : BleLinkRegistry) : List ℕ := kvListWalk r.linkList

/-- No live link carries the handle of a new one, unless there is no room for it. -/
def NewHandle (cfg : BleLinkConfig) (r : BleLinkRegistry) : Call → Prop
  | .add a => a.handle.toNat ∉ live r ∨ (live r).length = cfg.linkCount
  | .remove _ => True

instance (cfg : BleLinkConfig) (r : BleLinkRegistry) (c : Call) : Decidable (NewHandle cfg r c) := by
  cases c <;> unfold NewHandle <;> infer_instance

/-- The links of all other handles keep their place and their content. -/
def Untouched (lib : Stdlib) (r r' : BleLinkRegistry) (handle : UInt16) : Prop :=
  ∀ h, h ≠ handle → bleLinkGet lib r' h = bleLinkGet lib r h ∧
    ∀ p, bleLinkGet lib r h = some p → r'.link p = r.link p

structure IsMap (lib : Stdlib) (cfg : BleLinkConfig) (r : BleLinkRegistry) : Prop where
  distinct : (live r).Nodup
  get_isSome : ∀ h, (bleLinkGet lib r h).isSome ↔ h.toNat ∈ live r
  count_eq : (bleLinkCount r).toNat = (live r).toFinset.card % 256
  add_full : ∀ a, (live r).length = cfg.linkCount →
    bleLinkAdd cfg r a = some (bleLinkInit r, none) ∧ live (bleLinkInit r) = live r
  add_room : ∀ a, a.handle.toNat ∉ live r → (live r).length ≠ cfg.linkCount →
    ∃ r' p, bleLinkAdd cfg r a = some (r', some p) ∧ bleLinkGet lib r' a.handle = some p ∧
      r'.link p = newLink cfg a ∧ Untouched lib r r' a.handle
  remove : ∀ h, ∃ r', bleLinkRemove lib r h = some r' ∧ bleLinkGet lib r' h = none ∧
    bleLinkAliveByHandle lib r' h = false ∧ Untouched lib r r' h

section Static

variable (cfg : BleLinkConfig) (dataArray : ℕ)

theorem live_static : live (bleLinkStatic cfg dataArray) = [] := by
  simp [live, kvListWalk, bleLinkStatic]

theorem get_static (lib : Stdlib) (h : UInt16) :
    bleLinkGet lib (bleLinkStatic cfg dataArray) h = none := by
  have hs : ∀ n key, generalSearchFrom 0 key (List.replicate n ⟨false, 0, 0⟩) 0 0 = none := by
    intro n key
    cases n with
    | zero => rfl
    | succ n => simp [List.replicate_succ, generalSearchFrom]
  simp [bleLinkGet, kvListSearch, bleLinkStatic, generalSearch, hs]

theorem remove_static (lib : Stdlib) (h : UInt16) :
    bleLinkRemove lib (bleLinkStatic cfg dataArray) h = some (bleLinkStatic cfg dataArray) := by
  have hg := get_static cfg dataArray lib h
  rw [bleLinkGet, Option.map_eq_none_iff] at hg
  simp only [bleLinkRemove, hg]

end Static

theorem bleLinkInit_inited {r : BleLinkRegistry} (h : r.isInited = true) : bleLinkInit r = r := by
  simp [bleLinkInit, h]

theorem bleLinkAdd_init (cfg : BleLinkConfig) (r : BleLinkRegistry) (a : NewLink) :
    bleLinkAdd cfg (bleLinkInit r) a = bleLinkAdd cfg r a := by
  have hi : (bleLinkInit r).isInited = true := by
    cases h : r.isInited <;> simp [bleLinkInit, h]
  rw [bleLinkAdd, bleLinkAdd, bleLinkInit_inited hi]

/-- What every sequence of calls keeps, whatever the handles are. -/
structure Sound (cfg : BleLinkConfig) (r : BleLinkRegistry) : Prop where
  inited : r.isInited = true
  wf : r.linkList.Wf
  depth_eq : r.linkList.depth = cfg.linkCount

def addLink (cfg : BleLinkConfig) (r : BleLinkRegistry) (i : ℕ) (a : NewLink) : BleLinkRegistry :=
  { r with linkList := r.linkList.addAt i a.handle.toNat (bleLinkLayout.object (newLink cfg a)) }

theorem remove_absent (lib : Stdlib) {r : BleLinkRegistry} {handle : UInt16}
    (hs : kvListSearch lib r.linkList handle.toNat = none) :
    bleLinkRemove lib r handle = some r := by
  simp only [bleLinkRemove, hs]

namespace Sound

variable {cfg : BleLinkConfig} {r : BleLinkRegistry} (h : Sound cfg r)

include h

theorem add_full (a : NewLink) (hc : r.linkList.count = cfg.linkCount) :
    bleLinkAdd cfg r a = some (r, none) := by
  simp only [bleLinkAdd, bleLinkInit_inited h.inited, if_pos hc]

theorem add_room (a : NewLink) (hc : r.linkList.count ≠ cfg.linkCount) :
    ∃ i, i < r.linkList.depth ∧ (r.linkList.node i).valid = false ∧
      bleLinkAdd cfg r a = some (addLink cfg r i a, some (r.linkList.node i).dataPtr) := by
  have hd := h.depth_eq
  have hle := h.wf.count_le
  obtain ⟨i, hi, hv, ha⟩ := kvListAdd_room h.wf (by omega) a.handle.toNat
    (bleLinkLayout.object (newLink cfg a))
  refine ⟨i, hi, hv, ?_⟩
  have hp := addAt_dataPtr (l := r.linkList) (i := i) a.handle.toNat
    (bleLinkLayout.object (newLink cfg a)) i
  simp only [bleLinkAdd, bleLinkInit_inited h.inited, if_neg hc, ha, hp, addLink]

theorem addLink_sound (a : NewLink) {i : ℕ} (hi : i < r.linkList.depth)
    (hv : (r.linkList.node i).valid = false) : Sound cfg (addLink cfg r i a) := by
  refine ⟨h.inited, addAt_wf h.wf hi hv _ _, ?_⟩
  rw [← h.depth_eq]
  simp [addLink, KvList.depth, KvList.addAt]

theorem removeAt_sound {i : ℕ} (hi : i < r.linkList.depth)
    (hv : (r.linkList.node i).valid = true) :
    Sound cfg { r with linkList := r.linkList.removeAt i } := by
  refine ⟨h.inited, removeAt_wf h.wf hi hv, ?_⟩
  rw [← h.depth_eq]
  simp [KvList.depth, KvList.removeAt]

theorem remove_present (lib : Stdlib) {handle : UInt16} {i : ℕ}
    (hs : kvListSearch lib r.linkList handle.toNat = some i) :
    bleLinkRemove lib r handle = some { r with linkList := r.linkList.removeAt i } := by
  have hv := (kvListSearch_some h.wf hs).2.1
  simp only [bleLinkRemove, hs, kvListRemoveNode_valid hv, Option.map_some]

theorem step_sound (lib : Stdlib) (c : Call) : ∃ r', step lib cfg r c = some r' ∧ Sound cfg r' := by
  cases c with
  | add a =>
    by_cases hc : r.linkList.count = cfg.linkCount
    · exact ⟨r, by rw [step, h.add_full a hc, Option.map_some], h⟩
    · obtain ⟨i, hi, hv, ha⟩ := h.add_room a hc
      exact ⟨_, by rw [step, ha, Option.map_some], h.addLink_sound a hi hv⟩
  | remove handle =>
    cases hs : kvListSearch lib r.linkList handle.toNat with
    | none => exact ⟨r, remove_absent lib hs, h⟩
    | some i =>
      obtain ⟨hi, hv, _⟩ := kvListSearch_some h.wf hs
      exact ⟨_, h.remove_present lib hs, h.removeAt_sound hi hv⟩

end Sound

/-- An initialised registry whose links are the map `m`. -/
structure Ready (cfg : BleLinkConfig) (r : BleLinkRegistry) (m : Map) : Prop where
  inited : r.isInited = true
  holds : Holds cfg.linkCount bleLinkLayout.size r.linkList ⟨m, false⟩

theorem ready_init (cfg : BleLinkConfig) (dataArray : ℕ) :
    Ready cfg (bleLinkInit (bleLinkStatic cfg dataArray)) ∅ := by
  refine ⟨rfl, ?_⟩
  have hn : ∀ n ∈ (bleLinkStatic cfg dataArray).linkList.nodeArray, n.valid = false := by
    intro n hn
    rw [List.eq_of_mem_replicate hn]
  have hd : (bleLinkStatic cfg dataArray).linkList.depth = cfg.linkCount := by
    simp [KvList.depth, bleLinkStatic]
  have hh := holds_init hn
  rw [hd] at hh
  exact hh

namespace Ready

variable {cfg : BleLinkConfig} {r : BleLinkRegistry} {m : Map} (h : Ready cfg r m)

include h

theorem mem_live {key : ℕ} : key ∈ live r ↔ key ∈ m := by
  rw [live, KvList.filterMap_walk, h.holds.mem_keys]

theorem length_live : (live r).length = r.linkList.count := by
  rw [live, length_walk h.holds, h.holds.card_keys]

theorem live_nodup : (live r).Nodup := by
  rw [live, KvList.filterMap_walk]
  exact h.holds.nodup_keys

theorem get_eq (lib : Stdlib) (handle : UInt16) :
    bleLinkGet lib r handle =
      (slotOf r.linkList handle.toNat).map fun i => (r.linkList.node i).dataPtr := by
  rw [bleLinkGet, h.holds.search_eq]

theorem get_isSome (lib : Stdlib) (handle : UInt16) :
    (bleLinkGet lib r handle).isSome ↔ handle.toNat ∈ live r := by
  rw [h.get_eq, Option.isSome_map, slotOf_isSome, live, KvList.filterMap_walk]

theorem get_eq_none (lib : Stdlib) (handle : UInt16) (hm : handle.toNat ∉ m) :
    bleLinkGet lib r handle = none := by
  rw [← Option.not_isSome_iff_eq_none, h.get_isSome, h.mem_live]
  exact hm

theorem sound : Sound cfg r := ⟨h.inited, h.holds.wf, h.holds.depth_eq⟩

end Ready

section Add

variable {cfg : BleLinkConfig} {r : BleLinkRegistry} {m : Map} (h : Ready cfg r m) {a : NewLink}
  {i : ℕ} (hi : i < r.linkList.depth) (hv : (r.linkList.node i).valid = false)
  (hk : a.handle.toNat ∉ m)

theorem addLink_dataPtr (j : ℕ) :
    ((addLink cfg r i a).linkList.node j).dataPtr = (r.linkList.node j).dataPtr :=
  addAt_dataPtr _ _ j

include h hi hv hk in
theorem addLink_ready : ∃ m', Ready cfg (addLink cfg r i a) m' :=
  ⟨_, h.inited, holds_addAt h.holds hi hv hk _⟩

include h hi hv hk in
theorem addLink_get (lib : Stdlib) :
    bleLinkGet lib (addLink cfg r i a) a.handle = some (r.linkList.node i).dataPtr := by
  obtain ⟨m', hm'⟩ := addLink_ready h hi hv hk
  have hnode := addAt_node hi a.handle.toNat (bleLinkLayout.object (newLink cfg a))
  have hs := hm'.holds.slotOf_eq (i := i) (by simpa [addLink, KvList.depth, KvList.addAt] using hi)
    (by simp [addLink, hnode])
  rw [hm'.get_eq]
  simp only [addLink, hnode] at hs
  simp only [addLink, hs, Option.map_some, hnode]

include h in
theorem addLink_link : (addLink cfg r i a).link (r.linkList.node i).dataPtr = newLink cfg a := by
  have hp := addAt_payload (l := r.linkList) (i := i) a.handle.toNat
    (bleLinkLayout.object (newLink cfg a)) (n := r.linkList.node i) rfl
  have hw := h.holds.width_eq
  simp only [KvList.payload, KvList.addAt, hw, Layout.firstBytes_object] at hp
  simp only [BleLinkRegistry.link, addLink, KvList.addAt, hw, hp, bleLinkLayout.ofBytes_toBytes]

include h hi hv hk in
theorem addLink_untouched (lib : Stdlib) : Untouched lib r (addLink cfg r i a) a.handle := by
  obtain ⟨m', hm'⟩ := addLink_ready h hi hv hk
  intro handle hne
  have hne' : a.handle.toNat ≠ handle.toNat := fun he => hne (UInt16.toNat_inj.mp he).symm
  have hslot : slotOf (addLink cfg r i a).linkList handle.toNat =
      slotOf r.linkList handle.toNat :=
    slotOf_set hi rfl (by simp [hv]) (fun _ => hne')
  constructor
  · rw [hm'.get_eq, h.get_eq, hslot]
    simp only [addLink_dataPtr]
  · intro p hp
    rw [h.get_eq] at hp
    obtain ⟨j, hj, rfl⟩ := Option.map_eq_some_iff.mp hp
    obtain ⟨hlt, hvj, _⟩ := slotOf_some hj
    have hji : j ≠ i := by
      intro he
      rw [he, hv] at hvj
      exact absurd hvj (by simp)
    have hpay := addAt_payload_ne h.holds.wf hi a.handle.toNat
      (bleLinkLayout.object (newLink cfg a)) hlt hji
    have hw := h.holds.width_eq
    simp only [KvList.payload, KvList.addAt, hw] at hpay
    simp only [BleLinkRegistry.link, addLink, KvList.addAt, hw, hpay]

end Add

section Remove

variable {cfg : BleLinkConfig} {r : BleLinkRegistry} {m : Map} (h : Ready cfg r m)

include h

theorem removeAt_ready {i : ℕ} (hi : i < r.linkList.depth) (hv : (r.linkList.node i).valid = true) :
    Ready cfg { r with linkList := r.linkList.removeAt i } (m.erase (r.linkList.node i).key) :=
  ⟨h.inited, holds_removeAt h.holds hi hv⟩

theorem removeAt_untouched (lib : Stdlib) {handle : UInt16} {i : ℕ} (hi : i < r.linkList.depth)
    (hv : (r.linkList.node i).valid = true) (hk : (r.linkList.node i).key = handle.toNat) :
    Untouched lib r { r with linkList := r.linkList.removeAt i } handle := by
  have hr := removeAt_ready h hi hv
  intro handle' hne
  have hne' : handle.toNat ≠ handle'.toNat := fun he => hne (UInt16.toNat_inj.mp he).symm
  have hslot : slotOf (r.linkList.removeAt i) handle'.toNat = slotOf r.linkList handle'.toNat := by
    apply slotOf_set hi rfl
    · intro _ he
      exact hne' (hk.symm.trans he)
    · simp
  refine ⟨?_, fun p _ => rfl⟩
  rw [hr.get_eq, h.get_eq, hslot]
  simp only [removeAt_dataPtr]

theorem remove_spec (lib : Stdlib) (handle : UInt16) :
    ∃ r' m', bleLinkRemove lib r handle = some r' ∧ Ready cfg r' m' ∧ handle.toNat ∉ m' ∧
      Untouched lib r r' handle := by
  cases hs : kvListSearch lib r.linkList handle.toNat with
  | none =>
    refine ⟨r, m, remove_absent lib hs, h, ?_, ?_⟩
    · rw [← h.holds.mem_keys]
      exact (kvListSearch_eq_none h.holds.wf).mp hs
    · intro handle' _
      exact ⟨rfl, fun _ _ => rfl⟩
  | some i =>
    obtain ⟨hi, hv, hk⟩ := kvListSearch_some h.holds.wf hs
    have hr := removeAt_ready h hi hv
    rw [hk] at hr
    exact ⟨_, _, h.sound.remove_present lib hs, hr, Finmap.notMem_erase_self,
      removeAt_untouched h lib hi hv hk⟩

end Remove

theorem Ready.isMap {cfg : BleLinkConfig} {r : BleLinkRegistry} {m : Map} (h : Ready cfg r m)
    (lib : Stdlib) : IsMap lib cfg r where
  distinct := h.live_nodup
  get_isSome := h.get_isSome lib
  count_eq := by
    rw [List.toFinset_card_of_nodup h.live_nodup, h.length_live, bleLinkCount]
    simp
  add_full a hc := by
    rw [h.length_live] at hc
    rw [bleLinkInit_inited h.inited]
    exact ⟨h.sound.add_full a hc, rfl⟩
  add_room a hk hc := by
    rw [h.length_live] at hc
    rw [h.mem_live] at hk
    obtain ⟨i, hi, hv, ha⟩ := h.sound.add_room a hc
    exact ⟨addLink cfg r i a, _, ha, addLink_get h hi hv hk lib, addLink_link h,
      addLink_untouched h hi hv hk lib⟩
  remove handle := by
    obtain ⟨r', m', hr, hready, hm, hu⟩ := remove_spec h lib handle
    have hg := hready.get_eq_none lib _ hm
    refine ⟨r', hr, hg, ?_, hu⟩
    simp only [bleLinkAliveByHandle, hg]

/-- Before the first add the registry behaves as an initialised empty one. -/
theorem static_isMap (lib : Stdlib) (cfg : BleLinkConfig) (dataArray : ℕ) :
    IsMap lib cfg (bleLinkStatic cfg dataArray) := by
  have hr := ready_init cfg dataArray
  have hm := hr.isMap lib
  have hl := live_static cfg dataArray
  have hli : live (bleLinkInit (bleLinkStatic cfg dataArray)) = [] := by
    apply List.eq_nil_iff_forall_not_mem.mpr
    intro key hk
    exact Finmap.notMem_empty (hr.mem_live.mp hk)
  have hg := get_static cfg dataArray lib
  refine
    { distinct := ?_, get_isSome := ?_, count_eq := ?_, add_full := ?_, add_room := ?_,
      remove := ?_ }
  · simp [hl]
  · intro h
    simp [hg, hl]
  · rw [hl]
    simp [bleLinkCount, bleLinkStatic]
  · intro a hc
    rw [hl] at hc
    obtain ⟨ha, _⟩ := hm.add_full a (by rwa [hli])
    rw [bleLinkAdd_init, bleLinkInit_inited hr.inited] at ha
    exact ⟨ha, by rw [hli, hl]⟩
  · intro a _ hc
    rw [hl] at hc
    obtain ⟨r', p, ha, hget, hlink, hu⟩ := hm.add_room a (by simp [hli]) (by rwa [hli])
    rw [bleLinkAdd_init] at ha
    refine ⟨r', p, ha, hget, hlink, ?_⟩
    intro handle hne
    obtain ⟨hsame, _⟩ := hu handle hne
    have hnone := hr.get_eq_none lib handle Finmap.notMem_empty
    rw [hg]
    exact ⟨hsame.trans hnone, by simp⟩
  · intro handle
    refine ⟨_, remove_static cfg dataArray lib handle, hg handle, ?_, ?_⟩
    · simp only [bleLinkAliveByHandle, hg]
    · intro h _
      exact ⟨rfl, fun _ _ => rfl⟩

theorem step_static (lib : Stdlib) (cfg : BleLinkConfig) (dataArray : ℕ) (c : Call) :
    step lib cfg (bleLinkStatic cfg dataArray) c = some (bleLinkStatic cfg dataArray) ∨
      step lib cfg (bleLinkStatic cfg dataArray) c =
        step lib cfg (bleLinkInit (bleLinkStatic cfg dataArray)) c := by
  cases c with
  | add a =>
    right
    rw [step, step, bleLinkAdd_init]
  | remove handle =>
    left
    exact remove_static cfg dataArray lib handle

theorem step_total (lib : Stdlib) {cfg : BleLinkConfig} {dataArray : ℕ} {r : BleLinkRegistry}
    (h : r = bleLinkStatic cfg dataArray ∨ Sound cfg r) (c : Call) :
    ∃ r', step lib cfg r c = some r' ∧ (r' = bleLinkStatic cfg dataArray ∨ Sound cfg r') := by
  rcases h with rfl | h
  · rcases step_static lib cfg dataArray c with hs | hs
    · exact ⟨_, hs, Or.inl rfl⟩
    · obtain ⟨r', hr', hsound⟩ := (ready_init cfg dataArray).sound.step_sound lib c
      exact ⟨r', hs.trans hr', Or.inr hsound⟩
  · obtain ⟨r', hr', hsound⟩ := h.step_sound lib c
    exact ⟨r', hr', Or.inr hsound⟩

theorem Ready.step_ready {cfg : BleLinkConfig} {r r' : BleLinkRegistry} {m : Map}
    (h : Ready cfg r m) (lib : Stdlib) (c : Call) (hc : NewHandle cfg r c)
    (hs : step lib cfg r c = some r') : ∃ m', Ready cfg r' m' := by
  cases c with
  | add a =>
    by_cases hfull : r.linkList.count = cfg.linkCount
    · rw [step, h.sound.add_full a hfull, Option.map_some, Option.some.injEq] at hs
      exact ⟨m, hs ▸ h⟩
    · have hk : a.handle.toNat ∉ m := by
        rw [NewHandle, h.length_live, h.mem_live] at hc
        exact hc.resolve_right hfull
      obtain ⟨i, hi, hv, ha⟩ := h.sound.add_room a hfull
      rw [step, ha, Option.map_some, Option.some.injEq] at hs
      obtain ⟨m', hm'⟩ := addLink_ready h hi hv hk
      exact ⟨m', hs ▸ hm'⟩
  | remove handle =>
    obtain ⟨k, m', hk, hready, _⟩ := remove_spec h lib handle
    obtain rfl := Option.some.inj (hk.symm.trans hs)
    exact ⟨m', hready⟩

def Distinct (cfg : BleLinkConfig) (dataArray : ℕ) (r : BleLinkRegistry) : Prop :=
  r = bleLinkStatic cfg dataArray ∨ ∃ m, Ready cfg r m

theorem step_distinct {lib : Stdlib} {cfg : BleLinkConfig} {dataArray : ℕ}
    (r : BleLinkRegistry) (c : Call) (r' : BleLinkRegistry) (h : Distinct cfg dataArray r)
    (hc : NewHandle cfg r c) (hs : step lib cfg r c = some r') : Distinct cfg dataArray r' := by
  rcases h with rfl | ⟨m, h⟩
  · rcases step_static lib cfg dataArray c with hs' | hs'
    · exact Or.inl (Option.some.inj (hs.symm.trans hs'))
    · have hr := ready_init cfg dataArray
      right
      apply hr.step_ready lib c
      · cases c with
        | add a =>
          left
          rw [hr.mem_live]
          exact Finmap.notMem_empty
        | remove handle => trivial
      · exact hs'.symm.trans hs
  · exact Or.inr (h.step_ready lib c hc hs)

theorem distinct_run {lib : Stdlib} {cfg : BleLinkConfig} {dataArray : ℕ} {calls : List Call}
    (h : Along (step lib cfg) (NewHandle cfg) (bleLinkStatic cfg dataArray) calls) :
    Distinct cfg dataArray (exec (step lib cfg) (bleLinkStatic cfg dataArray) calls) :=
  exec_invariant step_distinct (Or.inl rfl) h

theorem total_run (lib : Stdlib) (cfg : BleLinkConfig) (dataArray : ℕ) (calls : List Call)
    (c : Call) :
    (step lib cfg (exec (step lib cfg) (bleLinkStatic cfg dataArray) calls) c).isSome := by
  have hstep : ∀ r c r', r = bleLinkStatic cfg dataArray ∨ Sound cfg r → True →
      step lib cfg r c = some r' → r' = bleLinkStatic cfg dataArray ∨ Sound cfg r' := by
    intro r c r' h _ hs
    obtain ⟨k, hk, hsound⟩ := step_total lib h c
    obtain rfl := Option.some.inj (hk.symm.trans hs)
    exact hsound
  have hk := exec_invariant hstep (Or.inl rfl) (along_of_forall (fun _ _ => trivial) _ calls)
  obtain ⟨r', hr', _⟩ := step_total lib hk c
  rw [hr', Option.isSome_some]

theorem Ready.exec_adds {cfg : BleLinkConfig} {r : BleLinkRegistry} {m : Map}
    (h : Ready cfg r m) (lib : Stdlib) (links : List NewLink)
    (hnodup : (links.map fun a => a.handle.toNat).Nodup)
    (hnew : ∀ a ∈ links, a.handle.toNat ∉ m)
    (hroom : r.linkList.count + links.length ≤ cfg.linkCount) :
    ∃ m', Ready cfg (exec (step lib cfg) r (links.map .add)) m' ∧
      (exec (step lib cfg) r (links.map .add)).linkList.count =
        r.linkList.count + links.length := by
  induction links generalizing r m with
  | nil => exact ⟨m, h, rfl⟩
  | cons a links ih =>
    obtain ⟨hfirst, hnodup⟩ := List.nodup_cons.mp hnodup
    have hlen : (a :: links).length = links.length + 1 := rfl
    obtain ⟨i, hi, hv, ha⟩ := h.sound.add_room a (by omega)
    have hstep : step lib cfg r (.add a) = some (addLink cfg r i a) := by
      rw [step, ha, Option.map_some]
    have hready : Ready cfg (addLink cfg r i a) (m.insert a.handle.toNat _) :=
      ⟨h.inited, holds_addAt h.holds hi hv (hnew a (by simp)) _⟩
    have hcount : (addLink cfg r i a).linkList.count = r.linkList.count + 1 := rfl
    obtain ⟨m', hm', hc⟩ := ih hready hnodup
      (by
        intro b hb hmem
        rcases Finmap.mem_insert.mp hmem with he | hmem
        · apply hfirst
          exact List.mem_map.mpr ⟨b, hb, he⟩
        · exact hnew b (by simp [hb]) hmem)
      (by omega)
    rw [List.map_cons, exec_cons_some hstep]
    exact ⟨m', hm', by omega⟩

theorem exec_static_adds (lib : Stdlib) (cfg : BleLinkConfig) (dataArray : ℕ)
    {links : List NewLink} (h : links ≠ []) :
    exec (step lib cfg) (bleLinkStatic cfg dataArray) (links.map .add) =
      exec (step lib cfg) (bleLinkInit (bleLinkStatic cfg dataArray)) (links.map .add) := by
  cases links with
  | nil => exact absurd rfl h
  | cons a links =>
    obtain ⟨r', hr', _⟩ := step_total lib
      (Or.inl rfl : bleLinkStatic cfg dataArray = bleLinkStatic cfg dataArray ∨ _) (.add a)
    have hi : step lib cfg (bleLinkInit (bleLinkStatic cfg dataArray)) (.add a) = some r' := by
      rw [step, bleLinkAdd_init]
      exact hr'
    rw [List.map_cons, exec_cons_some hr', exec_cons_some hi]

theorem link_registry_is_map (lib : Stdlib) (cfg : BleLinkConfig) (dataArray : ℕ)
    (calls : List Call) :
    (∀ c, (step lib cfg (exec (step lib cfg) (bleLinkStatic cfg dataArray) calls) c).isSome) ∧
      (Along (step lib cfg) (NewHandle cfg) (bleLinkStatic cfg dataArray) calls →
        IsMap lib cfg (exec (step lib cfg) (bleLinkStatic cfg dataArray) calls)) := by
  refine ⟨total_run lib cfg dataArray calls, ?_⟩
  intro h
  rcases distinct_run h with hs | ⟨m, hr⟩
  · rw [hs]
    exact static_isMap lib cfg dataArray
  · exact hr.isMap lib

def fourLinks : BleLinkConfig := ⟨4, 244⟩

def linkWith (handle : UInt16) : NewLink := ⟨handle, 1, 0, fun _ => 1, 1000⟩

theorem link_registry_is_map_reused_handle :
    (∀ c, (step Stdlib.reference fourLinks (exec (step Stdlib.reference fourLinks)
        (bleLinkStatic fourLinks 512)
        [.add (linkWith 5), .add (linkWith 6), .remove 5, .add (linkWith 5)]) c).isSome) ∧
      IsMap Stdlib.reference fourLinks (exec (step Stdlib.reference fourLinks)
        (bleLinkStatic fourLinks 512)
        [.add (linkWith 5), .add (linkWith 6), .remove 5, .add (linkWith 5)]) :=
  have h := link_registry_is_map Stdlib.reference fourLinks 512
    [.add (linkWith 5), .add (linkWith 6), .remove 5, .add (linkWith 5)]
  ⟨h.1, h.2 (by decide)⟩

def manyLinks : List NewLink := (List.range 256).map fun i => linkWith (UInt16.ofNat i)

theorem manyLinks_nodup : (manyLinks.map fun a => a.handle.toNat).Nodup := by
  have hm : manyLinks.map (fun a => a.handle.toNat) = List.range 256 := by
    rw [manyLinks, List.map_map]
    conv_rhs => rw [← List.map_id (List.range 256)]
    apply List.map_congr_left
    intro i hi
    have hlt := List.mem_range.mp hi
    simp only [linkWith, Function.comp, UInt16.toNat_ofNat', id]
    omega
  rw [hm]
  exact List.nodup_range

/-- With a handle added twice one removal is not enough, and 256 links count as none. -/
theorem link_registry_not_map :
    (¬ (live (exec (step Stdlib.reference fourLinks) (bleLinkStatic fourLinks 512)
        [.add (linkWith 5), .add (linkWith 5)])).Nodup ∧
      (bleLinkGet Stdlib.reference (exec (step Stdlib.reference fourLinks)
        (bleLinkStatic fourLinks 512)
        [.add (linkWith 5), .add (linkWith 5), .remove 5]) 5).isSome) ∧
    ∃ r, r = exec (step Stdlib.reference ⟨256, 244⟩) (bleLinkStatic ⟨256, 244⟩ 512)
        (manyLinks.map .add) ∧
      bleLinkCount r = 0 ∧ (live r).toFinset.card = 256 := by
  refine ⟨by decide, _, rfl, ?_⟩
  have hlen : manyLinks.length = 256 := by simp [manyLinks]
  have hz : (bleLinkInit (bleLinkStatic ⟨256, 244⟩ 512)).linkList.count = 0 := rfl
  obtain ⟨m, hm, hc⟩ := (ready_init ⟨256, 244⟩ 512).exec_adds Stdlib.reference manyLinks
    manyLinks_nodup (fun _ _ => Finmap.notMem_empty) (by rw [hlen, hz])
  rw [hlen, hz] at hc
  rw [exec_static_adds _ _ _ (by rw [← List.length_pos_iff, hlen]; omega)]
  constructor
  · rw [bleLinkCount, hc]
    rfl
  · rw [List.toFinset_card_of_nodup hm.live_nodup, hm.length_live, hc]

end BleFirmware.BleLinkMap
