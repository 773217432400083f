import BleFirmware.BleLinkMap

/-!
# `ble_host_event_handler.c`

The handlers that add, remove and look up links, built with `CHANNEL_SOUNDING`.
What they ask of the stack and of the advertising module is recorded in
`calls`; the answers of the stack while an event is handled come with the
event. The log lines are left out, and so are the handlers that look at no
link.

A handler answers `none` where the C code would follow a NULL pointer.
-/

namespace BleFirmware
open CSort

/-- The build of the link registry, and `MAX_PDU_SIZE - L2CAP_HDR_SIZE`. -/
structure BleHostConfig extends BleLinkConfig where
  clientRxMTU : UInt16

structure GapEstLinkReqEvent where
  connectionHandle : UInt16
  connRole : UInt8
  devAddrType : UInt8
  devAddr : Fin 6 → UInt8

inductive GapConnEvent
  | linkEstablished (event : GapEstLinkReqEvent) (now : UInt64) (numActive numConns : UInt8)
  | linkTerminated (connectionHandle : UInt16)
  | linkParamUpdateReq (pReq : Addr)
  | linkParamUpdate
  | other

inductive PairingState
  | started
  | complete
  | encrypted
  | bondSaved
  | other
  deriving DecidableEq

inductive HostCall
  | exchangeMTU (connHandle clientRxMTU : UInt16)
  | advStart
  | advStop
  | paramUpdateRsp (pReq : Addr) (accept : Bool)
  | securityEnable (connHandle : UInt16)
  deriving DecidableEq

structure BleHost where
  registry : BleLinkRegistry
  calls : List HostCall

/-- The link pointer that `ble_link_add` returns is not looked at. -/
def gapConnHandler (lib : Stdlib) (cfg : BleHostConfig) (h : BleHost) :
    GapConnEvent → Option BleHost
  | .linkEstablished event now numActive numConns =>
    let link : NewLink :=
      ⟨event.connectionHandle, event.connRole, event.devAddrType, event.devAddr, now⟩
    (bleLinkAdd cfg.toBleLinkConfig h.registry link).map fun r =>
      { registry := r.1
        calls := h.calls ++ [.exchangeMTU event.connectionHandle cfg.clientRxMTU,
          if numActive < numConns then .advStart else .advStop] }
  | .linkTerminated connectionHandle =>
    (bleLinkRemove lib h.registry connectionHandle).map fun r =>
      { registry := r, calls := h.calls ++ [.advStart] }
  | .linkParamUpdateReq pReq => some { h with calls := h.calls ++ [.paramUpdateRsp pReq true] }
  | .linkParamUpdate => some h
  | .other => some h

/-- Channel sounding is secured towards a central. -/
def securityEnable (h : BleHost) (connHandle : UInt16) (pLink : Option ℕ) : Option BleHost :=
  match pLink with
  | some p =>
    if (h.registry.link p).param.isPeerCentral then
      some { h with calls := h.calls ++ [.securityEnable connHandle] }
    else some h
  -- `p_link->param` with a NULL link
  | none => none

def pairStateHandler (lib : Stdlib) (h : BleHost) (state : PairingState) (connHandle : UInt16) :
    Option BleHost :=
  let pLink := bleLinkGet lib h.registry connHandle
  match state with
  | .started => some h
  | .complete => securityEnable h connHandle pLink
  | .encrypted => securityEnable h connHandle pLink
  | .bondSaved => some h
  | .other => some h

inductive HostEvent
  | gapConn (event : GapConnEvent)
  | pairState (state : PairingState) (connHandle : UInt16)

def hostStep (lib : Stdlib) (cfg : BleHostConfig) (h : BleHost) : HostEvent → Option BleHost
  | .gapConn event => gapConnHandler lib cfg h event
  | .pairState state connHandle => pairStateHandler lib h state connHandle

def hostStatic (cfg : BleHostConfig) (dataArray : ℕ) : BleHost :=
  ⟨bleLinkStatic cfg.toBleLinkConfig dataArray, []⟩

namespace BleHostEvents
open Run BleLinkMap

def connected (linkCount : ℕ) (handles : List UInt16) : HostEvent → List UInt16
  | .gapConn (.linkEstablished event _ _ _) =>
    if handles.length = linkCount then handles else event.connectionHandle :: handles
  | .gapConn (.linkTerminated connectionHandle) => handles.erase connectionHandle
  | _ => handles

def ReadsConnected (handles : List UInt16) : HostEvent → Prop
  | .pairState .complete connHandle => connHandle ∈ handles
  | .pairState .encrypted connHandle => connHandle ∈ handles
  | _ => True

/-- The registry holds the links of these connections: it is as the linker left it, or
initialised. -/
inductive Registered (cfg : BleLinkConfig) : BleLinkRegistry → List UInt16 → Prop
  | static (dataArray : ℕ) : Registered cfg (bleLinkStatic cfg dataArray) []
  | inited {r : BleLinkRegistry} {handles : List UInt16} (sound : Sound cfg r)
    (keys : r.linkList.entries.keys.Perm (handles.map UInt16.toNat)) : Registered cfg r handles

namespace Registered

variable {lib : Stdlib} {cfg : BleLinkConfig} {r : BleLinkRegistry} {handles : List UInt16}

theorem toNat_injective : Function.Injective UInt16.toNat := fun _ _ h => UInt16.toNat_inj.mp h

theorem get_isSome (h : Registered cfg r handles) (lib : Stdlib) (handle : UInt16) :
    (bleLinkGet lib r handle).isSome ↔ handle ∈ handles := by
  cases h with
  | static dataArray => simp [get_static]
  | inited sound keys =>
    rw [bleLinkGet, Option.isSome_map, kvListSearch_isSome lib sound.wf, keys.mem_iff,
      List.mem_map_of_injective toNat_injective]

theorem add_inited (sound : Sound cfg r)
    (keys : r.linkList.entries.keys.Perm (handles.map UInt16.toNat)) (a : NewLink) :
    ∃ r' p, bleLinkAdd cfg r a = some (r', p) ∧
      Registered cfg r' (if handles.length = cfg.linkCount then handles else a.handle :: handles) := by
  have hcount : r.linkList.count = handles.length := by
    have hlen := keys.length_eq
    rw [List.keys, List.length_map, List.length_map] at hlen
    rw [sound.wf.count_entries, hlen]
  by_cases hfull : handles.length = cfg.linkCount
  · rw [if_pos hfull]
    exact ⟨r, none, sound.add_full a (hcount.trans hfull), inited sound keys⟩
  · rw [if_neg hfull]
    obtain ⟨i, hi, hv, hadd⟩ := sound.add_room a (by rwa [hcount])
    refine ⟨_, _, hadd, inited (sound.addLink_sound a hi hv) ?_⟩
    have hentries := addAt_entries sound.wf hi hv a.handle.toNat
      (bleLinkLayout.object (newLink cfg a))
    exact (hentries.map Sigma.fst).trans (keys.cons a.handle.toNat)

theorem add (h : Registered cfg r handles) (a : NewLink) :
    ∃ r' p, bleLinkAdd cfg r a = some (r', p) ∧
      Registered cfg r' (if handles.length = cfg.linkCount then handles else a.handle :: handles) := by
  cases h with
  | static dataArray =>
    have hready := ready_init cfg dataArray
    have hkeys : (bleLinkInit (bleLinkStatic cfg dataArray)).linkList.entries.keys = [] :=
      List.eq_nil_iff_forall_not_mem.mpr fun key hk =>
        Finmap.notMem_empty (hready.holds.mem_keys.mp hk)
    have hperm : (bleLinkInit (bleLinkStatic cfg dataArray)).linkList.entries.keys.Perm
        (([] : List UInt16).map UInt16.toNat) := List.Perm.of_eq hkeys
    rw [← bleLinkAdd_init]
    exact add_inited hready.sound hperm a
  | inited sound keys => exact add_inited sound keys a

theorem remove (h : Registered cfg r handles) (lib : Stdlib) (handle : UInt16) :
    ∃ r', bleLinkRemove lib r handle = some r' ∧ Registered cfg r' (handles.erase handle) := by
  cases h with
  | static dataArray => exact ⟨_, remove_static cfg dataArray lib handle, static dataArray⟩
  | inited sound keys =>
    cases hs : kvListSearch lib r.linkList handle.toNat with
    | none =>
      have hnot : handle ∉ handles := by
        have hkey := (kvListSearch_eq_none sound.wf).mp hs
        rwa [keys.mem_iff, List.mem_map_of_injective toNat_injective] at hkey
      rw [List.erase_of_not_mem hnot]
      exact ⟨r, remove_absent lib hs, inited sound keys⟩
    | some i =>
      obtain ⟨hi, hv, hk⟩ := kvListSearch_some sound.wf hs
      have hentries := (removeAt_entries hi hv).map Sigma.fst
      have hrest : (r.linkList.removeAt i).entries.keys.Perm
          ((handles.erase handle).map UInt16.toNat) := by
        rw [List.map_erase toNat_injective]
        have hcons := (hentries.symm.trans keys).erase handle.toNat
        rw [List.map_cons, KvList.entry, hk, List.erase_cons_head] at hcons
        exact hcons
      exact ⟨_, sound.remove_present lib hs, inited (sound.removeAt_sound hi hv) hrest⟩

end Registered

variable {lib : Stdlib} {cfg : BleHostConfig} {h : BleHost} {handles : List UInt16}
  {e : HostEvent}

theorem pairState_eq (lib : Stdlib) (h : BleHost) {state : PairingState} {handle : UInt16}
    (hread : state = .complete ∨ state = .encrypted) :
    pairStateHandler lib h state handle =
      securityEnable h handle (bleLinkGet lib h.registry handle) := by
  rcases hread with rfl | rfl <;> rfl

theorem securityEnable_some (h : BleHost) (handle : UInt16) (p : ℕ) :
    ∃ h', securityEnable h handle (some p) = some h' ∧ h'.registry = h.registry := by
  dsimp only [securityEnable]
  split_ifs
  · exact ⟨_, rfl, rfl⟩
  · exact ⟨_, rfl, rfl⟩

theorem pairing_connected (hr : Registered cfg.toBleLinkConfig h.registry handles)
    {state : PairingState} {handle : UInt16} (hread : state = .complete ∨ state = .encrypted)
    (hmem : handle ∈ handles) :
    ∃ h', hostStep lib cfg h (.pairState state handle) = some h' ∧
      Registered cfg.toBleLinkConfig h'.registry handles := by
  obtain ⟨p, hp⟩ := Option.isSome_iff_exists.mp ((hr.get_isSome lib handle).mpr hmem)
  obtain ⟨h', hs, hsame⟩ := securityEnable_some h handle p
  refine ⟨h', ?_, ?_⟩
  · rw [hostStep, pairState_eq lib h hread, hp, hs]
  · rw [hsame]
    exact hr

theorem pairing_unconnected (hr : Registered cfg.toBleLinkConfig h.registry handles)
    {state : PairingState} {handle : UInt16} (hread : state = .complete ∨ state = .encrypted)
    (hmem : handle ∉ handles) : hostStep lib cfg h (.pairState state handle) = none := by
  have hnone : bleLinkGet lib h.registry handle = none := by
    rw [← Option.not_isSome_iff_eq_none, hr.get_isSome]
    exact hmem
  rw [hostStep, pairState_eq lib h hread, hnone, securityEnable]

theorem step_connected (lib : Stdlib)
    (hr : Registered cfg.toBleLinkConfig h.registry handles) (he : ReadsConnected handles e) :
    ∃ h', hostStep lib cfg h e = some h' ∧
      Registered cfg.toBleLinkConfig h'.registry (connected cfg.linkCount handles e) := by
  cases e with
  | gapConn event =>
    cases event with
    | linkEstablished event now numActive numConns =>
      obtain ⟨r, p, hadd, hr'⟩ := hr.add
        ⟨event.connectionHandle, event.connRole, event.devAddrType, event.devAddr, now⟩
      rw [hostStep, gapConnHandler, hadd]
      exact ⟨_, rfl, hr'⟩
    | linkTerminated handle =>
      obtain ⟨r, hremove, hr'⟩ := hr.remove lib handle
      rw [hostStep, gapConnHandler, hremove]
      exact ⟨_, rfl, hr'⟩
    | linkParamUpdateReq pReq => exact ⟨_, rfl, hr⟩
    | linkParamUpdate => exact ⟨_, rfl, hr⟩
    | other => exact ⟨_, rfl, hr⟩
  | pairState state handle =>
    cases state with
    | complete => exact pairing_connected hr (Or.inl rfl) he
    | encrypted => exact pairing_connected hr (Or.inr rfl) he
    | started => exact ⟨h, rfl, hr⟩
    | bondSaved => exact ⟨h, rfl, hr⟩
    | other => exact ⟨h, rfl, hr⟩

theorem step_unconnected (hr : Registered cfg.toBleLinkConfig h.registry handles)
    (he : ¬ ReadsConnected handles e) : hostStep lib cfg h e = none := by
  cases e with
  | gapConn event => exact absurd trivial he
  | pairState state handle =>
    cases state with
    | complete => exact pairing_unconnected hr (Or.inl rfl) he
    | encrypted => exact pairing_unconnected hr (Or.inr rfl) he
    | _ => exact absurd trivial he

/-- The pairing events read through NULL nowhere exactly when each of them is for a
connection that got a slot and has not been terminated. -/
theorem pairing_safe_iff (lib : Stdlib) (cfg : BleHostConfig) (dataArray : ℕ)
    (events : List HostEvent) :
    Along (hostStep lib cfg) (fun h e => (hostStep lib cfg h e).isSome = true)
        (hostStatic cfg dataArray) events ↔
      Along (fun handles e => some (connected cfg.linkCount handles e)) ReadsConnected [] events := by
  apply along_isSome_iff (R := fun h handles => Registered cfg.toBleLinkConfig h.registry handles)
  · intro h handles e hr he
    exact step_connected lib hr he
  · intro h handles e hr he
    exact step_unconnected hr he
  · exact .static dataArray

theorem late_pairing_faults :
    ¬ Along (hostStep .reference ⟨⟨4, 244⟩, 65⟩)
      (fun h e => (hostStep .reference ⟨⟨4, 244⟩, 65⟩ h e).isSome = true)
      (hostStatic ⟨⟨4, 244⟩, 65⟩ 512)
      [.gapConn (.linkEstablished ⟨5, 1, 0, fun _ => 1⟩ 1000 1 4),
        .gapConn (.linkTerminated 5), .pairState .complete 5] := by
  decide

end BleHostEvents

end BleFirmware
