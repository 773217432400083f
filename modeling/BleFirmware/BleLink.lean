import BleFirmware.KvList
import Mathlib.Data.UInt

/-!
# `ble_link.c`

The links are kept in a kv list whose key is the connection handle and whose
payload is the bytes of a `ble_link_t`. A link pointer is the address of such a
payload. The number of slots `CFG_BLE_LINK_COUNT` and the MTU `CFG_BLE_APP_MTU`
are build parameters; the time is what `hal_get_timestamp64` returns.

A function answers `none` where the C code would follow a NULL pointer.
-/

namespace BleFirmware
open Bytes CSort

structure BleLinkParam where
  isPeerCentral : Bool
  peerAddrType : UInt8
  peerAdvAddrLe : Fin 6 → UInt8
  peerMacAddrLe : Fin 6 → UInt8
  irk : Fin 16 → UInt8
  connTimestamp : UInt64
  appMtu : UInt8
  phyType : UInt8
  llcpInterval : UInt16
  llcpTimeout : UInt16
  llcpLatency : UInt16
  ltk : Fin 16 → UInt8
  rxCount : UInt16
  txCount : UInt16

structure BleLinkState where
  cccdEnabled : Fin 4 → UInt8
  l2capEstablished : Bool
  bondingFlag : Bool
  useOobFlag : Bool
  disconnOngoing : Bool
  procOngoing : Fin 6 → UInt8
  procDone : Fin 6 → UInt8

structure BleLink where
  handle : UInt16
  param : BleLinkParam
  state : BleLinkState

open Layout in
/-- The compiler aligns `conn_timestamp` and the whole to eight bytes. -/
def bleLinkParamLayout : Layout BleLinkParam :=
  (bool.prod (u8.prod ((array 6).prod ((array 6).prod (((array 16).pad 2).prod (u64.prod
    (u8.prod (u8.prod (u16.prod (u16.prod (u16.prod ((array 16).prod
      (u16.prod (u16.pad 4)))))))))))))).iso
    (fun p => (p.isPeerCentral, p.peerAddrType, p.peerAdvAddrLe, p.peerMacAddrLe, p.irk,
      p.connTimestamp, p.appMtu, p.phyType, p.llcpInterval, p.llcpTimeout, p.llcpLatency, p.ltk,
      p.rxCount, p.txCount))
    (fun t => ⟨t.1, t.2.1, t.2.2.1, t.2.2.2.1, t.2.2.2.2.1, t.2.2.2.2.2.1, t.2.2.2.2.2.2.1,
      t.2.2.2.2.2.2.2.1, t.2.2.2.2.2.2.2.2.1, t.2.2.2.2.2.2.2.2.2.1, t.2.2.2.2.2.2.2.2.2.2.1,
      t.2.2.2.2.2.2.2.2.2.2.2.1, t.2.2.2.2.2.2.2.2.2.2.2.2.1, t.2.2.2.2.2.2.2.2.2.2.2.2.2⟩)
    (fun _ => rfl)

open Layout in
/-- The six flags of each kind, in the order of the source, are an array of bytes. -/
def bleLinkStateLayout : Layout BleLinkState :=
  ((array 4).prod (bool.prod (bool.prod (bool.prod (bool.prod ((array 6).prod (array 6))))))).iso
    (fun s => (s.cccdEnabled, s.l2capEstablished, s.bondingFlag, s.useOobFlag, s.disconnOngoing,
      s.procOngoing, s.procDone))
    (fun t => ⟨t.1, t.2.1, t.2.2.1, t.2.2.2.1, t.2.2.2.2.1, t.2.2.2.2.2.1, t.2.2.2.2.2.2⟩)
    (fun _ => rfl)

open Layout in
def bleLinkLayout : Layout BleLink :=
  ((u16.pad 6).prod (bleLinkParamLayout.prod (bleLinkStateLayout.pad 4))).iso
    (fun l => (l.handle, l.param, l.state)) (fun t => ⟨t.1, t.2.1, t.2.2⟩) (fun _ => rfl)

structure BleLinkConfig where
  linkCount : ℕ
  appMtu : UInt8

structure BleLinkRegistry where
  linkList : KvList
  isInited : Bool

/-- Static storage before the first call; `dataArray` is where the linker put
the payload array. -/
def bleLinkStatic (cfg : BleLinkConfig) (dataArray : ℕ) : BleLinkRegistry where
  linkList :=
    { count := 0
      width := bleLinkLayout.size
      nodeArray := List.replicate cfg.linkCount ⟨false, 0, 0⟩
      dataArray := dataArray
      data := fun _ => 0
      sorted := false }
  isInited := false

def bleLinkInit (r : BleLinkRegistry) : BleLinkRegistry :=
  if !r.isInited then { isInited := true, linkList := kvListInit r.linkList } else r

structure NewLink where
  handle : UInt16
  isPeerCentral : UInt8
  addrType : UInt8
  advAddr : Fin 6 → UInt8
  now : UInt64

def newLink (cfg : BleLinkConfig) (a : NewLink) : BleLink where
  handle := a.handle
  param :=
    { isPeerCentral := a.isPeerCentral != 0, peerAddrType := a.addrType
      peerAdvAddrLe := a.advAddr, peerMacAddrLe := fun _ => 0, irk := fun _ => 0
      connTimestamp := a.now, appMtu := cfg.appMtu, phyType := 0, llcpInterval := 0
      llcpTimeout := 0, llcpLatency := 0, ltk := fun _ => 0, rxCount := 0, txCount := 0 }
  state :=
    { cccdEnabled := fun _ => 0, l2capEstablished := false, bondingFlag := false
      useOobFlag := false, disconnOngoing := false, procOngoing := fun _ => 0
      procDone := fun _ => 0 }

def bleLinkAdd (cfg : BleLinkConfig) (r : BleLinkRegistry) (a : NewLink) :
    Option (BleLinkRegistry × Option ℕ) :=
  let r := bleLinkInit r
  if r.linkList.count = cfg.linkCount then some (r, none)
  else
    let link := newLink cfg a
    match kvListAdd r.linkList a.handle.toNat (bleLinkLayout.object link) with
    | (l, some i) => some ({ r with linkList := l }, some (l.node i).dataPtr)
    -- `p_node->data_ptr` with a NULL node
    | (_, none) => none

def bleLinkGet (lib : Stdlib) (r : BleLinkRegistry) (handle : UInt16) : Option ℕ :=
  (kvListSearch lib r.linkList handle.toNat).map fun i => (r.linkList.node i).dataPtr

def BleLinkRegistry.link (r : BleLinkRegistry) (p : ℕ) : BleLink :=
  bleLinkLayout.ofBytes (readBytes r.linkList.data p bleLinkLayout.size)

def bleLinkCount (r : BleLinkRegistry) : UInt8 := UInt8.ofNat r.linkList.count

def bleLinkRemove (lib : Stdlib) (r : BleLinkRegistry) (handle : UInt16) :
    Option BleLinkRegistry :=
  match kvListSearch lib r.linkList handle.toNat with
  | some i => (kvListRemoveNode r.linkList (some i)).map fun l => { r with linkList := l }
  | none => some r

def bleLinkAliveByHandle (lib : Stdlib) (r : BleLinkRegistry) (handle : UInt16) : Bool :=
  match bleLinkGet lib r handle with
  | some p => !(r.link p).state.disconnOngoing
  | none => false

def bleLinkAliveTime (lib : Stdlib) (r : BleLinkRegistry) (handle : UInt16) (now : UInt64) :
    UInt64 :=
  match bleLinkGet lib r handle with
  | some p => now - (r.link p).param.connTimestamp
  | none => 0

/-- How `find_link_by_addr` ends: with a link pointer or NULL, or by following
the NULL that `kv_list_at` returned. -/
inductive Found
  | link (p : Option ℕ)
  | fault
  deriving DecidableEq

/-- One round of `find_link_by_addr`; `none` where `kv_list_at` itself needs
more than `fuel` rounds. -/
def findLinkByAddrBody (fuel : ℕ) (r : BleLinkRegistry) (addr : Fin 6 → UInt8) (i : UInt8) :
    UInt8 ⊕ Option Found :=
  if i.toNat < r.linkList.count then
    match kvListAt fuel r.linkList i.toNat with
    | none => .inr none
    | some none => .inr (some .fault)
    | some (some j) =>
      let p := (r.linkList.node j).dataPtr
      if (r.link p).param.peerAdvAddrLe = addr then .inr (some (.link (some p))) else .inl (i+1)
  else .inr (some (.link none))

def findLinkByAddr (fuel : ℕ) (r : BleLinkRegistry) (addr : Fin 6 → UInt8) : Option Found :=
  (Loop.run (findLinkByAddrBody fuel r addr) fuel 0).join

def bleLinkExistByAddr (fuel : ℕ) (r : BleLinkRegistry) (addr : Fin 6 → UInt8) :
    Option (Option Bool) :=
  (findLinkByAddr fuel r addr).map fun
    | .link p => some p.isSome
    | .fault => none

def bleLinkAliveByAddr (fuel : ℕ) (r : BleLinkRegistry) (addr : Fin 6 → UInt8) :
    Option (Option Bool) :=
  (findLinkByAddr fuel r addr).map fun
    | .link (some p) => some (!(r.link p).state.disconnOngoing)
    | .link none => some false
    | .fault => none

end BleFirmware
