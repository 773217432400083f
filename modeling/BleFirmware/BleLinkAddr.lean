import BleFirmware.BleLinkMap
import BleFirmware.KvListAt

/-!
# Looking links up by address

`find_link_by_addr` asks `kv_list_at` for the positions `0, 1, ..`, but
`kv_list_at` tests the slot of that number again and again. It answers NULL for
position 0 when slot 0 is valid, and the slot itself when it is free; for a
later position it answers the slot when that is valid and never returns when it
is free. This module says on which registries and addresses the lookup works
all the same.
-/

namespace BleFirmware.BleLinkAddr
open Loop Run BleLinkMap KvListAt

variable {r : BleLinkRegistry} {addr : Fin 6 → UInt8}

def SlotHas (r : BleLinkRegistry) (addr : Fin 6 → UInt8) (i : ℕ) : Prop :=
  (r.link (r.linkList.node i).dataPtr).param.peerAdvAddrLe = addr

def LiveAt (r : BleLinkRegistry) (addr : Fin 6 → UInt8) : Prop :=
  ∃ i, i < r.linkList.depth ∧ (r.linkList.node i).valid = true ∧ SlotHas r addr i

def LiveLink (r : BleLinkRegistry) (addr : Fin 6 → UInt8) (p : ℕ) : Prop :=
  ∃ i, i < r.linkList.depth ∧ (r.linkList.node i).valid = true ∧ SlotHas r addr i ∧
    (r.linkList.node i).dataPtr = p

/-- The lookup ends without a fault, what it finds is a live link, and both
answers are right. -/
def LookupCorrect (r : BleLinkRegistry) (addr : Fin 6 → UInt8) : Prop :=
  ∃ fuel found exist alive,
    findLinkByAddr fuel r addr = some (.link found) ∧
    (∀ p, found = some p → LiveLink r addr p) ∧
    bleLinkExistByAddr fuel r addr = some (some exist) ∧
    (exist = true ↔ LiveAt r addr) ∧
    bleLinkAliveByAddr fuel r addr = some (some alive) ∧
    (alive = true ↔ ∃ p, found = some p ∧ (r.link p).state.disconnOngoing = false)

def Opens (r : BleLinkRegistry) (i : ℕ) : Prop :=
  (i = 0 ∧ (r.linkList.node 0).valid = false) ∨ (0 < i ∧ (r.linkList.node i).valid = true)

/-- A slot with the address is reached through opening slots. -/
def Reached (r : BleLinkRegistry) (addr : Fin 6 → UInt8) (j : ℕ) : Prop :=
  j < r.linkList.count ∧ j < 256 ∧ SlotHas r addr j ∧ ∀ i, i ≤ j → Opens r i

def Exhausted (r : BleLinkRegistry) : Prop :=
  r.linkList.count < 256 ∧ ∀ i, i < r.linkList.count → Opens r i

theorem kvListAt_opens {i : ℕ} (hi : i < r.linkList.count) (ho : Opens r i) :
    kvListAt r.linkList.count r.linkList i = some (some i) := by
  rcases ho with ⟨rfl, hv⟩ | ⟨hpos, hv⟩
  · obtain ⟨n, hn⟩ : ∃ n, r.linkList.count = n+1 := ⟨r.linkList.count-1, by omega⟩
    have h := kvListAt_zero_free hi hv n
    rwa [← hn] at h
  · exact kvListAt_mono (kvListAt_valid hpos hi hv) hi.le

section Opened

variable {fuel k : ℕ} (hk : k < 256) (hc : k < r.linkList.count)
  (hat : kvListAt fuel r.linkList k = some (some k))

include hk hc hat

theorem findBody_hit (hs : SlotHas r addr k) :
    findLinkByAddrBody fuel r addr (UInt8.ofNat k) =
      .inr (some (.link (some (r.linkList.node k).dataPtr))) := by
  rw [findLinkByAddrBody, UInt8.toNat_ofNat_of_lt' hk, if_pos hc, hat]
  exact if_pos hs

theorem findBody_miss (hs : ¬ SlotHas r addr k) :
    findLinkByAddrBody fuel r addr (UInt8.ofNat k) = .inl (UInt8.ofNat (k+1)) := by
  have hnext : UInt8.ofNat k + 1 = UInt8.ofNat (k+1) := by simp
  rw [findLinkByAddrBody, UInt8.toNat_ofNat_of_lt' hk, if_pos hc, hat, ← hnext]
  exact if_neg hs

end Opened

theorem findBody_end {fuel k : ℕ} (hk : k < 256) (hc : r.linkList.count ≤ k) :
    findLinkByAddrBody fuel r addr (UInt8.ofNat k) = .inr (some (.link none)) := by
  rw [findLinkByAddrBody, UInt8.toNat_ofNat_of_lt' hk, if_neg (by omega)]

theorem findLinkByAddr_mono {n m : ℕ} {x : Found} (h : findLinkByAddr n r addr = some x)
    (hnm : n ≤ m) : findLinkByAddr m r addr = some x := by
  have hrun : ∀ k i, run (findLinkByAddrBody n r addr) k i = some (some x) →
      run (findLinkByAddrBody m r addr) k i = some (some x) := by
    intro k
    induction k with
    | zero => simp [run]
    | succ k ih =>
      intro i hi
      -- Where the inner loop has ended with less fuel, the round is the same.
      have hsame : findLinkByAddrBody n r addr i = .inr none ∨
          findLinkByAddrBody m r addr i = findLinkByAddrBody n r addr i := by
        unfold findLinkByAddrBody
        split_ifs
        · cases hat : kvListAt n r.linkList i.toNat with
          | none => exact Or.inl rfl
          | some y => rw [kvListAt_mono hat hnm]; exact Or.inr rfl
        · exact Or.inr rfl
      rcases hsame with hs | hs
      · rw [run_succ_inr hs] at hi
        simp at hi
      · cases hb : findLinkByAddrBody n r addr i with
        | inl j =>
          rw [run_succ_inl hb] at hi
          rw [run_succ_inl (hs.trans hb)]
          exact ih j hi
        | inr y =>
          rw [run_succ_inr hb] at hi
          rw [run_succ_inr (hs.trans hb)]
          exact hi
  rw [findLinkByAddr, Option.join_eq_some_iff] at h
  rw [findLinkByAddr, run_mono (hrun n 0 h) hnm]
  rfl

theorem find_reached {j : ℕ} (h : Reached r addr j) :
    ∃ k, k ≤ j ∧ SlotHas r addr k ∧
      findLinkByAddr r.linkList.count r addr =
        some (.link (some (r.linkList.node k).dataPtr)) := by
  obtain ⟨hc, hj, hhas, hopen⟩ := h
  have hrun : ∀ d m, m + d = j → ∃ k, k ≤ j ∧ SlotHas r addr k ∧
      run (findLinkByAddrBody r.linkList.count r addr) (d+1) (UInt8.ofNat m) =
        some (some (.link (some (r.linkList.node k).dataPtr))) := by
    intro d
    induction d with
    | zero =>
      intro m hm
      obtain rfl : m = j := by omega
      have hb := findBody_hit hj hc (kvListAt_opens hc (hopen m le_rfl)) hhas
      exact ⟨m, le_rfl, hhas, run_succ_inr hb 0⟩
    | succ d ih =>
      intro m hm
      have hcm : m < r.linkList.count := by omega
      have hat := kvListAt_opens hcm (hopen m (by omega))
      by_cases hs : SlotHas r addr m
      · exact ⟨m, by omega, hs, run_succ_inr (findBody_hit (by omega) hcm hat hs) _⟩
      · rw [run_succ_inl (findBody_miss (by omega) hcm hat hs)]
        exact ih (m+1) (by omega)
  obtain ⟨k, hkj, hk, hfind⟩ := hrun j 0 (by omega)
  refine ⟨k, hkj, hk, ?_⟩
  rw [findLinkByAddr, run_mono (s := (0 : UInt8)) hfind (by omega)]
  rfl

theorem find_exhausted (addr : Fin 6 → UInt8) (h : Exhausted r)
    (hn : ∀ j, j < r.linkList.count → ¬ SlotHas r addr j) :
    findLinkByAddr (r.linkList.count+1) r addr = some (.link none) := by
  obtain ⟨hc, hopen⟩ := h
  have hrun : ∀ d k, k + d = r.linkList.count →
      run (findLinkByAddrBody (r.linkList.count+1) r addr) (d+1) (UInt8.ofNat k) =
        some (some (.link none)) := by
    intro d
    induction d with
    | zero =>
      intro k hk
      exact run_succ_inr (findBody_end (by omega) (by omega)) 0
    | succ d ih =>
      intro k hk
      have hck : k < r.linkList.count := by omega
      have hat := kvListAt_mono (kvListAt_opens hck (hopen k hck)) (Nat.le_succ _)
      rw [run_succ_inl (findBody_miss (by omega) hck hat (hn k hck))]
      exact ih (k+1) (by omega)
  have h0 := hrun r.linkList.count 0 (by omega)
  rw [findLinkByAddr]
  change (run _ _ (UInt8.ofNat 0)).join = _
  rw [h0]
  rfl

theorem find_fault (hc : 0 < r.linkList.count) (hv : (r.linkList.node 0).valid = true)
    (fuel : ℕ) (p : Option ℕ) : findLinkByAddr fuel r addr ≠ some (.link p) := by
  cases fuel with
  | zero => simp [findLinkByAddr, run]
  | succ n =>
    have hb : findLinkByAddrBody (n+1) r addr 0 = .inr none ∨
        findLinkByAddrBody (n+1) r addr 0 = .inr (some .fault) := by
      have hne := kvListAt_zero_valid hv (n+1)
      have hz : (0 : UInt8).toNat = 0 := rfl
      rw [findLinkByAddrBody, hz, if_pos hc]
      cases hat : kvListAt (n+1) r.linkList 0 with
      | none => exact Or.inl rfl
      | some x =>
        cases x with
        | none => exact Or.inr rfl
        | some j => exact absurd hat (hne j)
    rcases hb with hb | hb
    · simp [findLinkByAddr, run_succ_inr hb]
    · simp [findLinkByAddr, run_succ_inr hb]

theorem findBody_hang {fuel k : ℕ} (hk : k < 256) (hc : k < r.linkList.count)
    (hat : kvListAt fuel r.linkList k = none) :
    findLinkByAddrBody fuel r addr (UInt8.ofNat k) = .inr none := by
  rw [findLinkByAddrBody, UInt8.toNat_ofNat_of_lt' hk, if_pos hc, hat]

/-- Behind a free slot 0 only an opening slot is answered, and with itself. -/
theorem opens_of_at (hv : (r.linkList.node 0).valid = false) {fuel k : ℕ} {x : Option ℕ}
    (hc : k < r.linkList.count) (hat : kvListAt fuel r.linkList k = some x) :
    Opens r k ∧ x = some k := by
  have hok : Opens r k := by
    rcases Nat.eq_zero_or_pos k with rfl | hpos
    · exact Or.inl ⟨rfl, hv⟩
    · cases hvk : (r.linkList.node k).valid with
      | true => exact Or.inr ⟨hpos, hvk⟩
      | false => cases (kvListAt_free hpos hc hvk fuel).symm.trans hat
  have h₁ := kvListAt_mono hat (Nat.le_max_left fuel r.linkList.count)
  have h₂ := kvListAt_mono (kvListAt_opens hc hok) (Nat.le_max_right fuel r.linkList.count)
  exact ⟨hok, Option.some.inj (h₁.symm.trans h₂)⟩

/-- Otherwise the lookup meets a free slot and hangs, or goes round for ever. -/
theorem find_stuck (hv : (r.linkList.node 0).valid = false)
    (hr : ∀ j, ¬ Reached r addr j) (he : ¬ Exhausted r) (fuel : ℕ) :
    findLinkByAddr fuel r addr = none := by
  have hrun : ∀ n k, k < 256 → (∀ i, i < k → Opens r i) →
      (run (findLinkByAddrBody fuel r addr) n (UInt8.ofNat k)).join = none := by
    intro n
    induction n with
    | zero =>
      intro k _ _
      rfl
    | succ n ih =>
      intro k hk hopen
      have hck : k < r.linkList.count := by
        by_contra hle
        exact he ⟨by omega, fun i hi => hopen i (by omega)⟩
      cases hat : kvListAt fuel r.linkList k with
      | none =>
        rw [run_succ_inr (findBody_hang hk hck hat)]
        rfl
      | some x =>
        obtain ⟨hok, rfl⟩ := opens_of_at hv hck hat
        have hopen' : ∀ i, i ≤ k → Opens r i := by
          intro i hi
          rcases Nat.lt_or_eq_of_le hi with hlt | rfl
          · exact hopen i hlt
          · exact hok
        have hs : ¬ SlotHas r addr k := fun hs => hr k ⟨hck, hk, hs, hopen'⟩
        rw [run_succ_inl (findBody_miss hk hck hat hs)]
        by_cases hlast : k+1 = 256
        · -- The index is a `uint8_t` and starts again.
          rw [hlast]
          exact ih 0 (by omega) (by simp)
        · exact ih (k+1) (by omega) (fun i hi => hopen' i (by omega))
  exact hrun fuel 0 (by omega) (by simp)

/-- When the lookup works: the registry is empty, or the bytes left behind in the free
slot 0 do not have the address, and a live link with it is reached, or there is none and
the lookup passes all positions. -/
def Lookupable (r : BleLinkRegistry) (addr : Fin 6 → UInt8) : Prop :=
  r.linkList.count = 0 ∨ (¬ SlotHas r addr 0 ∧
    ((∃ j, Reached r addr j) ∨ (¬ LiveAt r addr ∧ Exhausted r)))

theorem LiveLink.liveAt {p : ℕ} (h : LiveLink r addr p) : LiveAt r addr := by
  obtain ⟨i, hi, hv, hs, _⟩ := h
  exact ⟨i, hi, hv, hs⟩

theorem lookupCorrect_of_found {fuel : ℕ} {p : Option ℕ}
    (hf : findLinkByAddr fuel r addr = some (.link p)) (hp : ∀ q, p = some q → LiveLink r addr q)
    (hl : LiveAt r addr → p.isSome = true) : LookupCorrect r addr := by
  refine ⟨fuel, p, p.isSome, p.elim false fun q => !(r.link q).state.disconnOngoing, hf, hp, ?_,
    ⟨?_, hl⟩, ?_, ?_⟩
  · rw [bleLinkExistByAddr, hf, Option.map_some]
  · intro hsome
    obtain ⟨q, hq⟩ := Option.isSome_iff_exists.mp hsome
    exact (hp q hq).liveAt
  · rw [bleLinkAliveByAddr, hf, Option.map_some]
    cases p <;> rfl
  · cases p <;> simp

theorem LookupCorrect.found {fuel : ℕ} {x : Found} (h : LookupCorrect r addr)
    (hf : findLinkByAddr fuel r addr = some x) :
    ∃ p, x = .link p ∧ (∀ q, p = some q → LiveLink r addr q) ∧
      (LiveAt r addr → p.isSome = true) := by
  obtain ⟨n, p, exist, alive, hn, hp, he, hl, _⟩ := h
  have h₁ := findLinkByAddr_mono hf (Nat.le_max_left fuel n)
  have h₂ := findLinkByAddr_mono hn (Nat.le_max_right fuel n)
  refine ⟨p, Option.some.inj (h₁.symm.trans h₂), hp, ?_⟩
  rw [bleLinkExistByAddr, hn, Option.map_some] at he
  obtain rfl : p.isSome = exist := Option.some.inj (Option.some.inj he)
  exact hl.mpr

theorem LookupCorrect.returns (h : LookupCorrect r addr) :
    ∃ fuel p, findLinkByAddr fuel r addr = some (.link p) := by
  obtain ⟨n, p, _, _, hn, _⟩ := h
  exact ⟨n, p, hn⟩

theorem not_liveAt_of_empty (hwf : r.linkList.Wf) (hc : r.linkList.count = 0) : ¬ LiveAt r addr := by
  rintro ⟨i, hi, hv, _⟩
  have hz := hwf.count_eq.symm.trans hc
  exact absurd hv (List.countP_eq_zero.mp hz _ (KvList.node_mem hi))

theorem Reached.liveLink (hle : r.linkList.count ≤ r.linkList.depth) {j k : ℕ}
    (h : Reached r addr j) (hk : k ≤ j) (hs : SlotHas r addr k) (hn : ¬ SlotHas r addr 0) :
    LiveLink r addr (r.linkList.node k).dataPtr := by
  obtain ⟨hc, _, _, hopen⟩ := h
  rcases hopen k hk with ⟨rfl, _⟩ | ⟨_, hv⟩
  · exact absurd hs hn
  · exact ⟨k, by omega, hv, hs, rfl⟩

def FirstApart (r : BleLinkRegistry) : Prop :=
  (r.linkList.node 0).valid = false → ∀ i, i < r.linkList.depth →
    (r.linkList.node i).valid = true → (r.linkList.node i).dataPtr ≠ (r.linkList.node 0).dataPtr

theorem firstApart_of_wf (hwf : r.linkList.Wf) (hw : 0 < r.linkList.width) : FirstApart r := by
  intro hfree i hi hv
  have hpos : 0 < i := by
    rcases Nat.eq_zero_or_pos i with rfl | hpos
    · rw [hfree] at hv
      exact absurd hv (by simp)
    · exact hpos
  have h0 : 0 < r.linkList.nodeArray.length := Nat.lt_trans hpos hi
  have ha := List.pairwise_iff_getElem.mp hwf.apart 0 i h0 hi hpos
  simp only [KvList.node, List.getD_eq_getElem _ _ h0, List.getD_eq_getElem _ _ hi]
  intro heq
  rw [heq] at ha
  rcases ha with ha | ha <;> omega

theorem lookupCorrect_of_empty (hc : r.linkList.count = 0) (hl : ¬ LiveAt r addr) :
    LookupCorrect r addr := by
  have he : Exhausted r := ⟨by omega, fun i hi => by omega⟩
  have hf := find_exhausted addr he (fun j hj => by omega)
  exact lookupCorrect_of_found hf (by simp) fun hl' => absurd hl' hl

theorem lookupCorrect_of_reached (hle : r.linkList.count ≤ r.linkList.depth)
    (hz : ¬ SlotHas r addr 0) {j : ℕ} (hj : Reached r addr j) : LookupCorrect r addr := by
  obtain ⟨k, hk, hs, hf⟩ := find_reached hj
  refine lookupCorrect_of_found hf ?_ fun _ => rfl
  intro q hq
  obtain rfl := Option.some.inj hq
  exact hj.liveLink hle hk hs hz

/-- The removed link in slot 0 is found. -/
theorem not_lookupCorrect_of_stale (hc : 0 < r.linkList.count)
    (hv : (r.linkList.node 0).valid = false) (hfirst : FirstApart r) (hz : SlotHas r addr 0) :
    ¬ LookupCorrect r addr := by
  intro h
  have hreach : Reached r addr 0 := by
    refine ⟨hc, by omega, hz, ?_⟩
    intro i hi
    rw [Nat.le_zero.mp hi]
    exact Or.inl ⟨rfl, hv⟩
  obtain ⟨k, hk, _, hf⟩ := find_reached hreach
  obtain rfl := Nat.le_zero.mp hk
  obtain ⟨q, hq, hlive, _⟩ := h.found hf
  obtain ⟨i, hi, hvi, _, heq⟩ := hlive _ (Found.link.inj hq).symm
  exact hfirst hv i hi hvi heq

theorem lookupCorrect_exhausted_iff (he : Exhausted r)
    (hn : ∀ j, j < r.linkList.count → ¬ SlotHas r addr j) :
    LookupCorrect r addr ↔ ¬ LiveAt r addr := by
  have hf := find_exhausted addr he hn
  constructor
  · intro h hl
    obtain ⟨q, hq, _, hlive⟩ := h.found hf
    obtain rfl := Found.link.inj hq
    simpa using hlive hl
  · intro hl
    exact lookupCorrect_of_found hf (by simp) fun hl' => absurd hl' hl

theorem lookupCorrect_iff (hle : r.linkList.count ≤ r.linkList.depth)
    (hempty : r.linkList.count = 0 → ¬ LiveAt r addr) (hfirst : FirstApart r) :
    LookupCorrect r addr ↔ Lookupable r addr := by
  rcases Nat.eq_zero_or_pos r.linkList.count with hc | hc
  · exact iff_of_true (lookupCorrect_of_empty hc (hempty hc)) (Or.inl hc)
  rw [Lookupable, or_iff_right hc.ne']
  cases hv : (r.linkList.node 0).valid with
  | true =>
    have hclosed : ¬ Opens r 0 := by simp [Opens, hv]
    refine iff_of_false ?_ ?_
    · intro h
      obtain ⟨fuel, p, hf⟩ := h.returns
      exact find_fault hc hv fuel p hf
    · rintro ⟨_, ⟨j, hj⟩ | ⟨_, he⟩⟩
      · exact hclosed (hj.2.2.2 0 (Nat.zero_le j))
      · exact hclosed (he.2 0 hc)
  | false =>
    by_cases hz : SlotHas r addr 0
    · exact iff_of_false (not_lookupCorrect_of_stale hc hv hfirst hz) fun h => h.1 hz
    rw [and_iff_right hz]
    by_cases hr : ∃ j, Reached r addr j
    · obtain ⟨j, hj⟩ := hr
      exact iff_of_true (lookupCorrect_of_reached hle hz hj) (Or.inl ⟨j, hj⟩)
    rw [or_iff_right hr]
    by_cases he : Exhausted r
    · have hn : ∀ j, j < r.linkList.count → ¬ SlotHas r addr j := by
        intro j hj hs
        have hlt := he.1
        exact hr ⟨j, hj, by omega, hs, fun i hi => he.2 i (by omega)⟩
      rw [and_iff_left he]
      exact lookupCorrect_exhausted_iff he hn
    · refine iff_of_false ?_ fun h => he h.2
      intro h
      obtain ⟨fuel, p, hf⟩ := h.returns
      rw [find_stuck hv (fun j hj => hr ⟨j, hj⟩) he fuel] at hf
      exact absurd hf (by simp)

theorem link_lookup_correct_iff (lib : CSort.Stdlib) (cfg : BleLinkConfig) (dataArray : ℕ)
    (calls : List Call)
    (h : Along (step lib cfg) (NewHandle cfg) (bleLinkStatic cfg dataArray) calls)
    (addr : Fin 6 → UInt8) :
    LookupCorrect (exec (step lib cfg) (bleLinkStatic cfg dataArray) calls) addr ↔
      Lookupable (exec (step lib cfg) (bleLinkStatic cfg dataArray) calls) addr := by
  rcases distinct_run h with hs | ⟨m, hr⟩
  · have hfree : ∀ i, i < (bleLinkStatic cfg dataArray).linkList.depth →
        ((bleLinkStatic cfg dataArray).linkList.node i).valid = false := by
      intro i hi
      rw [List.eq_of_mem_replicate (KvList.node_mem hi)]
    rw [hs]
    apply lookupCorrect_iff
    · exact Nat.zero_le _
    · rintro _ ⟨i, hi, hv, _⟩
      exact absurd ((hfree i hi).symm.trans hv) (by simp)
    · intro _ i hi hv
      exact absurd ((hfree i hi).symm.trans hv) (by simp)
  · have hwf := hr.holds.wf
    have hw : 0 < (exec (step lib cfg) (bleLinkStatic cfg dataArray) calls).linkList.width := by
      rw [hr.holds.width_eq]
      decide
    exact lookupCorrect_iff hwf.count_le (not_liveAt_of_empty hwf) (firstApart_of_wf hwf hw)

theorem link_lookup_correct_iff_freed :
    LookupCorrect (exec (step CSort.Stdlib.reference fourLinks) (bleLinkStatic fourLinks 512)
        [.add (linkWith 5), .add (linkWith 6), .remove 5]) (fun _ => 1) ↔
      Lookupable (exec (step CSort.Stdlib.reference fourLinks) (bleLinkStatic fourLinks 512)
        [.add (linkWith 5), .add (linkWith 6), .remove 5]) (fun _ => 1) :=
  link_lookup_correct_iff CSort.Stdlib.reference fourLinks 512 _ (by decide) _

/-- One live link in slot 0, and its own address. -/
theorem link_lookup_faults :
    Along (step CSort.Stdlib.reference fourLinks) (NewHandle fourLinks)
        (bleLinkStatic fourLinks 512) [.add (linkWith 5)] ∧
      LiveAt (exec (step CSort.Stdlib.reference fourLinks) (bleLinkStatic fourLinks 512)
        [.add (linkWith 5)]) (fun _ => 1) ∧
      ¬ LookupCorrect (exec (step CSort.Stdlib.reference fourLinks) (bleLinkStatic fourLinks 512)
        [.add (linkWith 5)]) (fun _ => 1) := by
  refine ⟨by decide, ⟨0, by decide, by decide, ?_⟩, ?_⟩
  · unfold SlotHas
    decide
  · intro h
    obtain ⟨fuel, p, hf⟩ := h.returns
    exact find_fault (by decide) (by decide) fuel p hf

end BleFirmware.BleLinkAddr
