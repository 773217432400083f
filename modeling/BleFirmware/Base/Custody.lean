import Mathlib.Data.List.Perm.Subperm

/-!
# Who holds the allocated objects

Objects come from an allocator, and every one that is in use should be held by
somebody. `base` are the objects that were in use before and belong to others.
A transfer passes objects between holders, adds fresh ones and may drop some.
The holders account for all objects in use exactly as long as nothing has been
dropped: an object that nobody holds is never found again.
-/

namespace BleFirmware.Custody

variable {α : Type*}

structure Held (base live : α → Bool) (held : List α) : Prop where
  nodup : held.Nodup
  live_of_mem : ∀ p ∈ held, live p = true
  base_of_mem : ∀ p ∈ held, base p = false
  live_of_base : ∀ p, base p = true → live p = true

def Covers (base live : α → Bool) (held : List α) : Prop :=
  ∀ p, live p = true → base p = true ∨ p ∈ held

structure Transfer (live live' : α → Bool) (held held' added dropped : List α) : Prop where
  perm : (held' ++ dropped).Perm (held ++ added)
  live_iff : ∀ p, live' p = true ↔ live p = true ∨ p ∈ added
  fresh : ∀ p ∈ added, live p = false
  nodup : added.Nodup

variable {base live live' : α → Bool} {held held' added dropped : List α}

theorem covers_iff (h : Held base live held) :
    Covers base live held ↔ ∀ p, live p = true ↔ base p = true ∨ p ∈ held := by
  refine ⟨fun hc p => ⟨hc p, ?_⟩, fun hc p => (hc p).mp⟩
  rintro (hb | hm)
  · exact h.live_of_base p hb
  · exact h.live_of_mem p hm

theorem Covers.length_le (hc : Covers base live held) {ps : List α} (hn : ps.Nodup)
    (hp : ∀ p ∈ ps, live p = true ∧ base p = false) : ps.length ≤ held.length := by
  have hsub : ps ⊆ held := by
    intro p hm
    obtain ⟨hl, hb⟩ := hp p hm
    exact (hc p hl).resolve_left (by simp [hb])
  exact (List.subperm_of_subset hn hsub).length_le

theorem Transfer.mem_iff (t : Transfer live live' held held' added dropped) (p : α) :
    p ∈ held' ∨ p ∈ dropped ↔ p ∈ held ∨ p ∈ added := by
  rw [← List.mem_append, ← List.mem_append]
  exact t.perm.mem_iff

theorem Held.nodup_added (h : Held base live held)
    (t : Transfer live live' held held' added dropped) : (held' ++ dropped).Nodup := by
  apply t.perm.nodup_iff.mpr
  apply List.nodup_append.mpr
  refine ⟨h.nodup, t.nodup, ?_⟩
  rintro p hp q hq rfl
  have hl := h.live_of_mem p hp
  rw [t.fresh p hq] at hl
  cases hl

theorem Held.own_added (h : Held base live held)
    (t : Transfer live live' held held' added dropped) {p : α} (hp : p ∈ held ∨ p ∈ added) :
    live' p = true ∧ base p = false := by
  rcases hp with hp | hp
  · exact ⟨(t.live_iff p).mpr (.inl (h.live_of_mem p hp)), h.base_of_mem p hp⟩
  · refine ⟨(t.live_iff p).mpr (.inr hp), Bool.eq_false_iff.mpr fun hb => ?_⟩
    have hl := h.live_of_base p hb
    rw [t.fresh p hp] at hl
    cases hl

theorem Held.transfer (h : Held base live held)
    (t : Transfer live live' held held' added dropped) : Held base live' held' where
  nodup := (List.nodup_append.mp (h.nodup_added t)).1
  live_of_mem p hp := (h.own_added t ((t.mem_iff p).mp (.inl hp))).1
  base_of_mem p hp := (h.own_added t ((t.mem_iff p).mp (.inl hp))).2
  live_of_base p hb := (t.live_iff p).mpr (.inl (h.live_of_base p hb))

theorem Covers.transfer (hc : Covers base live held)
    (t : Transfer live live' held held' added []) : Covers base live' held' := by
  intro p hp
  have hkept : p ∈ held ∨ p ∈ added → p ∈ held' := fun hm => by simpa using (t.mem_iff p).mpr hm
  rcases (t.live_iff p).mp hp with hl | ha
  · exact (hc p hl).imp_right fun hm => hkept (.inl hm)
  · exact .inr (hkept (.inr ha))

theorem not_covers_of_dropped (h : Held base live held)
    (t : Transfer live live' held held' added dropped) (hd : dropped ≠ []) :
    ¬ Covers base live' held' := by
  intro hc
  obtain ⟨p, hp⟩ := List.exists_mem_of_ne_nil _ hd
  obtain ⟨hl, hb⟩ := h.own_added t ((t.mem_iff p).mp (.inr hp))
  have hm := (hc p hl).resolve_left (by simp [hb])
  exact (List.nodup_append.mp (h.nodup_added t)).2.2 p hm p hp rfl

theorem not_covers_of_not_covers (t : Transfer live live' held held' added dropped)
    (hc : ¬ Covers base live held) : ¬ Covers base live' held' := by
  intro hc'
  apply hc
  intro p hl
  refine (hc' p ((t.live_iff p).mpr (.inl hl))).imp_right fun hm => ?_
  refine ((t.mem_iff p).mp (.inl hm)).resolve_right fun ha => ?_
  rw [t.fresh p ha] at hl
  cases hl

end BleFirmware.Custody
