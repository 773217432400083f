import BleFirmware.ListAlgo
import Mathlib.Data.List.Chain

/-!
# Lists whose back links are gone

`LIST_REMOVE_NODE` leaves links of the removed node and of its neighbours
behind, so that a list need not be linked both ways, and its tail pointer need
not be the last node. What stays true of every list is less: following `next`
from the head ends, and behind the head a `prev` link that is not NULL is the
right one. Every macro keeps this, and none brings a node into the list but the
one it inserts.
-/

namespace BleFirmware.ListAlgo
open Segment

variable {α : Type*}

structure Chained (l : LinkList α) (xs : List α) : Prop where
  forward : Seg l.next l.head xs none
  back : xs.IsChain fun q p => l.prev p = some q ∨ l.prev p = none

namespace Chained

variable {l : LinkList α} {xs : List α} {p : α}

theorem nodup (h : Chained l xs) : xs.Nodup := h.forward.nodup

theorem head_eq (h : Chained l xs) : l.head = xs.head? := h.forward.start_eq

theorem nil (hh : l.head = none) : Chained l [] := ⟨hh, List.IsChain.nil⟩

theorem withTail (h : Chained l xs) (t : Option α) : Chained { l with tail := t } xs :=
  ⟨h.forward, h.back⟩

theorem tail {x : α} (h : Chained l (x :: xs)) : Chained { l with head := l.next x } xs :=
  ⟨h.forward.2, h.back.tail⟩

variable [DecidableEq α]

theorem clearPrev (h : Chained l xs) (p : α) : Chained (l.setPrev p none) xs := by
  refine ⟨h.forward, h.back.imp ?_⟩
  intro q r hr
  by_cases hrp : r = p
  · right
    rw [setPrev_prev, hrp, Function.update_self]
  · rwa [setPrev_prev, Function.update_of_ne hrp]

theorem setPrev_notMem (h : Chained l xs) (hp : p ∉ xs) (q : Option α) :
    Chained (l.setPrev p q) xs := by
  refine ⟨h.forward, ?_⟩
  apply h.back.imp_of_mem_imp
  intro a b _ hb hab
  have hbp : b ≠ p := fun he => hp (he ▸ hb)
  rwa [setPrev_prev, Function.update_of_ne hbp]

theorem setNext_notMem (h : Chained l xs) (hp : p ∉ xs) (q : Option α) :
    Chained (l.setNext p q) xs :=
  ⟨h.forward.update hp, h.back⟩

theorem cut (h : Chained l xs) (p : α) : ∃ ys, ys ⊆ xs ∧ Chained (l.setNext p none) ys := by
  by_cases hp : p ∈ xs
  · obtain ⟨as, bs, rfl⟩ := List.append_of_mem hp
    obtain ⟨r, hr, hpr⟩ := seg_append.mp h.forward
    obtain rfl : r = some p := hpr.1
    have hpa : p ∉ as := fun hm => (List.nodup_append.mp h.nodup).2.2 p hm p (by simp) rfl
    refine ⟨as ++ [p], ?_, ?_, ?_⟩
    · apply List.append_subset.mpr
      exact ⟨List.subset_append_left _ _, by simp⟩
    · rw [setNext_next, seg_concat]
      exact ⟨hr.update hpa, Function.update_self _ _ _⟩
    · have hb := h.back
      rw [List.append_cons] at hb
      exact hb.left_of_append
  · exact ⟨xs, List.Subset.refl xs, h.setNext_notMem hp none⟩

/-- A node is left out, if the one behind it has lost its back link. -/
theorem unlink {as bs : List α} {q : α} (h : Chained l (as ++ q :: p :: bs))
    (hr : ∀ r ∈ bs.head?, l.prev r = none) :
    Chained (l.setNext q (l.next p)) (as ++ q :: bs) := by
  have hnd := h.nodup
  rw [List.nodup_append] at hnd
  have hqa : q ∉ as := fun hm => hnd.2.2 q hm q (by simp) rfl
  have hqb : q ∉ bs := fun hm => (List.nodup_cons.mp hnd.2.1).1 (List.mem_cons_of_mem p hm)
  obtain ⟨r, ha, hq, hp, hb⟩ := seg_append.mp h.forward
  subst hq
  refine ⟨?_, ?_⟩
  · rw [setNext_next, seg_append]
    refine ⟨some q, ha.update hqa, rfl, ?_⟩
    rw [Function.update_self]
    exact hb.update hqb
  · have hback := h.back
    rw [List.isChain_append] at hback ⊢
    refine ⟨hback.1, ?_, hback.2.2⟩
    rw [List.isChain_cons]
    refine ⟨?_, hback.2.1.tail.tail⟩
    intro r hr'
    exact Or.inr (hr r hr')

end Chained

variable [DecidableEq α] {l l' : LinkList α} {xs : List α} {p : α}

theorem chained_insertHead (h : Chained l xs) (hp : p ∉ xs) :
    Chained (listInsertHead l p) (p :: xs) := by
  cases xs with
  | nil =>
    have hh : l.head = none := h.head_eq
    simp only [listInsertHead, hh]
    refine ⟨⟨rfl, ?_⟩, List.IsChain.singleton _⟩
    exact Function.update_self _ _ _
  | cons x xs =>
    have hh : l.head = some x := h.head_eq
    have hxp : x ≠ p := fun he => hp (by simp [he])
    simp only [listInsertHead, hh]
    have hk := (h.setPrev_notMem hp none).setNext_notMem hp (some x)
    refine ⟨⟨rfl, ?_⟩, ?_⟩
    · rw [setPrev_next, setNext_next, Function.update_self]
      exact ⟨rfl, hk.forward.2⟩
    · refine List.IsChain.cons_cons ?_ ?_
      · left
        exact Function.update_self _ _ _
      · apply hk.back.imp_of_mem_tail_imp
        intro a b _ hb hab
        have hbx : b ≠ x := fun he => (List.nodup_cons.mp h.nodup).1 (he ▸ hb)
        rwa [setPrev_prev, Function.update_of_ne hbx]

theorem chained_insertTail (h : Chained l xs) (hp : p ∉ xs) (hl : listInsertTail l p = some l') :
    ∃ ys, ys ⊆ p :: xs ∧ Chained l' ys := by
  have hk := (h.setPrev_notMem hp l.tail).setNext_notMem hp none
  cases hh : l.head with
  | none =>
    simp only [listInsertTail, hh, Option.some.injEq] at hl
    subst hl
    refine ⟨[p], by simp, ⟨rfl, ?_⟩, List.IsChain.singleton _⟩
    exact Function.update_self _ _ _
  | some x =>
    cases ht : l.tail with
    | none => simp [listInsertTail, hh, ht] at hl
    | some t =>
      simp only [listInsertTail, hh, ht, Option.some.injEq] at hl
      rw [ht] at hk
      subst hl
      by_cases htx : t ∈ xs
      · -- whatever stood behind the tail pointer is dropped
        obtain ⟨as, bs, rfl⟩ := List.append_of_mem htx
        have htp : t ≠ p := fun he => hp (he ▸ htx)
        obtain ⟨r, hr, hrt⟩ := seg_append.mp hk.forward
        obtain rfl : r = some t := hrt.1
        have hta : t ∉ as := fun hm => (List.nodup_append.mp h.nodup).2.2 t hm t (by simp) rfl
        refine ⟨as ++ [t] ++ [p], ?_, ?_, ?_⟩
        · intro q hq
          simp only [List.mem_append, List.mem_singleton] at hq
          rcases hq with (hq | hq) | hq
          · exact List.mem_cons_of_mem p (List.mem_append_left _ hq)
          · exact List.mem_cons_of_mem p (by simp [hq])
          · simp [hq]
        · rw [seg_concat, seg_concat]
          refine ⟨⟨hr.update hta, Function.update_self _ _ _⟩, ?_⟩
          simp [htp.symm]
        · have hb := hk.back
          rw [List.append_cons] at hb
          rw [List.isChain_append]
          refine ⟨hb.left_of_append, List.IsChain.singleton _, ?_⟩
          intro a ha b hb
          left
          simp only [List.getLast?_append, List.getLast?_singleton, Option.some_or,
            Option.mem_some_iff] at ha
          simp only [List.head?_cons, Option.mem_some_iff] at hb
          simp [← ha, ← hb]
      · exact ⟨xs, List.subset_cons_self p xs, (hk.setNext_notMem htx (some p)).withTail _⟩

theorem chained_removeHead (h : Chained l xs) (hh : l.head = some p)
    (hl : listRemoveHead l p = some l') : ∃ ys, ys ⊆ xs ∧ Chained l' ys := by
  unfold listRemoveHead at hl
  split_ifs at hl
  · obtain rfl := Option.some.inj hl
    exact ⟨[], List.nil_subset xs, .nil rfl⟩
  · cases hn : l.next p with
    | none => simp [hn] at hl
    | some n =>
      simp only [hn, Option.some.injEq] at hl
      subst hl
      cases xs with
      | nil =>
        rw [h.head_eq] at hh
        cases hh
      | cons x xs =>
        obtain rfl : x = p := by
          rw [h.head_eq] at hh
          exact Option.some.inj hh
        have ht := h.tail
        rw [hn] at ht
        obtain ⟨ys, hys, hk⟩ := (ht.clearPrev n).cut x
        exact ⟨ys, List.Subset.trans hys (List.subset_cons_self x xs), hk⟩

theorem chained_removeTail (h : Chained l xs) (hl : listRemoveTail l p = some l') :
    ∃ ys, ys ⊆ xs ∧ Chained l' ys := by
  unfold listRemoveTail at hl
  split_ifs at hl
  · obtain rfl := Option.some.inj hl
    exact ⟨[], List.nil_subset xs, .nil rfl⟩
  · cases hn : l.prev p with
    | none => simp [hn] at hl
    | some n =>
      simp only [hn, Option.some.injEq] at hl
      subst hl
      obtain ⟨ys, hys, hk⟩ := (h.withTail (some n)).cut n
      exact ⟨ys, hys, hk.clearPrev p⟩

/-- The third case of `LIST_REMOVE_NODE`, with the predecessor `q`. -/
theorem chained_removeInner {as bs : List α} {q : α} (h : Chained l (as ++ q :: p :: bs))
    (hhead : l.head ≠ some p) (htail : l.tail ≠ some p) (hends : l.head ≠ l.tail) :
    ∃ ys, ys ⊆ as ++ q :: p :: bs ∧ Chained (listRemoveNode l p).1 ys := by
  have hback := (List.isChain_append.mp h.back).2.1
  have hprev : l.prev p = some q ∨ l.prev p = none := by
    rw [List.isChain_cons_cons] at hback
    exact hback.1
  obtain ⟨r, _, _, _, hb⟩ := seg_append.mp h.forward
  have hnext : l.next p = bs.head? := hb.start_eq
  have hnd := (List.nodup_append.mp h.nodup).2.1
  have hqp : q ≠ p := fun he => (List.nodup_cons.mp hnd).1 (by simp [he])
  have hpb : p ∉ bs := (List.nodup_cons.mp (List.nodup_cons.mp hnd).2).1
  have hpa : p ∉ as := fun hm =>
    (List.nodup_append.mp h.nodup).2.2 p hm p (by simp) rfl
  rw [listRemoveNode, if_neg hends, if_neg hhead, if_neg htail]
  cases hprev with
  | inl hq =>
    simp only [hq]
    have hkeep (r : Option α) : Function.update l.next q r p = l.next p :=
      Function.update_of_ne (Ne.symm hqp) r l.next
    cases bs with
    | nil =>
      have hnone : l.next p = none := hnext
      simp only [setPrev_next, setNext_next, hkeep, hnone]
      obtain ⟨ys, hys, hk⟩ := h.cut q
      exact ⟨ys, hys, hk.clearPrev p⟩
    | cons b bs =>
      have hsome : l.next p = some b := hnext
      simp only [setPrev_next, setNext_next, hkeep, hsome]
      have hk := ((h.clearPrev p).clearPrev b).unlink (by
        intro r hr
        obtain rfl : b = r := Option.some.inj hr
        exact Function.update_self _ _ _)
      refine ⟨as ++ q :: b :: bs, ?_, ?_⟩
      · intro y hy
        simp only [List.mem_append, List.mem_cons] at hy ⊢
        tauto
      · have hpm : p ∉ as ++ q :: b :: bs := by
          simp only [List.mem_append, List.mem_cons, not_or] at hpb ⊢
          exact ⟨hpa, hqp.symm, hpb⟩
        have hk' := hk.setNext_notMem hpm none
        simp only [setPrev_prev, setPrev_next, Function.update_self] at hk' ⊢
        rw [hsome] at hk'
        exact hk'
  | inr hq =>
    -- without the back link the list ends at the node
    simp only [hq]
    cases hn : l.next p with
    | none => exact ⟨_, List.Subset.refl _, h⟩
    | some b =>
      obtain ⟨ys, hys, hk⟩ := (h.clearPrev b).cut p
      exact ⟨ys, hys, hk⟩

theorem chained_removeNode (h : Chained l xs) (hp : p ∈ xs) :
    ∃ ys, ys ⊆ xs ∧ Chained (listRemoveNode l p).1 ys := by
  by_cases hends : l.head = l.tail
  · by_cases hhead : l.head = some p
    · rw [listRemoveNode, if_pos hends, if_pos hhead]
      exact ⟨[], List.nil_subset xs, .nil rfl⟩
    · rw [listRemoveNode, if_pos hends, if_neg hhead]
      exact ⟨xs, List.Subset.refl xs, h⟩
  · by_cases hhead : l.head = some p
    · rw [listRemoveNode, if_neg hends, if_pos hhead]
      obtain ⟨ys, rfl⟩ : ∃ ys, xs = p :: ys := by
        apply List.head?_eq_some_iff.mp
        rw [← h.head_eq, hhead]
      exact ⟨ys, List.subset_cons_self p ys, h.tail.clearPrev p⟩
    · by_cases htail : l.tail = some p
      · rw [listRemoveNode, if_neg hends, if_neg hhead, if_pos htail]
        obtain ⟨ys, hys, hk⟩ := (h.withTail (l.prev p)).cut p
        exact ⟨ys, hys, hk⟩
      · obtain ⟨as, bs, rfl⟩ := List.append_of_mem hp
        cases as using List.reverseRecOn with
        | nil => exact absurd h.head_eq hhead
        | append_singleton as q =>
          rw [List.append_assoc, List.singleton_append] at h ⊢
          exact chained_removeInner h hhead htail hends

theorem chained_free (h : Chained l xs) (p : α) :
    ∃ ys, ys ⊆ xs ∧ Chained ((l.setNext p none).setPrev p none) ys := by
  obtain ⟨ys, hys, hk⟩ := h.cut p
  exact ⟨ys, hys, hk.clearPrev p⟩

end BleFirmware.ListAlgo
