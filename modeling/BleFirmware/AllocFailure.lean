import BleFirmware.ArrayList
import BleFirmware.HeapList
import BleFirmware.MsgBusDelivery
import BleFirmware.OpQueueExclusion

/-!
# When no node is left

The producers of the bus and `ble_opq_start` take their node from the same
allocator. A failed allocation changes nothing; the producers test its result
and return, `ble_opq_start` does not and writes through the NULL node. So it is
safe exactly when the operation is performed at once, without a node.
-/

namespace BleFirmware.AllocFailure
open OpQueueExclusion MsgBusDelivery

variable {D : Type}

/-- A node can be had: a slot of an array list that is not used, or a block. -/
def NodeLeft (l : LinkedList D) (block : Option Addr) : Prop :=
  if l.arrayBased then ∃ i < l.depth, used (l.opt (l.slot i)) = false else block ≠ none

def AllocFails (l : LinkedList D) (block : Option Addr) (dataLen : ℕ) : Prop :=
  (linkedListAllocNode l (fun _ => block) dataLen).2 = none

theorem linkedListAllocNode_cases (l : LinkedList D) (block : Option Addr) (dataLen : ℕ) :
    (NodeLeft l block ∧ ∃ k p, linkedListAllocNode l (fun _ => block) dataLen = (k, some p)) ∨
      (¬ NodeLeft l block ∧ linkedListAllocNode l (fun _ => block) dataLen = (l, none)) := by
  unfold NodeLeft
  cases hkind : l.arrayBased with
  | true =>
    have halloc : linkedListAllocNode l (fun _ => block) dataLen = allocArrayNode l := by
      rw [linkedListAllocNode, if_pos hkind]
    by_cases hfree : ∃ i < l.depth, used (l.opt (l.slot i)) = false
    · obtain ⟨j, hj, hused⟩ := hfree
      obtain ⟨i, -, -, hi⟩ := allocArrayNode_free hj hused
      exact Or.inl ⟨⟨j, hj, hused⟩, _, _, halloc.trans hi⟩
    · have hfull : ∀ i < l.depth, used (l.opt (l.slot i)) = true := by
        intro i hi
        by_contra hused
        exact hfree ⟨i, hi, Bool.eq_false_iff.mpr hused⟩
      exact Or.inr ⟨hfree, halloc.trans (allocArrayNode_full hfull)⟩
  | false =>
    cases block with
    | none => exact Or.inr ⟨fun hnone => hnone rfl, linkedListAllocNode_null hkind dataLen⟩
    | some p =>
      exact Or.inl ⟨Option.some_ne_none p, _, _, linkedListAllocNode_block hkind p dataLen⟩

theorem AllocFails.eq {l : LinkedList D} {block : Option Addr} {dataLen : ℕ}
    (h : AllocFails l block dataLen) :
    linkedListAllocNode l (fun _ => block) dataLen = (l, none) := by
  obtain ⟨-, k, p, halloc⟩ | ⟨-, halloc⟩ := linkedListAllocNode_cases l block dataLen
  · rw [AllocFails, halloc] at h
    exact absurd h (Option.some_ne_none p)
  · exact halloc

end BleFirmware.AllocFailure
