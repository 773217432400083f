import BleFirmware.Base.Run
import BleFirmware.CsProcedures

/-!
# The block of a continued result

While the gate is open, a continuation is copied into a block of the shared heap.
The inner `if` frees the block behind the call that reads it, and the line after
the `if` frees it again; only a block that was not obtained makes the second call
harmless. The size of the block is a sum in sixteen bits.
-/

namespace BleFirmware.CsRelease
open Run CsProcedures

variable {n : ℕ}

def isHeapCall : CsEntry n → Bool
  | .malloc _ _ => true
  | .free _ => true
  | _ => false

def heapCalls (env : CsEnv n) (s : CsState n) (e : CsEvent n) : List (CsEntry n) :=
  ((csDeliver env s e).log.drop s.log.length).filter isHeapCall

/-- A block that is obtained has room for the header and the data and is freed once, and
no other block is freed. -/
structure Released (env : CsEnv n) (e : CsSubeventResultsContinue n)
    (calls : List (CsEntry n)) : Prop where
  sized : ∀ size p, .malloc size (some p) ∈ calls →
    env.continueHeaderSize.toNat + e.dataLen.toNat ≤ size.toNat
  freed_once : ∀ size p, .malloc size (some p) ∈ calls → calls.count (.free (some p)) = 1
  own : ∀ p, .free (some p) ∈ calls → ∃ size, .malloc size (some p) ∈ calls

def Releases (env : CsEnv n) (s : CsState n) : CsEvent n → Prop
  | .subeventContinueResult e block =>
    Released env e (heapCalls env s (.subeventContinueResult e block))
  | _ => True

def NoBlock (s : CsState n) : CsEvent n → Prop
  | .subeventContinueResult _ block =>
    s.currProcCount = keyNodeInvalidProcedureCounter ∨ block = none
  | _ => True

def deliver (env : CsEnv n) (s : CsState n) (e : CsEvent n) : Option (CsState n) :=
  some (csDeliver env s e)

def Adds (s t : CsState n) (xs : List (CsEntry n)) : Prop :=
  ∃ es, t.log = s.log ++ es ∧ es.filter isHeapCall = xs

variable {env : CsEnv n} {s t u : CsState n} {xs ys : List (CsEntry n)}

theorem Adds.trans (h : Adds s t xs) (h' : Adds t u ys) : Adds s u (xs ++ ys) := by
  obtain ⟨es, hes, rfl⟩ := h
  obtain ⟨fs, hfs, rfl⟩ := h'
  refine ⟨es ++ fs, ?_, List.filter_append _ _⟩
  rw [hfs, hes, List.append_assoc]

theorem adds_note (s : CsState n) {x : CsEntry n} (h : isHeapCall x = true) :
    Adds s (s.note x) [x] := ⟨[x], rfl, List.filter_cons_of_pos h⟩

theorem adds_note_other (s : CsState n) {x : CsEntry n} (h : isHeapCall x = false) :
    Adds s (s.note x) [] := ⟨[x], rfl, List.filter_cons_of_neg (Bool.eq_false_iff.mp h)⟩

theorem adds_rrsp (env : CsEnv n) (s : CsState n) (call : RrspCall n) :
    Adds s (s.rrsp env call).1 [] := adds_note_other s rfl

theorem adds_handleSubContinueEvent (env : CsEnv n) (s : CsState n)
    (e : CsSubeventResultsContinue n) : Adds s (handleSubContinueEvent env s e).1 [] := by
  have hstatus := adds_rrsp env s (.registrationStatus e.connHandle)
  have hadd := hstatus.trans (adds_rrsp env _ (.addSubeventContinueResult e))
  simp only [handleSubContinueEvent]
  split
  · split
    · exact hstatus
    · split
      · exact hadd.trans (adds_rrsp env _ _)
      · exact hadd
  · exact hstatus

theorem adds_closeGate (s : CsState n) (status : DoneStatus) : Adds s (closeGate s status) [] :=
  ⟨[], by rw [closeGate_log, List.append_nil], rfl⟩

theorem Adds.heapCalls_eq {e : CsEvent n} (h : Adds s (csDeliver env s e) xs) :
    heapCalls env s e = xs := by
  obtain ⟨es, hes, rfl⟩ := h
  rw [heapCalls, hes, List.drop_left]

theorem heapCalls_continue (env : CsEnv n) (s : CsState n) (e : CsSubeventResultsContinue n)
    (block : Option Addr) :
    heapCalls env s (.subeventContinueResult e block) =
      if s.currProcCount = keyNodeInvalidProcedureCounter then []
      else
        match block with
        | none => [.malloc (env.continueHeaderSize + e.dataLen) none, .free none]
        | some b =>
          [.malloc (env.continueHeaderSize + e.dataLen) (some b), .free (some b),
            .free (some b)] := by
  refine Adds.heapCalls_eq ?_
  have hevent := adds_note_other s (x := .event (.subeventContinueResult e block)) rfl
  obtain ⟨t, ht, heq⟩ := csSubeventContinueResult_cases env
    (s.note (.event (.subeventContinueResult e block))) e block
  have hdeliver : csDeliver env s (.subeventContinueResult e block) =
      closeGate t e.procedureDoneStatus := heq
  rw [hdeliver]
  have hgate := adds_closeGate t e.procedureDoneStatus
  cases ht with
  | closed block h =>
    have hclosed : s.currProcCount = keyNodeInvalidProcedureCounter := h
    rw [if_pos hclosed]
    exact hevent.trans hgate
  | noBlock h =>
    have hopen : ¬ s.currProcCount = keyNodeInvalidProcedureCounter := h
    rw [if_neg hopen]
    exact ((hevent.trans (adds_note _ rfl)).trans (adds_note _ rfl)).trans hgate
  | handled b h =>
    have hopen : ¬ s.currProcCount = keyNodeInvalidProcedureCounter := h
    rw [if_neg hopen]
    have hmalloc := hevent.trans (adds_note _
      (x := .malloc (env.continueHeaderSize + e.dataLen) (some b)) rfl)
    have hhandle := hmalloc.trans (adds_handleSubContinueEvent env _ e)
    exact ((hhandle.trans (adds_note _ rfl)).trans (adds_note _ rfl)).trans hgate

theorem malloc_sized_iff {e : CsSubeventResultsContinue n} {b : Addr}
    (hopen : s.currProcCount ≠ keyNodeInvalidProcedureCounter) :
    (∀ size p, .malloc size (some p) ∈ heapCalls env s (.subeventContinueResult e (some b)) →
      env.continueHeaderSize.toNat + e.dataLen.toNat ≤ size.toNat) ↔
      env.continueHeaderSize.toNat + e.dataLen.toNat < 65536 := by
  rw [heapCalls_continue, if_neg hopen]
  have hsize : (env.continueHeaderSize + e.dataLen).toNat =
      (env.continueHeaderSize.toNat + e.dataLen.toNat) % 65536 := UInt16.toNat_add _ _
  constructor
  · intro hsized
    have hle := hsized _ b List.mem_cons_self
    omega
  · intro hfits size p hmem
    simp only [List.mem_cons, CsEntry.malloc.injEq, reduceCtorEq, List.not_mem_nil, or_false] at hmem
    rw [hmem.1]
    omega

theorem released_of_no_block {e : CsSubeventResultsContinue n} {size : UInt16} :
    Released env e [.malloc size none, .free none] := by
  refine ⟨?_, ?_, ?_⟩ <;> simp

theorem not_released_twice {e : CsSubeventResultsContinue n} {size : UInt16} {b : Addr} :
    ¬ Released env e [.malloc size (some b), .free (some b), .free (some b)] := by
  intro h
  have hcount := h.freed_once size b List.mem_cons_self
  simp at hcount

theorem releases_iff (env : CsEnv n) (s : CsState n) (e : CsEvent n) :
    Releases env s e ↔ NoBlock s e := by
  cases e with
  | subeventContinueResult e block =>
    simp only [Releases, NoBlock, heapCalls_continue]
    by_cases hgate : s.currProcCount = keyNodeInvalidProcedureCounter
    · rw [if_pos hgate]
      refine iff_of_true ⟨?_, ?_, ?_⟩ (Or.inl hgate) <;> simp
    · rw [if_neg hgate]
      cases block with
      | none => exact iff_of_true released_of_no_block (Or.inr rfl)
      | some b =>
        refine iff_of_false not_released_twice ?_
        rintro (hclosed | hnone)
        · exact hgate hclosed
        · exact Option.some_ne_none b hnone
  | securityEnableComplete => exact Iff.rfl
  | procedureEnableComplete e => exact Iff.rfl
  | subeventResult e => exact Iff.rfl
  | reconnect c => exact Iff.rfl

/-- In a run every block is released as it should be exactly when no continuation obtains
one. -/
theorem continuations_released_iff (env : CsEnv n) (s : CsState n) (es : List (CsEvent n)) :
    Along (deliver env) (Releases env) s es ↔ Along (deliver env) NoBlock s es := by
  constructor
  · exact along_mono fun s e => (releases_iff env s e).mp
  · exact along_mono fun s e => (releases_iff env s e).mpr

/-- A continuation of a procedure that is under way. -/
theorem continuation_freed_twice :
    ¬ Along (deliver (acceptingService : CsEnv 1)) (Releases acceptingService) csStatic
      [.subeventResult ⟨0, 0, 1, 0, .other 1, []⟩,
        .subeventContinueResult ⟨0, 0, 0, .other 1, 0, 0, 1, 1, 3, [1, 2, 3]⟩ (some 16)] := by
  rintro ⟨-, hcontinue, -⟩
  rw [releases_iff] at hcontinue
  exact absurd hcontinue (by
    rintro (hclosed | hnone)
    · exact absurd hclosed (by decide)
    · exact Option.some_ne_none _ hnone)

end BleFirmware.CsRelease
