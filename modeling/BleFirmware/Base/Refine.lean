import Mathlib.Data.List.Basic

/-!
# Runs and their specifications

A component takes inputs one after another and answers each; an input may also
make it fail, and then the run has no result. A specification answers every
input, and says which inputs a caller may give in which state. The component
refines the specification when, from related states, an allowed input succeeds,
gives the specified answer and leads to related states again.
-/

namespace BleFirmware.Refine

variable {σ τ ι o : Type*}

def runOps (step : σ → ι → Option (σ × o)) : σ → List ι → Option (σ × List o)
  | s, [] => some (s, [])
  | s, i :: is =>
    match step s i with
    | none => none
    | some (t, x) => (runOps step t is).map fun r => (r.1, x :: r.2)

def runSpec (spec : τ → ι → τ × o) : τ → List ι → τ × List o
  | t, [] => (t, [])
  | t, i :: is =>
    let r := runSpec spec (spec t i).1 is
    (r.1, (spec t i).2 :: r.2)

def Legal (spec : τ → ι → τ × o) (allowed : τ → ι → Prop) : τ → List ι → Prop
  | _, [] => True
  | t, i :: is => allowed t i ∧ Legal spec allowed (spec t i).1 is

instance Legal.decidable (spec : τ → ι → τ × o) (allowed : τ → ι → Prop)
    [∀ t i, Decidable (allowed t i)] : ∀ t is, Decidable (Legal spec allowed t is)
  | _, [] => inferInstanceAs (Decidable True)
  | t, i :: is =>
    haveI := Legal.decidable spec allowed (spec t i).1 is
    inferInstanceAs (Decidable (allowed t i ∧ Legal spec allowed (spec t i).1 is))

variable {step : σ → ι → Option (σ × o)} {spec : τ → ι → τ × o} {allowed : τ → ι → Prop}

theorem run_refines (R : σ → τ → Prop)
    (hstep : ∀ s t i, R s t → allowed t i →
      ∃ s', step s i = some (s', (spec t i).2) ∧ R s' (spec t i).1)
    {s : σ} {t : τ} (hR : R s t) {is : List ι} (hl : Legal spec allowed t is) :
    ∃ s', runOps step s is = some (s', (runSpec spec t is).2) ∧ R s' (runSpec spec t is).1 := by
  induction is generalizing s t with
  | nil => exact ⟨s, rfl, hR⟩
  | cons i is ih =>
    obtain ⟨hi, hl⟩ := hl
    obtain ⟨s₁, hs₁, hR₁⟩ := hstep s t i hR hi
    obtain ⟨s₂, hs₂, hR₂⟩ := ih hR₁ hl
    refine ⟨s₂, ?_, hR₂⟩
    simp only [runOps, runSpec, hs₁, hs₂, Option.map_some]

end BleFirmware.Refine
