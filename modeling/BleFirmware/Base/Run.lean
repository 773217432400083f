import Mathlib.Data.List.Basic

/-!
# Runs of a step that may fail

A component is given inputs one after another; an input on which the step fails
ends the run, and the state before it is the last one. `Along` says that a
property holds at every step of a run. A simulation relates the runs of two
components on the same inputs, and whatever they agree on at each step.
-/

namespace BleFirmware.Run

variable {σ τ ι : Type*}

def exec (step : σ → ι → Option σ) : σ → List ι → σ
  | s, [] => s
  | s, i :: is =>
    match step s i with
    | some t => exec step t is
    | none => s

def Along (step : σ → ι → Option σ) (P : σ → ι → Prop) : σ → List ι → Prop
  | _, [] => True
  | s, i :: is =>
    P s i ∧
      match step s i with
      | some t => Along step P t is
      | none => True

instance Along.decidable (step : σ → ι → Option σ) (P : σ → ι → Prop)
    [∀ s i, Decidable (P s i)] : ∀ s is, Decidable (Along step P s is)
  | _, [] => inferInstanceAs (Decidable True)
  | s, i :: is =>
    match h : step s i with
    | some t =>
      haveI := Along.decidable step P t is
      decidable_of_iff (P s i ∧ Along step P t is) (by simp [Along, h])
    | none => decidable_of_iff (P s i) (by simp [Along, h])

variable {step : σ → ι → Option σ} {step' : τ → ι → Option τ} {P L : σ → ι → Prop}
  {Q : τ → ι → Prop}

theorem exec_cons_some {s t : σ} {i : ι} (h : step s i = some t) (is : List ι) :
    exec step s (i :: is) = exec step t is := by
  simp only [exec, h]

theorem exec_cons_none {s : σ} {i : ι} (h : step s i = none) (is : List ι) :
    exec step s (i :: is) = s := by
  simp only [exec, h]

theorem along_cons_some {s t : σ} {i : ι} (h : step s i = some t) (is : List ι) :
    Along step P s (i :: is) ↔ P s i ∧ Along step P t is := by
  simp only [Along, h]

theorem along_cons_none {s : σ} {i : ι} (h : step s i = none) (is : List ι) :
    Along step P s (i :: is) ↔ P s i := by
  simp only [Along, h, and_true]

theorem along_mono {Q : σ → ι → Prop} (h : ∀ s i, P s i → Q s i) {s : σ} {is : List ι}
    (hP : Along step P s is) : Along step Q s is := by
  induction is generalizing s with
  | nil => trivial
  | cons i is ih =>
    cases hs : step s i with
    | some t =>
      rw [along_cons_some hs] at hP ⊢
      exact ⟨h s i hP.1, ih hP.2⟩
    | none =>
      rw [along_cons_none hs] at hP ⊢
      exact h s i hP

theorem along_and {Q : σ → ι → Prop} {s : σ} {is : List ι} :
    Along step (fun s i => P s i ∧ Q s i) s is ↔ Along step P s is ∧ Along step Q s is := by
  induction is generalizing s with
  | nil => simp [Along]
  | cons i is ih =>
    cases hs : step s i with
    | some t =>
      rw [along_cons_some hs, along_cons_some hs, along_cons_some hs, ih]
      exact and_and_and_comm
    | none => rw [along_cons_none hs, along_cons_none hs, along_cons_none hs]

theorem along_of_forall (h : ∀ s i, P s i) (s : σ) (is : List ι) : Along step P s is := by
  induction is generalizing s with
  | nil => trivial
  | cons i is ih =>
    cases hs : step s i with
    | some t =>
      rw [along_cons_some hs]
      exact ⟨h s i, ih t⟩
    | none =>
      rw [along_cons_none hs]
      exact h s i

theorem along_of_forall_mem {Q : ι → Prop} {is : List ι} (h : ∀ i ∈ is, Q i) (s : σ) :
    Along step (fun _ i => Q i) s is := by
  induction is generalizing s with
  | nil => trivial
  | cons i is ih =>
    obtain ⟨hi, his⟩ := List.forall_mem_cons.mp h
    cases hs : step s i with
    | some t =>
      rw [along_cons_some hs]
      exact ⟨hi, ih his t⟩
    | none =>
      rw [along_cons_none hs]
      exact hi

theorem exec_invariant {I : σ → Prop}
    (hstep : ∀ s i t, I s → P s i → step s i = some t → I t) {s : σ} (hs : I s) {is : List ι}
    (hP : Along step P s is) : I (exec step s is) := by
  induction is generalizing s with
  | nil => exact hs
  | cons i is ih =>
    cases h : step s i with
    | some t =>
      rw [along_cons_some h] at hP
      rw [exec_cons_some h]
      exact ih (hstep s i t hs hP.1 h) hP.2
    | none =>
      rw [exec_cons_none h]
      exact hs

theorem along_of_invariant {I : σ → Prop} {Q : σ → ι → Prop}
    (hstep : ∀ s i t, I s → P s i → step s i = some t → I t) (hQ : ∀ s i, I s → P s i → Q s i)
    {s : σ} (hs : I s) {is : List ι} (hP : Along step P s is) : Along step Q s is := by
  induction is generalizing s with
  | nil => trivial
  | cons i is ih =>
    have hi := hQ s i hs hP.1
    cases h : step s i with
    | some t =>
      rw [along_cons_some h] at hP ⊢
      exact ⟨hi, ih (hstep s i t hs hP.1 h) hP.2⟩
    | none =>
      rw [along_cons_none h]
      exact hi

theorem along_iff_of_invariant {I : σ → Prop} {Q : σ → ι → Prop}
    (hstep : ∀ s i t, I s → L s i → P s i → step s i = some t → I t)
    (hPQ : ∀ s i, I s → L s i → (P s i ↔ Q s i)) {s : σ} (hs : I s) {is : List ι}
    (hL : Along step L s is) : Along step P s is ↔ Along step Q s is := by
  induction is generalizing s with
  | nil => exact Iff.rfl
  | cons i is ih =>
    cases h : step s i with
    | some t =>
      rw [along_cons_some h] at hL ⊢
      rw [along_cons_some h, ← hPQ s i hs hL.1]
      exact and_congr_right fun hP => ih (hstep s i t hs hL.1 hP h) hL.2
    | none =>
      rw [along_cons_none h] at hL ⊢
      rw [along_cons_none h]
      exact hPQ s i hs hL

/-- One step of the two components, from related states, fails on both sides or
leads to related states. -/
def Simulates (step : σ → ι → Option σ) (step' : τ → ι → Option τ) (R : σ → τ → Prop) (s : σ)
    (t : τ) (i : ι) : Prop :=
  (step s i = none ∧ step' t i = none) ∨
    ∃ s' t', step s i = some s' ∧ step' t i = some t' ∧ R s' t'

theorem exec_simulates {R : σ → τ → Prop}
    (hstep : ∀ s t i, R s t → L s i → Simulates step step' R s t i) {s : σ} {t : τ} (hR : R s t)
    {is : List ι} (hL : Along step L s is) : R (exec step s is) (exec step' t is) := by
  induction is generalizing s t with
  | nil => exact hR
  | cons i is ih =>
    rcases hstep s t i hR hL.1 with ⟨hn, hn'⟩ | ⟨s', t', hs, ht, hR'⟩
    · rw [exec_cons_none hn, exec_cons_none hn']
      exact hR
    · rw [along_cons_some hs] at hL
      rw [exec_cons_some hs, exec_cons_some ht]
      exact ih hR' hL.2

theorem along_simulates {R : σ → τ → Prop}
    (hstep : ∀ s t i, R s t → L s i → Simulates step step' R s t i)
    (hPQ : ∀ s t i, R s t → (P s i ↔ Q t i)) {s : σ} {t : τ} (hR : R s t) {is : List ι}
    (hL : Along step L s is) : Along step P s is ↔ Along step' Q t is := by
  induction is generalizing s t with
  | nil => exact Iff.rfl
  | cons i is ih =>
    rcases hstep s t i hR hL.1 with ⟨hn, hn'⟩ | ⟨s', t', hs, ht, hR'⟩
    · rw [along_cons_none hn, along_cons_none hn']
      exact hPQ s t i hR
    · rw [along_cons_some hs] at hL ⊢
      rw [along_cons_some ht]
      exact and_congr (hPQ s t i hR) (ih hR' hL.2)

/-- Where a step of the second component answers a step of the first or none does, the
inputs that are answered are a run of the second. -/
theorem exec_stutters {R : σ → τ → Prop}
    (hstep : ∀ s t i s', R s t → P s i → step s i = some s' →
      R s' t ∨ ∃ t', step' t i = some t' ∧ R s' t')
    {s : σ} {t : τ} (hR : R s t) {is : List ι} (hP : Along step P s is) :
    ∃ js, js.Sublist is ∧ R (exec step s is) (exec step' t js) := by
  induction is generalizing s t with
  | nil => exact ⟨[], List.Sublist.slnil, hR⟩
  | cons i is ih =>
    cases hs : step s i with
    | none =>
      rw [exec_cons_none hs]
      exact ⟨[], List.nil_sublist _, hR⟩
    | some s' =>
      rw [along_cons_some hs] at hP
      rw [exec_cons_some hs]
      rcases hstep s t i s' hR hP.1 hs with hR' | ⟨t', ht, hR'⟩
      · obtain ⟨js, hjs, hend⟩ := ih hR' hP.2
        exact ⟨js, hjs.cons i, hend⟩
      · obtain ⟨js, hjs, hend⟩ := ih hR' hP.2
        refine ⟨i :: js, hjs.cons_cons i, ?_⟩
        rw [exec_cons_some ht]
        exact hend

/-- A step that fails exactly where a rule is broken: a total component that keeps track
of the rule's state tells which runs fail nowhere. -/
theorem along_isSome_iff {track : τ → ι → τ} {R : σ → τ → Prop}
    (hgood : ∀ s t i, R s t → Q t i → ∃ s', step s i = some s' ∧ R s' (track t i))
    (hbad : ∀ s t i, R s t → ¬ Q t i → step s i = none) {s : σ} {t : τ} (hR : R s t)
    (is : List ι) :
    Along step (fun s i => (step s i).isSome = true) s is ↔
      Along (fun t i => some (track t i)) Q t is := by
  induction is generalizing s t with
  | nil => exact Iff.rfl
  | cons i is ih =>
    rw [along_cons_some (t := track t i) rfl]
    by_cases hQ : Q t i
    · obtain ⟨s', hs, hR'⟩ := hgood s t i hR hQ
      rw [along_cons_some hs, ih hR', hs]
      exact and_congr_left fun _ => iff_of_true rfl hQ
    · have hs := hbad s t i hR hQ
      rw [along_cons_none hs, hs]
      exact iff_of_false (by simp) (fun h => hQ h.1)

theorem exec_lost {J G : σ → Prop} (hkeep : ∀ s i t, J s → L s i → step s i = some t → J t)
    (hlost : ∀ s i t, J s → L s i → ¬ G s → step s i = some t → ¬ G t)
    {s : σ} (hJ : J s) (hG : ¬ G s) {is : List ι} (hL : Along step L s is) :
    ¬ G (exec step s is) := by
  refine (exec_invariant (I := fun s => J s ∧ ¬ G s) (P := L) ?_ ⟨hJ, hG⟩ hL).2
  rintro s i t ⟨hJ, hG⟩ hL ht
  exact ⟨hkeep s i t hJ hL ht, hlost s i t hJ hL hG ht⟩

/-- A property that a run can only lose, and loses exactly at a step that
breaks the rule `Q`, holds at its end exactly when every step kept the rule. -/
theorem exec_iff_along {J G : σ → Prop} {Q : σ → ι → Prop}
    (hkeep : ∀ s i t, J s → L s i → step s i = some t → J t)
    (hgood : ∀ s i t, J s → G s → L s i → Q s i → step s i = some t → G t)
    (hbad : ∀ s i t, J s → G s → L s i → ¬ Q s i → step s i = some t → ¬ G t)
    (hnone : ∀ s i, J s → G s → L s i → step s i = none → Q s i)
    (hlost : ∀ s i t, J s → L s i → ¬ G s → step s i = some t → ¬ G t)
    {s : σ} (hJ : J s) (hG : G s) {is : List ι} (hL : Along step L s is) :
    G (exec step s is) ↔ Along step Q s is := by
  induction is generalizing s with
  | nil => exact iff_of_true hG trivial
  | cons i is ih =>
    cases h : step s i with
    | none =>
      rw [along_cons_none h] at hL
      rw [exec_cons_none h, along_cons_none h]
      exact iff_of_true hG (hnone s i hJ hG hL h)
    | some t =>
      rw [along_cons_some h] at hL ⊢
      rw [exec_cons_some h]
      have hJt := hkeep s i t hJ hL.1 h
      by_cases hQ : Q s i
      · exact (ih hJt (hgood s i t hJ hG hL.1 hQ h) hL.2).trans (and_iff_right hQ).symm
      · have hGt := hbad s i t hJ hG hL.1 hQ h
        exact iff_of_false (exec_lost hkeep hlost hJt hGt hL.2) (fun hh => hQ hh.1)

theorem exec_iff_along_while {I G : σ → Prop} {Q : σ → ι → Prop}
    (hgood : ∀ s i t, I s → G s → L s i → Q s i → step s i = some t → I t ∧ G t)
    (hbad : ∀ s i t, I s → L s i → ¬ Q s i → step s i = some t → ¬ G t)
    (hnone : ∀ s i, I s → step s i = none → Q s i)
    (hlost : ∀ s i t, ¬ G s → step s i = some t → ¬ G t)
    {s : σ} (hI : I s) (hG : G s) {is : List ι} (hL : Along step L s is) :
    G (exec step s is) ↔ Along step Q s is := by
  apply exec_iff_along (J := fun s => G s → I s) (L := L)
  · intro s i t hJ hL ht hGt
    have hGs : G s := by_contra fun hn => hlost s i t hn ht hGt
    have hQ : Q s i := by_contra fun hn => hbad s i t (hJ hGs) hL hn ht hGt
    exact (hgood s i t (hJ hGs) hGs hL hQ ht).1
  · intro s i t hJ hG hL hQ ht
    exact (hgood s i t (hJ hG) hG hL hQ ht).2
  · intro s i t hJ hG hL hQ ht
    exact hbad s i t (hJ hG) hL hQ ht
  · intro s i hJ hG _ hn
    exact hnone s i (hJ hG) hn
  · intro s i t _ _ hG ht
    exact hlost s i t hG ht
  · exact fun _ => hI
  · exact hG
  · exact hL

def Answered (step : σ → ι → Option σ) : σ → List ι → Prop :=
  Along step fun s i => (step s i).isSome = true

theorem answered_cons {s : σ} {i : ι} {is : List ι} :
    Answered step s (i :: is) ↔ ∃ t, step s i = some t ∧ Answered step t is := by
  unfold Answered
  cases h : step s i with
  | none => rw [along_cons_none h, h]; simp
  | some t => rw [along_cons_some h, h]; simp

theorem answered_append {s : σ} {is js : List ι} :
    Answered step s (is ++ js) ↔
      Answered step s is ∧ Answered step (exec step s is) js := by
  induction is generalizing s with
  | nil => exact (and_iff_right trivial).symm
  | cons i is ih =>
    rw [List.cons_append, answered_cons, answered_cons]
    constructor
    · rintro ⟨t, ht, h⟩
      rw [exec_cons_some ht]
      exact ⟨⟨t, ht, (ih.mp h).1⟩, (ih.mp h).2⟩
    · rintro ⟨⟨t, ht, h⟩, hrest⟩
      rw [exec_cons_some ht] at hrest
      exact ⟨t, ht, ih.mpr ⟨h, hrest⟩⟩

theorem exec_append {s : σ} {is : List ι} (h : Answered step s is) (js : List ι) :
    exec step s (is ++ js) = exec step (exec step s is) js := by
  induction is generalizing s with
  | nil => rfl
  | cons i is ih =>
    obtain ⟨t, ht, h⟩ := answered_cons.mp h
    rw [List.cons_append, exec_cons_some ht, exec_cons_some ht]
    exact ih h

theorem along_append {s : σ} {is js : List ι} (h : Answered step s is) :
    Along step P s (is ++ js) ↔ Along step P s is ∧ Along step P (exec step s is) js := by
  induction is generalizing s with
  | nil => exact (and_iff_right trivial).symm
  | cons i is ih =>
    obtain ⟨t, ht, h⟩ := answered_cons.mp h
    rw [List.cons_append, along_cons_some ht, along_cons_some ht, exec_cons_some ht, ih h, and_assoc]

/-- The end of a run on which every step is answered and meets `P`. -/
def Reaches (step : σ → ι → Option σ) (P : σ → ι → Prop) (s t : σ) : Prop :=
  ∃ is, Answered step s is ∧ Along step P s is ∧ exec step s is = t

namespace Reaches

theorem refl (step : σ → ι → Option σ) (P : σ → ι → Prop) (s : σ) : Reaches step P s s :=
  ⟨[], trivial, trivial, rfl⟩

theorem tail {s t u : σ} {i : ι} (h : Reaches step P s t) (hstep : step t i = some u)
    (hP : P t i) : Reaches step P s u := by
  obtain ⟨is, his, hPs, rfl⟩ := h
  refine ⟨is ++ [i], answered_append.mpr ⟨his, answered_cons.mpr ⟨u, hstep, trivial⟩⟩,
    (along_append his).mpr ⟨hPs, (along_cons_some hstep []).mpr ⟨hP, trivial⟩⟩, ?_⟩
  rw [exec_append his, exec_cons_some hstep]
  rfl

theorem answered {s t : σ} (h : Reaches step P s t)
    (hall : ∀ is, Along step P s is → Answered step s is) (i : ι) (hP : P t i) :
    ∃ u, step t i = some u := by
  obtain ⟨is, his, hPs, rfl⟩ := h
  have hPi : Along step P (exec step s is) [i] := ⟨hP, by split <;> trivial⟩
  have hrun := hall (is ++ [i]) ((along_append his).mpr ⟨hPs, hPi⟩)
  obtain ⟨u, hu, -⟩ := answered_cons.mp (answered_append.mp hrun).2
  exact ⟨u, hu⟩

end Reaches

end BleFirmware.Run
