import Mathlib.Data.Nat.Init

/-!
# Loops that need not end

A `while` loop is given by its body, which either moves to another state or
leaves the loop with a result. Running it takes a number of rounds, and a loop
returns when some number of rounds is enough. Nothing here assumes that a body
makes progress, so that a loop which never leaves is a value of the model.
-/

namespace BleFirmware.Loop

variable {σ β : Type*}

def run (body : σ → σ ⊕ β) : ℕ → σ → Option β
  | 0, _ => none
  | n+1, s =>
    match body s with
    | .inl t => run body n t
    | .inr b => some b

def Returns (body : σ → σ ⊕ β) (s : σ) (b : β) : Prop := ∃ n, run body n s = some b

def Diverges (body : σ → σ ⊕ β) (s : σ) : Prop := ∀ n, run body n s = none

variable {body : σ → σ ⊕ β}

theorem run_succ_inl {s t : σ} (h : body s = .inl t) (n : ℕ) :
    run body (n+1) s = run body n t := by
  simp only [run, h]

theorem run_succ_inr {s : σ} {b : β} (h : body s = .inr b) (n : ℕ) :
    run body (n+1) s = some b := by
  simp only [run, h]

theorem run_mono {n m : ℕ} {s : σ} {b : β} (hr : run body n s = some b) (hnm : n ≤ m) :
    run body m s = some b := by
  induction n generalizing s m with
  | zero => simp [run] at hr
  | succ n ih =>
    obtain ⟨k, rfl⟩ : ∃ k, m = k+1 := ⟨m-1, by omega⟩
    cases hb : body s with
    | inl t =>
      rw [run_succ_inl hb] at hr ⊢
      exact ih hr (by omega)
    | inr c =>
      rw [run_succ_inr hb] at hr ⊢
      exact hr

theorem exists_of_run {n : ℕ} {s : σ} {b : β} (hr : run body n s = some b) :
    ∃ t, body t = .inr b := by
  induction n generalizing s with
  | zero => cases hr
  | succ n ih =>
    cases hb : body s with
    | inl t =>
      rw [run_succ_inl hb] at hr
      exact ih hr
    | inr c =>
      rw [run_succ_inr hb] at hr
      exact ⟨s, hb.trans (congrArg Sum.inr (Option.some.inj hr))⟩

theorem Returns.unique {s : σ} {b c : β} (hb : Returns body s b) (hc : Returns body s c) :
    b = c := by
  obtain ⟨n, hn⟩ := hb
  obtain ⟨m, hm⟩ := hc
  have hn' := run_mono hn (Nat.le_max_left n m)
  have hm' := run_mono hm (Nat.le_max_right n m)
  exact Option.some.inj (hn'.symm.trans hm')

theorem returns_inl {s t : σ} {b : β} (h : body s = .inl t) :
    Returns body s b ↔ Returns body t b := by
  constructor
  · rintro ⟨n, hn⟩
    cases n with
    | zero => simp [run] at hn
    | succ n => exact ⟨n, by rwa [run_succ_inl h] at hn⟩
  · rintro ⟨n, hn⟩
    exact ⟨n+1, by rwa [run_succ_inl h]⟩

theorem returns_inr {s : σ} {b c : β} (h : body s = .inr c) : Returns body s b ↔ b = c := by
  constructor
  · rintro ⟨n, hn⟩
    cases n with
    | zero => simp [run] at hn
    | succ n =>
      rw [run_succ_inr h] at hn
      exact (Option.some.inj hn).symm
  · rintro rfl
    exact ⟨1, run_succ_inr h 0⟩

theorem diverges_of_invariant (I : σ → Prop) (hstep : ∀ s, I s → ∃ t, body s = .inl t ∧ I t)
    {s : σ} (hs : I s) : Diverges body s := by
  intro n
  induction n generalizing s with
  | zero => rfl
  | succ n ih =>
    obtain ⟨t, hb, ht⟩ := hstep s hs
    rw [run_succ_inl hb]
    exact ih ht

end BleFirmware.Loop
