import Mathlib.Data.Nat.Init

/-!
# Operations of one task under a semaphore

The value of the semaphore goes along with the state. A wait takes one from it
and, at zero, does not return; a post gives one back. An operation is
disciplined when, entered with the value 1 of a free binary semaphore, it never
waits at zero and has the value back at 1 whenever it returns.
-/

namespace BleFirmware.Semaphore

universe u

/-- An operation returns with the state and the value it leaves, waits at value
zero, or fails, that is, never returns for another reason. -/
inductive Outcome (σ β : Type u)
  | returns (s : σ) (value : ℕ) (b : β)
  | waits
  | fails

def Prog (σ β : Type u) : Type u := σ → ℕ → Outcome σ β

namespace Prog

variable {σ β γ : Type u}

protected def pure (b : β) : Prog σ β := fun s value => .returns s value b

protected def bind (p : Prog σ β) (q : β → Prog σ γ) : Prog σ γ := fun s value =>
  match p s value with
  | .returns t value b => q b t value
  | .waits => .waits
  | .fails => .fails

instance : Monad (Prog σ) where
  pure := Prog.pure
  bind := Prog.bind

def init : Prog σ PUnit := fun s _ => .returns s 1 ⟨⟩

def wait : Prog σ PUnit := fun s value =>
  match value with
  | 0 => .waits
  | value+1 => .returns s value ⟨⟩

def post : Prog σ PUnit := fun s value => .returns s (value+1) ⟨⟩

def get : Prog σ σ := fun s value => .returns s value s

/-- A step that leaves the semaphore alone; `none` where it fails. -/
def act (f : σ → Option (σ × β)) : Prog σ β := fun s value =>
  match f s with
  | some (t, b) => .returns t value b
  | none => .fails

def modify (f : σ → σ) : Prog σ PUnit := act fun s => some (f s, ⟨⟩)

/-- A section between one wait and one post. -/
def locked (f : σ → Option (σ × β)) : Prog σ β := do
  wait
  let b ← act f
  post
  return b

end Prog

open Prog

variable {σ β γ : Type u} {p : Prog σ β} {q : β → Prog σ γ} {s t : σ} {v w : ℕ} {b : β}
  {f : σ → Option (σ × β)}

@[simp] theorem pure_run : (pure b : Prog σ β) s v = .returns s v b := rfl

theorem bind_returns (hp : p s v = .returns t w b) : (p >>= q) s v = q b t w := by
  change Prog.bind p q s v = _
  simp only [Prog.bind, hp]

theorem bind_waits (hp : p s v = .waits) : (p >>= q) s v = .waits := by
  change Prog.bind p q s v = _
  simp only [Prog.bind, hp]

theorem bind_fails (hp : p s v = .fails) : (p >>= q) s v = .fails := by
  change Prog.bind p q s v = _
  simp only [Prog.bind, hp]

@[simp] theorem wait_bind {q : PUnit → Prog σ γ} : (wait >>= q) s (v+1) = q ⟨⟩ s v := rfl

@[simp] theorem post_bind {q : PUnit → Prog σ γ} : (post >>= q) s v = q ⟨⟩ s (v+1) := rfl

@[simp] theorem get_bind {q : σ → Prog σ γ} : (get >>= q) s v = q s s v := rfl

@[simp] theorem modify_bind {g : σ → σ} {q : PUnit → Prog σ γ} :
    (modify g >>= q) s v = q ⟨⟩ (g s) v := rfl

theorem act_some (h : f s = some (t, b)) : act f s v = .returns t v b := by
  simp only [act, h]

theorem act_none (h : f s = none) : act f s v = .fails := by
  simp only [act, h]

theorem locked_some (h : f s = some (t, b)) : locked f s (v+1) = .returns t (v+1) b := by
  rw [locked, wait_bind, bind_returns (act_some h), post_bind, pure_run]

theorem locked_none (h : f s = none) : locked f s (v+1) = .fails := by
  rw [locked, wait_bind, bind_fails (act_none h)]

/-- What an operation that gives the semaphore back makes of `r`. -/
def Outcome.free : Option (σ × β) → Outcome σ β
  | some (t, b) => .returns t 1 b
  | none => .fails

theorem act_run (f : σ → Option (σ × β)) (s : σ) : act f s 1 = .free (f s) := by
  cases h : f s with
  | some r => exact act_some h
  | none => exact act_none h

theorem locked_run (f : σ → Option (σ × β)) (s : σ) : locked f s 1 = .free (f s) := by
  cases h : f s with
  | some r => exact locked_some h
  | none => exact locked_none h

def Disciplined (p : Prog σ β) (s : σ) : Prop :=
  match p s 1 with
  | .returns _ v _ => v = 1
  | .waits => False
  | .fails => True

theorem disciplined_of_free {r : Option (σ × β)} (h : p s 1 = .free r) : Disciplined p s := by
  cases r with
  | some r => simp only [Disciplined, h, Outcome.free]
  | none => simp only [Disciplined, h, Outcome.free]

theorem not_disciplined_of_waits (h : p s 1 = .waits) : ¬ Disciplined p s := by
  simp only [Disciplined, h, not_false_eq_true]

end BleFirmware.Semaphore
