import Mathlib.Data.List.Basic

/-!
# Taking typed tokens

A computation takes tokens from the front of a list when it succeeds on every list whose
first tokens have the types it asks for, leaving the others, and fails with one error
on every other list. What two such computations take one after the other is the types
of both.
-/

namespace BleFirmware.Tokens

variable {α τ ε : Type*} {β γ : Type}

/-- The result holds the tokens that are left. -/
def Takes (type : α → τ) (e : ε) (types : List τ) (tokens : List α) (left : β → List α)
    (m : Except ε β) : Prop :=
  (types <+: tokens.map type → ∃ b, m = .ok b ∧ left b = tokens.drop types.length) ∧
    (¬ types <+: tokens.map type → m = .error e)

variable {type : α → τ} {e : ε} {types more : List τ} {tokens : List α} {left : β → List α}
  {left' : γ → List α} {m : Except ε β} {k : β → Except ε γ}

theorem append_prefix_iff {xs ys zs : List τ} :
    xs ++ ys <+: zs ↔ xs <+: zs ∧ ys <+: zs.drop xs.length := by
  constructor
  · rintro ⟨t, rfl⟩
    refine ⟨⟨ys ++ t, by rw [List.append_assoc]⟩, t, ?_⟩
    rw [List.append_assoc, List.drop_left]
  · rintro ⟨⟨t, rfl⟩, u, hu⟩
    rw [List.drop_left] at hu
    exact ⟨u, by rw [List.append_assoc, hu]⟩

theorem Takes.ok_iff (h : Takes type e types tokens left m) :
    (∃ b, m = .ok b) ↔ types <+: tokens.map type := by
  constructor
  · rintro ⟨b, hb⟩
    by_contra hnot
    rw [h.2 hnot] at hb
    cases hb
  · intro htypes
    obtain ⟨b, hb, -⟩ := h.1 htypes
    exact ⟨b, hb⟩

theorem Takes.left_eq (h : Takes type e types tokens left m) {b : β} (hb : m = .ok b) :
    left b = tokens.drop types.length := by
  obtain ⟨c, hc, hleft⟩ := h.1 (h.ok_iff.mp ⟨b, hb⟩)
  rw [hb] at hc
  cases hc
  exact hleft

theorem takes_nil {b : β} (h : left b = tokens) : Takes type e [] tokens left (.ok b) :=
  ⟨fun _ => ⟨b, rfl, h⟩, fun hnot => absurd List.nil_prefix hnot⟩

theorem Takes.bind (h : Takes type e types tokens left m)
    (hk : ∀ b, m = .ok b → Takes type e more (left b) left' (k b)) :
    Takes type e (types ++ more) tokens left' (m >>= k) := by
  constructor
  · intro hboth
    obtain ⟨htypes, hmore⟩ := append_prefix_iff.mp hboth
    obtain ⟨b, rfl, hleft⟩ := h.1 htypes
    have hmore' : more <+: (left b).map type := by rwa [hleft, List.map_drop]
    obtain ⟨c, hc, hleft'⟩ := (hk b rfl).1 hmore'
    refine ⟨c, hc, ?_⟩
    rw [hleft', hleft, List.drop_drop, List.length_append]
  · intro hnot
    by_cases htypes : types <+: tokens.map type
    · obtain ⟨b, rfl, hleft⟩ := h.1 htypes
      refine (hk b rfl).2 fun hmore => hnot (append_prefix_iff.mpr ⟨htypes, ?_⟩)
      rwa [hleft, List.map_drop] at hmore
    · rw [h.2 htypes]
      rfl

theorem Takes.map (h : Takes type e types tokens left m)
    (hk : ∀ b, m = .ok b → ∃ c, k b = .ok c ∧ left' c = left b) :
    Takes type e types tokens left' (m >>= k) := by
  rw [← List.append_nil types]
  refine h.bind fun b hb => ?_
  obtain ⟨c, hc, hleft⟩ := hk b hb
  rw [hc]
  exact takes_nil hleft

end BleFirmware.Tokens
