import Mathlib.Logic.Function.Basic
import Mathlib.Tactic

/-! # Numbers handed out by a counter

A counter that only grows gives each holder the number it stands at. The holders then
have different numbers, from the first one given out up to the counter.
-/
namespace Library

/-- What the holders have, when the counter started at `lo` and stands at `next`. -/
structure Dispensed {τ : Type*} (lo next : ℕ) (held : τ → Option ℕ) : Prop where
  range : ∀ t i, held t = some i → lo ≤ i ∧ i < next
  inj : ∀ t u i, held t = some i → held u = some i → t = u

namespace Dispensed
variable {τ : Type*} {lo next next' : ℕ} {held held' : τ → Option ℕ}

theorem empty (lo next : ℕ) : Dispensed lo next fun _ : τ => none :=
  ⟨fun _ _ h => absurd h (by simp), fun _ _ _ h => absurd h (by simp)⟩

theorem mono (h : Dispensed lo next held) (hle : next ≤ next') : Dispensed lo next' held :=
  ⟨fun t i ht => ⟨(h.range t i ht).1, (h.range t i ht).2.trans_le hle⟩, h.inj⟩

theorem give [DecidableEq τ] (h : Dispensed lo next held) (hlo : lo ≤ next) (t : τ) :
    Dispensed lo (next + 1) (Function.update held t (some next)) := by
  constructor
  case range =>
    intro u i hu
    by_cases hut : u = t
    · rw [hut, Function.update_self] at hu
      cases hu
      exact ⟨hlo, Nat.lt_succ_self _⟩
    · rw [Function.update_of_ne hut] at hu
      exact (h.mono (Nat.le_succ _)).range u i hu
  case inj =>
    intro u v i hu hv
    by_cases hut : u = t <;> by_cases hvt : v = t
    · rw [hut, hvt]
    · rw [hut, Function.update_self] at hu
      rw [Function.update_of_ne hvt] at hv
      cases hu
      exact absurd (h.range v next hv).2 (lt_irrefl _)
    · rw [hvt, Function.update_self] at hv
      rw [Function.update_of_ne hut] at hu
      cases hv
      exact absurd (h.range u next hu).2 (lt_irrefl _)
    · rw [Function.update_of_ne hut] at hu
      rw [Function.update_of_ne hvt] at hv
      exact h.inj u v i hu hv

end Dispensed

end Library
