import Mathlib.Algebra.Group.Pi.Basic
import Mathlib.Logic.Equiv.Basic
import Mathlib.Tactic

/-! # Resources with one keeper each

Resources come and go, and in between each is with one keeper; keepers may trade what they
keep. A resource is kept exactly while it has come once more than it has gone, so none goes
twice for one coming, and when nobody keeps anything all that came has gone.
-/
namespace Library
variable {ι ρ : Type*}

/-- No resource has two keepers, and the counts tell which have one. -/
structure Kept (keeps : ι → Option ρ) (came went : ρ → ℕ) : Prop where
  unique : ∀ i j r, keeps i = some r → keeps j = some r → i = j
  kept : ∀ i r, keeps i = some r → came r = went r + 1
  gone : ∀ r, (∀ i, keeps i ≠ some r) → came r = went r

namespace Kept
variable {keeps : ι → Option ρ} {came went : ρ → ℕ} {i j : ι} {r : ρ}

theorem start : Kept (fun _ : ι => none) (0 : ρ → ℕ) 0 where
  unique := nofun
  kept := nofun
  gone _ _ := rfl

/-- A keeper is named otherwise. -/
theorem comp (h : Kept keeps came went) (e : ι ≃ ι) : Kept (keeps ∘ e) came went where
  unique i j r hi hj := e.injective (h.unique _ _ r hi hj)
  kept i := h.kept (e i)
  gone r hr := h.gone r fun i hi => hr (e.symm i) (by rwa [Function.comp_apply, e.apply_symm_apply])

variable [DecidableEq ι]

variable [DecidableEq ρ]

theorem acquire (h : Kept keeps came went) (hi : keeps i = none) (hr : ∀ j, keeps j ≠ some r) :
    Kept (Function.update keeps i (some r)) (came + Pi.single r 1) went := by
  constructor
  case unique =>
    intro j k s hj hk
    by_cases hji : j = i <;> by_cases hki : k = i
    · rw [hji, hki]
    · subst hji
      rw [Function.update_self] at hj
      rw [Function.update_of_ne hki] at hk
      exact absurd (hk.trans hj.symm) (hr k)
    · subst hki
      rw [Function.update_self] at hk
      rw [Function.update_of_ne hji] at hj
      exact absurd (hj.trans hk.symm) (hr j)
    · rw [Function.update_of_ne hji] at hj
      rw [Function.update_of_ne hki] at hk
      exact h.unique j k s hj hk
  case kept =>
    intro j s hj
    by_cases hji : j = i
    · subst hji
      rw [Function.update_self] at hj
      cases hj
      rw [Pi.add_apply, Pi.single_eq_same, h.gone r hr]
    · rw [Function.update_of_ne hji] at hj
      have hne : s ≠ r := fun hsr => hr j (hsr ▸ hj)
      rw [Pi.add_apply, Pi.single_eq_of_ne hne]
      exact h.kept j s hj
  case gone =>
    intro s hs
    have hne : s ≠ r := fun hsr => hs i (by rw [Function.update_self, hsr])
    rw [Pi.add_apply, Pi.single_eq_of_ne hne]
    refine h.gone s fun j hj => hs j ?_
    have hji : j ≠ i := fun hji => by rw [hji, hi] at hj; cases hj
    rwa [Function.update_of_ne hji]

theorem release (h : Kept keeps came went) (hi : keeps i = some r) :
    Kept (Function.update keeps i none) came (went + Pi.single r 1) := by
  have hkeeps : ∀ j s, Function.update keeps i none j = some s → j ≠ i ∧ keeps j = some s := by
    intro j s hj
    by_cases hji : j = i
    · subst hji
      rw [Function.update_self] at hj
      cases hj
    · rw [Function.update_of_ne hji] at hj
      exact ⟨hji, hj⟩
  constructor
  case unique =>
    intro j k s hj hk
    exact h.unique j k s (hkeeps j s hj).2 (hkeeps k s hk).2
  case kept =>
    intro j s hj
    obtain ⟨hji, hj⟩ := hkeeps j s hj
    have hne : s ≠ r := fun hsr => hji (h.unique j i r (hsr ▸ hj) hi)
    rw [Pi.add_apply, Pi.single_eq_of_ne hne]
    exact h.kept j s hj
  case gone =>
    intro s hs
    by_cases hsr : s = r
    · subst hsr
      rw [Pi.add_apply, Pi.single_eq_same]
      exact h.kept i s hi
    · rw [Pi.add_apply, Pi.single_eq_of_ne hsr]
      refine h.gone s fun j hj => hs j ?_
      have hji : j ≠ i := fun hji => by
        rw [hji, hi] at hj
        exact hsr (Option.some.inj hj).symm
      rwa [Function.update_of_ne hji]

end Kept

end Library
