import Jobrocket.Library.Machine
import Mathlib.Algebra.BigOperators.Group.Finset.Piecewise

/-! # Interleavings of atomic steps

A step of a concurrent system is a partial function of the state and a label: the
label says which party moves, and a label that is not enabled gives nothing. A
schedule is a list of labels, so the interleavings of the parties are exactly the
schedules that can be executed. Every step may emit events, and an execution
collects them in order.
-/
namespace Library

/-- One atomic step: the next state and the events it emits, if the label is enabled. -/
abbrev Stepper (S L E : Type*) := S → L → Option (S × List E)

namespace Stepper
variable {S L E : Type*}

/-- Execute a schedule and collect the events in order. -/
def exec (step : Stepper S L E) : S → List L → Option (S × List E)
  | s, [] => some (s, [])
  | s, l :: ls =>
    (step s l).bind fun r => (exec step r.1 ls).map fun q => (q.1, r.2 ++ q.2)

variable {step : Stepper S L E}

@[simp] theorem exec_nil (s : S) : step.exec s [] = some (s, []) := rfl

theorem exec_cons {s t : S} {l : L} {es : List E} (h : step s l = some (t, es)) (ls : List L) :
    step.exec s (l :: ls) = (step.exec t ls).map fun q => (q.1, es ++ q.2) := by
  rw [exec, h, Option.bind_some]

theorem exec_append (s : S) (ls more : List L) :
    step.exec s (ls ++ more) =
      (step.exec s ls).bind fun r => (step.exec r.1 more).map fun q => (q.1, r.2 ++ q.2) := by
  induction ls generalizing s with
  | nil => simp
  | cons l ls ih =>
    cases h : step s l with
    | none => simp [exec, h]
    | some r =>
      simp only [List.cons_append, exec, h, Option.bind_some, ih r.1]
      cases step.exec r.1 ls with
      | none => rfl
      | some q => simp [Function.comp_def]

theorem exec_concat {s u : S} {ls : List L} {l : L} {evs : List E} :
    step.exec s (ls ++ [l]) = some (u, evs) ↔
      ∃ t es fs, step.exec s ls = some (t, es) ∧ step t l = some (u, fs) ∧ evs = es ++ fs := by
  rw [exec_append]
  cases h : step.exec s ls with
  | none => simp
  | some r =>
    obtain ⟨t, es⟩ := r
    cases h' : step t l with
    | none => simp [exec, h']
    | some q =>
      simp only [exec, h', Option.bind_some, Option.map_some, List.append_nil,
        Option.some.injEq, Prod.mk.injEq]
      constructor
      · rintro ⟨rfl, rfl⟩
        exact ⟨t, es, q.2, ⟨rfl, rfl⟩, by rw [h'], rfl⟩
      · rintro ⟨_, _, fs, ⟨rfl, rfl⟩, hu, rfl⟩
        rw [h'] at hu
        cases hu
        exact ⟨rfl, rfl⟩

/-- What is computed of an execution holds of its state and events. -/
theorem exec_observe {B : Type*} {f : S × List E → B} {s t : S} {ls : List L} {es : List E} {v : B}
    (h : step.exec s ls = some (t, es)) (hf : (step.exec s ls).map f = some v) : f (t, es) = v := by
  rw [h] at hf
  exact Option.some.inj hf

/-- A test of each label and of the execution before it, along a schedule. -/
theorem holds_of_check {p : L → Option (S × List E) → Bool} {s t : S} {ls pre : List L} {l : L}
    {es : List E} (h : ∀ k (hk : k < ls.length), p ls[k] (step.exec s (ls.take k)) = true)
    (hpre : pre ++ [l] <+: ls) (hexec : step.exec s pre = some (t, es)) :
    p l (some (t, es)) = true := by
  obtain ⟨k, hk, rfl, rfl⟩ := concat_prefix_iff.mp hpre
  rw [← hexec]
  exact h k hk

theorem exec_of_prefix {s u : S} {ls pre : List L} {evs : List E}
    (h : step.exec s ls = some (u, evs)) (hpre : pre <+: ls) :
    ∃ t es, step.exec s pre = some (t, es) := by
  obtain ⟨post, rfl⟩ := hpre
  rw [exec_append] at h
  obtain ⟨⟨t, es⟩, ht, -⟩ := Option.bind_eq_some_iff.mp h
  exact ⟨t, es, ht⟩

theorem exec_events_initial {s t u : S} {ls pre : List L} {es evs : List E}
    (h : step.exec s ls = some (u, evs)) (hpre : pre <+: ls)
    (ht : step.exec s pre = some (t, es)) : es <+: evs := by
  obtain ⟨post, rfl⟩ := hpre
  rw [exec_append, ht, Option.bind_some] at h
  obtain ⟨⟨v, fs⟩, -, he⟩ := Option.map_eq_some_iff.mp h
  cases he
  exact List.prefix_append es fs

/-- What holds at the start and is kept by every step of the schedule, whatever was
executed before it, holds after every prefix of the schedule. -/
theorem exec_induction {I : List L → S → List E → Prop} {s : S} {ls : List L} (nil : I [] s [])
    (snoc : ∀ pre l t es u fs, pre ++ [l] <+: ls → step.exec s pre = some (t, es) → I pre t es →
      step t l = some (u, fs) → I (pre ++ [l]) u (es ++ fs))
    {pre : List L} (hpre : pre <+: ls) {t : S} {es : List E}
    (h : step.exec s pre = some (t, es)) : I pre t es := by
  refine prefix_induction (Q := fun pre => ∀ t es, step.exec s pre = some (t, es) → I pre t es)
    ?_ ?_ hpre t es h
  · intro t es ht
    cases ht
    exact nil
  · intro pre l hl ih u evs hu
    obtain ⟨t, es, fs, ht, hstep, rfl⟩ := exec_concat.mp hu
    exact snoc pre l t es u fs hl ht (ih t es ht) hstep

/-- Where `spec` can follow every step of a run with the same events, it has the whole run. -/
theorem exec_simulates {T : Type*} {spec : Stepper T L E} {R : S → T → Prop} {s : S} {t : T}
    {ls : List L} (h0 : R s t)
    (hstep : ∀ pre l, pre ++ [l] <+: ls → ∀ s₁ t₁ es, spec.exec t pre = some (t₁, es) → R s₁ t₁ →
      ∀ s₂ fs, step s₁ l = some (s₂, fs) → ∃ t₂, spec t₁ l = some (t₂, fs) ∧ R s₂ t₂)
    {pre : List L} (hpre : pre <+: ls) {s' : S} {es : List E}
    (h : step.exec s pre = some (s', es)) : ∃ t', spec.exec t pre = some (t', es) ∧ R s' t' := by
  refine exec_induction (I := fun pre s' es => ∃ t', spec.exec t pre = some (t', es) ∧ R s' t')
    ⟨t, rfl, h0⟩ ?_ hpre h
  rintro pre l s₁ es s₂ fs hl - ⟨t₁, hspec, hR⟩ hs₂
  obtain ⟨t₂, ht₂, hR₂⟩ := hstep pre l hl s₁ t₁ es hspec hR s₂ fs hs₂
  exact ⟨t₂, exec_concat.mpr ⟨t₁, es, fs, hspec, ht₂, rfl⟩, hR₂⟩

end Stepper

section Parties
open scoped BigOperators
variable {τ P M : Type*} [Fintype τ] [DecidableEq τ] [AddCommMonoid M]

/-- What the parties hold together, when one of them changes its local state. -/
theorem sum_update_add (hold : P → M) (parties : τ → P) (i : τ) (x : P) :
    ∑ j, hold (Function.update parties i x j) + hold (parties i) =
      ∑ j, hold (parties j) + hold x := by
  have hsplit := Finset.sum_erase_add Finset.univ (fun j => hold (parties j)) (Finset.mem_univ i)
  have hsame : ∑ j ∈ Finset.univ.erase i, hold (Function.update parties i x j) =
      ∑ j ∈ Finset.univ.erase i, hold (parties j) := by
    refine Finset.sum_congr rfl fun j hj => ?_
    rw [Function.update_of_ne (Finset.ne_of_mem_erase hj)]
  rw [← Finset.sum_erase_add Finset.univ (fun j => hold (Function.update parties i x j))
    (Finset.mem_univ i), hsame, ← hsplit, Function.update_self, add_right_comm]

end Parties

end Library
