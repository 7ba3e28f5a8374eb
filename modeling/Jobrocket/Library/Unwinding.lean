import Jobrocket.Library.Interleaving

/-! # Runs without the others

Of a run only the steps of one party are kept. If that party's steps do the same from states
that look alike to it, and the steps of the others leave the state as it looked and show it
nothing, then what is left is a run, and it shows what the whole run showed.
-/
namespace Library.Stepper
variable {S L E : Type*} {step : Stepper S L E}

/-- From alike states the step `l` does and shows the same, and leads to alike states. -/
def Consistent (step : Stepper S L E) (Alike : S → S → Prop) (s : S) (l : L) : Prop :=
  ∀ s' t es, Alike s s' → step s l = some (t, es) → ∃ t', step s' l = some (t', es) ∧ Alike t t'

/-- The step `l` of another leaves the state alike and shows nothing. -/
def Unseen (step : Stepper S L E) (Alike : S → S → Prop) (shown : E → Bool) (s : S) (l : L) :
    Prop :=
  ∀ s' t es, Alike s s' → step s l = some (t, es) → Alike t s' ∧ ∀ e ∈ es, shown e = false

/-- The steps of the others can be left out of a run. -/
theorem exec_filter {Alike : S → S → Prop} {mine : L → Bool} {shown : E → Bool} {s s' : S}
    {ls pre : List L} (halike : Alike s s')
    (hmine : ∀ pre l, pre ++ [l] <+: ls → ∀ t es, step.exec s pre = some (t, es) → mine l = true →
      Consistent step Alike t l)
    (hother : ∀ pre l, pre ++ [l] <+: ls → ∀ t es, step.exec s pre = some (t, es) →
      mine l = false → Unseen step Alike shown t l)
    (hpre : pre <+: ls) {t : S} {es : List E} (h : step.exec s pre = some (t, es)) :
    ∃ t' es', step.exec s' (pre.filter mine) = some (t', es') ∧
      es'.filter shown = es.filter shown ∧ Alike t t' := by
  refine exec_induction (I := fun pre t es => ∃ t' es',
    step.exec s' (pre.filter mine) = some (t', es') ∧ es'.filter shown = es.filter shown ∧
      Alike t t') ⟨s', [], rfl, rfl, halike⟩ ?_ hpre h
  rintro pre l t es u fs hl hexec ⟨t', es', hexec', hshown, halike'⟩ hstep
  cases hl' : mine l with
  | true =>
    obtain ⟨u', hstep', hnext⟩ := hmine pre l hl t es hexec hl' t' u fs halike' hstep
    refine ⟨u', es' ++ fs, ?_, ?_, hnext⟩
    · rw [List.filter_append, List.filter_singleton, hl', cond_true]
      exact exec_concat.mpr ⟨t', es', fs, hexec', hstep', rfl⟩
    · rw [List.filter_append, List.filter_append, hshown]
  | false =>
    obtain ⟨hnext, hnone⟩ := hother pre l hl t es hexec hl' t' u fs halike' hstep
    refine ⟨t', es', ?_, ?_, hnext⟩
    · rw [List.filter_append, List.filter_singleton, hl', cond_false, List.append_nil]
      exact hexec'
    · have hnothing : fs.filter shown = [] :=
        List.filter_eq_nil_iff.mpr fun e he => by simp [hnone e he]
      rw [List.filter_append, hnothing, List.append_nil, hshown]

end Library.Stepper
