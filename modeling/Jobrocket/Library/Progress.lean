import Jobrocket.Library.Interleaving

/-! # Runs that come to an end

Among the steps that a predicate on labels permits, every one lowers a rank. Then the rank
bounds the length of every run of such steps, and each run can be continued to a state in
which none of them is enabled.
-/
namespace Library.Stepper
variable {S L E : Type*}

/-- No permitted step is enabled. -/
def Stuck (step : Stepper S L E) (P : L → Prop) (s : S) : Prop := ∀ l, P l → step s l = none

/-- The permitted steps keep an invariant and lower a rank. -/
structure Ranked (step : Stepper S L E) (P : L → Prop) (I : S → Prop) (rank : S → ℕ) : Prop where
  step : ∀ s l t es, I s → P l → step s l = some (t, es) → I t ∧ rank t < rank s

variable {step : Stepper S L E} {P : L → Prop} {I : S → Prop} {rank : S → ℕ} {s t : S}
variable {ls : List L} {es : List E}

theorem Ranked.exec (h : Ranked step P I rank) (hs : I s) (hls : ∀ l ∈ ls, P l)
    (hexec : step.exec s ls = some (t, es)) : I t ∧ ls.length + rank t ≤ rank s := by
  induction ls using List.reverseRecOn generalizing t es with
  | nil =>
    cases hexec
    exact ⟨hs, by simp⟩
  | append_singleton ls l ih =>
    obtain ⟨u, evs, fs, hu, hstep, -⟩ := exec_concat.mp hexec
    obtain ⟨hinv, hle⟩ := ih (fun k hk => hls k (List.mem_append_left _ hk)) hu
    obtain ⟨hinv', hlt⟩ := h.step u l t fs hinv (hls l (by simp)) hstep
    refine ⟨hinv', ?_⟩
    rw [List.length_append, List.length_singleton]
    omega

theorem Ranked.exists_stuck (h : Ranked step P I rank) (hs : I s) :
    ∃ ls t es, (∀ l ∈ ls, P l) ∧ step.exec s ls = some (t, es) ∧ Stuck step P t := by
  induction hn : rank s using Nat.strong_induction_on generalizing s with
  | _ n ih =>
    by_cases hstuck : Stuck step P s
    · exact ⟨[], s, [], by simp, rfl, hstuck⟩
    · obtain ⟨l, hl, hne⟩ : ∃ l, P l ∧ step s l ≠ none := by
        simpa only [Stuck, not_forall, exists_prop] using hstuck
      obtain ⟨⟨u, evs⟩, hstep⟩ := Option.ne_none_iff_exists'.mp hne
      obtain ⟨hinv, hlt⟩ := h.step s l u evs hs hl hstep
      obtain ⟨ls, t, es, hls, hexec, hend⟩ := ih (rank u) (hn ▸ hlt) hinv rfl
      refine ⟨l :: ls, t, evs ++ es, ?_, ?_, hend⟩
      · simpa using ⟨hl, hls⟩
      · rw [exec_cons hstep, hexec]
        rfl

end Library.Stepper
