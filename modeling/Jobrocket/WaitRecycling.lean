import Jobrocket.JobStageSteps

/-! # Waiting for a job that is recycled

A worker gives the block of a job back as soon as it has run it, and a thread that finds
its allocator full makes its next jobs in the blocks that came back. A pointer that is
still waited for then names another job. The job's state stays completed for the wait
exactly as long as no allocation takes its block.
-/
namespace Jobrocket.CallStacks
open Library Memory

variable {τ : Type*}

def waits (n : ℕ) : Label τ → Bool
  | .call _ (.wait k) => k = n
  | _ => false

/-- A `wait` for the job that is called in the run has not returned. -/
def Awaited (ls : List (Label τ)) (es : List Event) (n : ℕ) : Prop :=
  es.count (.waited n) < ls.countP (waits n)

/-- The jobs that have been executed and are awaited are completed. -/
def Kept (ls : List (Label τ)) (c : Config τ) (es : List Event) : Prop :=
  ∀ n, .executed n ∈ es → Awaited ls es n →
    Job.state c.memory (c.block n) = Job.State.completed.code

theorem Awaited.of_append {ls : List (Label τ)} {es evs : List Event} {n : ℕ}
    (h : Awaited ls (es ++ evs) n) : Awaited ls es n := by
  rw [Awaited, List.count_append] at h
  exact Nat.lt_of_le_of_lt (Nat.le_add_right _ _) h

theorem Awaited.append {ls : List (Label τ)} {es evs : List Event} {n : ℕ} (h : Awaited ls es n)
    (hevs : .waited n ∉ evs) : Awaited ls (es ++ evs) n := by
  rwa [Awaited, List.count_append, List.count_eq_zero.mpr hevs]

section Runs
variable [Fintype τ] [DecidableEq τ] {capacity : ℕ} {bases : List ℕ}
variable {c c' : Config τ} {l : Label τ} {es evs : List Event} {stage : ℕ → Stage}
variable {group : ℕ → Option ℕ} {n : ℕ} (index : τ → ℕ)

omit [DecidableEq τ] in
theorem Inv.completed (h : Inv capacity bases c es stage group) (hn : .executed n ∈ es)
    (hne : stage n ≠ .recycled) : Job.state c.memory (c.block n) = Job.State.completed.code := by
  have hexecuted : .executed n ∈ naming n es := (mem_naming rfl).mpr hn
  rw [h.history n] at hexecuted
  exact (h.store.fields n).completed hexecuted hne

variable {index}

theorem Inv.ready_of_takes (h : Inv capacity bases c es stage group)
    (hplace : JobPool.Placement capacity bases) (hindex : ∀ t, index t < bases.length)
    (hstep : CallStacks.step index c l = some (c', evs))
    (htake : takes index c l = some (c.block n)) :
    Job.state c'.memory (c'.block n) = Job.State.ready.code ∧ .waited n ∉ evs := by
  obtain ⟨live, hinv, -⟩ := h.store.given
  -- The block of the job is the one that was given away, whichever job got it.
  have hready : ∀ {t k p function pool m calls},
      c.pool.allocateJob c.memory (index t) function = (.ok p, pool, m, calls) →
      function.length ≤ Job.functionRoom → c.pool.nextBlock (index t) = some (c.block n) →
        Job.state m (Function.update c.block k p n) = Job.State.ready.code := by
    intro t k p function pool m calls halloc hfits hnext
    obtain ⟨-, hp, -, -, ⟨-, -, hstate⟩, -, -⟩ :=
      hinv.allocated hplace (hindex t) hfits halloc
    have hblock := Option.some.inj (hp.symm.trans hnext)
    by_cases hkn : n = k
    · rwa [hkn, Function.update_self]
    · rwa [Function.update_of_ne hkn, ← hblock]
  cases stepped_of_step hstep with
  | call t call hat => cases htake
  | choose t entry htop hchoice => cases htake
  | move t htop hmove =>
    simp only [takes, htop, List.head?_cons, Option.bind_some] at htake
    have hfits := h.callables t _ (htop ▸ List.mem_cons_self)
    cases hmove with
    | groupMake g k function halloc => exact ⟨hready halloc hfits htake, List.not_mem_nil⟩
    | made function halloc => exact ⟨hready halloc hfits htake, by simp⟩
    | refused function halloc =>
      have hnone := (hinv.refused hplace (hindex t) hfits halloc).2.1
      exact absurd (hnone.symm.trans htake) (by simp)
    | _ => cases htake

variable (index)

/-- The state of every job that was executed stays completed until the last wait for it has
returned, exactly if no step of the run takes the block of such a job while it is awaited. -/
theorem kept_iff (capacity : ℕ) (bases : List ℕ) (hplace : JobPool.Placement capacity bases)
    (self : ℕ) (hself : self < 2 ^ 64) (hne : self ≠ nullptr) (m₀ : Memory) (ls : List (Label τ))
    (husage : Usage index bases.length (boot τ self capacity bases m₀) ls) (hfits : Fits ls)
    (hdelivers : DeliversReady index (boot τ self capacity bases m₀) ls) (final : Config τ)
    (events : List Event)
    (hrun : (step index).exec (boot τ self capacity bases m₀) ls = some (final, events)) :
    (∀ pre, pre <+: ls → ∀ c es,
        (step index).exec (boot τ self capacity bases m₀) pre = some (c, es) → Kept ls c es) ↔
      ∀ pre l, pre ++ [l] <+: ls → ∀ c es,
        (step index).exec (boot τ self capacity bases m₀) pre = some (c, es) →
          ∀ n, .executed n ∈ es → Awaited ls es n → takes index c l ≠ some (c.block n) := by
  constructor
  · intro hkept pre l hl c es hexec n hn hawaited htake
    obtain ⟨c', es', hexec'⟩ := Stepper.exec_of_prefix hrun hl
    obtain ⟨c₁, es₁, evs, hexec₁, hstep, rfl⟩ := Stepper.exec_concat.mp hexec'
    cases hexec.symm.trans hexec₁
    obtain ⟨stage, group, hinv⟩ := exists_inv_of_exec hplace hself hne husage hfits
      hdelivers ((List.prefix_append pre [l]).trans hl) hexec
    obtain ⟨hready, hwaited⟩ := hinv.ready_of_takes hplace husage.index_lt hstep htake
    have hcompleted := hkept _ hl c' _ hexec' n (List.mem_append_left _ hn) (hawaited.append hwaited)
    exact absurd (hready.symm.trans hcompleted) (by decide)
  · intro hclear pre hpre c es hexec n hn hawaited
    obtain ⟨stage, group, hinv, hlost⟩ := inv_of_exec (P := fun es n => ¬ Awaited ls es n) hplace
      hself hne husage hfits hdelivers (fun es evs n hnot h => hnot h.of_append)
      (fun pre l hl c es hexec n hn htake hawaited => hclear pre l hl c es hexec n hn hawaited htake)
      hpre hexec
    exact hinv.completed hn fun hrecycled => hlost n hrecycled hawaited

end Runs

section Small

abbrev waitOnce : List (Label Unit) :=
  [.call () (.make callable), .go ()] ++ running 0 ++
    [.call () (.wait 0), .go (), .take () (some 0), .go (), .go (), .go (), .go (), .go (), .go ()]

/-- The job has been run when the thread makes its next one, and only then does it wait. -/
abbrev recycling : List (Label Unit) :=
  [.call () (.make callable), .go ()] ++ running 0 ++ taking 0 ++
    [.call () (.make callable), .go (), .call () (.wait 0)]

theorem kept_iff_waitOnce :
    ∃ final events, (step fun _ => 0).exec (boot Unit 16 1 [1024] fun _ => 0) waitOnce =
        some (final, events) ∧ .waited 0 ∈ events ∧
      ((∀ pre, pre <+: waitOnce → ∀ c es,
          (step fun _ => 0).exec (boot Unit 16 1 [1024] fun _ => 0) pre = some (c, es) →
            Kept waitOnce c es) ↔
        ∀ pre l, pre ++ [l] <+: waitOnce → ∀ c es,
          (step fun _ => 0).exec (boot Unit 16 1 [1024] fun _ => 0) pre = some (c, es) →
            ∀ n, .executed n ∈ es → Awaited waitOnce es n →
              takes (fun _ => 0) c l ≠ some (c.block n)) := by
  have hevents : ((step fun _ => 0).exec (boot Unit 16 1 [1024] fun _ => 0) waitOnce).map Prod.snd =
      some [.made 0, .ran 0, .scheduled 0, .executed 0, .left 0, .returned 0, .waited 0] := by
    decide +kernel
  have husage : Usage (fun _ => 0) 1 (boot Unit 16 1 [1024] fun _ => 0) waitOnce :=
    .of_check (fun _ => by decide) (by decide +kernel)
  have hdelivers : Delivers (fun _ => 0) (boot Unit 16 1 [1024] fun _ => 0) waitOnce :=
    .of_check (by decide +kernel)
  have hplace : JobPool.Placement 1 [1024] := ⟨by decide, by decide, by decide, by decide⟩
  obtain ⟨⟨c, es⟩, hrun, hes⟩ := Option.map_eq_some_iff.mp hevents
  have hes : es = _ := hes
  exact ⟨c, es, hrun, by simp [hes], kept_iff (fun _ => 0) 1 [1024] hplace 16 (by decide)
    (by decide) (fun _ => 0) waitOnce husage (by decide) hdelivers.ready c es hrun⟩

/-- The second job is made in the block of the first, which has been executed and is waited
for: the wait now looks at the state of a job that nobody has run yet. -/
theorem recycled_not_kept :
    ∃ c es, (step fun _ => 0).exec (boot Unit 16 1 [1024] fun _ => 0) recycling = some (c, es) ∧
      .executed 0 ∈ es ∧ Awaited recycling es 0 ∧ c.block 0 = c.block 1 ∧ ¬ Kept recycling c es := by
  have hend : ((step fun _ => 0).exec (boot Unit 16 1 [1024] fun _ => 0) recycling).map (fun r =>
      (r.2, r.1.block 0, r.1.block 1, Job.state r.1.memory (r.1.block 0))) =
      some ([.made 0, .ran 0, .scheduled 0, .executed 0, .left 0, .returned 0, .made 1], 1024, 1024,
        1) := by decide +kernel
  obtain ⟨⟨c, es⟩, h, hc⟩ := Option.map_eq_some_iff.mp hend
  simp only [Prod.mk.injEq] at hc
  obtain ⟨rfl, hfirst, hsecond, hstate⟩ := hc
  have hawaited : Awaited recycling [.made 0, .ran 0, .scheduled 0, .executed 0, .left 0,
      .returned 0, .made 1] 0 := by
    unfold Awaited
    decide
  refine ⟨c, _, h, by simp, hawaited, hfirst.trans hsecond.symm, fun hkept => ?_⟩
  have hcompleted := hkept 0 (by simp) hawaited
  rw [hstate] at hcompleted
  exact absurd hcompleted (by decide)

end Small

end Jobrocket.CallStacks
