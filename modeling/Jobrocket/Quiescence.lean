import Jobrocket.Stalls

/-! # When everything has returned

The deques are empty and no thread is inside the library. Then no job is on its way: each one
has been through all of its life, in order and once, or the program has its pointer and has not
run it. The counters of the groups are back at zero, and the blocks that are not the pool's are
those of the jobs that have not been run.
-/
namespace Jobrocket.CallStacks
open Library Memory

variable {τ : Type*}

/-- No job is left to take, and no thread is inside the library. -/
def Quiescent (c : Config τ) : Prop := c.entries = [] ∧ ∀ t, c.frames t = []

/-- The events of a job that is not on its way, in their order. A job whose pointer `p` is null
is dropped by whoever takes it. -/
inductive Lived (n p : ℕ) : List Event → Prop
  | unborn : Lived n p []
  | kept : Lived n p [.made n]
  | dropped (h : p = nullptr) : Lived n p [.made n, .ran n]
  | ran (h : p ≠ nullptr) : Lived n p [.made n, .ran n, .executed n]
  | grouped (g : ℕ) (h : p ≠ nullptr) : Lived n p [.counted n g, .executed n, .uncounted n g]

/-- A job that has been executed has a block, or had one. -/
def Solid (c : Config τ) (es : List Event) : Prop := ∀ n, .executed n ∈ es → c.block n ≠ nullptr

section Steps
variable [Fintype τ] [DecidableEq τ] {capacity : ℕ} {bases : List ℕ} {index : τ → ℕ}
variable {c c' : Config τ} {es evs : List Event} {stage : ℕ → Stage} {n g : ℕ}
variable {group : ℕ → Option ℕ} {l : Label τ}

omit [DecidableEq τ] in
theorem Inv.born_of_executed (h : Inv capacity bases c es stage group) (hn : .executed n ∈ es) :
    n < c.next ∧ ∀ g, stage n ≠ .counted g := by
  have hmem : .executed n ∈ naming n es := (mem_naming rfl).mpr hn
  rw [h.history n] at hmem
  constructor
  · by_contra hge
    rw [h.unborn n (not_lt.mp hge)] at hmem
    exact absurd hmem List.not_mem_nil
  · intro g hg
    rw [hg] at hmem
    simp [Stage.trace] at hmem

omit [Fintype τ] in
theorem body_of_executes (hstep : step index c l = some (c', evs)) (hn : .executed n ∈ evs) :
    (∃ t d, .tryRun d (.body n) ∈ c.frames t) ∧ c'.block = c.block := by
  cases stepped_of_step hstep with
  | call t call hat => cases call <;> simp [Call.enter] at hn
  | choose t entry htop hchoice => cases hchoice <;> simp at hn
  | @move t f rest fs c₁ evs htop hmove =>
    cases hmove with
    | body d k =>
      cases List.mem_singleton.mp hn
      exact ⟨⟨t, d, htop ▸ List.mem_cons_self⟩, rfl⟩
    | _ => simp at hn

theorem Solid.step (h : Solid c es) (hinv : Inv capacity bases c es stage group)
    (hstep : CallStacks.step index c l = some (c', evs)) : Solid c' (es ++ evs) := by
  intro n hn
  rcases List.mem_append.mp hn with hold | hnew
  · obtain ⟨hborn, hcounted⟩ := hinv.born_of_executed hold
    rw [hinv.block_of_step hstep hborn hcounted]
    exact h n hold
  · obtain ⟨⟨t, d, hbody⟩, hblock⟩ := body_of_executes hstep hnew
    rw [hblock]
    exact (hinv.running_of_mem hbody).2.2

omit [DecidableEq τ] in
theorem Quiescent.held_eq (h : Quiescent c) : held c = 0 := by
  have hnone : ∀ t, jobs (c.frames t) = 0 := by
    intro t
    rw [h.2 t, jobs_nil]
  rw [held, h.1, Finset.sum_eq_zero fun t _ => hnone t]
  rfl

omit [DecidableEq τ] in
theorem Quiescent.not_inFlight (h : Quiescent c) (hinv : Inv capacity bases c es stage group)
    (n : ℕ) : ¬ (stage n).InFlight := by
  intro hn
  have hmem := (hinv.roles.mem_iff n (stage n)).mpr ⟨rfl, hn⟩
  rw [h.held_eq] at hmem
  exact absurd hmem (Multiset.notMem_zero _)

omit [DecidableEq τ] in
/-- What is engaged nevertheless was passed to `run` as a null pointer. -/
theorem Quiescent.null_of_engaged (h : Quiescent c) (hpresent : Present c es)
    (hn : Engaged es n) : .ran n ∈ es ∧ c.block n = nullptr := by
  refine (hpresent.has n hn).resolve_left ?_
  rintro ⟨s, hs⟩
  rw [h.held_eq] at hs
  exact absurd hs (Multiset.notMem_zero _)

omit [DecidableEq τ] in
theorem Inv.not_ran_of_counted (h : Inv capacity bases c es stage group)
    (hn : .counted n g ∈ es) : .ran n ∉ es := by
  intro hran
  have hcounted : .counted n g ∈ naming n es := (mem_naming rfl).mpr hn
  have hran' : .ran n ∈ naming n es := (mem_naming rfl).mpr hran
  rw [h.history n] at hcounted hran'
  cases hs : stage n <;> cases hgroup : group n <;>
    simp [hs, hgroup, Stage.trace, Stage.origin, Stage.departure] at hcounted hran'

omit [DecidableEq τ] in
theorem Quiescent.uncounted (h : Quiescent c) (hinv : Inv capacity bases c es stage group)
    (hpresent : Present c es) (hn : .counted n g ∈ es) : .uncounted n g ∈ es := by
  by_contra hout
  have hnull := h.null_of_engaged hpresent (Or.inr ⟨g, hn, hout⟩)
  exact hinv.not_ran_of_counted hn hnull.1

omit [DecidableEq τ] in
theorem Quiescent.lived (h : Quiescent c) (hinv : Inv capacity bases c es stage group)
    (hpresent : Present c es) (hsolid : Solid c es) (n : ℕ) :
    Lived n (c.block n) (naming n es) := by
  have hinflight := h.not_inFlight hinv n
  have hhistory := hinv.history n
  -- the stages that are left are those of a job that is not on its way
  have hdone : naming n es = Stage.origin n (group n) ++ [.executed n] ++
      Stage.departure n (group n) → Lived n (c.block n) (naming n es) := by
    intro hnaming
    have hexecuted : .executed n ∈ es := (mem_naming rfl).mp (by simp [hnaming])
    rw [hnaming]
    cases group n with
    | none => exact .ran (hsolid n hexecuted)
    | some g => exact .grouped g (hsolid n hexecuted)
  cases hs : stage n <;> rw [hs] at hinflight hhistory <;>
    first | exact absurd trivial hinflight | skip
  case unborn => exact hhistory ▸ .unborn
  case made => exact hhistory ▸ .kept
  case freed => exact hdone hhistory
  case recycled => exact hdone hhistory
  case dropped =>
    cases hgroup : group n with
    | none =>
      have hran : .ran n ∈ es := (mem_naming rfl).mp (by
        rw [hhistory, hgroup]
        simp [Stage.trace, Stage.origin])
      have hexecuted : .executed n ∉ es := fun hmem => by
        have hmem' : .executed n ∈ naming n es := (mem_naming rfl).mpr hmem
        rw [hhistory, hgroup] at hmem'
        simp [Stage.trace, Stage.origin] at hmem'
      rw [hhistory, hgroup]
      exact .dropped (h.null_of_engaged hpresent (Or.inl ⟨hran, hexecuted⟩)).2
    | some g =>
      have hcounted : .counted n g ∈ es := (mem_naming rfl).mp (by
        rw [hhistory, hgroup]
        simp [Stage.trace, Stage.origin])
      have huncounted : .uncounted n g ∈ naming n es :=
        (mem_naming rfl).mpr (h.uncounted hinv hpresent hcounted)
      rw [hhistory, hgroup] at huncounted
      simp [Stage.trace, Stage.origin] at huncounted

omit [DecidableEq τ] in
theorem Quiescent.counter_eq (h : Quiescent c) (hinv : Inv capacity bases c es stage group)
    (hpresent : Present c es) (hcounted : Counted c es) (g : ℕ) : c.counters g = 0 := by
  have hnone : outstanding es g = ∅ := by
    refine Finset.eq_empty_of_forall_notMem fun n hn => ?_
    obtain ⟨hin, hout⟩ := mem_outstanding.mp hn
    exact hout (h.uncounted hinv hpresent hin)
  have hcard := hcounted.counter g
  rw [hnone, Finset.card_empty] at hcard
  exact UInt32.toNat_inj.mp hcard

omit [DecidableEq τ] in
/-- A job that is live is one that the program has kept. -/
theorem Quiescent.live_iff (h : Quiescent c) (hinv : Inv capacity bases c es stage group) (n : ℕ) :
    (stage n).Live ↔ naming n es = [.made n] := by
  have hinflight := h.not_inFlight hinv n
  rw [hinv.history n]
  cases hs : stage n <;> rw [hs] at hinflight <;>
    first | exact absurd trivial hinflight | skip
  case made => exact iff_of_true trivial rfl
  all_goals cases group n <;> simp [Stage.Live, Stage.trace, Stage.origin, Stage.departure]

omit [DecidableEq τ] in
/-- A thread gets a block as long as the program does not keep them all. -/
theorem Quiescent.allocates_iff (h : Quiescent c) (hinv : Inv capacity bases c es stage group)
    (hplace : JobPool.Placement capacity bases) {i : ℕ} (hi : i < bases.length)
    {function : List UInt8} (hfits : function.length ≤ Job.functionRoom) :
    (∃ p, (c.pool.allocateJob c.memory i function).1 = .ok p) ↔
      ∃ p ∈ blocks bases[i] Job.size capacity,
        ∀ n, naming n es = [.made n] → c.block n ≠ p := by
  obtain ⟨live, hpool, hiff⟩ := hinv.store.given
  have hkept : ∀ p, (∃ j, p ∈ live j) ↔
      p ≠ nullptr ∧ ∃ n, naming n es = [.made n] ∧ c.block n = p := by
    intro p
    rw [hiff p]
    exact and_congr_right fun _ => exists_congr fun n => and_congr_left fun _ => h.live_iff hinv n
  obtain ⟨result, pool', m', calls, hcall, -, -, hcases⟩ :=
    hpool.allocateJob hplace hi hfits
  rw [hcall]
  rcases hcases with ⟨rfl, -, hall, -⟩ | ⟨p, m₁, rfl, -, hp, -, -, -, -, hothers⟩
  · refine iff_of_false (fun ⟨p, hp⟩ => by cases hp) ?_
    rintro ⟨p, hp, hfree⟩
    obtain ⟨-, n, hn, heq⟩ := (hkept p).mp ⟨i, hall p hp⟩
    exact hfree n hn heq
  · refine iff_of_true ⟨p, rfl⟩ ⟨p, hp, fun n hn heq => ?_⟩
    have hnonnull : p ≠ nullptr := by
      have hlo := (blocks_bounds hp).1
      have hbase := hplace.nonnull _ (List.getElem_mem hi)
      unfold nullptr at *
      omega
    obtain ⟨j, hj⟩ := (hkept p).mpr ⟨hnonnull, n, hn, heq⟩
    exact (hothers j p hj).1 rfl

end Steps

section Runs
variable [Fintype τ] [DecidableEq τ] (index : τ → ℕ)

/-- When the deques are empty and every call has returned, every job has lived its life, once
and in order, or is kept by the program; the groups count none, and a thread's next allocation
gets a block unless the program keeps a job in each of them. -/
theorem lived_of_exec (capacity : ℕ) (bases : List ℕ) (hplace : JobPool.Placement capacity bases)
    (self : ℕ) (hself : self < 2 ^ 64) (hne : self ≠ nullptr) (m₀ : Memory) (ls : List (Label τ))
    (husage : Usage index bases.length (boot τ self capacity bases m₀) ls) (hfits : Fits ls)
    (hdelivers : DeliversReady index (boot τ self capacity bases m₀) ls)
    (hbound : ∀ pre, pre <+: ls → ∀ c es,
      (step index).exec (boot τ self capacity bases m₀) pre = some (c, es) →
        ∀ g, (outstanding es g).card < 2 ^ 32)
    (pre : List (Label τ)) (hpre : pre <+: ls) (c : Config τ) (es : List Event)
    (h : (step index).exec (boot τ self capacity bases m₀) pre = some (c, es))
    (hquiescent : Quiescent c) :
    (∀ n, Lived n (c.block n) (naming n es)) ∧ (∀ g, c.counters g = 0) ∧
      ∀ i (hi : i < bases.length) (function : List UInt8), function.length ≤ Job.functionRoom →
        ((∃ p, (c.pool.allocateJob c.memory i function).1 = .ok p) ↔
          ∃ p ∈ blocks bases[i] Job.size capacity,
            ∀ n, naming n es = [.made n] → c.block n ≠ p) := by
  obtain ⟨⟨stage, group, hinv⟩, -, hcounted⟩ :=
    counted_of_exec hplace hself hne husage hfits hdelivers hbound hpre h
  obtain ⟨-, hpresent⟩ := present_of_exec hplace hself hne husage hfits hdelivers hpre h
  have hsolid : Solid c es := by
    refine Stepper.exec_induction (I := fun _ c es => Solid c es) (fun n hn => ?_) ?_ hpre h
    · exact absurd hn List.not_mem_nil
    · intro qs l d fs d' evs hl hexec hsolid hstep
      obtain ⟨⟨stage, group, hinv⟩, -⟩ := counted_of_exec hplace hself hne husage hfits hdelivers
        hbound ((List.prefix_append qs [l]).trans hl) hexec
      exact hsolid.step hinv hstep
  exact ⟨hquiescent.lived hinv hpresent hsolid, hquiescent.counter_eq hinv hpresent hcounted,
    fun i hi function hfits => hquiescent.allocates_iff hinv hplace hi hfits⟩

end Runs

section Small

/-- The job of the group has been executed once, and its block is free for the next one. -/
theorem lived_of_exec_runAndWait :
    ∃ c es, (step fun _ => 0).exec (boot Unit 16 1 [1024] fun _ => 0) runAndWait = some (c, es) ∧
      naming 0 es = [.counted 0 4096, .executed 0, .uncounted 0 4096] ∧
      (∀ n, Lived n (c.block n) (naming n es)) ∧ (∀ g, c.counters g = 0) ∧
      ∀ i (hi : i < [1024].length) (function : List UInt8), function.length ≤ Job.functionRoom →
        ((∃ p, (c.pool.allocateJob c.memory i function).1 = .ok p) ↔
          ∃ p ∈ blocks [1024][i] Job.size 1,
            ∀ n, naming n es = [.made n] → c.block n ≠ p) := by
  have hend : ((step fun _ => 0).exec (boot Unit 16 1 [1024] fun _ => 0) runAndWait).map
      (fun r => (r.2, r.1.entries, (r.1.frames ()).length)) =
        some ([.counted 0 4096, .scheduled 0, .executed 0, .uncounted 0 4096, .left 0, .returned 0,
          .waitedForAll 4096], [], 0) := by decide +kernel
  obtain ⟨⟨c, es⟩, hrun, hc⟩ := Option.map_eq_some_iff.mp hend
  simp only [Prod.mk.injEq] at hc
  obtain ⟨rfl, hentries, hframes⟩ := hc
  have hplace : JobPool.Placement 1 [1024] := ⟨by decide, by decide, by decide, by decide⟩
  exact ⟨c, _, hrun, by decide, lived_of_exec (fun _ => 0) 1 [1024] hplace 16 (by decide)
    (by decide) (fun _ => 0) runAndWait runAndWait_usage (by decide) runAndWait_delivers.ready
    (fun _ hpre _ _ hexec => (bounded_of_exec _ hrun (by decide) hpre hexec).1) runAndWait
    List.prefix_rfl c _ hrun ⟨hentries, fun t => List.eq_nil_of_length_eq_zero hframes⟩⟩

end Small

end Jobrocket.CallStacks
