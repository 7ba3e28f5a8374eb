import Jobrocket.FreeListBalance
import Jobrocket.JobPoolRuns

/-! # No freed job is lost, unless the cursor is raced

Distinct live jobs of one thread are freed by any number of workers while the thread
empties its list. In a run without a raced step every one of them ends up on the list or
in the allocator, once. Two workers that read the same `next_` lose a job.
-/
namespace Jobrocket.FreeListInterleaving
open Library Memory FreeList

variable {τ : Type*}

/-- Each of the jobs is on the list once or was passed to the allocator once, and the
allocator was passed no null pointer. -/
def Conserved (jobs entries recycled : List ℕ) : Prop :=
  (∀ job ∈ jobs, (entries.count job = 1 ∧ job ∉ recycled) ∨
    (job ∉ entries ∧ recycled.count job = 1)) ∧ nullptr ∉ recycled

theorem conserved_of_perm {jobs entries recycled : List ℕ} (h : (entries ++ recycled).Perm jobs)
    (hnodup : jobs.Nodup) (hnull : nullptr ∉ jobs) : Conserved jobs entries recycled := by
  refine ⟨fun job hjob => ?_, fun hmem => hnull (h.subset (List.mem_append_right _ hmem))⟩
  have hcount := h.count_eq job
  rw [List.count_append, List.count_eq_one_of_mem hnodup hjob] at hcount
  rcases Nat.eq_zero_or_pos (recycled.count job) with hz | hpos
  · exact Or.inl ⟨by omega, List.count_eq_zero.mp hz⟩
  · exact Or.inr ⟨List.count_eq_zero.mp (by omega), by omega⟩

section Runs
variable [Fintype τ] [DecidableEq τ] {fl : FreeList} {ls pre : List (Label τ)} {c : Config τ}
variable {evs : List ℕ}

omit [Fintype τ] [DecidableEq τ] in
theorem freed_append (ls more : List (Label τ)) : freed (ls ++ more) = freed ls ++ freed more :=
  List.flatMap_append

theorem balanced_of_exec (hclean : fl.Clean) (hle : fl.next ≤ fl.elements.length)
    (hnull : nullptr ∉ fl.entries ++ freed ls)
    (hfits : (fl.entries ++ freed ls).length ≤ fl.elements.length)
    (hraced : ∀ pre label, pre ++ [label] <+: ls → ∀ c evs,
      step.exec (quiescent fl) pre = some (c, evs) → Unraced c label)
    (hpre : pre <+: ls) (h : step.exec (quiescent fl) pre = some (c, evs)) :
    Balanced fl.elements.length ↑(fl.entries ++ freed pre) evs c.list c.owner (held c.workers)
      (claimed c.workers) := by
  refine Stepper.exec_induction (I := fun pre c evs => Balanced fl.elements.length
    ↑(fl.entries ++ freed pre) evs c.list c.owner (held c.workers) (claimed c.workers))
    ?_ ?_ hpre h
  · have hstart := Balanced.start hclean hle fun hmem => hnull (List.mem_append_left _ hmem)
    rw [freed, List.flatMap_nil, List.append_nil]
    have hidle : ∀ w, (quiescent fl : Config τ).workers w = .idle := fun _ => rfl
    rw [held_of_idle hidle, claimed_of_idle hidle]
    exact hstart
  · intro pre label c evs c' fs hlabel hexec hI hstep
    obtain ⟨post, hpost⟩ := (List.prefix_append pre [label]).trans hlabel
    have hsub : fl.entries ++ freed ls = fl.entries ++ freed pre ++ freed post := by
      rw [← hpost, freed_append, List.append_assoc]
    rw [hsub] at hnull hfits
    have hnew := balanced_step hI (fun hmem => hnull (List.mem_append_left _ hmem))
      ((List.sublist_append_left _ _).length_le.trans hfits)
      (hraced pre label hlabel c evs hexec) (moved_of_step hstep)
    have hjob : freed [label] = label.job := List.flatMap_singleton _ _
    rw [freed_append, hjob, ← List.append_assoc]
    exact hnew

/-- Freed jobs are neither lost nor duplicated: when distinct live jobs of a thread are
freed while the thread empties its list, and no step of the run is raced, every job is at
the end on the list once or was recycled once. -/
theorem conserved_of_exec (capacity : ℕ) (bases : List ℕ)
    (hplace : JobPool.Placement capacity bases) (self : ℕ) (hself : self < 2 ^ 64) (m₀ : Memory)
    (calls : List JobPool.Call) (husage : JobPool.Usage capacity bases self m₀ calls)
    (pool : JobPool) (m : Memory) (es : List JobPool.Event)
    (hpool : JobPool.step.exec (JobPool.create self capacity bases m₀) calls = some ((pool, m), es))
    (i : ℕ) (hi : i < bases.length) (ls : List (Label τ)) (hnodup : (freed ls).Nodup)
    (hlive : ∀ job ∈ freed ls, job ∈ JobPool.liveJobs es i)
    (hraced : ∀ pre label, pre ++ [label] <+: ls → ∀ c evs,
      step.exec (quiescent (pool.freeList i)) pre = some (c, evs) → Unraced c label)
    (c : Config τ) (recycled : List ℕ)
    (h : step.exec (quiescent (pool.freeList i)) ls = some (c, recycled)) (hret : c.Returned) :
    Conserved ((pool.freeList i).entries ++ freed ls) c.list.entries recycled := by
  obtain ⟨hinv, -⟩ := JobPool.inv_of_exec hplace hself husage List.prefix_rfl hpool
  obtain ⟨cs, hshelf⟩ := hinv.shelf i hi
  have hblocks := hshelf.subperm_blocks hnodup hlive
  have hall : ((pool.freeList i).entries ++ freed ls).Nodup := by
    obtain ⟨front, hfront, hsub⟩ := hblocks
    exact hfront.nodup_iff.mp (hsub.nodup (blocks_nodup (by decide)))
  have hnull : nullptr ∉ (pool.freeList i).entries ++ freed ls := by
    intro hmem
    have hle := (blocks_bounds (hblocks.subset hmem)).1
    exact hplace.nonnull _ (List.getElem_mem hi) (Nat.le_zero.mp hle)
  have hfits := hblocks.length_le
  rw [blocks_length, ← hshelf.elements_length] at hfits
  have hbalanced := balanced_of_exec hshelf.clean (hshelf.elements_length ▸ hshelf.next_le) hnull
    hfits hraced List.prefix_rfl h
  rw [hret.1, held_of_idle hret.2, claimed_of_idle hret.2] at hbalanced
  exact conserved_of_perm (Multiset.coe_eq_coe.mp hbalanced.entries_add) hall hnull

end Runs

section Small

/-- A pool for one thread with two blocks, both of them live. -/
abbrev smallCalls : List JobPool.Call := [.allocate 0 [1], .allocate 0 [2]]

theorem small_placement : JobPool.Placement 2 [1024] :=
  ⟨by decide, by decide, by decide, by decide⟩

theorem small_usage : JobPool.Usage 2 [1024] 16 (fun _ => 0) smallCalls := by
  refine ⟨fun i function hmem => ?_, by simp, fun pre job hpre => ?_⟩
  · simp only [List.mem_cons, JobPool.Call.allocate.injEq, List.not_mem_nil, or_false] at hmem
    rcases hmem with ⟨rfl, rfl⟩ | ⟨rfl, rfl⟩ <;> decide
  · have hmem := hpre.subset (List.mem_append_right _ (List.mem_singleton_self _))
    simp at hmem

theorem small_exec : ∃ pool m es,
    JobPool.step.exec (JobPool.create 16 2 [1024] fun _ => 0) smallCalls = some ((pool, m), es) ∧
      pool.freeList 0 = FreeList.create 2 ∧ JobPool.liveJobs es 0 = [1096, 1024] := by
  have hrun : (JobPool.step.exec (JobPool.create 16 2 [1024] fun _ => 0) smallCalls).map
      (fun r => (r.1.1.freeList 0, JobPool.liveJobs r.2 0)) =
        some (FreeList.create 2, [1096, 1024]) := by decide +kernel
  obtain ⟨⟨⟨pool, m⟩, es⟩, h, heq⟩ := Option.map_eq_some_iff.mp hrun
  exact ⟨pool, m, es, h, congrArg Prod.fst heq, congrArg Prod.snd heq⟩

abbrev inTurn : List (Label Bool) := [.free false 1024, .free true 1096, .worker false,
  .worker false, .worker true, .worker true, .worker true, .worker false]

/-- Each worker reads `next_` after the other has moved it. -/
theorem conserved_of_exec_in_turn : ∃ pool m es,
    JobPool.step.exec (JobPool.create 16 2 [1024] fun _ => 0) smallCalls = some ((pool, m), es) ∧
      ∃ c recycled, step.exec (quiescent (pool.freeList 0)) inTurn = some (c, recycled) ∧
        Conserved ((pool.freeList 0).entries ++ freed inTurn) c.list.entries recycled := by
  obtain ⟨pool, m, es, hpool, hlist, hlive⟩ := small_exec
  have hraced : ∀ pre label, pre ++ [label] <+: inTurn → ∀ c evs,
      step.exec (quiescent (pool.freeList 0)) pre = some (c, evs) → Unraced c label := by
    intro pre label hpre c evs h
    rw [hlist] at h
    obtain ⟨n, hn, rfl, rfl⟩ := concat_prefix_iff.mp hpre
    have hn : n < 8 := hn
    interval_cases n <;> cases h <;> trivial
  obtain ⟨⟨c, recycled⟩, hexec⟩ : ∃ r, step.exec (quiescent (FreeList.create 2)) inTurn = some r :=
    ⟨_, rfl⟩
  have hret : c.Returned := by
    cases hexec
    exact ⟨rfl, by decide⟩
  rw [← hlist] at hexec
  exact ⟨pool, m, es, hpool, c, recycled, hexec, conserved_of_exec 2 [1024] small_placement 16
    (by decide) (fun _ => 0) _ small_usage pool m es hpool 0 (by decide) inTurn (by decide)
    (by simp [hlive, freed, Label.job]) hraced c recycled hexec hret⟩

abbrev bothRead : List (Label Bool) := [.free false 1024, .free true 1096, .worker false,
  .worker true, .worker false, .worker true, .worker false, .worker true]

/-- Both workers read `next_` before either writes it, so both write the same slot and the
first job is lost. -/
theorem both_read_not_conserved : JobPool.Placement 2 [1024] ∧
    JobPool.Usage 2 [1024] 16 (fun _ => 0) smallCalls ∧ ∃ pool m es,
      JobPool.step.exec (JobPool.create 16 2 [1024] fun _ => 0) smallCalls = some ((pool, m), es) ∧
      (freed bothRead).Nodup ∧ (∀ job ∈ freed bothRead, job ∈ JobPool.liveJobs es 0) ∧
      ∃ c recycled, step.exec (quiescent (pool.freeList 0)) bothRead = some (c, recycled) ∧
        c.Returned ∧ c.list.entries = [1096] ∧ recycled = [] ∧
        ¬ Conserved ((pool.freeList 0).entries ++ freed bothRead) c.list.entries recycled := by
  obtain ⟨pool, m, es, hpool, hlist, hlive⟩ := small_exec
  refine ⟨small_placement, small_usage, pool, m, es, hpool, by decide,
    by simp [hlive, freed, Label.job], ?_⟩
  rw [hlist]
  refine ⟨_, _, rfl, ⟨rfl, by decide⟩, rfl, rfl, fun hall => ?_⟩
  have hlost := hall.1 1024 (by decide)
  exact absurd hlost (by decide)

end Small

end Jobrocket.FreeListInterleaving
