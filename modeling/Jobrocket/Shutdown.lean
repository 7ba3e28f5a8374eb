import Jobrocket.Detail.QueueExposure
import Jobrocket.Library.Progress
import Jobrocket.MainLoop

/-! # The return of `shutdown`

The mutex is held by a worker exactly while it evaluates the predicate of the wait or is
about to give the mutex up, so a worker that waits for the mutex waits for one that can
move. Once all workers are terminated and no jobs are left, every worker only has steps that
lead it towards the end of `main_proc`, and `shutdown` returns from its joins unless a
worker sleeps through it.
-/
namespace Jobrocket.MainLoop
open Library
variable {τ : Type*}

/-- The places at which a worker holds the mutex. -/
def PC.critical : PC → Bool
  | .evalActive | .evalState | .block | .unlock => true
  | _ => false

/-- The mutex is held exactly by the worker that is at such a place. -/
def Guarded (c : Config τ) : Prop := ∀ w, c.mutex = some w ↔ (c.main w).critical = true

/-- What a step of worker `w` does to its place and the mutex. -/
inductive Passed (c : Config τ) (w : ℕ) (c' : Config τ) (pc : PC) : Prop
  | keep (hmutex : c'.mutex = c.mutex) (hpc : pc.critical = (c.main w).critical)
  | take (hfree : c.mutex = none) (hmutex : c'.mutex = some w) (hpc : pc.critical = true)
  | release (hheld : (c.main w).critical = true) (hmutex : c'.mutex = none)
    (hpc : pc.critical = false)

section Mutex
variable {c c' : Config τ} {w v : ℕ} {es : List Event}

theorem passed_of_workerStep (h : workerStep c w = some (c', es)) :
    ∃ pc, c'.main = Function.update c.main w pc ∧ Passed c w c' pc := by
  unfold workerStep at h
  cases hpc : c.main w with
  | lock =>
    simp only [hpc] at h
    split at h
    · next hfree =>
      cases h
      exact ⟨.evalActive, rfl, .take hfree rfl rfl⟩
    · cases h
  | relock =>
    simp only [hpc] at h
    split at h
    · next hfree =>
      cases h
      exact ⟨.evalActive, rfl, .take hfree rfl rfl⟩
    · cases h
  | block =>
    simp only [hpc] at h
    cases h
    exact ⟨.blocked, rfl, .release (hpc ▸ rfl) rfl rfl⟩
  | unlock =>
    simp only [hpc] at h
    cases h
    exact ⟨.pop, rfl, .release (hpc ▸ rfl) rfl rfl⟩
  | pop =>
    simp only [hpc] at h
    cases h
    refine ⟨_, rfl, .keep rfl ?_⟩
    rw [hpc]
    cases (c.system.popJob w).1 <;> rfl
  | steal =>
    simp only [hpc] at h
    cases h
    refine ⟨_, rfl, .keep rfl ?_⟩
    rw [hpc]
    cases (c.system.stealJob w).1 <;> rfl
  | leaveGroup job =>
    simp only [hpc, Option.some.injEq, Prod.mk.injEq] at h
    obtain ⟨rfl, rfl⟩ := h
    exact ⟨.release job, rfl, .keep rfl (hpc ▸ rfl)⟩
  | release job =>
    simp only [hpc, Option.some.injEq, Prod.mk.injEq] at h
    obtain ⟨rfl, rfl⟩ := h
    exact ⟨.leaveActive, rfl, .keep rfl (hpc ▸ rfl)⟩
  | notStarted => simp [hpc] at h
  | blocked => simp [hpc] at h
  | finished => simp [hpc] at h
  | _ =>
    simp only [hpc] at h
    cases h
    refine ⟨_, rfl, .keep rfl ?_⟩
    rw [hpc]
    first | rfl | (split <;> rfl)

theorem workerStep_ne_notStarted (h : workerStep c w = some (c', es)) :
    c.main w ≠ .notStarted := by
  intro hpc
  simp [workerStep, hpc] at h

theorem Guarded.worker (h : Guarded c) {pc : PC} (hmain : c'.main = Function.update c.main w pc)
    (hpassed : Passed c w c' pc) : Guarded c' := by
  intro v
  rw [hmain]
  by_cases hvw : v = w
  · subst hvw
    rw [Function.update_self]
    cases hpassed with
    | keep hmutex hpc => rw [hmutex, hpc, h v]
    | take hfree hmutex hpc => simp [hmutex, hpc]
    | release hheld hmutex hpc => simp [hmutex, hpc]
  · rw [Function.update_of_ne hvw, ← h v]
    cases hpassed with
    | keep hmutex hpc => rw [hmutex]
    | take hfree hmutex hpc => simp [hmutex, hfree, Ne.symm hvw]
    | release hheld hmutex hpc => simp [hmutex, (h w).mpr hheld, Ne.symm hvw]

variable [DecidableEq τ] {t : τ}

/-- What a thread in `schedule_job` or `shutdown` leaves alone: it wakes workers and does
nothing else to their places. -/
theorem ThreadMove.frame (h : ThreadMove c t c' es) :
    c'.mutex = c.mutex ∧ c'.started = c.started ∧ c'.numWorkers = c.numWorkers ∧
      ∀ v, c'.main v = c.main v ∨ c.main v = .blocked ∧ c'.main v = .relock := by
  have hnotify : ∀ v, c.notifyAll.main v = c.main v ∨
      c.main v = .blocked ∧ c.notifyAll.main v = .relock := by
    intro v
    simp only [Config.notifyAll]
    split
    · next hblocked => exact Or.inr ⟨hblocked, rfl⟩
    · exact Or.inl rfl
  cases h with
  | notify _ => exact ⟨rfl, rfl, rfl, hnotify⟩
  | notifyTerminated _ => exact ⟨rfl, rfl, rfl, hnotify⟩
  | _ => exact ⟨rfl, rfl, rfl, fun _ => Or.inl rfl⟩

/-- The mutex is guarded, and the workers that `startup` has not reached have no thread. -/
structure Manned (c : Config τ) : Prop where
  guarded : Guarded c
  started_le : c.started ≤ c.numWorkers
  notStarted : ∀ w, c.started ≤ w → c.main w = .notStarted

omit [DecidableEq τ] in
theorem manned_start (system : JobSystem) (numWorkers : ℕ) :
    Manned (start τ system numWorkers) where
  guarded _ := by simp [start, PC.critical]
  started_le := Nat.zero_le _
  notStarted _ _ := rfl

omit [DecidableEq τ] in
theorem Manned.worker (h : Manned c) (hstep : workerStep c w = some (c', es)) : Manned c' := by
  obtain ⟨hnum, hstarted, -, -⟩ := moved_of_workerStep hstep
  obtain ⟨pc, hmain, hpassed⟩ := passed_of_workerStep hstep
  have hle : c'.started ≤ c'.numWorkers := by
    rw [hnum, hstarted]
    exact h.started_le
  refine ⟨h.guarded.worker hmain hpassed, hle, fun v hv => ?_⟩
  rw [hstarted] at hv
  have hold := h.notStarted v hv
  have hvw : v ≠ w := by
    rintro rfl
    exact workerStep_ne_notStarted hstep hold
  rw [hmain, Function.update_of_ne hvw, hold]

theorem Manned.thread (h : Manned c) (hmove : ThreadMove c t c' es) : Manned c' := by
  obtain ⟨hmutex, hstarted, hnum, hmain⟩ := hmove.frame
  refine ⟨fun v => ?_, by rw [hnum, hstarted]; exact h.started_le, fun v hv => ?_⟩
  · rw [hmutex, h.guarded v]
    rcases hmain v with hsame | ⟨hblocked, hwoken⟩
    · rw [hsame]
    · rw [hblocked, hwoken]
      exact Iff.rfl
  · rw [hstarted] at hv
    have hold := h.notStarted v hv
    rcases hmain v with hsame | ⟨hblocked, -⟩
    · rw [hsame, hold]
    · rw [hold] at hblocked
      cases hblocked

theorem Manned.step {l : Label τ} (h : Manned c) (hstep : step c l = some (c', es)) :
    Manned c' := by
  cases l with
  | start =>
    simp only [MainLoop.step] at hstep
    split at hstep
    · next hlt =>
      cases hstep
      have hnew := h.notStarted c.started le_rfl
      refine ⟨fun v => ?_, hlt, fun v hv => ?_⟩
      · change c.mutex = some v ↔ (Function.update c.main c.started .begin v).critical = true
        rw [h.guarded v]
        by_cases hv : v = c.started
        · subst hv
          rw [Function.update_self, hnew]
          exact Iff.rfl
        · rw [Function.update_of_ne hv]
      · have hne : v ≠ c.started := by
          rintro rfl
          exact absurd hv (Nat.not_succ_le_self _)
        exact (Function.update_of_ne hne _ _).trans (h.notStarted v (Nat.le_of_succ_le hv))
    · cases hstep
  | worker w => exact h.worker hstep
  | schedule u w job =>
    simp only [MainLoop.step] at hstep
    split at hstep
    · cases hstep
      exact ⟨h.guarded, h.started_le, h.notStarted⟩
    · cases hstep
  | shutdown u =>
    simp only [MainLoop.step] at hstep
    split at hstep
    · cases hstep
      exact ⟨h.guarded, h.started_le, h.notStarted⟩
    · cases hstep
  | thread u => exact h.thread (threadMove_of_threadStep hstep)

theorem manned_of_exec {system : JobSystem} {numWorkers : ℕ} {ls : List (Label τ)}
    (h : step.exec (start τ system numWorkers) ls = some (c, es)) : Manned c :=
  Stepper.exec_induction (I := fun _ c _ => Manned c) (manned_start system numWorkers)
    (fun _ _ _ _ _ _ _ _ hinv hstep => hinv.step hstep) List.prefix_rfl h

end Mutex

/-- No slot of a queue names a job that is ready, not even one behind the indices. -/
def Barren (s : JobSystem) : Prop := ∀ v pos, Job.isReady s.memory ((s.queue v).slot pos) = false

section Barren
variable {s : JobSystem} {w : ℕ} {q : FixedWorkStealingQueue ℕ}

theorem Barren.setQueue (h : Barren s) (hslot : ∀ pos, q.slot pos = (s.queue w).slot pos) :
    Barren (s.setQueue w q) := by
  intro v pos
  by_cases hw : w < s.workers.length
  · by_cases hvw : v = w
    · subst hvw
      rw [JobSystem.queue_setQueue hw, hslot]
      exact h v pos
    · rw [JobSystem.queue_setQueue_ne hvw]
      exact h v pos
  · have hsame : s.setQueue w q = s := by
      rw [JobSystem.setQueue, List.modify_eq_self (not_lt.mp hw)]
    rw [hsame]
    exact h v pos

theorem Barren.setRand (h : Barren s) (r : Xoroshiro128) : Barren (s.setRand w r) := by
  intro v pos
  rw [JobSystem.queue_setRand]
  exact h v pos

theorem barren_of_create (h : ∀ x ∈ s.workers, ∃ id maxJobs, x = Worker.create id maxJobs) :
    Barren s := by
  intro v pos
  have hfresh : ∃ maxJobs, s.queue v = .fresh ℕ maxJobs := by
    rw [JobSystem.queue, JobSystem.worker, List.getD_eq_getElem?_getD]
    cases hv : s.workers[v]? with
    | none => exact ⟨0, rfl⟩
    | some x =>
      obtain ⟨id, maxJobs, rfl⟩ := h x (List.mem_of_getElem? hv)
      exact ⟨maxJobs, rfl⟩
  obtain ⟨maxJobs, hqueue⟩ := hfresh
  rw [hqueue, FixedWorkStealingQueue.fresh_slot]
  rfl

theorem Barren.readyJob_eq_none (h : Barren s) {taken : Option ℕ} {v : ℕ}
    (htaken : ∀ p, taken = some p → ∃ pos, p = (s.queue v).slot pos) : s.readyJob taken = none := by
  cases taken with
  | none => rfl
  | some p =>
    obtain ⟨pos, rfl⟩ := htaken p rfl
    simp [JobSystem.readyJob, Option.filter_some, h v pos]

theorem Barren.popJob (h : Barren s) (w : ℕ) : (s.popJob w).1 = none ∧ Barren (s.popJob w).2 := by
  have hnext := h.setQueue (w := w) (FixedWorkStealingQueue.pop_slot (s.queue w))
  refine ⟨?_, hnext⟩
  refine h.readyJob_eq_none (v := w) fun p hp => ?_
  obtain ⟨pos, -, hslot⟩ := (FixedWorkStealingQueue.pop_between (s.queue w)).1 p hp
  exact ⟨pos, hslot⟩

theorem Barren.stealJob (h : Barren s) (w : ℕ) :
    (s.stealJob w).1 = none ∧ Barren (s.stealJob w).2 := by
  have hrand : Barren (s.setRand w (s.worker w).rand.next.2) := h.setRand _
  set s₁ := s.setRand w (s.worker w).rand.next.2
  simp only [JobSystem.stealJob]
  split
  · have hsteal : ∀ v, s₁.readyJob (s₁.queue v).steal.1 = none ∧
        Barren (s₁.setQueue v (s₁.queue v).steal.2) := by
      intro v
      refine ⟨hrand.readyJob_eq_none (v := v) fun p hp => ?_,
        hrand.setQueue (FixedWorkStealingQueue.steal_slot (s₁.queue v))⟩
      obtain ⟨pos, -, hslot⟩ := (FixedWorkStealingQueue.steal_between (s₁.queue v)).1 p hp
      exact ⟨pos, hslot⟩
    exact hsteal _
  · exact ⟨rfl, hrand⟩

theorem popJob_workers_length (s : JobSystem) (w : ℕ) :
    (s.popJob w).2.workers.length = s.workers.length := JobSystem.setQueue_workers_length

theorem stealJob_workers_length (s : JobSystem) (w : ℕ) :
    (s.stealJob w).2.workers.length = s.workers.length := by
  simp only [JobSystem.stealJob]
  split
  · exact JobSystem.setQueue_workers_length.trans JobSystem.setRand_workers_length
  · exact JobSystem.setRand_workers_length

end Barren

/-- The worker has entered `main_proc` or has no thread, and is not at a job. -/
def PC.between : PC → Bool
  | .begin | .execute _ | .complete _ | .leaveGroup _ | .release _ | .leaveActive | .clamp => false
  | _ => true

/-- The steps that a terminated worker has left when there are no jobs. -/
def PC.rank : PC → ℕ
  | .testActive => 10
  | .testQueue => 9
  | .lock => 8
  | .relock => 8
  | .evalActive => 7
  | .evalState => 6
  | .unlock => 5
  | .pop => 4
  | .steal => 3
  | .testLoop => 2
  | .testState => 1
  | .block => 1
  | _ => 0

/-- What a step of a terminated worker does when there are no jobs. -/
structure Retired (c : Config τ) (w : ℕ) (c' : Config τ) (pc : PC) : Prop where
  main : c'.main = Function.update c.main w pc
  between : pc.between = true
  rank : pc.rank < (c.main w).rank
  awake : pc ≠ .block ∧ (pc = .blocked → c.main w = .block)
  states : c'.states = c.states
  noJobs : c'.system.activeJobs = 0
  barren : Barren c'.system
  length : c'.system.workers.length = c.system.workers.length

section Retire
variable {c c' : Config τ} {w : ℕ} {es : List Event}

theorem Retired.of_goto {pc : PC} {mutex : Option ℕ} (hactive : c.system.activeJobs = 0)
    (hbarren : Barren c.system) (hbetween : pc.between = true) (hrank : pc.rank < (c.main w).rank)
    (hawake : pc ≠ .block ∧ (pc = .blocked → c.main w = .block)) :
    Retired c w { c.goto w pc with mutex := mutex } pc :=
  ⟨rfl, hbetween, hrank, hawake, rfl, hactive, hbarren, rfl⟩

theorem retired_of_workerStep (h : workerStep c w = some (c', es))
    (hstate : c.states w = .terminated) (hactive : c.system.activeJobs = 0)
    (hbarren : Barren c.system) (hbetween : (c.main w).between = true) :
    ∃ pc, Retired c w c' pc := by
  have hzero : ¬ c.system.activeJobs > 0 := by
    rw [hactive]
    decide
  unfold workerStep at h
  cases hpc : c.main w with
  | testState =>
    simp only [hpc, hstate, ne_eq, not_true_eq_false, if_false] at h
    cases h
    exact ⟨.finished, .of_goto hactive hbarren rfl (by rw [hpc]; decide) (by simp)⟩
  | testActive =>
    simp only [hpc, hactive] at h
    cases h
    exact ⟨.testQueue, .of_goto hactive hbarren rfl (by rw [hpc]; decide) (by simp)⟩
  | testQueue =>
    simp only [hpc] at h
    split at h
    · cases h
      exact ⟨.lock, .of_goto hactive hbarren rfl (by rw [hpc]; decide) (by simp)⟩
    · cases h
      exact ⟨.pop, .of_goto hactive hbarren rfl (by rw [hpc]; decide) (by simp)⟩
  | lock =>
    simp only [hpc] at h
    split at h
    · cases h
      exact ⟨.evalActive, .of_goto hactive hbarren rfl (by rw [hpc]; decide) (by simp)⟩
    · cases h
  | relock =>
    simp only [hpc] at h
    split at h
    · cases h
      exact ⟨.evalActive, .of_goto hactive hbarren rfl (by rw [hpc]; decide) (by simp)⟩
    · cases h
  | evalActive =>
    simp only [hpc, if_neg hzero] at h
    cases h
    exact ⟨.evalState, .of_goto hactive hbarren rfl (by rw [hpc]; decide) (by simp)⟩
  | evalState =>
    simp only [hpc, hstate, if_true] at h
    cases h
    exact ⟨.unlock, .of_goto hactive hbarren rfl (by rw [hpc]; decide) (by simp)⟩
  | block =>
    simp only [hpc] at h
    cases h
    exact ⟨.blocked, .of_goto hactive hbarren rfl (by rw [hpc]; decide) ⟨by simp, fun _ => hpc⟩⟩
  | unlock =>
    simp only [hpc] at h
    cases h
    exact ⟨.pop, .of_goto hactive hbarren rfl (by rw [hpc]; decide) (by simp)⟩
  | pop =>
    obtain ⟨hnone, hnext⟩ := hbarren.popJob w
    simp only [hpc, hnone] at h
    cases h
    exact ⟨.steal, rfl, rfl, by rw [hpc]; decide, by simp, rfl, hactive, hnext,
      popJob_workers_length c.system w⟩
  | steal =>
    obtain ⟨hnone, hnext⟩ := hbarren.stealJob w
    simp only [hpc, hnone] at h
    cases h
    exact ⟨.testLoop, rfl, rfl, by rw [hpc]; decide, by simp, rfl,
      JobSystem.stealJob_activeJobs.trans hactive, hnext, stealJob_workers_length c.system w⟩
  | testLoop =>
    simp only [hpc, if_neg hzero] at h
    cases h
    exact ⟨.testState, .of_goto hactive hbarren rfl (by rw [hpc]; decide) (by simp)⟩
  | notStarted => simp [hpc] at h
  | blocked => simp [hpc] at h
  | finished => simp [hpc] at h
  | _ =>
    rw [hpc] at hbetween
    cases hbetween

end Retire

/-- The steps of calls in progress. -/
def Label.goesOn : Label τ → Bool
  | .worker _ => true
  | .thread _ => true
  | _ => false

/-- `shutdown` on thread `t` has terminated and notified all workers, nobody schedules, and no
jobs are left. -/
structure Quitting (c : Config τ) (t : τ) : Prop where
  length : c.numWorkers ≤ c.system.workers.length
  joining : c.threads t = .joining 0
  others : ∀ u, u ≠ t → c.threads u = .idle
  started : c.numWorkers ≤ c.started
  terminated : ∀ w < c.started, c.states w = .terminated
  noJobs : c.system.activeJobs = 0
  barren : Barren c.system
  between : ∀ w, (c.main w).between = true

/-- The worker has no thread that is still running. -/
def PC.Over (pc : PC) : Prop := pc = .notStarted ∨ pc = .finished

/-- The joins that `shutdown` has left, and its return. -/
def joinsLeft (workers : ℕ) : ThreadPC → ℕ
  | .joining k => workers - k + 1
  | _ => 0

/-- How far the joins of thread `t` have got. -/
def Joined (c : Config τ) (t : τ) : Prop :=
  (∃ k, c.threads t = .joining k ∧ ∀ v < k, (c.main v).Over) ∨
    c.threads t = .idle ∧ ∀ v < c.system.workers.length, (c.main v).Over

/-- What the steps of the workers and of `shutdown` keep from there on. -/
structure Retiring (c : Config τ) (t : τ) (workers : ℕ) : Prop where
  manned : Manned c
  joined : Joined c t
  others : ∀ u, u ≠ t → c.threads u = .idle
  started : c.numWorkers ≤ c.started
  terminated : ∀ w < c.started, c.states w = .terminated
  noJobs : c.system.activeJobs = 0
  barren : Barren c.system
  between : ∀ w, (c.main w).between = true
  length : c.system.workers.length = workers
  fits : c.numWorkers ≤ workers

/-- The steps that are left to all of them. -/
def remaining (t : τ) (workers : ℕ) (c : Config τ) : ℕ :=
  ∑ w ∈ Finset.range c.started, (c.main w).rank + joinsLeft workers (c.threads t)

section Retiring
variable {c c' : Config τ} {t : τ} {workers w : ℕ} {es : List Event}

theorem PC.Over.step {pc : PC} (h : pc.Over) (hc : c.main w = pc) : workerStep c w = none := by
  rcases h with rfl | rfl <;> simp [workerStep, hc]

theorem Retiring.worker (h : Retiring c t workers) (hstep : workerStep c w = some (c', es)) :
    Retiring c' t workers ∧ remaining t workers c' < remaining t workers c ∧
      ∃ pc, Retired c w c' pc := by
  have hmoved := moved_of_workerStep hstep
  have hw : w < c.started := by
    by_contra hge
    exact workerStep_ne_notStarted hstep (h.manned.notStarted w (not_lt.mp hge))
  obtain ⟨pc, hretired⟩ :=
    retired_of_workerStep hstep (h.terminated w hw) h.noJobs h.barren (h.between w)
  have hmain := hretired.main
  -- a worker that steps is not over
  have hover : ∀ v, (c.main v).Over → c'.main v = c.main v := by
    intro v hv
    have hvw : v ≠ w := by
      rintro rfl
      rw [hv.step rfl] at hstep
      cases hstep
    rw [hmain, Function.update_of_ne hvw]
  refine ⟨?_, ?_, pc, hretired⟩
  · constructor
    case manned => exact h.manned.worker hstep
    case joined =>
      rw [Joined, hmoved.threads, hretired.length]
      rcases h.joined with ⟨k, hk, hall⟩ | ⟨hidle, hall⟩
      · exact Or.inl ⟨k, hk, fun v hv => (hover v (hall v hv)).symm ▸ hall v hv⟩
      · exact Or.inr ⟨hidle, fun v hv => (hover v (hall v hv)).symm ▸ hall v hv⟩
    case others => exact hmoved.threads ▸ h.others
    case started =>
      rw [hmoved.numWorkers, hmoved.started]
      exact h.started
    case terminated =>
      rw [hmoved.started, hretired.states]
      exact h.terminated
    case noJobs => exact hretired.noJobs
    case barren => exact hretired.barren
    case between =>
      intro v
      rw [hmain]
      by_cases hvw : v = w
      · subst hvw
        rw [Function.update_self]
        exact hretired.between
      · rw [Function.update_of_ne hvw]
        exact h.between v
    case length => exact hretired.length.trans h.length
    case fits => exact hmoved.numWorkers.symm ▸ h.fits
  · have hsum : ∑ v ∈ Finset.range c'.started, (c'.main v).rank <
        ∑ v ∈ Finset.range c.started, (c.main v).rank := by
      rw [hmoved.started, hmain]
      refine Finset.sum_lt_sum (fun v _ => ?_) ⟨w, Finset.mem_range.mpr hw, ?_⟩
      · by_cases hvw : v = w
        · subst hvw
          rw [Function.update_self]
          exact hretired.rank.le
        · rw [Function.update_of_ne hvw]
      · rw [Function.update_self]
        exact hretired.rank
    rw [remaining, remaining, hmoved.threads]
    omega

variable [DecidableEq τ]

theorem remaining_setThread (c : Config τ) (t : τ) (workers : ℕ) (pc : ThreadPC) :
    remaining t workers (c.setThread t pc) =
      ∑ w ∈ Finset.range c.started, (c.main w).rank + joinsLeft workers pc := by
  have hself : (c.setThread t pc).threads t = pc := Function.update_self ..
  rw [remaining, hself]
  rfl

theorem Retiring.thread (h : Retiring c t workers) {u : τ}
    (hstep : threadStep c u = some (c', es)) :
    Retiring c' t workers ∧ remaining t workers c' < remaining t workers c ∧ c'.main = c.main := by
  have hut : u = t := by
    by_contra hne
    simp [threadStep, h.others u hne] at hstep
  subst hut
  -- the members that a join leaves alone
  have hkeep : ∀ pc, Joined (c.setThread u pc) u → Retiring (c.setThread u pc) u workers := by
    intro pc hjoined
    have hmanned : Manned (c.setThread u pc) :=
      ⟨h.manned.guarded, h.manned.started_le, h.manned.notStarted⟩
    refine { h with manned := hmanned, joined := hjoined, others := fun v hv => ?_ }
    exact (Function.update_of_ne hv _ _).trans (h.others v hv)
  have hthread : ∀ pc, (c.setThread u pc).threads u = pc := fun pc => Function.update_self ..
  have hlength := h.length
  rcases h.joined with ⟨k, hk, hall⟩ | ⟨hidle, -⟩
  · simp only [threadStep, hk] at hstep
    split at hstep
    · next hlt =>
      split at hstep
      · next hover =>
        cases hstep
        refine ⟨hkeep _ (Or.inl ⟨k + 1, hthread _, fun v hv => ?_⟩), ?_, rfl⟩
        · rcases Nat.lt_succ_iff_lt_or_eq.mp hv with hv | rfl
          · exact hall v hv
          · exact hover
        · rw [remaining_setThread, remaining, hk, joinsLeft, joinsLeft]
          omega
      · cases hstep
    · next hge =>
      cases hstep
      refine ⟨hkeep _ (Or.inr ⟨hthread _, fun v hv => hall v ?_⟩), ?_, rfl⟩
      · exact lt_of_lt_of_le hv (not_lt.mp hge)
      · rw [remaining_setThread, remaining, hk]
        exact Nat.add_lt_add_left (Nat.succ_pos _) _
  · simp [threadStep, hidle] at hstep

/-- No worker has blocked or is about to. -/
def Awake (c : Config τ) : Prop := ∀ w, c.main w ≠ .block ∧ c.main w ≠ .blocked

omit [DecidableEq τ] in
/-- A worker that has none of its steps left falls asleep or wakes up for none. -/
theorem Retired.awake_iff {pc : PC} (h : Retired c w c' pc)
    (hstep : workerStep c w = some (c', es)) : Awake c' ↔ Awake c := by
  have hself : c'.main w = pc := by rw [h.main, Function.update_self]
  have hother : ∀ v, v ≠ w → c'.main v = c.main v := fun v hv => by
    rw [h.main, Function.update_of_ne hv]
  constructor
  · intro hawake v
    by_cases hvw : v = w
    · subst hvw
      have hpc := (hawake v).2
      rw [hself] at hpc
      refine ⟨fun hblock => hpc ?_, fun hblocked => ?_⟩
      · -- the only step from there is to block
        have hrank := h.rank
        simp only [workerStep, hblock] at hstep
        cases hstep
        rw [← hself]
        exact Function.update_self ..
      · simp [workerStep, hblocked] at hstep
    · rw [← hother v hvw]
      exact hawake v
  · intro hawake v
    by_cases hvw : v = w
    · subst hvw
      rw [hself]
      exact ⟨h.awake.1, fun hpc => (hawake v).1 (h.awake.2 hpc)⟩
    · rw [hother v hvw]
      exact hawake v

theorem ranked_retiring (t : τ) (workers : ℕ) (A : Prop) :
    Stepper.Ranked step (fun l : Label τ => l.goesOn = true)
      (fun c => Retiring c t workers ∧ (Awake c ↔ A)) (remaining t workers) where
  step := by
    rintro c l c' es ⟨h, hawake⟩ hl hstep
    cases l with
    | worker w =>
      obtain ⟨hnext, hlt, pc, hretired⟩ := h.worker hstep
      exact ⟨⟨hnext, (hretired.awake_iff hstep).trans hawake⟩, hlt⟩
    | thread u =>
      obtain ⟨hnext, hlt, hmain⟩ := h.thread hstep
      refine ⟨⟨hnext, ?_⟩, hlt⟩
      rw [Awake, hmain]
      exact hawake
    | start => cases hl
    | schedule u w job => cases hl
    | shutdown u => cases hl

omit [DecidableEq τ] in
/-- A worker without a step left is over or asleep: the holder of the mutex always has one. -/
theorem Retiring.over_or_asleep (h : Retiring c t workers)
    (hstuck : ∀ v, workerStep c v = none) (w : ℕ) : (c.main w).Over ∨ c.main w = .blocked := by
  have hfree : c.mutex = none := by
    cases hmutex : c.mutex with
    | none => rfl
    | some v =>
      have hcritical := (h.manned.guarded v).mp hmutex
      have hnone := hstuck v
      cases hpc : c.main v <;> simp [PC.critical, workerStep, hpc] at hcritical hnone
  have hnone := hstuck w
  have hbetween := h.between w
  cases hpc : c.main w with
  | notStarted => exact Or.inl (Or.inl rfl)
  | finished => exact Or.inl (Or.inr rfl)
  | blocked => exact Or.inr rfl
  | _ => simp [workerStep, hpc, hfree] at hnone hbetween

/-- Where nothing can move on, `shutdown` has returned exactly if nobody is asleep. -/
theorem Retiring.returned_iff (h : Retiring c t workers)
    (hstuck : Stepper.Stuck step (fun l : Label τ => l.goesOn = true) c) :
    c.threads t = .idle ↔ Awake c := by
  have hover := h.over_or_asleep fun v => hstuck (.worker v) rfl
  have hlength := h.length
  constructor
  · intro hidle w
    rcases h.joined with ⟨k, hk, -⟩ | ⟨-, hall⟩
    · rw [hidle] at hk
      cases hk
    · have hw : (c.main w).Over := by
        by_cases hw : w < c.started
        · have hfits := h.fits
          have hstarted := h.manned.started_le
          exact hall w (by omega)
        · exact Or.inl (h.manned.notStarted w (not_lt.mp hw))
      rcases hw with hw | hw <;> simp [hw]
  · intro hawake
    have hall : ∀ v, (c.main v).Over := fun v => (hover v).resolve_right (hawake v).2
    rcases h.joined with ⟨k, hk, -⟩ | ⟨hidle, -⟩
    · -- the next join, or the return, is a step
      have hnone : threadStep c t = none := hstuck (.thread t) rfl
      have hk' : c.main k = .notStarted ∨ c.main k = .finished := hall k
      simp only [threadStep, hk, if_pos hk'] at hnone
      split at hnone <;> cases hnone
    · exact hidle

omit [DecidableEq τ] in
theorem Quitting.retiring (h : Quitting c t) (hmanned : Manned c) :
    Retiring c t c.system.workers.length where
  manned := hmanned
  joined := Or.inl ⟨0, h.joining, fun _ hv => absurd hv (Nat.not_lt_zero _)⟩
  others := h.others
  started := h.started
  terminated := h.terminated
  noJobs := h.noJobs
  barren := h.barren
  between := h.between
  length := rfl
  fits := h.length

omit [DecidableEq τ] in
theorem remaining_le (c : Config τ) (t : τ) (workers : ℕ) (h : c.started ≤ c.numWorkers)
    (hjoining : c.threads t = .joining 0) :
    remaining t workers c ≤ 10 * c.numWorkers + workers + 1 := by
  have hrank : ∀ w ∈ Finset.range c.started, (c.main w).rank ≤ 10 := by
    intro w _
    cases c.main w <;> simp [PC.rank]
  have hsum := Finset.sum_le_card_nsmul _ _ _ hrank
  rw [Finset.card_range, smul_eq_mul] at hsum
  rw [remaining, hjoining, joinsLeft]
  omega

end Retiring

/-- One of two workers is started and enters `main_proc`, and then `shutdown` terminates and
notifies both. -/
theorem exists_quitting :
    ∃ c es, step.exec (start Unit small 1) [.start, .worker 0, .shutdown (), .thread (),
        .thread (), .thread (), .thread ()] = some (c, es) ∧
      Quitting c () ∧ ∀ w, c.main w ≠ .block ∧ c.main w ≠ .blocked := by
  refine ⟨_, _, rfl, ?_, ?_⟩
  · constructor
    case length => decide
    case joining => rfl
    case others => exact fun u hu => absurd rfl hu
    case started => decide
    case terminated =>
      intro w hw
      obtain rfl : w = 0 := Nat.lt_one_iff.mp hw
      rfl
    case noJobs => decide
    case barren =>
      refine barren_of_create fun x hx => ?_
      obtain ⟨w, -, rfl⟩ := List.mem_map.mp hx
      exact ⟨_, _, rfl⟩
    case between => rintro (_ | w) <;> rfl
  · rintro (_ | w) <;> exact ⟨nofun, nofun⟩

/-- Once `shutdown` has notified and no jobs are left, every run of the workers and of `shutdown`
is bounded and can be continued until nothing moves any more. Whenever that is so, `shutdown` has
returned exactly if no worker had blocked when it notified or was about to. -/
theorem returned_iff_awake [DecidableEq τ] (system : JobSystem) (numWorkers : ℕ)
    (ls : List (Label τ)) (c : Config τ) (es : List Event) (t : τ)
    (h : step.exec (start τ system numWorkers) ls = some (c, es)) (hquit : Quitting c t)
    (ms : List (Label τ)) (hms : ∀ l ∈ ms, l.goesOn = true) (c' : Config τ) (fs : List Event)
    (hexec : step.exec c ms = some (c', fs)) :
    ms.length ≤ 10 * c.numWorkers + c.system.workers.length + 1 ∧
      (∃ more c'' gs, (∀ l ∈ more, l.goesOn = true) ∧ step.exec c' more = some (c'', gs) ∧
        ∀ l : Label τ, l.goesOn = true → step c'' l = none) ∧
      ((∀ l : Label τ, l.goesOn = true → step c' l = none) →
        (c'.threads t = .idle ↔ ∀ w, c.main w ≠ .block ∧ c.main w ≠ .blocked)) := by
  have hmanned := manned_of_exec h
  have hstart : Retiring c t c.system.workers.length ∧ (Awake c ↔ Awake c) :=
    ⟨hquit.retiring hmanned, Iff.rfl⟩
  have hranked := ranked_retiring t c.system.workers.length (Awake c)
  obtain ⟨⟨hretiring, hawake⟩, hle⟩ := hranked.exec hstart hms hexec
  refine ⟨?_, hranked.exists_stuck ⟨hretiring, hawake⟩, fun hstuck => ?_⟩
  · have hremaining :=
      remaining_le c t c.system.workers.length hmanned.started_le hquit.joining
    omega
  · exact (hretiring.returned_iff hstuck).trans hawake

theorem returned_iff_awake_entered :
    ∃ c es, step.exec (start Unit small 1) [.start, .worker 0, .shutdown (), .thread (),
        .thread (), .thread (), .thread ()] = some (c, es) ∧
      ∀ ms c' fs, (∀ l ∈ ms, l.goesOn = true) → step.exec c ms = some (c', fs) →
        (∀ l : Label Unit, l.goesOn = true → step c' l = none) → c'.threads () = .idle := by
  obtain ⟨c, es, hexec, hquit, hawake⟩ := exists_quitting
  refine ⟨c, es, hexec, fun ms c' fs hms hrun hstuck => ?_⟩
  have hreturned :=
    (returned_iff_awake _ _ _ c es () hexec hquit ms hms c' fs hrun).2.2 hstuck
  exact hreturned.mpr hawake

end Jobrocket.MainLoop
