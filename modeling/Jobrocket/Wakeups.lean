import Jobrocket.MainLoop

/-! # Lost wake-ups

The threads that make a waiting worker's predicate true do not hold the mutex, so their
notification can come after the worker has evaluated the predicate and before it blocks.
As long as none comes then, every worker that sleeps on with a true predicate still has a
notification ahead of it.
-/
namespace Jobrocket.MainLoop
open Library
variable {τ : Type*}

/-- The thread has made the predicate of worker `w` true and has yet to notify. -/
def ThreadPC.Notifies (w : ℕ) : ThreadPC → Prop
  | .push _ _ => True
  | .notify => True
  | .terminating i => w < i
  | .notifyTerminated => True
  | _ => False

def Pending (c : Config τ) (w : ℕ) : Prop := ∃ t, (c.threads t).Notifies w

/-- No worker is blocked for good: where the predicate is true a thread that made it true
will notify. -/
def NoLostWakeup (c : Config τ) : Prop :=
  ∀ w, c.main w = .blocked → c.Predicate w → Pending c w

/-- The worker has evaluated the predicate to false and is about to block, unless it reads
its state once more and finds it terminated. -/
def Deciding (c : Config τ) (w : ℕ) : Prop :=
  c.main w = .block ∨ c.main w = .evalState ∧ c.states w ≠ .terminated

/-- The condition on a step: a notification finds no worker about to block whose predicate
is true by now, unless another one follows; and no counter is decremented below zero. -/
def Clear (c : Config τ) : Label τ → Prop
  | .thread t => c.threads t = .notify ∨ c.threads t = .notifyTerminated →
    ∀ w, Deciding c w → c.Predicate w → ∃ u, u ≠ t ∧ (c.threads u).Notifies w
  | .worker w => c.main w = .leaveActive → 0 < c.system.activeJobs
  | _ => True

/-- Every worker that sleeps, or will, although its predicate is true is to be notified. -/
def Attended (c : Config τ) : Prop :=
  ∀ w, c.main w = .blocked ∨ Deciding c w → c.Predicate w → Pending c w

section Steps
variable {c c' : Config τ} {w : ℕ} {t : τ} {es : List Event}

theorem Attended.noLostWakeup (h : Attended c) : NoLostWakeup c :=
  fun w hw => h w (Or.inl hw)

theorem attended_start (system : JobSystem) (numWorkers : ℕ) :
    Attended (start τ system numWorkers) := by
  rintro w (hw | hw | ⟨hw, -⟩) <;> cases hw

/-- Where nothing was notified and nothing came true, what was attended still is. -/
theorem Attended.of_le (h : Attended c)
    (hsleep : ∀ w, c'.main w = .blocked ∨ Deciding c' w → c'.Predicate w →
      (c.main w = .blocked ∨ Deciding c w) ∧ c.Predicate w ∨ Pending c' w)
    (hpending : ∀ w, Pending c w → Pending c' w) : Attended c' := by
  intro w hw hp
  rcases hsleep w hw hp with ⟨hw', hp'⟩ | hnew
  · exact hpending w (h w hw' hp')
  · exact hnew

/-- An edge to sleep is taken with a false predicate, or goes on with it as it was. -/
theorem Edge.sleeping {active active' : UInt32} {state state' : Worker.State} {pc pc' : PC}
    (h : Edge w active state pc pc' state' active' es)
    (hsleep : pc' = .blocked ∨ pc' = .block ∨ pc' = .evalState ∧ state' ≠ .terminated) :
    state' = state ∧ active' = active ∧
      (pc = .block ∨ pc = .evalState ∧ state ≠ .terminated ∨
        active = 0 ∧ state' ≠ .terminated) := by
  cases h with
  | noJobs h => exact ⟨rfl, rfl, Or.inr (Or.inr ⟨h, by simpa using hsleep⟩)⟩
  | sleep h => exact ⟨rfl, rfl, Or.inr (Or.inl ⟨rfl, h⟩)⟩
  | block => exact ⟨rfl, rfl, Or.inl rfl⟩
  | seek _ h => rcases hsleep with rfl | rfl | ⟨rfl, -⟩ <;> exact absurd h id
  | leaveActive => split at hsleep <;> simp at hsleep
  | _ => simp at hsleep

theorem Edge.active {active active' : UInt32} {state state' : Worker.State} {pc pc' : PC}
    (h : Edge w active state pc pc' state' active' es)
    (hclear : pc = .leaveActive → 0 < active) (hpos : 0 < active') : 0 < active := by
  cases h with
  | leaveActive => exact hclear rfl
  | clamp => exact absurd hpos (by decide)
  | _ => exact hpos

theorem Attended.worker (h : Attended c) (hclear : Clear c (.worker w : Label τ))
    (hmove : Moved c w c' es) : Attended c' := by
  obtain ⟨pc, state, hmain, hstates, hedge⟩ := hmove.edge
  have hactive := hedge.active hclear
  apply h.of_le
  · intro v hv hp
    left
    by_cases hvw : v = w
    · subst hvw
      simp only [Deciding, Config.Predicate, hmain, hstates, Function.update_self] at hv hp
      obtain ⟨hstate, hsame, hwas⟩ := hedge.sleeping hv
      have hp' : c.Predicate v := by
        rw [hstate] at hp
        exact hp.imp_left hactive
      refine ⟨?_, hp'⟩
      rcases hwas with hwas | hwas | ⟨hzero, hne⟩
      · exact Or.inr (Or.inl hwas)
      · exact Or.inr (Or.inr hwas)
      · rcases hp with hpos | heq
        · rw [hsame, hzero] at hpos
          exact absurd hpos (by decide)
        · exact absurd heq hne
    · simp only [Deciding, Config.Predicate, hmain, hstates, Function.update_of_ne hvw] at hv hp
      exact ⟨hv, hp.imp_left hactive⟩
  · rintro v ⟨t, ht⟩
    exact ⟨t, hmove.threads ▸ ht⟩

variable [DecidableEq τ]

theorem Pending.of_thread {pc : ThreadPC} (h : Pending c w)
    (hthreads : c'.threads = Function.update c.threads t pc)
    (hkeep : (c.threads t).Notifies w → pc.Notifies w) : Pending c' w := by
  obtain ⟨u, hu⟩ := h
  refine ⟨u, ?_⟩
  rw [hthreads]
  by_cases hut : u = t
  · subst hut
    rw [Function.update_self]
    exact hkeep hu
  · rwa [Function.update_of_ne hut]

theorem Attended.setThread {pc : ThreadPC} (h : Attended c)
    (hkeep : ∀ w, (c.threads t).Notifies w → pc.Notifies w) : Attended (c.setThread t pc) :=
  h.of_le (fun _ hw hp => Or.inl ⟨hw, hp⟩) fun w hw => hw.of_thread rfl (hkeep w)

/-- After a notification nobody is blocked, and who is about to block has another ahead. -/
theorem attended_notifyAll {pc : ThreadPC}
    (hclear : ∀ w, Deciding c w → c.Predicate w → ∃ u, u ≠ t ∧ (c.threads u).Notifies w) :
    Attended (c.notifyAll.setThread t pc) := by
  have hmain : ∀ v pc', pc' ≠ .relock → (c.notifyAll.setThread t pc).main v = pc' →
      pc' ≠ .blocked ∧ c.main v = pc' := by
    intro v pc' hne hv
    simp only [Config.notifyAll, Config.setThread] at hv
    split at hv
    · exact absurd hv.symm hne
    · next hnot => exact ⟨hv ▸ hnot, hv⟩
  intro v hv hp
  have hdeciding : Deciding c v := by
    rcases hv with hv | hv | ⟨hv, hne⟩
    · exact absurd rfl (hmain v .blocked (by decide) hv).1
    · exact Or.inl (hmain v .block (by decide) hv).2
    · exact Or.inr ⟨(hmain v .evalState (by decide) hv).2, hne⟩
  obtain ⟨u, hut, hu⟩ := hclear v hdeciding hp
  refine ⟨u, ?_⟩
  change (Function.update c.threads t pc u).Notifies v
  rwa [Function.update_of_ne hut]

theorem Attended.thread (h : Attended c) (hclear : Clear c (.thread t))
    (hmove : ThreadMove c t c' es) : Attended c' := by
  cases hmove with
  | increment hpc active =>
    intro v _ _
    exact ⟨t, by simp [Config.setThread, ThreadPC.Notifies]⟩
  | push hpc =>
    apply h.of_le
    · exact fun v hv hp => Or.inl ⟨hv, hp⟩
    · exact fun v hv => hv.of_thread rfl fun _ => trivial
  | notify hpc => exact attended_notifyAll (hclear (Or.inl hpc))
  | @terminate w hpc hw =>
    apply h.of_le
    · intro v hv hp
      by_cases hvw : v = w
      · -- the thread itself will notify the worker that it has terminated
        exact Or.inr ⟨t, by simp [Config.setThread, ThreadPC.Notifies, hvw]⟩
      · simp only [Deciding, Config.Predicate, Config.setThread, Config.setState,
          Function.update_of_ne hvw] at hv hp
        exact Or.inl ⟨hv, hp⟩
    · intro v hv
      refine hv.of_thread rfl fun hold => ?_
      rw [hpc] at hold
      exact Nat.lt_succ_of_lt hold
  | terminated hpc => exact h.setThread fun _ _ => trivial
  | notifyTerminated hpc => exact attended_notifyAll (hclear (Or.inr hpc))
  | join hpc => exact h.setThread fun _ hold => by rwa [hpc] at hold
  | joined hpc => exact h.setThread fun _ hold => by rwa [hpc] at hold

theorem Attended.step {l : Label τ} (h : Attended c) (hclear : Clear c l)
    (hstep : step c l = some (c', es)) : Attended c' := by
  cases l with
  | start =>
    simp only [MainLoop.step] at hstep
    split at hstep
    · cases hstep
      apply h.of_le
      · intro v hv hp
        by_cases hvs : v = c.started
        · subst hvs
          simp [Deciding, Config.goto] at hv
        · simp only [Deciding, Config.goto, Function.update_of_ne hvs] at hv
          exact Or.inl ⟨hv, hp⟩
      · exact fun _ hv => hv
    · cases hstep
  | worker w => exact h.worker hclear (moved_of_workerStep hstep)
  | schedule t w job =>
    simp only [MainLoop.step] at hstep
    split at hstep
    · next hidle =>
      cases hstep
      exact h.setThread fun _ hold => by rwa [hidle] at hold
    · cases hstep
  | shutdown t =>
    simp only [MainLoop.step] at hstep
    split at hstep
    · next hidle =>
      cases hstep
      exact h.setThread fun _ hold => by
        rw [hidle.1] at hold
        exact absurd hold id
    · cases hstep
  | thread t => exact h.thread hclear (threadMove_of_threadStep hstep)

end Steps

variable [DecidableEq τ]

/-- No wake-up is lost in a run in which no notification comes between a worker's look at
the predicate and its blocking, except when another one is still to come. -/
theorem noLostWakeup_of_exec (system : JobSystem) (numWorkers : ℕ) (ls : List (Label τ))
    (hclear : ∀ pre l, pre ++ [l] <+: ls → ∀ c es,
      step.exec (start τ system numWorkers) pre = some (c, es) → Clear c l)
    (pre : List (Label τ)) (hpre : pre <+: ls) (c : Config τ) (es : List Event)
    (h : step.exec (start τ system numWorkers) pre = some (c, es)) : NoLostWakeup c := by
  apply Attended.noLostWakeup
  refine Stepper.exec_induction (I := fun _ c _ => Attended c) (attended_start system numWorkers)
    ?_ hpre h
  intro pre l c es c' fs hl hexec hI hstep
  exact hI.step (hclear pre l hl c es hexec) hstep

theorem lost_of_block {c : Config τ} {w : ℕ} (hpc : c.main w = .block) (hp : c.Predicate w)
    (hnone : ¬ Pending c w) :
    ∃ c' es, step.exec c [.worker w] = some (c', es) ∧ ¬ NoLostWakeup c' := by
  refine ⟨{ c.goto w .blocked with mutex := none }, [], ?_, fun h => ?_⟩
  · simp [Stepper.exec, step, workerStep, hpc]
  · exact hnone (h w (Function.update_self ..) hp)

/-- The condition is no stronger than needed: after a notification that breaks it, the
worker that was about to block does so and the wake-up is lost. -/
theorem lost_of_not_clear {c c' : Config τ} {t : τ} {es : List Event}
    (hclear : ¬ Clear c (.thread t)) (hstep : step c (.thread t) = some (c', es)) :
    ∃ ls c'' fs, step.exec c' ls = some (c'', fs) ∧ ¬ NoLostWakeup c'' := by
  simp only [Clear, not_forall, not_exists, not_and] at hclear
  obtain ⟨hnotify, w, hdeciding, hp, hothers⟩ := hclear
  have hc' : ∃ pc, ¬ pc.Notifies w ∧ c' = c.notifyAll.setThread t pc := by
    rcases hnotify with hpc | hpc
    · simp only [step, threadStep, hpc] at hstep
      cases hstep
      exact ⟨.idle, id, rfl⟩
    · simp only [step, threadStep, hpc] at hstep
      cases hstep
      exact ⟨.joining 0, id, rfl⟩
  obtain ⟨pc, hpc, rfl⟩ := hc'
  have hnone : ¬ Pending (c.notifyAll.setThread t pc) w := by
    rintro ⟨u, hu⟩
    change (Function.update c.threads t pc u).Notifies w at hu
    by_cases hut : u = t
    · rw [hut, Function.update_self] at hu
      exact hpc hu
    · rw [Function.update_of_ne hut] at hu
      exact hothers u hut hu
  rcases hdeciding with hmain | ⟨hmain, hstate⟩
  · obtain ⟨c'', fs, h⟩ := lost_of_block (c := c.notifyAll.setThread t pc)
      (by simp [Config.notifyAll, Config.setThread, hmain]) hp hnone
    exact ⟨_, c'', fs, h⟩
  · -- the worker reads its state first
    have hfirst : step (c.notifyAll.setThread t pc) (.worker w) =
        some ((c.notifyAll.setThread t pc).goto w .block, []) := by
      simp [step, workerStep, Config.notifyAll, Config.setThread, Config.goto, hmain, hstate]
    obtain ⟨c'', fs, hexec, hlost⟩ := lost_of_block
      (c := (c.notifyAll.setThread t pc).goto w .block) (Function.update_self ..) hp hnone
    refine ⟨[.worker w, .worker w], c'', [] ++ fs, ?_, hlost⟩
    rw [Stepper.exec_cons hfirst, hexec]
    rfl

section Small

/-- The worker finds nothing twice: the first pop of the empty queue makes the second round
take the queue for a filled one, and the worker goes to sleep. -/
abbrev sleepy : List (Label Unit) := .start :: List.replicate 13 (.worker 0)

abbrev counted : List (Label Unit) := sleepy ++ [.worker 0, .schedule () 1 1024, .thread ()]

abbrev notified : List (Label Unit) :=
  sleepy ++ [.schedule () 1 1024, .thread (), .thread (), .thread (), .worker 0]

/-- The main thread has counted its job and has yet to push it and to notify. -/
theorem noLostWakeup_of_exec_sleepy :
    ∃ c es, step.exec (start Unit small 1) counted = some (c, es) ∧ c.main 0 = .blocked ∧
      c.Predicate 0 ∧ NoLostWakeup c := by
  have hquiet : ∀ n < 17, (step.exec (start Unit small 1) (counted.take n)).map (fun r =>
      decide (r.1.main 0 = .leaveActive ∨ r.1.threads () = .notify ∨
        r.1.threads () = .notifyTerminated)) = some false := by decide +kernel
  refine ⟨_, _, rfl, by decide +kernel, Or.inl (by decide +kernel),
    noLostWakeup_of_exec small 1 counted ?_ counted List.prefix_rfl _ _ rfl⟩
  intro pre l hpre c es h
  obtain ⟨n, hn, rfl, rfl⟩ := concat_prefix_iff.mp hpre
  have hno := of_decide_eq_false (Stepper.exec_observe h (hquiet n hn))
  have hlabel : ∀ l ∈ counted, l = .start ∨ l = .worker 0 ∨ l = .schedule () 1 1024 ∨
      l = .thread () := by simp [counted, sleepy]
  rcases hlabel _ (List.getElem_mem hn) with hl | hl | hl | hl
  · rw [hl]
    trivial
  · rw [hl]
    exact fun hpc => absurd (Or.inl hpc) hno
  · rw [hl]
    trivial
  · rw [hl]
    exact fun hpc => absurd (Or.inr hpc) hno

/-- The worker has found no active job and not blocked yet when a job is scheduled. The
notification finds nobody, and the worker blocks beside the job in the queue. -/
theorem notify_before_block_lost :
    ∃ c es, step.exec (start Unit small 1) notified = some (c, es) ∧ c.main 0 = .blocked ∧
      c.system.activeJobs = 1 ∧ c.threads () = .idle ∧ ¬ NoLostWakeup c := by
  refine ⟨_, _, rfl, by decide +kernel, by decide +kernel, by decide +kernel, fun h => ?_⟩
  obtain ⟨t, ht⟩ := h 0 (by decide +kernel) (Or.inl (by decide +kernel))
  exact ht

end Small

end Jobrocket.MainLoop
