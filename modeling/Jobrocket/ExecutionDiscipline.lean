import Jobrocket.JobSystemInvariant
import Jobrocket.Library.Interleaving

/-! # What is executed, and when

Runs of `allocate_job`, `schedule_job` and `try_run_job` calls by any threads, one call
after another. A job runs only after it was scheduled in every run that never recycles a
block some queue still names and never exposes an unscheduled job by popping an empty
queue, as long as every callable fits into its block. Without that condition a stale slot
lets a job run that nobody scheduled.
-/
namespace Jobrocket.JobSystem
open Library Memory FixedWorkStealingQueue

/-- A call: thread `i` of the pool allocates, a thread schedules a job to its worker, or
runs a job on it. -/
inductive Call where
  | allocate (i : ℕ) (function : List UInt8)
  | schedule (w job : ℕ)
  | tryRun (w : ℕ)

def step : Stepper JobSystem Call Event
  | s, .allocate i function =>
    let (result, s) := s.allocateJob i function
    some (s, [match result with
      | .ok job => .allocated i job
      | .error e => .refused i e])
  | s, .schedule w job => some (s.scheduleJob w job, [.scheduled job])
  | s, .tryRun w =>
    let (job, s) := s.tryRunJob w
    some (s, job.toList.map .executed)

def start (self capacity : ℕ) (bases : List ℕ) (workers queueCapacity : ℕ) (m : Memory) :
    JobSystem :=
  let (pool, m) := JobPool.create self capacity bases m
  create workers queueCapacity pool m

def status (es : List Event) : ℕ → Status := es.foldl record fun _ => .never

/-- Every execution is of a job that was passed to `schedule_job` after its allocation
and has not been executed since. -/
def Disciplined (es : List Event) : Prop :=
  ∀ pre p post, es = pre ++ .executed p :: post →
    ∃ a i b, pre = a ++ .allocated i p :: b ∧ (∀ j, .allocated j p ∉ b) ∧
      .scheduled p ∈ b ∧ .executed p ∉ b

/-- The calls of threads that exist, with pointers that `allocate_job` returned or null. -/
structure Usage (s₀ : JobSystem) (calls : List Call) : Prop where
  allocates : ∀ i function, .allocate i function ∈ calls → i < s₀.pool.allocators.length
  schedules : ∀ pre w job, pre ++ [.schedule w job] <+: calls → w < s₀.workers.length ∧
    ∀ s es, step.exec s₀ pre = some (s, es) → job = nullptr ∨ ∃ i, .allocated i job ∈ es
  tryRuns : ∀ w, .tryRun w ∈ calls → w < s₀.workers.length

def Call.Fits : Call → Prop
  | .allocate _ function => function.length ≤ Job.functionRoom
  | _ => True

instance : DecidablePred Call.Fits
  | .allocate _ function => inferInstanceAs (Decidable (function.length ≤ Job.functionRoom))
  | .schedule _ _ | .tryRun _ => .isTrue trivial

/-- Every callable has room in its block, which `allocate_job` does not check. -/
def Fits (calls : List Call) : Prop := ∀ call ∈ calls, call.Fits

instance : DecidablePred Fits := fun calls => inferInstanceAs (Decidable (∀ call ∈ calls, call.Fits))

/-- The condition on a call: an allocation takes no block that an entry of a queue names,
and a pop of an empty queue exposes no job that is not scheduled. -/
def Clear (s : JobSystem) (st : ℕ → Status) : Call → Prop
  | .allocate i _ => ∀ c, s.pool.nextBlock i = some c →
    ∀ w, w < s.workers.length → ∀ pos, (s.queue w).Between pos → (s.queue w).slot pos ≠ c
  | .schedule _ _ => True
  | .tryRun w => ∀ pos, (s.queue w).Exposed pos → st ((s.queue w).slot pos) ≠ .allocated

section Status
variable {p : ℕ} {es : List Event}

theorem status_concat (es : List Event) (e : Event) : status (es ++ [e]) = record (status es) e := by
  simp [status]

theorem allocated_of_live (h : (status es p).Live) :
    ∃ a i b, es = a ++ .allocated i p :: b ∧ (∀ j, .allocated j p ∉ b) ∧ .executed p ∉ b ∧
      (status es p = .scheduled → .scheduled p ∈ b) := by
  induction es using List.reverseRecOn with
  | nil => exact absurd h id
  | append_singleton es e ih =>
    have hkeep : (status es p).Live → (∀ j, .allocated j p ≠ e) → .executed p ≠ e →
        (status (es ++ [e]) p = .scheduled → status es p = .scheduled ∨ e = .scheduled p) →
        ∃ a i b, es ++ [e] = a ++ .allocated i p :: b ∧ (∀ j, .allocated j p ∉ b) ∧
          .executed p ∉ b ∧ (status (es ++ [e]) p = .scheduled → .scheduled p ∈ b) := by
      intro hlive halloc hexec hsched
      obtain ⟨a, i, b, rfl, hb, hx, hs⟩ := ih hlive
      refine ⟨a, i, b ++ [e], by simp, fun j => ?_, ?_, fun hst => ?_⟩
      · simp [hb j, halloc j]
      · simp [hx, hexec]
      · rcases hsched hst with h' | rfl
        · exact List.mem_append_left _ (hs h')
        · exact List.mem_append_right _ (List.mem_singleton_self _)
    rw [status_concat] at h hkeep ⊢
    cases e with
    | allocated i job =>
      by_cases hjob : job = p
      · subst hjob
        refine ⟨es, i, [], rfl, by simp, by simp, fun hst => ?_⟩
        simp [record, Status.next] at hst
      · have hsame : record (status es) (.allocated i job) p = status es p := if_neg hjob
        rw [hsame] at h hkeep ⊢
        exact hkeep h (by simp [Ne.symm hjob]) (by simp) Or.inl
    | refused i error => exact hkeep h (by simp) (by simp) Or.inl
    | scheduled job =>
      rcases Status.next_scheduled (status es p) p job with h' | ⟨h', h''⟩
      · rw [record, h'] at h hkeep ⊢
        exact hkeep h (by simp) (by simp) Or.inl
      · have hjob : job = p := by
          by_contra hne
          simp [Status.next, hne, h'] at h''
        exact hkeep (h'.symm ▸ trivial) (by simp) (by simp) fun _ => Or.inr (hjob ▸ rfl)
    | executed job =>
      by_cases hjob : job = p
      · rw [record, Status.next, if_pos hjob] at h
        exact absurd h id
      · have hsame : record (status es) (.executed job) p = status es p := if_neg hjob
        rw [hsame] at h hkeep ⊢
        exact hkeep h (by simp) (by simp [Ne.symm hjob]) Or.inl

theorem status_ne_never {i : ℕ} (h : .allocated i p ∈ es) : status es p ≠ .never := by
  induction es using List.reverseRecOn with
  | nil => exact absurd h List.not_mem_nil
  | append_singleton es e ih =>
    rw [status_concat]
    rcases List.mem_append.mp h with h | h
    · exact Status.next_ne_never (ih h) e
    · rw [← List.mem_singleton.mp h, record, Status.next, if_pos rfl]
      decide

end Status

section Runs
variable {self capacity workers queueCapacity : ℕ} {bases : List ℕ} {m₀ : Memory}
variable {calls pre : List Call} {s : JobSystem} {es : List Event}

theorem start_queue (self capacity : ℕ) (bases : List ℕ) (workers queueCapacity : ℕ) (m : Memory)
    {w : ℕ} (hw : w < workers) :
    (start self capacity bases workers queueCapacity m).queue w = fresh ℕ queueCapacity := by
  simp [start, create, queue, worker, Worker.create, List.getD_eq_getElem?_getD, hw]

theorem start_workers_length (self capacity : ℕ) (bases : List ℕ) (workers queueCapacity : ℕ)
    (m : Memory) : (start self capacity bases workers queueCapacity m).workers.length = workers := by
  simp [start, create]

theorem inv_start (hplace : JobPool.Placement capacity bases) (hself : self < 2 ^ 64)
    (hne : self ≠ nullptr) (workers queueCapacity : ℕ) (m : Memory) :
    Inv capacity bases (start self capacity bases workers queueCapacity m) (status []) ∧
      Scheduled (start self capacity bases workers queueCapacity m) (status []) := by
  have hpool := JobPool.inv_create hplace hself m
  constructor
  · constructor
    case pool => exact ⟨_, hpool, fun p => iff_of_false (by simp) id⟩
    case self_ne => exact hne
    case block => exact fun p hp => absurd rfl hp
    case fields => exact fun _ => trivial
    case slots =>
      intro w hw pos
      rw [start_workers_length] at hw
      rw [start_queue _ _ _ _ _ _ hw]
      exact Or.inl (fresh_slot queueCapacity pos)
  · intro w _ pos _
    exact Status.noConfusion

/-- A call that reports one event runs a job only by that event. -/
theorem eq_executed_of_singleton {e : Event} {pre post : List Event} {p : ℕ}
    (h : [e] = pre ++ .executed p :: post) : pre = [] ∧ e = .executed p := by
  cases pre with
  | nil => exact ⟨rfl, (List.cons.inj h).1⟩
  | cons e' pre => simp at h

/-- What one call keeps: the invariant always, and the discipline where it is clear. -/
theorem Inv.step {st : ℕ → Status} {call : Call} {s' : JobSystem}
    (h : Inv capacity bases s st) (hplace : JobPool.Placement capacity bases)
    (hallocate : ∀ i function, call = .allocate i function →
      i < bases.length ∧ function.length ≤ Job.functionRoom)
    (hschedule : ∀ w job, call = .schedule w job →
      w < s.workers.length ∧ (job = nullptr ∨ st job ≠ .never))
    (htryRun : ∀ w, call = .tryRun w → w < s.workers.length)
    (hstep : step s call = some (s', es)) :
    Inv capacity bases s' (es.foldl record st) ∧ s'.workers.length = s.workers.length ∧
      (Scheduled s st → Clear s st call → Scheduled s' (es.foldl record st) ∧
        ∀ pre p post, es = pre ++ .executed p :: post → pre.foldl record st p = .scheduled) := by
  cases call with
  | allocate i function =>
    obtain ⟨hi, hfn⟩ := hallocate i function rfl
    obtain ⟨result, s₁, hcall, hworkers, hcases⟩ := h.allocateJob hplace hi hfn
    simp only [JobSystem.step, hcall] at hstep
    cases hstep
    have hnone : ∀ e : Event, (∀ p, e ≠ .executed p) → ∀ pre p post,
        [e] = pre ++ .executed p :: post → pre.foldl record st p = .scheduled :=
      fun e he _ p _ heq => absurd (eq_executed_of_singleton heq).2 (he p)
    rcases hcases with ⟨e, rfl, hinv, hsched⟩ | ⟨c, rfl, hnext, hinv, hsched⟩
    · exact ⟨hinv, congrArg List.length hworkers, fun hs _ => ⟨hsched hs, hnone _ (by simp)⟩⟩
    · exact ⟨hinv, congrArg List.length hworkers, fun hs hclear =>
        ⟨hsched hs (hclear c hnext), hnone _ (by simp)⟩⟩
  | schedule w job =>
    obtain ⟨hw, hjob⟩ := hschedule w job rfl
    obtain ⟨hinv, hsched⟩ := h.scheduleJob hplace hw hjob
    cases hstep
    refine ⟨hinv, setQueue_workers_length, fun hs _ => ⟨hsched hs, ?_⟩⟩
    intro pre p post heq
    cases (eq_executed_of_singleton heq).2
  | tryRun w =>
    obtain ⟨next, s₁, hcall, hinv, hlen, hlive, hsched⟩ := h.getNextJob (htryRun w rfl)
    cases next with
    | none =>
      simp only [JobSystem.step, tryRunJob, hcall] at hstep
      cases hstep
      refine ⟨hinv, hlen, fun hs hclear => ⟨(hsched hs hclear).1, ?_⟩⟩
      intro pre p post heq
      simp at heq
    | some p =>
      simp only [JobSystem.step, tryRunJob, hcall, Option.toList_some, List.map_cons,
        List.map_nil] at hstep
      obtain ⟨hrun, hsched'⟩ := hinv.runJob hplace (hlive p rfl)
      have hlen' : (s₁.runJob p).workers.length = s.workers.length := by
        rw [runJob_workers, hlen]
      generalize s₁.runJob p = s₂ at hstep hrun hsched' hlen'
      cases hstep
      refine ⟨hrun, hlen', fun hs hclear => ?_⟩
      obtain ⟨hs₁, hp⟩ := hsched hs hclear
      refine ⟨hsched' hs₁, ?_⟩
      intro pre q post heq
      obtain ⟨rfl, ⟨⟩⟩ := eq_executed_of_singleton heq
      exact Status.eq_scheduled (hlive p rfl) (hp p rfl)

theorem inv_of_exec (hplace : JobPool.Placement capacity bases) (hself : self < 2 ^ 64)
    (hne : self ≠ nullptr) (husage : Usage (start self capacity bases workers queueCapacity m₀) calls)
    (hfits : Fits calls) (hclear : ∀ pre call, pre ++ [call] <+: calls → ∀ s es,
      step.exec (start self capacity bases workers queueCapacity m₀) pre = some (s, es) →
        Clear s (status es) call)
    (hpre : pre <+: calls)
    (h : step.exec (start self capacity bases workers queueCapacity m₀) pre = some (s, es)) :
    Inv capacity bases s (status es) ∧ s.workers.length = workers ∧ Scheduled s (status es) ∧
      ∀ a p b, es = a ++ .executed p :: b → status a p = .scheduled := by
  have hlen := start_workers_length self capacity bases workers queueCapacity m₀
  have hthreads : (start self capacity bases workers queueCapacity m₀).pool.allocators.length =
      bases.length := (JobPool.inv_create hplace hself m₀).allocators_length
  refine Stepper.exec_induction (I := fun _ s es => Inv capacity bases s (status es) ∧
    s.workers.length = workers ∧ Scheduled s (status es) ∧
      ∀ a p b, es = a ++ .executed p :: b → status a p = .scheduled) ?_ ?_ hpre h
  · obtain ⟨hinv, hsched⟩ := inv_start hplace hself hne workers queueCapacity m₀
    exact ⟨hinv, hlen, hsched, fun a p b heq => by simp at heq⟩
  · intro pre call s es s' fs hcall hexec ⟨hinv, hworkers, hsched, hdisc⟩ hstep
    have hmem : call ∈ calls :=
      hcall.subset (List.mem_append_right _ (List.mem_singleton_self call))
    have hstatus : status (es ++ fs) = fs.foldl record (status es) := List.foldl_append
    obtain ⟨hinv', hworkers', hnew⟩ := hinv.step hplace
      (fun i function he => ⟨hthreads ▸ husage.allocates i function (he ▸ hmem),
        hfits (.allocate i function) (he ▸ hmem)⟩)
      (fun w job he => by
        subst he
        obtain ⟨hw, hjob⟩ := husage.schedules pre w job hcall
        rw [hlen] at hw
        exact ⟨hworkers.symm ▸ hw, (hjob s es hexec).imp_right fun ⟨i, hi⟩ => status_ne_never hi⟩)
      (fun w he => by
        rw [hworkers, ← hlen]
        exact husage.tryRuns w (he ▸ hmem)) hstep
    obtain ⟨hsched', hdisc'⟩ := hnew hsched (hclear pre call hcall s es hexec)
    rw [hstatus]
    refine ⟨hinv', hworkers'.trans hworkers, hsched', ?_⟩
    intro a p b heq
    -- the execution is one of the earlier ones or one of this call
    rcases List.append_eq_append_iff.mp heq with ⟨c, rfl, hc⟩ | ⟨c, rfl, hc⟩
    · rw [status, List.foldl_append]
      exact hdisc' c p b hc
    · cases c with
      | nil =>
        rw [List.append_nil] at hdisc'
        exact hdisc' [] p b hc.symm
      | cons e c =>
        obtain ⟨rfl, rfl⟩ := List.cons.inj hc
        exact hdisc a p c rfl

end Runs

/-- Execution discipline: if the callables fit, no allocation takes a block that an entry of a
queue names, and no pop of an empty queue exposes a job that is not scheduled, then at every
moment of the run each job executed was scheduled after its allocation and executed once. -/
theorem disciplined_of_exec (capacity : ℕ) (bases : List ℕ)
    (hplace : JobPool.Placement capacity bases) (self : ℕ) (hself : self < 2 ^ 64)
    (hne : self ≠ nullptr) (workers queueCapacity : ℕ) (m₀ : Memory) (calls : List Call)
    (husage : Usage (start self capacity bases workers queueCapacity m₀) calls)
    (hfits : Fits calls) (hclear : ∀ pre call, pre ++ [call] <+: calls → ∀ s es,
      step.exec (start self capacity bases workers queueCapacity m₀) pre = some (s, es) →
        Clear s (status es) call)
    (pre : List Call) (hpre : pre <+: calls) (s : JobSystem) (es : List Event)
    (h : step.exec (start self capacity bases workers queueCapacity m₀) pre = some (s, es)) :
    Disciplined es := by
  obtain ⟨-, -, -, hdisc⟩ := inv_of_exec hplace hself hne husage hfits hclear hpre h
  rintro a p b rfl
  have hst := hdisc a p b rfl
  have hlive : (status a p).Live := by
    rw [hst]
    trivial
  obtain ⟨x, i, y, rfl, halloc, hexec, hsched⟩ := allocated_of_live hlive
  exact ⟨x, i, y, rfl, halloc, hsched hst, hexec⟩

section Small

/-- One thread, one worker and one block, whose address is 1024. -/
abbrev small : JobSystem := start 16 1 [1024] 1 1 fun _ => 0

theorem small_allocate {s : JobSystem} {es : List Event}
    (h : step.exec small [.allocate 0 [1]] = some (s, es)) : es = [.allocated 0 1024] :=
  Stepper.exec_observe (f := Prod.snd) h (by decide +kernel)

theorem small_usage {rest : List Call}
    (hrest : ∀ call ∈ rest, call = .tryRun 0 ∨ call = .allocate 0 [1]) :
    Usage small (.allocate 0 [1] :: .schedule 0 1024 :: rest) := by
  constructor
  case allocates =>
    intro i function hmem
    have hcall : Call.allocate i function = .allocate 0 [1] := by
      rcases List.mem_cons.mp hmem with h | hmem
      · exact h
      · rcases List.mem_cons.mp hmem with h | hmem
        · cases h
        · exact (hrest _ hmem).resolve_left (by simp)
    cases hcall
    decide
  case schedules =>
    intro pre w job hpre
    obtain ⟨n, hn, rfl, hcall⟩ := concat_prefix_iff.mp hpre
    match n, hn, hcall with
    | 0, _, hcall => cases hcall
    | 1, _, hcall =>
      cases hcall
      refine ⟨by decide, fun s es h => Or.inr ⟨0, ?_⟩⟩
      rw [small_allocate h]
      exact List.mem_singleton_self _
    | n + 2, hn, hcall =>
      have hmem := hrest _ (List.getElem_mem (Nat.lt_of_succ_lt_succ (Nat.lt_of_succ_lt_succ hn)))
      rw [List.getElem_cons_succ, List.getElem_cons_succ] at hcall
      rw [← hcall] at hmem
      simp at hmem
  case tryRuns =>
    intro w hmem
    have hcall : Call.tryRun w = .tryRun 0 := by
      rcases List.mem_cons.mp hmem with h | hmem
      · cases h
      · rcases List.mem_cons.mp hmem with h | hmem
        · cases h
        · exact (hrest _ hmem).resolve_right (by simp)
    cases hcall
    decide

/-- The job is allocated, scheduled and run. -/
theorem disciplined_of_exec_once :
    ∃ s es, step.exec small [.allocate 0 [1], .schedule 0 1024, .tryRun 0] = some (s, es) ∧
      Disciplined es := by
  have hplace : JobPool.Placement 1 [1024] := ⟨by decide, by decide, by decide, by decide⟩
  refine ⟨_, _, rfl, disciplined_of_exec 1 [1024] hplace 16 (by decide) (by decide) 1 1 (fun _ => 0)
    [.allocate 0 [1], .schedule 0 1024, .tryRun 0] (small_usage (by simp)) (by decide) ?_ _
    List.prefix_rfl _ _ rfl⟩
  intro pre call hpre s es h
  obtain ⟨n, hn, rfl, rfl⟩ := concat_prefix_iff.mp hpre
  have hn : n < 3 := hn
  interval_cases n
  · cases h
    intro c _ w hw pos hpos
    rw [start_workers_length] at hw
    rw [start_queue _ _ _ _ _ _ hw] at hpos
    exact absurd (hpos.1.trans_lt hpos.2) (lt_irrefl _)
  · trivial
  · intro pos hpos
    have hempty : (s.queue 0).empty = false :=
      Stepper.exec_observe (f := fun r => (r.1.queue 0).empty) h (by decide +kernel)
    exact absurd (hempty.symm.trans hpos.1) Bool.false_ne_true

/-- The worker polls once more after it ran the job, so that `bottom_` passes `top_`. The
next allocation recycles the block, which is ready but not scheduled, and the worker runs
it out of the old slot. -/
theorem stale_slot_not_disciplined :
    let calls := [.allocate 0 [1], .schedule 0 1024, .tryRun 0, .tryRun 0, .allocate 0 [1],
      .tryRun 0]
    JobPool.Placement 1 [1024] ∧ Usage small calls ∧ Fits calls ∧
      ∃ s es, step.exec small calls = some (s, es) ∧
        es = [.allocated 0 1024, .scheduled 1024, .executed 1024, .allocated 0 1024,
          .executed 1024] ∧ ¬ Disciplined es := by
  refine ⟨⟨by decide, by decide, by decide, by decide⟩, small_usage (by simp), by decide, ?_⟩
  have hes : (step.exec small [.allocate 0 [1], .schedule 0 1024, .tryRun 0, .tryRun 0,
      .allocate 0 [1], .tryRun 0]).map Prod.snd = some [.allocated 0 1024, .scheduled 1024,
        .executed 1024, .allocated 0 1024, .executed 1024] := by decide +kernel
  obtain ⟨⟨s, es⟩, h, rfl⟩ := Option.map_eq_some_iff.mp hes
  refine ⟨s, _, h, rfl, fun hdisc => ?_⟩
  obtain ⟨a, i, b, hsplit, halloc, hsched, -⟩ :=
    hdisc [.allocated 0 1024, .scheduled 1024, .executed 1024, .allocated 0 1024] 1024 [] rfl
  -- the last allocation is the last event, so nothing was scheduled after it
  rcases List.eq_nil_or_concat b with rfl | ⟨b, e, rfl⟩
  · exact absurd hsched List.not_mem_nil
  · have hlast : [Event.allocated 0 1024, .scheduled 1024, .executed 1024] ++ [.allocated 0 1024] =
        (a ++ .allocated i 1024 :: b) ++ [e] := by simpa using hsplit
    have he : e = .allocated 0 1024 := by simpa using (List.append_inj' hlast rfl).2.symm
    exact halloc 0 (by simp [he])

end Small
end Jobrocket.JobSystem
