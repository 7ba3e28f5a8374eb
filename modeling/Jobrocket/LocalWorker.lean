import Jobrocket.SchedulerSessions
import Jobrocket.WorkerOwnership

/-! # The worker a thread remembers

`thread_local_worker` looks a thread's worker up once and keeps it in a variable of the
thread, one for all schedulers and for as long as the thread lives. What it keeps is right
for the scheduler it was looked up on, until the next session there or until the thread
registers.
-/
namespace Jobrocket.LocalWorker
open Library

/-- What a `Worker*` points to: a worker of a session of a scheduler. The session tells more
than the pointer, since a session of the same size can have its workers at the same place. -/
structure WorkerRef (S : Type*) where
  scheduler : S
  session : ℕ
  index : ℕ
  deriving DecidableEq

/-- Schedulers of any number, the sessions begun on each, and the threads' variables
`local_worker`. -/
structure Program (S τ : Type*) where
  schedulers : S → Scheduler τ
  sessions : S → ℕ
  localWorker : τ → Option (WorkerRef S)

/-- The calls on a scheduler; `lookup` is `thread_local_worker`. A thread ends. -/
inductive Label (S τ : Type*) where
  | startup (s : S) (numThreads numMainThreads : Int32) (ids : ℕ → τ)
  | shutdown (s : S)
  | register (t : τ) (s : S)
  | lookup (t : τ) (s : S)
  | exit (t : τ)

/-- `found` is the first lookup of a thread, which sets its variable. -/
inductive Event (S τ : Type*) where
  | started (s : S)
  | registered (t : τ) (s : S)
  | found (t : τ) (s : S)
  | ended (t : τ)
  deriving DecidableEq

variable {S τ : Type*} [DecidableEq S] [DecidableEq τ]

def start : Program S τ := ⟨fun _ => {}, fun _ => 0, fun _ => none⟩

/-- What `find_local_worker` returns to the thread at this moment. -/
def currentWorker (p : Program S τ) (t : τ) (s : S) : WorkerRef S :=
  ⟨s, p.sessions s, (p.schedulers s).findLocalWorker t⟩

/-- `static thread_local Worker* local_worker = find_local_worker();` -/
def threadLocalWorker (p : Program S τ) (t : τ) (s : S) :
    WorkerRef S × Program S τ × List (Event S τ) :=
  match p.localWorker t with
  | some w => (w, p, [])
  | none =>
    let w := currentWorker p t s
    (w, { p with localWorker := Function.update p.localWorker t (some w) }, [.found t s])

def setScheduler (p : Program S τ) (s : S) (scheduler : Scheduler τ) : Program S τ :=
  { p with schedulers := Function.update p.schedulers s scheduler }

/-- The threads that `shutdown` joins. -/
def joined (p : Program S τ) (s : S) : List τ := (p.schedulers s).workers.filterMap id

def step (info : Except String CpuInfo) : Stepper (Program S τ) (Label S τ) (Event S τ)
  | p, .startup s numThreads numMainThreads ids =>
    (Scheduler.step info (p.schedulers s) (.startup numThreads numMainThreads ids)).map fun r =>
      ({ setScheduler p s r.1 with
         sessions := Function.update p.sessions s (p.sessions s + 1) }, [.started s])
  | p, .shutdown s =>
    some ({ setScheduler p s (p.schedulers s).shutdown with
            localWorker := fun t => if t ∈ joined p s then none else p.localWorker t },
      (joined p s).map .ended)
  | p, .register t s =>
    let (result, scheduler) := (p.schedulers s).registerMainThread t
    some (setScheduler p s scheduler, match result with
      | .ok _ => [.registered t s]
      | .error _ => [])
  | p, .lookup t s =>
    let (_, p, es) := threadLocalWorker p t s
    some (p, es)
  | p, .exit t => some ({ p with localWorker := Function.update p.localWorker t none }, [.ended t])

/-- Every lookup returns what `find_local_worker` would return at that moment. -/
def Agrees (info : Except String CpuInfo) (ls : List (Label S τ)) : Prop :=
  ∀ pre t s, pre ++ [.lookup t s] <+: ls → ∀ p es, (step info).exec start pre = some (p, es) →
    (threadLocalWorker p t s).1 = currentWorker p t s

def record (home : τ → Option S) : Event S τ → τ → Option S
  | .started s => fun t => if home t = some s then none else home t
  | .registered t s => if home t = some s then Function.update home t none else home
  | .found t s => Function.update home t (some s)
  | .ended t => Function.update home t none

/-- The scheduler on which a thread's variable was set, as long as no startup there and no
registration of the thread there has followed. -/
def home (es : List (Event S τ)) : τ → Option S := es.foldl record fun _ => none

/-- One of the workers of the scheduler runs the thread. -/
def Runs (s : Scheduler τ) (t : τ) : Prop :=
  ∃ w, w < s.numWorkers.toNat ∧ s.workers.getD w none = some t

/-- The condition on a lookup: the thread has no worker yet, or it looked its worker up on
this scheduler in this session and has not registered since, unless a worker runs it. -/
def Current (p : Program S τ) (home : τ → Option S) : Label S τ → Prop
  | .lookup t s => p.localWorker t = none ∨ home t = some s ∨
      Runs (p.schedulers s) t ∧ ∃ i, p.localWorker t = some ⟨s, p.sessions s, i⟩
  | _ => True

section Locate
variable {s s' : Scheduler τ} {t u : τ}

omit [DecidableEq S]

theorem findLocalWorker_congr (hcount : s'.numWorkers = s.numWorkers)
    (hworkers : s'.workers = s.workers) (h : Runs s t ∨ s'.find t = s.find t) :
    s'.findLocalWorker t = s.findLocalWorker t := by
  simp only [Scheduler.findLocalWorker, hcount, hworkers]
  cases hfind : (List.range s.numWorkers.toNat).find? fun w => s.workers.getD w none = some t with
  | some w => rfl
  | none =>
    rcases h with ⟨w, hw, hget⟩ | hsame
    · have hpred := List.find?_eq_none.mp hfind w (List.mem_range.mpr hw)
      exact absurd (decide_eq_true hget) hpred
    · rw [hsame]

omit [DecidableEq τ] in
theorem runs_mem (h : Runs s t) : some t ∈ s.workers := by
  obtain ⟨w, -, hget⟩ := h
  by_cases hlen : w < s.workers.length
  · rw [List.getD_eq_getElem _ _ hlen] at hget
    exact hget ▸ List.getElem_mem hlen
  · rw [List.getD_eq_default _ _ (not_lt.mp hlen)] at hget
    cases hget

omit [DecidableEq τ] in
theorem not_runs_shutdown (s : Scheduler τ) (t : τ) : ¬ Runs s.shutdown t := by
  intro h
  obtain ⟨x, -, hx⟩ := List.mem_map.mp (runs_mem h)
  cases hx

theorem findLocalWorker_shutdown (h : some t ∉ s.workers) :
    s.shutdown.findLocalWorker t = s.findLocalWorker t := by
  have hrun : ¬ Runs s t := mt runs_mem h
  rw [Scheduler.findLocalWorker_other fun w hw hget => not_runs_shutdown s t ⟨w, hw, hget⟩,
    Scheduler.findLocalWorker_other fun w hw hget => hrun ⟨w, hw, hget⟩]
  simp only [Scheduler.shutdown, Scheduler.find, List.length_map]

/-- A registration changes the entry of the calling thread only, and only if it had none. -/
theorem find_register (s : Scheduler τ) (t u : τ) :
    (s.registerMainThread t).2.find u = s.find u ∨
      u = t ∧ ∃ i, (s.registerMainThread t).1 = .ok i := by
  cases hfind : s.find t with
  | some i =>
    rw [Scheduler.registerMainThread_found hfind]
    exact Or.inl rfl
  | none =>
    by_cases hlt : s.nextMain < s.numWorkers + s.numMainThreads
    · rw [Scheduler.registerMainThread_ok hfind hlt]
      by_cases hu : u = t
      · exact Or.inr ⟨hu, _, rfl⟩
      · refine Or.inl ((Scheduler.find_cons u t _ _).trans ?_)
        exact Function.update_of_ne hu _ _
    · rw [Scheduler.registerMainThread_refused hfind (UInt32.not_lt.mp hlt)]
      exact Or.inl rfl

end Locate

/-- Variables that are still right name the current worker; no variable names a session
that has not begun. -/
structure Inv (p : Program S τ) (home : τ → Option S) : Prop where
  home_current : ∀ t s, home t = some s → p.localWorker t = some (currentWorker p t s)
  runs_current : ∀ t s i, Runs (p.schedulers s) t →
    p.localWorker t = some ⟨s, p.sessions s, i⟩ → i = (p.schedulers s).findLocalWorker t
  session_le : ∀ t w, p.localWorker t = some w → w.session ≤ p.sessions w.scheduler

section Inv
variable {p p' : Program S τ} {home : τ → Option S} {t : τ} {s : S}

omit [DecidableEq S] in
theorem inv_start : Inv (start : Program S τ) fun _ => none where
  home_current _ _ h := by cases h
  runs_current _ _ _ _ h := by cases h
  session_le _ _ h := by cases h

theorem Inv.startup (h : Inv p home) (s : S) (scheduler : Scheduler τ) :
    Inv { setScheduler p s scheduler with
          sessions := Function.update p.sessions s (p.sessions s + 1) }
      (record home (.started s)) := by
  constructor
  case home_current =>
    intro t r hr
    simp only [record] at hr
    split at hr
    · cases hr
    · next hne =>
      have hrs : r ≠ s := fun heq => hne (heq ▸ hr)
      refine (h.home_current t r hr).trans ?_
      simp [currentWorker, setScheduler, hrs]
  case runs_current =>
    intro t r i hruns hcached
    by_cases hrs : r = s
    · -- the session is new, and no variable names it yet
      subst hrs
      have hle := h.session_le t _ hcached
      simp at hle
    · simp only [setScheduler, Function.update_of_ne hrs] at hruns hcached ⊢
      exact h.runs_current t r i hruns hcached
  case session_le =>
    intro t w hw
    have hle := h.session_le t w hw
    by_cases hws : w.scheduler = s
    · rw [hws] at hle ⊢
      simp only [Function.update_self]
      omega
    · simp only [Function.update_of_ne hws]
      exact hle

omit [DecidableEq S] [DecidableEq τ] in
theorem mem_joined : t ∈ joined p s ↔ some t ∈ (p.schedulers s).workers := by
  simp [joined]

theorem foldl_record_ended (home : τ → Option S) (threads : List τ) :
    (threads.map .ended).foldl record home = fun t => if t ∈ threads then none else home t := by
  induction threads generalizing home with
  | nil => simp
  | cons u threads ih =>
    rw [List.map_cons, List.foldl_cons, ih]
    funext t
    by_cases htu : t = u
    · simp [record, htu]
    · simp [record, htu]

theorem Inv.shutdown (h : Inv p home) (s : S) :
    Inv { setScheduler p s (p.schedulers s).shutdown with
          localWorker := fun t => if t ∈ joined p s then none else p.localWorker t }
      fun t => if t ∈ joined p s then none else home t := by
  constructor
  case home_current =>
    intro t r hr
    split at hr
    · cases hr
    · next hnot =>
      rw [mem_joined] at hnot
      simp only [mem_joined, if_neg hnot, h.home_current t r hr, currentWorker, setScheduler]
      by_cases hrs : r = s
      · subst hrs
        rw [Function.update_self, findLocalWorker_shutdown hnot]
      · rw [Function.update_of_ne hrs]
  case runs_current =>
    intro t r i hruns hcached
    by_cases hrs : r = s
    · subst hrs
      simp only [setScheduler, Function.update_self] at hruns
      exact absurd hruns (not_runs_shutdown _ t)
    · simp only [setScheduler, Function.update_of_ne hrs] at hruns hcached ⊢
      split at hcached
      · cases hcached
      · exact h.runs_current t r i hruns hcached
  case session_le =>
    intro t w hw
    dsimp only at hw
    split at hw
    · cases hw
    · exact h.session_le t w hw

theorem Inv.register (h : Inv p home) (t : τ) (s : S) {home' : τ → Option S}
    (hhome : ∀ u r, home' u = some r → home u = some r)
    (hself : ∀ i, ((p.schedulers s).registerMainThread t).1 = .ok i → home' t ≠ some s) :
    Inv (setScheduler p s ((p.schedulers s).registerMainThread t).2) home' := by
  have hframe := Scheduler.frame_register (p.schedulers s) t
  constructor
  case home_current =>
    intro u r hr
    rw [show (setScheduler p s _).localWorker u = p.localWorker u from rfl,
      h.home_current u r (hhome u r hr)]
    by_cases hrs : r = s
    · subst hrs
      rcases find_register (p.schedulers r) t u with hsame | ⟨rfl, i, hok⟩
      · have hfind := findLocalWorker_congr hframe.numWorkers_eq hframe.workers_eq (Or.inr hsame)
        simp [currentWorker, setScheduler, hfind]
      · exact absurd hr (hself i hok)
    · simp [currentWorker, setScheduler, hrs]
  case runs_current =>
    intro u r i hruns hcached
    by_cases hrs : r = s
    · subst hrs
      simp only [setScheduler, Function.update_self] at hruns hcached ⊢
      have hold : Runs (p.schedulers r) u := by
        rwa [Runs, hframe.numWorkers_eq, hframe.workers_eq] at hruns
      rw [findLocalWorker_congr hframe.numWorkers_eq hframe.workers_eq (Or.inl hold)]
      exact h.runs_current u r i hold hcached
    · simp only [setScheduler, Function.update_of_ne hrs] at hruns hcached ⊢
      exact h.runs_current u r i hruns hcached
  case session_le => exact h.session_le

theorem Inv.found (h : Inv p home) (t : τ) (s : S) :
    Inv { p with localWorker := Function.update p.localWorker t (some (currentWorker p t s)) }
      (record home (.found t s)) := by
  constructor
  case home_current =>
    intro u r hr
    by_cases hut : u = t
    · subst hut
      simp only [record, Function.update_self, Option.some.injEq] at hr
      subst hr
      exact Function.update_self ..
    · simp only [record, Function.update_of_ne hut] at hr ⊢
      exact h.home_current u r hr
  case runs_current =>
    intro u r i hruns hcached
    by_cases hut : u = t
    · subst hut
      simp only [Function.update_self, currentWorker, Option.some.injEq, WorkerRef.mk.injEq]
        at hcached
      obtain ⟨rfl, -, rfl⟩ := hcached
      rfl
    · simp only [Function.update_of_ne hut] at hcached
      exact h.runs_current u r i hruns hcached
  case session_le =>
    intro u w hw
    by_cases hut : u = t
    · subst hut
      simp only [Function.update_self, Option.some.injEq] at hw
      subst hw
      exact le_rfl
    · simp only [Function.update_of_ne hut] at hw
      exact h.session_le u w hw

theorem Inv.exit (h : Inv p home) (t : τ) :
    Inv { p with localWorker := Function.update p.localWorker t none } (record home (.ended t)) := by
  constructor
  case home_current =>
    intro u r hr
    by_cases hut : u = t
    · subst hut
      simp [record] at hr
    · simp only [record, Function.update_of_ne hut] at hr ⊢
      exact h.home_current u r hr
  case runs_current =>
    intro u r i hruns hcached
    by_cases hut : u = t
    · subst hut
      simp at hcached
    · simp only [Function.update_of_ne hut] at hcached
      exact h.runs_current u r i hruns hcached
  case session_le =>
    intro u w hw
    by_cases hut : u = t
    · subst hut
      simp at hw
    · simp only [Function.update_of_ne hut] at hw
      exact h.session_le u w hw

theorem Inv.step {info : Except String CpuInfo} {label : Label S τ} {es : List (Event S τ)}
    (h : Inv p home) (hstep : step info p label = some (p', es)) :
    Inv p' (es.foldl record home) := by
  cases label with
  | startup s numThreads numMainThreads ids =>
    obtain ⟨⟨scheduler, fs⟩, -, heq⟩ := Option.map_eq_some_iff.mp hstep
    cases heq
    exact h.startup s scheduler
  | shutdown s =>
    cases hstep
    rw [foldl_record_ended]
    exact h.shutdown s
  | register t s =>
    simp only [LocalWorker.step] at hstep
    cases hstep
    apply h.register t s
    · intro u r hr
      split at hr
      · simp only [List.foldl_cons, List.foldl_nil, record] at hr
        split at hr
        · by_cases hut : u = t
          · subst hut
            simp at hr
          · rwa [Function.update_of_ne hut] at hr
        · exact hr
      · exact hr
    · intro i hok
      rw [hok]
      simp only [List.foldl_cons, List.foldl_nil, record]
      split
      · simp
      · assumption
  | lookup t s =>
    simp only [LocalWorker.step, threadLocalWorker] at hstep
    cases hcached : p.localWorker t with
    | some w =>
      rw [hcached] at hstep
      cases hstep
      exact h
    | none =>
      rw [hcached] at hstep
      cases hstep
      exact h.found t s
  | exit t =>
    cases hstep
    exact h.exit t

omit [DecidableEq S] in
theorem Inv.agrees (h : Inv p home) (hcurrent : Current p home (.lookup t s)) :
    (threadLocalWorker p t s).1 = currentWorker p t s := by
  cases hcached : p.localWorker t with
  | none => simp only [threadLocalWorker, hcached]
  | some w =>
    simp only [threadLocalWorker, hcached]
    rcases hcurrent with hnone | hhome | ⟨hruns, i, hi⟩
    · rw [hcached] at hnone
      cases hnone
    · rw [h.home_current t s hhome] at hcached
      exact (Option.some.inj hcached).symm
    · rw [hi] at hcached
      rw [← Option.some.inj hcached, h.runs_current t s i hruns hi, currentWorker]

end Inv

/-- The remembered worker is the right one in every run in which threads look their worker
up on one scheduler, in one session, and not before they register there. -/
theorem agrees_of_exec (info : Except String CpuInfo) (ls : List (Label S τ))
    (hcurrent : ∀ pre label, pre ++ [label] <+: ls → ∀ p es,
      (step info).exec start pre = some (p, es) → Current p (home es) label) :
    Agrees info ls := by
  intro pre t s hlabel p es h
  have hpre : pre <+: ls := (List.prefix_append pre [.lookup t s]).trans hlabel
  refine Inv.agrees ?_ (hcurrent pre _ hlabel p es h)
  refine Stepper.exec_induction (I := fun _ p es => Inv p (home es)) inv_start ?_ hpre h
  intro pre label p es p' fs _ _ hI hstep
  have hnew := hI.step hstep
  rwa [home, List.foldl_append]

/-- A thread registers before it uses the scheduler, which is shut down in between. -/
theorem agrees_of_exec_registered :
    Agrees (.ok ⟨4, 8⟩) [.startup () 1 1 (· + 1), .register 10 (), .lookup 10 (), .lookup 1 (),
      .shutdown (), .lookup 10 ()] := by
  apply agrees_of_exec
  intro pre label hpre p es h
  obtain ⟨n, hn, rfl, rfl⟩ := concat_prefix_iff.mp hpre
  have hn : n < 6 := hn
  interval_cases n <;> cases h
  · trivial
  · trivial
  · exact Or.inl rfl
  · exact Or.inl rfl
  · trivial
  · exact Or.inr (Or.inl rfl)

/-- The main thread uses the scheduler and registers then. Its variable still names the last
worker, and `find_local_worker` names the one it registered for. -/
theorem lookup_first_not_agrees :
    ∃ p es, (step (.ok ⟨4, 8⟩)).exec start
        [.startup () 1 1 (· + 1), .lookup 0 (), .register 0 ()] = some (p, es) ∧
      (threadLocalWorker p 0 ()).1 = ⟨(), 1, 2⟩ ∧ currentWorker p 0 () = ⟨(), 1, 1⟩ ∧
      ¬ Agrees (.ok ⟨4, 8⟩) [.startup () 1 1 (· + 1), .lookup 0 (), .register 0 (), .lookup 0 ()] := by
  refine ⟨_, _, rfl, rfl, rfl, fun h => ?_⟩
  have hsame := h [.startup () 1 1 (· + 1), .lookup 0 (), .register 0 ()] 0 () List.prefix_rfl _ _ rfl
  exact absurd hsame (by decide)

end Jobrocket.LocalWorker
