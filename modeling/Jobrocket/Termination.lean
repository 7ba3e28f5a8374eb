import Jobrocket.MainLoop

/-! # Termination of the workers

A worker's thread writes `running` over its state when it enters `main_proc`, and
`startup` does not wait for that. A termination that comes first is lost. A termination
that is seen still does not stop the inner loop, which looks at the counter of active
jobs only.
-/
namespace Jobrocket.MainLoop
open Library
variable {τ : Type*}

/-- Once terminated a worker's state is terminated, and its next outer test leaves. -/
structure Final [DecidableEq τ] (c : Config τ) (es : List Event) : Prop where
  state : ∀ w, .terminated w ∈ es → c.states w = .terminated
  leaves : ∀ w, .terminated w ∈ es → c.main w = .testState →
    ∃ c', step c (.worker w) = some (c', []) ∧ c'.main w = .finished

/-- The condition on a step: `shutdown` does not terminate a worker whose thread has yet to
enter `main_proc`. -/
def Entered (c : Config τ) : Label τ → Prop
  | .thread t => ∀ w, c.threads t = .terminating w → w < c.system.workers.length →
    c.main w ≠ .begin
  | _ => True

/-- `shutdown` runs after the start loop, and what it terminated is past its first step. -/
structure Ended (c : Config τ) (es : List Event) : Prop where
  started : ∀ t w, c.threads t = .terminating w → c.numWorkers ≤ c.started
  ended : ∀ w, .terminated w ∈ es →
    c.numWorkers ≤ c.started ∧ c.states w = .terminated ∧ c.main w ≠ .begin

def Event.isExecuting (w : ℕ) : Event → Bool
  | .executing v _ => v = w
  | .terminated _ => false

/-- Of the events about the worker, every termination is followed by one execution at most. -/
def Discards (es : List Event) : Prop :=
  ∀ w a b, es = a ++ .terminated w :: b → b.countP (Event.isExecuting w) ≤ 1

def record (w : ℕ) : Option ℕ → Event → Option ℕ
  | none, .terminated v => if v = w then some 0 else none
  | some n, .executing v _ => some (if v = w then n + 1 else n)
  | n, _ => n

/-- The number of jobs the worker has begun since it was first terminated. -/
def begunSince (w : ℕ) (es : List Event) : Option ℕ := es.foldl (record w) none

/-- Nothing to run lies where `get_next_job` is about to look: at the end of the worker's
own queue when it pops, in the queue that it draws when it steals. -/
def FindsNothing (c : Config τ) (w : ℕ) : Prop :=
  (c.main w = .pop → (c.system.popJob w).1 = none) ∧
    (c.main w = .steal → (c.system.stealJob w).1 = none)

instance (c : Config τ) (w : ℕ) : Decidable (FindsNothing c w) :=
  inferInstanceAs (Decidable (_ ∧ _))

/-- The condition on a step of `shutdown`, and on a worker that has begun a job since it was
terminated: when its inner loop goes round again, the queues it turns to have nothing. -/
def Quits (c : Config τ) (es : List Event) : Label τ → Prop
  | .worker w => ∀ n, begunSince w es = some (n + 1) → FindsNothing c w
  | l => Entered c l

/-- The worker is past a job it has begun, in the inner loop or on its way out. -/
def PC.Leaving : PC → Prop
  | .complete _ | .leaveGroup _ | .release _ | .leaveActive | .clamp | .testLoop => True
  | .pop | .steal => True
  | .testState => True
  | .finished => True
  | _ => False

section Count
variable {w : ℕ} {es a b : List Event} {n : ℕ}

theorem begunSince_concat (w : ℕ) (es : List Event) (e : Event) :
    begunSince w (es ++ [e]) = record w (begunSince w es) e := by
  simp [begunSince]

theorem foldl_record_some (w n : ℕ) (es : List Event) :
    es.foldl (record w) (some n) = some (n + es.countP (Event.isExecuting w)) := by
  induction es generalizing n with
  | nil => rfl
  | cons e es ih =>
    cases e with
    | terminated v => simpa [record, Event.isExecuting] using ih n
    | executing v job =>
      by_cases hv : v = w
      · simp only [List.foldl_cons, record, if_pos hv, ih, List.countP_cons, Event.isExecuting,
          decide_eq_true hv, if_true]
        congr 1
        omega
      · simp [record, ih, Event.isExecuting, hv]

theorem terminated_of_begunSince (h : begunSince w es = some n) : .terminated w ∈ es := by
  induction es using List.reverseRecOn generalizing n with
  | nil => cases h
  | append_singleton es e ih =>
    rw [begunSince_concat] at h
    cases hold : begunSince w es with
    | some k => exact List.mem_append_left _ (ih hold)
    | none =>
      rw [hold] at h
      cases e with
      | executing v job => cases h
      | terminated v =>
        simp only [record] at h
        split at h
        · next hv => simp [hv]
        · cases h

/-- What was begun after any termination was begun after the first. -/
theorem countP_le_begunSince (h : es = a ++ .terminated w :: b) :
    ∃ n, begunSince w es = some n ∧ b.countP (Event.isExecuting w) ≤ n := by
  subst h
  have hfold : ∃ k, record w (begunSince w a) (.terminated w) = some k := by
    cases begunSince w a with
    | none => exact ⟨0, if_pos rfl⟩
    | some k => exact ⟨k, rfl⟩
  obtain ⟨k, hk⟩ := hfold
  refine ⟨k + b.countP (Event.isExecuting w), ?_, Nat.le_add_left _ _⟩
  rw [begunSince, List.foldl_append, List.foldl_cons]
  exact (congrArg (fun n => b.foldl (record w) n) hk).trans (foldl_record_some w k b)

/-- The jobs begun since the first termination are the ones that follow it. -/
theorem exists_eq_append_of_begunSince (h : begunSince w es = some n) :
    ∃ a b, es = a ++ .terminated w :: b ∧ b.countP (Event.isExecuting w) = n := by
  induction es using List.reverseRecOn generalizing n with
  | nil => cases h
  | append_singleton es e ih =>
    rw [begunSince_concat] at h
    cases hold : begunSince w es with
    | none =>
      rw [hold] at h
      cases e with
      | executing v job => cases h
      | terminated v =>
        simp only [record] at h
        split at h
        · next hv =>
          cases h
          exact ⟨es, [], by rw [hv], rfl⟩
        · cases h
    | some k =>
      rw [hold] at h
      obtain ⟨a, b, rfl, hb⟩ := ih hold
      refine ⟨a, b ++ [e], by simp, ?_⟩
      cases e with
      | terminated v =>
        cases h
        simpa [List.countP_append, Event.isExecuting] using hb
      | executing v job =>
        cases h
        by_cases hv : v = w <;> simp [List.countP_append, Event.isExecuting, hb, hv]

end Count

section Edges
variable {w : ℕ} {active active' : UInt32} {state state' : Worker.State} {pc pc' : PC}
variable {es : List Event}

theorem Edge.state_eq (h : Edge w active state pc pc' state' active' es) (hpc : pc ≠ .begin) :
    state' = state := by
  cases h with
  | begin => exact absurd rfl hpc
  | _ => rfl

theorem Edge.ne_begin (h : Edge w active state pc pc' state' active' es) : pc' ≠ .begin := by
  cases h with
  | seek _ h =>
    rintro rfl
    exact h
  | leaveActive => split <;> decide
  | _ => exact PC.noConfusion

theorem Edge.events (h : Edge w active state pc pc' state' active' es) :
    es = [] ∨ ∃ job, es = [.executing w job] ∧ pc' = .complete job := by
  cases h with
  | execute job => exact Or.inr ⟨job, rfl, rfl⟩
  | _ => exact Or.inl rfl

theorem Edge.leaving (h : Edge w active state pc pc' state' active' es)
    (hstate : state = .terminated) (hpop : pc = .pop → pc'.Leaving)
    (hsteal : pc = .steal → pc'.Leaving) (hpc : pc.Leaving) : pc'.Leaving ∧ es = [] := by
  cases h with
  | leave h => exact ⟨trivial, rfl⟩
  | stay h => exact absurd hstate h
  | complete job => exact ⟨trivial, rfl⟩
  | leaveGroup job => exact ⟨trivial, rfl⟩
  | release job => exact ⟨trivial, rfl⟩
  | leaveActive => split <;> exact ⟨trivial, rfl⟩
  | clamp => exact ⟨trivial, rfl⟩
  | nothing => exact ⟨trivial, rfl⟩
  | again h => exact ⟨trivial, rfl⟩
  | done h => exact ⟨trivial, rfl⟩
  | @seek pc pc' h _ =>
    cases pc with
    | pop => exact ⟨hpop rfl, rfl⟩
    | steal => exact ⟨hsteal rfl, rfl⟩
    | _ => first | exact absurd h id | exact absurd hpc id
  | _ => exact absurd hpc id

end Edges

section Steps
variable {c c' : Config τ} {w : ℕ} {t : τ} {es fs : List Event}

theorem ended_start (system : JobSystem) (numWorkers : ℕ) :
    Ended (start τ system numWorkers) [] where
  started := by rintro t w ⟨⟩
  ended := by simp

theorem Moved.not_terminated (hmove : Moved c w c' fs) (v : ℕ) : .terminated v ∉ fs := by
  obtain ⟨pc, state, -, -, hedge⟩ := hmove.edge
  rcases hedge.events with rfl | ⟨job, rfl, -⟩ <;> simp

theorem Ended.worker (h : Ended c es) (hmove : Moved c w c' fs) : Ended c' (es ++ fs) := by
  have hnew := hmove.not_terminated
  obtain ⟨hnum, hstarted, hthreads, pc, state, hmain, hstates, hedge⟩ := hmove
  constructor
  case started =>
    intro t v ht
    rw [hnum, hstarted]
    exact h.started t v (hthreads ▸ ht)
  case ended =>
    intro v hv
    obtain ⟨hall, hstate, hpc⟩ := h.ended v ((List.mem_append.mp hv).resolve_right (hnew v))
    rw [hnum, hstarted, hmain, hstates]
    refine ⟨hall, ?_⟩
    by_cases hvw : v = w
    · subst hvw
      rw [Function.update_self, Function.update_self, hedge.state_eq hpc]
      exact ⟨hstate, hedge.ne_begin⟩
    · rw [Function.update_of_ne hvw, Function.update_of_ne hvw]
      exact ⟨hstate, hpc⟩

theorem notifyAll_main (c : Config τ) (v : ℕ) :
    c.notifyAll.main v = c.main v ∨ c.main v = .blocked ∧ c.notifyAll.main v = .relock := by
  simp only [Config.notifyAll]
  split
  · next hblocked => exact Or.inr ⟨hblocked, rfl⟩
  · exact Or.inl rfl

variable [DecidableEq τ]

/-- A thread goes on without terminating a worker, whether it notifies or not. -/
theorem Ended.setThread {pc : ThreadPC} (h : Ended c es) (hnum : c'.numWorkers = c.numWorkers)
    (hstarted : c'.started = c.started) (hstates : c'.states = c.states)
    (hthreads : c'.threads = Function.update c.threads t pc)
    (hmain : ∀ v, c'.main v = c.main v ∨ c.main v = .blocked ∧ c'.main v = .relock)
    (hpc : ∀ v, pc = .terminating v → c.numWorkers ≤ c.started) : Ended c' es := by
  constructor
  case started =>
    intro u v hu
    rw [hnum, hstarted]
    rw [hthreads] at hu
    by_cases hut : u = t
    · subst hut
      rw [Function.update_self] at hu
      exact hpc v hu
    · rw [Function.update_of_ne hut] at hu
      exact h.started u v hu
  case ended =>
    intro v hv
    obtain ⟨hall, hstate, hne⟩ := h.ended v hv
    rw [hnum, hstarted, hstates]
    refine ⟨hall, hstate, ?_⟩
    rcases hmain v with hsame | ⟨-, hwoken⟩
    · exact hsame ▸ hne
    · rw [hwoken]
      decide

theorem Ended.terminate (h : Ended c es) (hpc : c.threads t = .terminating w)
    (hmain : c.main w ≠ .begin) :
    Ended ((c.setState w .terminated).setThread t (.terminating (w + 1)))
      (es ++ [.terminated w]) := by
  have hall := h.started t w hpc
  constructor
  case started => exact fun _ _ _ => hall
  case ended =>
    intro v hv
    change _ ∧ Function.update c.states w .terminated v = _ ∧ c.main v ≠ _
    by_cases hvw : v = w
    · subst hvw
      exact ⟨hall, Function.update_self .., hmain⟩
    · rw [Function.update_of_ne hvw]
      exact h.ended v (by simpa [hvw] using hv)

theorem Ended.thread (h : Ended c es) (hclear : Entered c (.thread t))
    (hmove : ThreadMove c t c' fs) : Ended c' (es ++ fs) := by
  cases hmove with
  | @terminate w hpc hw => exact h.terminate hpc (hclear w hpc hw)
  | notify hpc =>
    rw [List.append_nil]
    exact h.setThread rfl rfl rfl rfl (notifyAll_main c) (by rintro v ⟨⟩)
  | notifyTerminated hpc =>
    rw [List.append_nil]
    exact h.setThread rfl rfl rfl rfl (notifyAll_main c) (by rintro v ⟨⟩)
  | _ =>
    rw [List.append_nil]
    exact h.setThread rfl rfl rfl rfl (fun _ => Or.inl rfl) (by rintro v ⟨⟩)

theorem Ended.step {l : Label τ} (h : Ended c es) (hclear : Entered c l)
    (hstep : step c l = some (c', fs)) : Ended c' (es ++ fs) := by
  cases l with
  | start =>
    simp only [MainLoop.step] at hstep
    split at hstep
    · next hlt =>
      cases hstep
      rw [List.append_nil]
      -- nothing is terminated before the start loop is done
      exact ⟨fun t v ht => absurd (h.started t v ht) (not_le.mpr hlt),
        fun v hv => absurd (h.ended v hv).1 (not_le.mpr hlt)⟩
    · cases hstep
  | worker w => exact h.worker (moved_of_workerStep hstep)
  | schedule t w job =>
    simp only [MainLoop.step] at hstep
    split at hstep
    · cases hstep
      rw [List.append_nil]
      exact h.setThread rfl rfl rfl rfl (fun _ => Or.inl rfl) (by rintro v ⟨⟩)
    · cases hstep
  | shutdown t =>
    simp only [MainLoop.step] at hstep
    split at hstep
    · next hidle =>
      cases hstep
      rw [List.append_nil]
      exact h.setThread rfl rfl rfl rfl (fun _ => Or.inl rfl) fun _ _ => hidle.2
    · cases hstep
  | thread t => exact h.thread hclear (threadMove_of_threadStep hstep)

theorem Ended.final (h : Ended c es) : Final c es := by
  constructor
  case state => exact fun w hw => (h.ended w hw).2.1
  case leaves =>
    intro w hw hpc
    have hstate := (h.ended w hw).2.1
    exact ⟨c.goto w .finished, by simp [MainLoop.step, workerStep, hpc, hstate],
      Function.update_self ..⟩

/-- A worker that has begun a job since it was terminated is past it. -/
def Settled (c : Config τ) (es : List Event) : Prop :=
  ∀ w n, begunSince w es = some n → n = 0 ∨ n = 1 ∧ (c.main w).Leaving

omit [DecidableEq τ] in
theorem Settled.of_main (h : Settled c es)
    (hmain : ∀ v, (c.main v).Leaving → (c'.main v).Leaving)
    (hcount : ∀ v n, begunSince v (es ++ fs) = some n → n = 0 ∨ begunSince v es = some n) :
    Settled c' (es ++ fs) := by
  intro v n hv
  rcases hcount v n hv with hzero | hold
  · exact Or.inl hzero
  · exact (h v n hold).imp_right fun ⟨hone, hpc⟩ => ⟨hone, hmain v hpc⟩

omit [DecidableEq τ] in
/-- A worker that finds nothing goes on from the pop to the steal, and from there to the
inner test. -/
theorem FindsNothing.leaving (h : FindsNothing c w) (hstep : workerStep c w = some (c', fs)) :
    (c.main w = .pop → (c'.main w).Leaving) ∧ (c.main w = .steal → (c'.main w).Leaving) := by
  constructor
  · intro hpc
    simp only [workerStep, hpc, h.1 hpc, Option.some.injEq, Prod.mk.injEq] at hstep
    obtain ⟨rfl, -⟩ := hstep
    simp [Config.goto, PC.Leaving]
  · intro hpc
    simp only [workerStep, hpc, h.2 hpc, Option.some.injEq, Prod.mk.injEq] at hstep
    obtain ⟨rfl, -⟩ := hstep
    simp [Config.goto, PC.Leaving]

omit [DecidableEq τ] in
theorem Settled.worker (h : Settled c es) (hended : Ended c es)
    (hclear : Quits c es (.worker w : Label τ)) (hstep : workerStep c w = some (c', fs)) :
    Settled c' (es ++ fs) := by
  obtain ⟨-, -, -, pc, state, hmain, -, hedge⟩ := moved_of_workerStep hstep
  have hother : ∀ v, v ≠ w → c'.main v = c.main v := fun v hv => by
    rw [hmain, Function.update_of_ne hv]
  have hself : c'.main w = pc := by rw [hmain, Function.update_self]
  have hpast : ∀ n, begunSince w es = some (n + 1) → (c.main w).Leaving →
      pc.Leaving ∧ fs = [] := by
    intro n hn hpc
    obtain ⟨hpop, hsteal⟩ := (hclear n hn).leaving hstep
    rw [hself] at hpop hsteal
    exact hedge.leaving (hended.ended w (terminated_of_begunSince hn)).2.1 hpop hsteal hpc
  rcases hedge.events with rfl | ⟨job, rfl, hpc⟩
  · rw [List.append_nil]
    intro v n hv
    refine (h v n hv).imp_right fun ⟨hone, hleaving⟩ => ⟨hone, ?_⟩
    by_cases hvw : v = w
    · subst hvw
      rw [hself]
      exact (hpast 0 (by rw [hv, hone]) hleaving).1
    · rwa [hother v hvw]
  · intro v n hv
    rw [begunSince_concat] at hv
    by_cases hvw : v = w
    · subst hvw
      cases hold : begunSince v es with
      | none =>
        rw [hold] at hv
        cases hv
      | some k =>
        rw [hold, record, if_pos rfl, Option.some.injEq] at hv
        rw [hself, hpc]
        rcases h v k hold with hzero | ⟨hone, hleaving⟩
        · exact Or.inr ⟨by omega, trivial⟩
        · -- past its one job the worker begins no other
          cases (hpast 0 (by rw [hold, hone]) hleaving).2
    · have hsame : record v (begunSince v es) (.executing w job) = begunSince v es := by
        cases begunSince v es with
        | none => rfl
        | some k => simp [record, Ne.symm hvw]
      rw [hsame] at hv
      rw [hother v hvw]
      exact h v n hv

theorem Settled.thread (h : Settled c es) (hmove : ThreadMove c t c' fs) :
    Settled c' (es ++ fs) := by
  have hnotify : ∀ v, (c.main v).Leaving → (c.notifyAll.main v).Leaving := by
    intro v hv
    rcases notifyAll_main c v with hsame | ⟨hblocked, -⟩
    · exact hsame ▸ hv
    · rw [hblocked] at hv
      exact absurd hv id
  have hnil : ∀ v n, begunSince v (es ++ []) = some n → n = 0 ∨ begunSince v es = some n :=
    fun v n hv => Or.inr (by rwa [List.append_nil] at hv)
  cases hmove with
  | @terminate w hpc hw =>
    apply h.of_main (fun _ hv => hv)
    intro v n hv
    rw [begunSince_concat] at hv
    cases hold : begunSince v es with
    | none =>
      rw [hold, record] at hv
      split at hv
      · exact Or.inl (Option.some.inj hv).symm
      · cases hv
    | some k =>
      rw [hold] at hv
      exact Or.inr hv
  | notify hpc => exact h.of_main hnotify hnil
  | notifyTerminated hpc => exact h.of_main hnotify hnil
  | _ => exact h.of_main (fun _ hv => hv) hnil

theorem Settled.step {l : Label τ} (h : Settled c es) (hended : Ended c es)
    (hclear : Quits c es l) (hstep : step c l = some (c', fs)) : Settled c' (es ++ fs) := by
  cases l with
  | start =>
    simp only [MainLoop.step] at hstep
    split at hstep
    · next hlt =>
      cases hstep
      rw [List.append_nil]
      intro v n hv
      exact absurd (hended.ended v (terminated_of_begunSince hv)).1 (not_le.mpr hlt)
    · cases hstep
  | worker w => exact h.worker hended hclear hstep
  | schedule t w job =>
    simp only [MainLoop.step] at hstep
    split at hstep
    · cases hstep
      rw [List.append_nil]
      exact h
    · cases hstep
  | shutdown t =>
    simp only [MainLoop.step] at hstep
    split at hstep
    · cases hstep
      rw [List.append_nil]
      exact h
    · cases hstep
  | thread t => exact h.thread (threadMove_of_threadStep hstep)

omit [DecidableEq τ] in
theorem Quits.entered {l : Label τ} (h : Quits c es l) : Entered c l := by
  cases l with
  | worker w => trivial
  | _ => exact h

omit [DecidableEq τ] in
theorem Settled.discards (h : Settled c es) : Discards es := by
  intro w a b hsplit
  obtain ⟨n, hn, hle⟩ := countP_le_begunSince hsplit
  have := h w n hn
  omega

end Steps

section Runs
variable [DecidableEq τ] (system : JobSystem) (numWorkers : ℕ) (ls : List (Label τ))

theorem ended_of_exec
    (hclear : ∀ pre l, pre ++ [l] <+: ls → ∀ c es,
      step.exec (start τ system numWorkers) pre = some (c, es) → Entered c l)
    {pre : List (Label τ)} (hpre : pre <+: ls) {c : Config τ} {es : List Event}
    (h : step.exec (start τ system numWorkers) pre = some (c, es)) : Ended c es := by
  refine Stepper.exec_induction (I := fun _ c es => Ended c es) (ended_start system numWorkers)
    ?_ hpre h
  intro pre l c es c' fs hl hexec hI hstep
  exact hI.step (hclear pre l hl c es hexec) hstep

/-- Terminated is final in every run in which each worker's thread has entered `main_proc`
by the time the worker is terminated. -/
theorem final_of_exec
    (hclear : ∀ pre l, pre ++ [l] <+: ls → ∀ c es,
      step.exec (start τ system numWorkers) pre = some (c, es) → Entered c l)
    (pre : List (Label τ)) (hpre : pre <+: ls) (c : Config τ) (es : List Event)
    (h : step.exec (start τ system numWorkers) pre = some (c, es)) : Final c es :=
  (ended_of_exec system numWorkers ls hclear hpre h).final

/-- A terminated worker begins one more job at most, in every run in which the workers have
entered `main_proc` when they are terminated, and in which a terminated worker that has
begun a job finds no other when its inner loop goes round again. -/
theorem discards_of_exec
    (hclear : ∀ pre l, pre ++ [l] <+: ls → ∀ c es,
      step.exec (start τ system numWorkers) pre = some (c, es) → Quits c es l)
    (pre : List (Label τ)) (hpre : pre <+: ls) (c : Config τ) (es : List Event)
    (h : step.exec (start τ system numWorkers) pre = some (c, es)) : Discards es := by
  have hentered : ∀ pre l, pre ++ [l] <+: ls → ∀ c es,
      step.exec (start τ system numWorkers) pre = some (c, es) → Entered c l :=
    fun pre l hl c es hexec => (hclear pre l hl c es hexec).entered
  apply Settled.discards (c := c)
  refine Stepper.exec_induction (I := fun _ c es => Settled c es) ?_ ?_ hpre h
  · rintro w n ⟨⟩
  · intro pre l c es c' fs hl hexec hI hstep
    have hended := ended_of_exec system numWorkers ls hentered
      ((List.prefix_append pre [l]).trans hl) hexec
    exact hI.step hended (hclear pre l hl c es hexec) hstep

end Runs

/-- The condition is no stronger than needed: a worker terminated before it has entered
`main_proc` is running again after its next step. -/
theorem not_final_of_not_entered [DecidableEq τ] {c c' : Config τ} {t : τ} {es fs : List Event}
    (hclear : ¬ Entered c (.thread t)) (hstep : step c (.thread t) = some (c', fs)) :
    ∃ w c'' gs, step c' (.worker w) = some (c'', gs) ∧ ¬ Final c'' (es ++ fs ++ gs) := by
  simp only [Entered, not_forall, not_not] at hclear
  obtain ⟨w, hpc, hw, hmain⟩ := hclear
  simp only [step, threadStep, hpc, if_pos hw, Option.some.injEq, Prod.mk.injEq] at hstep
  obtain ⟨rfl, rfl⟩ := hstep
  set ended := (c.setState w .terminated).setThread t (.terminating (w + 1)) with hended
  refine ⟨w, (ended.setState w .running).goto w .testState, [], ?_, fun hfinal => ?_⟩
  · simp [step, workerStep, hended, Config.setState, Config.setThread, hmain]
  · have hstate := hfinal.state w (by simp)
    simp [Config.goto, Config.setState] at hstate

/-- Nor is this one: a worker that has begun a job since it was terminated and that finds
another begins it with its next step but one. -/
theorem not_discards_of_not_findsNothing [DecidableEq τ] {c c' : Config τ} {w n : ℕ}
    {es fs : List Event} (hbegun : begunSince w es = some (n + 1)) (hclear : ¬ FindsNothing c w)
    (hstep : step c (.worker w) = some (c', fs)) :
    ∃ c'' gs, step c' (.worker w) = some (c'', gs) ∧ ¬ Discards (es ++ fs ++ gs) := by
  obtain ⟨a, b, rfl, hb⟩ := exists_eq_append_of_begunSince hbegun
  have hmore : ∀ job, ¬ Discards (a ++ .terminated w :: b ++ [] ++ [.executing w job]) := by
    intro job hdiscards
    have hle := hdiscards w a (b ++ [.executing w job]) (by simp)
    simp [List.countP_append, Event.isExecuting, hb] at hle
  obtain ⟨job, hmain, rfl⟩ : ∃ job, c'.main w = .execute job ∧ fs = [] := by
    rw [FindsNothing, not_and_or, Classical.not_imp, Classical.not_imp] at hclear
    rcases hclear with ⟨hpc, hfound⟩ | ⟨hpc, hfound⟩
    · obtain ⟨job, hjob⟩ := Option.ne_none_iff_exists'.mp hfound
      simp only [step, workerStep, hpc, hjob, Option.some.injEq, Prod.mk.injEq] at hstep
      obtain ⟨rfl, rfl⟩ := hstep
      exact ⟨job, Function.update_self .., rfl⟩
    · obtain ⟨job, hjob⟩ := Option.ne_none_iff_exists'.mp hfound
      simp only [step, workerStep, hpc, hjob, Option.some.injEq, Prod.mk.injEq] at hstep
      obtain ⟨rfl, rfl⟩ := hstep
      exact ⟨job, Function.update_self .., rfl⟩
  exact ⟨_, [.executing w job], by simp [step, workerStep, hmain]; rfl, hmore job⟩

section Small

def entered (c : Config Unit) : Bool :=
  match c.threads () with
  | .terminating w => c.main w ≠ .begin
  | _ => true

theorem entered_of_check {c : Config Unit} (h : entered c = true) (l : Label Unit) :
    Entered c l := by
  cases l with
  | thread t =>
    intro w hpc _
    rw [entered, hpc] at h
    exact of_decide_eq_true h
  | _ => trivial

abbrev orderly : List (Label Unit) :=
  [.start, .worker 0, .shutdown (), .thread (), .thread (), .worker 0]

/-- The worker enters `main_proc` and is terminated then. -/
theorem final_of_exec_orderly :
    ∃ c es, step.exec (start Unit small 1) orderly = some (c, es) ∧ c.main 0 = .finished ∧
      Final c es := by
  have hcheck : ∀ n < 6, (step.exec (start Unit small 1) (orderly.take n)).map
      (fun r => entered r.1) = some true := by decide +kernel
  refine ⟨_, _, rfl, by decide +kernel, final_of_exec small 1 orderly ?_ orderly
    List.prefix_rfl _ _ rfl⟩
  intro pre l hpre c es h
  obtain ⟨n, hn, rfl, rfl⟩ := concat_prefix_iff.mp hpre
  exact entered_of_check (Stepper.exec_observe h (hcheck n hn)) _

abbrev hasty : List (Label Unit) := [.start, .shutdown (), .thread (), .thread (), .worker 0]

/-- The worker is terminated first and enters `main_proc` then. -/
theorem terminate_before_begin_not_final :
    ∃ c es, step.exec (start Unit small 1) hasty = some (c, es) ∧ .terminated 0 ∈ es ∧
      c.states 0 = .running ∧ ¬ Final c es := by
  refine ⟨_, _, rfl, by decide +kernel, by decide +kernel, fun h => ?_⟩
  exact absurd (h.state 0 (by decide +kernel)) (by decide +kernel)

/-- The main thread schedules the jobs, and the worker is on its way to the first. -/
abbrev filled (jobs : List ℕ) : List (Label Unit) :=
  .start :: (jobs.flatMap fun job => [.schedule () 1 job, .thread (), .thread (), .thread ()]) ++
    [.worker 0, .worker 0, .worker 0]

/-- The test of `Quits` at one label. -/
def quits : Label Unit → Option (Config Unit × List Event) → Bool
  | .worker w, some (c, es) => decide (FindsNothing c w ∨ (begunSince w es).getD 0 = 0)
  | .thread _, some (c, _) => entered c
  | _, _ => true

theorem quits_of_check {c : Config Unit} {es : List Event} {l : Label Unit}
    (h : quits l (some (c, es)) = true) : Quits c es l := by
  cases l with
  | worker w => exact fun n hbegun => (of_decide_eq_true h).resolve_right (by simp [hbegun])
  | thread t => exact entered_of_check h (.thread t)
  | _ => trivial

/-- Both workers have a job when the first is terminated. While the second is still at its
job, the first has run its own, and goes round its inner loop without finding another. -/
abbrev bothBusy : List (Label Unit) :=
  List.flatten [[.start, .start, .schedule () 0 1024, .thread (), .thread (), .thread (),
    .schedule () 1 1096, .thread (), .thread (), .thread ()], List.replicate 4 (.worker 1),
    List.replicate 4 (.worker 0), [.shutdown (), .thread ()], List.replicate 9 (.worker 0),
    List.replicate 6 (.worker 1), List.replicate 4 (.worker 0)]

theorem discards_of_exec_bothBusy :
    ∃ c es, step.exec (start Unit small 2) bothBusy = some (c, es) ∧ c.main 0 = .finished ∧
      es = [.terminated 0, .executing 0 1024, .executing 1 1096] ∧ Discards es := by
  have hend : (step.exec (start Unit small 2) bothBusy).map (fun r => (r.2, r.1.main 0)) =
      some ([.terminated 0, .executing 0 1024, .executing 1 1096], .finished) := by decide +kernel
  have hcheck : ∀ k (hk : k < bothBusy.length),
      quits bothBusy[k] (step.exec (start Unit small 2) (bothBusy.take k)) = true := by
    decide +kernel
  obtain ⟨⟨c, es⟩, hrun, hc⟩ := Option.map_eq_some_iff.mp hend
  simp only [Prod.mk.injEq] at hc
  obtain ⟨rfl, hmain⟩ := hc
  refine ⟨c, _, hrun, hmain, rfl, discards_of_exec small 2 bothBusy ?_ bothBusy List.prefix_rfl c _
    hrun⟩
  exact fun pre l hpre d fs hexec => quits_of_check (Stepper.holds_of_check hcheck hpre hexec)

/-- Both jobs are queued when the worker is terminated. The first leaves the counter at one,
and the worker begins the second. -/
theorem two_queued_not_discards :
    ∃ c es, step.exec (start Unit small 1)
        (filled [1024, 1096] ++ [.shutdown (), .thread ()] ++ List.replicate 11 (.worker 0)) =
          some (c, es) ∧
      es = [.terminated 0, .executing 0 1024, .executing 0 1096] ∧ ¬ Discards es := by
  refine ⟨_, _, rfl, by decide +kernel, fun h => ?_⟩
  exact absurd (h 0 [] [.executing 0 1024, .executing 0 1096] (by decide +kernel)) (by decide)

end Small

end Jobrocket.MainLoop
