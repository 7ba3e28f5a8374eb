import Jobrocket.StoredFunctions
import Jobrocket.WaitCycles

/-! # Stalls

The deques are empty and every thread that is inside the library waits for something that
has not happened. Then every job that is waited for has been taken, and its function is
below one of these waits, so the waits are a knot: a system that has stalled does not come
to life again, whatever the idle threads still schedule.
-/
namespace Jobrocket.CallStacks
open Library Memory

variable {τ : Type*}

/-- The calls that another call can stand on. -/
def Frame.Carries : Frame → Prop
  | .wait _ | .waitForAll _ | .tryRun _ (.body _) => True
  | _ => False

def Nested (c : Config τ) : Prop := ∀ t, ∀ f ∈ (c.frames t).tail, f.Carries

/-- The job was passed to `run` and has not been executed, or a group counts it. -/
def Engaged (es : List Event) (n : ℕ) : Prop :=
  .ran n ∈ es ∧ .executed n ∉ es ∨ ∃ g, .counted n g ∈ es ∧ .uncounted n g ∉ es

/-- What a wait waits for has not happened. A job that is waited for has been passed to
`run` and its pointer is not null. -/
def Unmet (c : Config τ) (es : List Event) : Frame → Prop
  | .wait n => .ran n ∈ es ∧ .executed n ∉ es ∧ c.block n ≠ nullptr
  | .waitForAll g => c.counters g.address ≠ 0
  | _ => False

/-- The call is the innermost of its thread, but for a `try_run_job` that looks for a job. -/
def Waiter.Foremost (w : Waiter τ) (c : Config τ) : Prop :=
  ∃ top, c.frames w.thread = top ++ w.frame :: w.below ∧
    ∀ f ∈ top, ∃ d, f = .tryRun d .pop ∨ f = .tryRun d .steal

/-- No job is left to take, and no thread is inside the library but in a wait. -/
structure Stalled (c : Config τ) (es : List Event) : Prop where
  entries : c.entries = []
  waiting : ∀ t, c.frames t ≠ [] → ∃ w : Waiter τ, w.thread = t ∧ w.Foremost c ∧ Unmet c es w.frame

/-- A job that is engaged is with a call or in a deque, if its pointer is not null. -/
structure Present [Fintype τ] (c : Config τ) (es : List Event) : Prop where
  solid : ∀ n g, .counted n g ∈ es → (n, .ready) ∈ held c → c.block n ≠ nullptr
  has : ∀ n, Engaged es n → (∃ s, (n, s) ∈ held c) ∨ .ran n ∈ es ∧ c.block n = nullptr

section Frames
variable [DecidableEq τ] {index : τ → ℕ} {c c₁ c' : Config τ} {es evs : List Event} {i n : ℕ}
variable {l : Label τ} {f : Frame} {fs : List Frame} {entry : Option ℕ} {s : Stage}

omit [DecidableEq τ] in
theorem Move.carries (h : Move i c f c₁ fs evs) : ∀ g ∈ fs.tail, g.Carries := by
  cases h with
  | wait n => exact fun g hg => List.mem_singleton.mp hg ▸ trivial
  | waitForAll g => exact fun g hg => List.mem_singleton.mp hg ▸ trivial
  | _ => simp

theorem Nested.step (h : Nested c) (hstep : CallStacks.step index c l = some (c', evs)) :
    Nested c' := by
  intro u g hg
  have htop : ∀ {t : τ} {fs rest : List Frame}, (∀ x ∈ fs.tail, x.Carries) →
      (∀ x ∈ rest, x.Carries) → g ∈ (Function.update c.frames t (fs ++ rest) u).tail →
        g.Carries := by
    intro t fs rest hfs hrest hg
    by_cases hut : u = t
    · subst hut
      rw [Function.update_self] at hg
      cases fs with
      | nil => exact hrest g (List.mem_of_mem_tail hg)
      | cons x fs => exact (List.mem_append.mp hg).elim (hfs g) (hrest g)
    · rw [Function.update_of_ne hut] at hg
      exact h u g hg
  cases stepped_of_step hstep with
  | call t call hat =>
    have hone : ∀ x ∈ [call.enter.1].tail, x.Carries := by simp
    refine htop hone (fun x hx => ?_) hg
    cases hframes : c.frames t with
    | nil => simp [hframes] at hx
    | cons y rest =>
      rw [hframes] at hx hat
      rcases List.mem_cons.mp hx with rfl | hx
      · -- the program's code runs at the bottom or in a job's function
        cases x with
        | tryRun d pc => cases pc <;> trivial
        | _ => cases hat
      · exact h t x (by rwa [hframes])
  | @move t f rest fs c₁ evs hframes hmove =>
    exact htop hmove.carries (fun x hx => h t x (by rwa [hframes])) hg
  | @choose t entry f rest fs c₁ evs hframes hchoice =>
    exact htop (by cases hchoice <;> simp) (fun x hx => h t x (by rwa [hframes])) hg

omit [DecidableEq τ] in
/-- A job is made ready by no step but the last of `JobGroup::run` before the schedule. -/
theorem Move.readies (h : Move i c f c₁ fs evs) (hmem : (n, .ready) ∈ jobs fs) :
    f.job = some (n, .ready) ∨ ∃ g, f = .groupSet g n := by
  cases h with
  | groupSet g k =>
    cases mem_jobs_single.mp hmem
    exact Or.inr ⟨g, rfl⟩
  | schedule k => exact Or.inl (mem_jobs_single.mp hmem)
  | leaveGroup d k =>
    rw [mem_jobs_single, Config.groupExit] at hmem
    split at hmem <;> cases hmem
  | decrementGroup d g k =>
    rw [mem_jobs_single] at hmem
    split at hmem <;> cases hmem
  | _ => simp [jobs_cons, Frame.job, RunPC.job] at hmem

omit [DecidableEq τ] in
theorem Move.keeps (h : Move i c f c₁ fs evs) (hjob : f.job = some (n, s)) :
    (∃ s', (n, s') ∈ jobs fs) ∨ n ∈ c₁.entries ∨ s = .done := by
  cases h with
  | groupMake g k function halloc =>
    cases hjob
    exact Or.inl ⟨_, mem_jobs_single.mpr rfl⟩
  | groupSet g k =>
    cases hjob
    exact Or.inl ⟨_, mem_jobs_single.mpr rfl⟩
  | schedule k =>
    cases hjob
    exact Or.inl ⟨_, mem_jobs_single.mpr rfl⟩
  | push k =>
    cases hjob
    exact Or.inr (Or.inl List.mem_cons_self)
  | execute d k =>
    cases hjob
    exact Or.inl ⟨_, mem_jobs_single.mpr rfl⟩
  | body d k =>
    cases hjob
    exact Or.inl ⟨_, mem_jobs_single.mpr rfl⟩
  | leaveGroup d k =>
    cases hjob
    obtain ⟨r, hr⟩ := groupExit_job c d n
    exact Or.inl ⟨r, mem_jobs_single.mpr hr⟩
  | decrementGroup d g k =>
    cases hjob
    exact Or.inl ⟨.done, mem_jobs_single.mpr (by split <;> rfl)⟩
  | clampGroup d g k =>
    cases hjob
    exact Or.inl ⟨_, mem_jobs_single.mpr rfl⟩
  | release d k =>
    cases hjob
    exact Or.inr (Or.inr rfl)
  | _ => cases hjob

omit [DecidableEq τ] in
theorem Move.entries_subset (h : Move i c f c₁ fs evs) (hn : n ∈ c.entries) : n ∈ c₁.entries := by
  rcases h.entries_eq with heq | ⟨k, -, heq⟩
  · exact heq ▸ hn
  · exact heq ▸ List.mem_cons_of_mem k hn

end Frames

section Steps
variable [Fintype τ] [DecidableEq τ] {capacity : ℕ} {bases : List ℕ} {index : τ → ℕ}
variable {c c₁ c' : Config τ} {es evs : List Event} {stage : ℕ → Stage} {i n g : ℕ}
variable {group : ℕ → Option ℕ} {l : Label τ} {t : τ} {f : Frame} {fs rest : List Frame}
variable {entry : Option ℕ} {s : Stage}

omit [DecidableEq τ] in
theorem Inv.group_of_ran (h : Inv capacity bases c es stage group) (hran : .ran n ∈ es) :
    group n = none ∧ n < c.next ∧ ∀ g, stage n ≠ .counted g := by
  have hmem : .ran n ∈ naming n es := (mem_naming rfl).mpr hran
  rw [h.history n] at hmem
  refine ⟨?_, ?_, ?_⟩
  · cases hgroup : group n with
    | none => rfl
    | some g =>
      rw [hgroup] at hmem
      cases hs : stage n <;> simp [hs, Stage.trace, Stage.origin, Stage.departure] at hmem
  · by_contra hge
    rw [h.unborn n (not_lt.mp hge)] at hmem
    exact absurd hmem List.not_mem_nil
  · intro g hg
    rw [hg] at hmem
    simp [Stage.trace] at hmem

omit [DecidableEq τ] in
theorem Inv.not_engaged_of_done (h : Inv capacity bases c es stage group) (hs : stage n = .done) :
    ¬ Engaged es n := by
  have hhistory := h.history n
  rw [hs] at hhistory
  rintro (⟨-, hexecuted⟩ | ⟨g, hcounted, huncounted⟩)
  · refine hexecuted ((mem_naming rfl).mp ?_)
    rw [hhistory]
    simp [Stage.trace]
  · have hmem : .counted n g ∈ naming n es := (mem_naming rfl).mpr hcounted
    rw [hhistory] at hmem
    refine huncounted ((mem_naming rfl).mp ?_)
    rw [hhistory]
    cases hgroup : group n with
    | none => simp [hgroup, Stage.trace, Stage.origin, Stage.departure] at hmem
    | some a =>
      obtain rfl : g = a := by
        simpa [hgroup, Stage.trace, Stage.origin, Stage.departure] using hmem
      simp [Stage.trace, Stage.departure]

omit [DecidableEq τ] in
theorem mem_held_iff : (n, s) ∈ held c ↔
    (∃ t, ∃ f ∈ c.frames t, f.job = some (n, s)) ∨ n ∈ c.entries ∧ s = .ready := by
  constructor
  · intro hmem
    rcases Multiset.mem_add.mp hmem with hmem | hmem
    · obtain ⟨t, -, ht⟩ := Multiset.mem_sum.mp hmem
      obtain ⟨f, hf, hjob⟩ := List.mem_filterMap.mp ht
      exact Or.inl ⟨t, f, hf, hjob⟩
    · exact Or.inr (mem_queued.mp hmem)
  · rintro (⟨t, f, hf, hjob⟩ | ⟨hn, rfl⟩)
    · exact mem_held hf hjob
    · exact mem_held_of_entries hn

theorem mem_held_of_jobs (hframes : c'.frames = Function.update c.frames t (fs ++ rest))
    (hmem : (n, s) ∈ jobs fs) : (n, s) ∈ held c' := by
  obtain ⟨f, hf, hjob⟩ := List.mem_filterMap.mp hmem
  refine mem_held (t := t) ?_ hjob
  rw [hframes, Function.update_self]
  exact List.mem_append_left _ hf

/-- What was held still is, or was with the innermost call or in a deque. -/
theorem held_of_top (htop : c.frames t = f :: rest)
    (hframes : c'.frames = Function.update c.frames t (fs ++ rest)) (hmem : (n, s) ∈ held c) :
    (n, s) ∈ held c' ∨ f.job = some (n, s) ∨ n ∈ c.entries := by
  have hheld := held_top htop hframes
  have hsum : (n, s) ∈ held c + (jobs fs + queued c'.entries) := Multiset.mem_add.mpr (Or.inl hmem)
  rw [← hheld, Multiset.mem_add, Multiset.mem_add, mem_jobs_single, mem_queued] at hsum
  exact hsum.imp_right (Or.imp_right And.left)

theorem ready_of_step (hstep : step index c l = some (c', evs)) (hmem : (n, .ready) ∈ held c')
    (hruns : ∀ t n, l = .call t (.run n) → .made n ∈ es ∧ .ran n ∉ es)
    (hdelivers : ∀ t n, l = .take t (some n) → Job.isReady c.memory (c.block n) = true →
      n ∈ c.entries) :
    (n, .ready) ∈ held c ∨ (.made n ∈ es ∧ .ran n ∉ es) ∨ ∃ g, (n, .fresh g) ∈ held c := by
  cases stepped_of_step hstep with
  | call t call hat =>
    have hpush : held { c with frames := Function.update c.frames t (call.enter.1 :: c.frames t) } =
        held c + jobs [call.enter.1] := held_push rfl rfl
    rw [hpush, Multiset.mem_add, mem_jobs_single] at hmem
    refine hmem.imp_right fun hnew => Or.inl ?_
    cases call with
    | run k =>
      cases hnew
      exact hruns t _ rfl
    | _ => cases hnew
  | @move t f rest fs c₁ evs htop hmove =>
    have hf : f ∈ c.frames t := htop ▸ List.mem_cons_self
    rcases mem_held_top htop rfl hmem with hold | hnew | ⟨hentry, -⟩
    · exact Or.inl hold
    · rcases hmove.readies hnew with hjob | ⟨g, rfl⟩
      · exact Or.inl (mem_held hf hjob)
      · exact Or.inr (Or.inr ⟨g.address, mem_held hf rfl⟩)
    · rcases hmove.entries_eq with heq | ⟨k, rfl, heq⟩
      · exact Or.inl (mem_held_of_entries (heq ▸ hentry))
      · have hentry : n ∈ c₁.entries := hentry
        rw [heq] at hentry
        rcases List.mem_cons.mp hentry with rfl | hold
        · exact Or.inl (mem_held hf rfl)
        · exact Or.inl (mem_held_of_entries hold)
  | @choose t entry f rest fs c₁ evs htop hchoice =>
    obtain ⟨hfs, hentries⟩ := hchoice.gives (n := n) fun k hk => hdelivers t k (by rw [hk])
    left
    rcases mem_held_top htop rfl hmem with hold | hnew | ⟨hentry, -⟩
    · exact hold
    · exact mem_held_of_entries (hfs _ hnew)
    · exact mem_held_of_entries (hentries n hentry)

omit [Fintype τ] [DecidableEq τ] in
theorem Engaged.of_append (h : Engaged (es ++ evs) n) :
    Engaged es n ∨ .ran n ∈ evs ∨ ∃ g, .counted n g ∈ evs := by
  rcases h with ⟨hran, hexecuted⟩ | ⟨g, hcounted, huncounted⟩
  · rcases List.mem_append.mp hran with hold | hnew
    · exact Or.inl (Or.inl ⟨hold, fun hmem => hexecuted (List.mem_append_left _ hmem)⟩)
    · exact Or.inr (Or.inl hnew)
  · rcases List.mem_append.mp hcounted with hold | hnew
    · exact Or.inl (Or.inr ⟨g, hold, fun hmem => huncounted (List.mem_append_left _ hmem)⟩)
    · exact Or.inr (Or.inr ⟨g, hnew⟩)

theorem held_of_engages (hstep : step index c l = some (c', evs))
    (h : .ran n ∈ evs ∨ ∃ g, .counted n g ∈ evs) : ∃ s, (n, s) ∈ held c' := by
  cases stepped_of_step hstep with
  | call t call hat =>
    cases call with
    | run k =>
      obtain rfl : n = k := by simpa [Call.enter] using h
      have hjobs : (n, .ready) ∈ jobs [Frame.schedule n] := mem_jobs_single.mpr rfl
      exact ⟨.ready, mem_held_of_jobs (t := t) rfl hjobs⟩
    | _ => simp [Call.enter] at h
  | @choose t entry f rest fs c₁ evs htop hchoice => cases hchoice <;> simp at h
  | @move t f rest fs c₁ evs htop hmove =>
    cases hmove with
    | groupIncrement g function =>
      obtain rfl : n = c.next := by
        simpa using h
      exact ⟨_, mem_held_of_jobs rfl (mem_jobs_single.mpr rfl)⟩
    | _ => simp at h

omit [Fintype τ] in
theorem next_of_counted (hstep : step index c l = some (c', evs)) (h : .counted n g ∈ evs) :
    n = c.next := by
  cases stepped_of_step hstep with
  | call t call hat => cases call <;> simp [Call.enter] at h
  | @choose t entry f rest fs c₁ evs htop hchoice => cases hchoice <;> simp at h
  | @move t f rest fs c₁ evs htop hmove =>
    cases hmove with
    | groupIncrement g function => exact (by simpa using h : n = c.next ∧ _).1
    | _ => simp at h

omit [Fintype τ] [DecidableEq τ] in
theorem Choice.keeps (h : Choice c entry f c₁ fs evs) (hn : n ∈ c.entries) :
    n ∈ c₁.entries ∨ (∃ s, (n, s) ∈ jobs fs) ∨ Job.isReady c.memory (c.block n) = false := by
  have herase : ∀ {k : ℕ}, n ≠ k → n ∈ c.entries.erase k :=
    fun hk => (List.mem_erase_of_ne hk).mpr hn
  cases h with
  | ready d k pc hpc hready =>
    by_cases hk : n = k
    · exact Or.inr (Or.inl ⟨.taken, mem_jobs_single.mpr (hk ▸ rfl)⟩)
    · exact Or.inl (herase hk)
  | popDrop d k hready =>
    by_cases hk : n = k
    · exact Or.inr (Or.inr (hk ▸ hready))
    · exact Or.inl (herase hk)
  | stealDrop d k hready =>
    by_cases hk : n = k
    · exact Or.inr (Or.inr (hk ▸ hready))
    · exact Or.inl (herase hk)
  | popNothing d => exact Or.inl hn
  | stealNothing d => exact Or.inl hn

omit [Fintype τ] [DecidableEq τ] in
theorem Choice.job_eq_none (h : Choice c entry f c₁ fs evs) : f.job = none := by
  cases h with
  | ready d k pc hpc hready => rcases hpc with rfl | rfl <;> rfl
  | _ => rfl

omit [DecidableEq τ] in
/-- An entry that is not ready is a null pointer. -/
theorem Inv.null_of_entry (h : Inv capacity bases c es stage group) (hn : n ∈ c.entries)
    (hready : Job.isReady c.memory (c.block n) = false) : c.block n = nullptr := by
  have hstage : stage n = .ready := h.roles.role_eq (mem_held_of_entries hn)
  have hfields := h.store.fields n
  rw [hstage] at hfields
  by_contra hp
  exact absurd (Job.isReady_iff.mpr ⟨hp, (hfields hp).2.2⟩) (by simp [hready])

theorem Present.solid_step (h : Present c es) (hinv : Inv capacity bases c es stage group)
    (hstep : CallStacks.step index c l = some (c', evs))
    (hruns : ∀ t n, l = .call t (.run n) → .made n ∈ es ∧ .ran n ∉ es)
    (hdelivers : ∀ t n, l = .take t (some n) → Job.isReady c.memory (c.block n) = true →
      n ∈ c.entries) (hcounted : .counted n g ∈ es ++ evs) (hready : (n, .ready) ∈ held c') :
    c'.block n ≠ nullptr := by
  have hcounted_old : n < c.next → .counted n g ∈ es := fun hborn =>
    (List.mem_append.mp hcounted).resolve_right fun hnew =>
      absurd (next_of_counted hstep hnew) hborn.ne
  rcases ready_of_step hstep hready hruns hdelivers with hold | hmade | ⟨a, hfresh⟩
  · have hstage : stage n = .ready := hinv.roles.role_eq hold
    have hlive : (stage n).Live := hstage ▸ trivial
    have hborn := hinv.lt_next hlive
    rw [hinv.block_of_step hstep hborn hlive.ne_counted]
    exact h.solid n g (hcounted_old hborn) hold
  · have hlive : (stage n).Live := hinv.live_of_has (Or.inr hmade)
    have hold : .counted n g ∈ naming n es :=
      (mem_naming rfl).mpr (hcounted_old (hinv.lt_next hlive))
    have hmade' : .made n ∈ naming n es := (mem_naming rfl).mpr hmade.1
    have hran' : .ran n ∉ naming n es := mt (mem_naming rfl).mp hmade.2
    rw [hinv.history n] at hold hmade' hran'
    rw [Stage.eq_made hmade' hran'] at hold
    exact absurd hold (by simp [Stage.trace])
  · have hstage : stage n = .fresh a := hinv.roles.role_eq hfresh
    have hlive : (stage n).Live := hstage ▸ trivial
    have hfields := hinv.store.fields n
    rw [hstage] at hfields
    rw [hinv.block_of_step hstep (hinv.lt_next hlive) hlive.ne_counted]
    exact hfields.1

theorem Present.step (h : Present c es) (hinv : Inv capacity bases c es stage group)
    (hstep : CallStacks.step index c l = some (c', evs))
    (hruns : ∀ t n, l = .call t (.run n) → .made n ∈ es ∧ .ran n ∉ es)
    (hdelivers : ∀ t n, l = .take t (some n) → Job.isReady c.memory (c.block n) = true →
      n ∈ c.entries) : Present c' (es ++ evs) := by
  constructor
  case solid =>
    exact fun n g hcounted hready =>
      h.solid_step hinv hstep hruns hdelivers hcounted hready
  case has =>
    intro n hn
    rcases hn.of_append with hold | hnew
    swap
    · exact Or.inl (held_of_engages hstep hnew)
    rcases h.has n hold with ⟨s, hs⟩ | ⟨hran, hnull⟩
    swap
    · obtain ⟨-, hborn, hcounted⟩ := hinv.group_of_ran hran
      exact Or.inr ⟨List.mem_append_left _ hran,
        (hinv.block_of_step hstep hborn hcounted).trans hnull⟩
    cases stepped_of_step hstep with
    | call t call hat =>
      have hpush : held { c with frames := Function.update c.frames t (call.enter.1 :: c.frames t) } =
          held c + jobs [call.enter.1] := held_push rfl rfl
      exact Or.inl ⟨s, hpush ▸ Multiset.mem_add.mpr (Or.inl hs)⟩
    | @move t f rest fs c₁ evs htop hmove =>
      left
      have hcases : (n, s) ∈ held (c₁.withTop c t fs rest) ∨ f.job = some (n, s) ∨ n ∈ c.entries :=
        held_of_top htop rfl hs
      rcases hcases with hkept | hjob | hentry
      · exact ⟨s, hkept⟩
      · rcases hmove.keeps hjob with ⟨s', hs'⟩ | hentry | rfl
        · exact ⟨s', mem_held_of_jobs rfl hs'⟩
        · exact ⟨.ready, mem_held_of_entries hentry⟩
        · exact absurd hold (hinv.not_engaged_of_done (hinv.stage_eq htop hjob))
      · exact ⟨.ready, mem_held_of_entries (hmove.entries_subset hentry)⟩
    | @choose t entry f rest fs c₁ evs htop hchoice =>
      have hcases : (n, s) ∈ held (c₁.withTop c t fs rest) ∨ f.job = some (n, s) ∨ n ∈ c.entries :=
        held_of_top htop rfl hs
      rcases hcases with hkept | hjob | hentry
      · exact Or.inl ⟨s, hkept⟩
      · rw [hchoice.job_eq_none] at hjob
        cases hjob
      · rcases hchoice.keeps hentry with hkept | ⟨s', hs'⟩ | hready
        · exact Or.inl ⟨.ready, mem_held_of_entries hkept⟩
        · exact Or.inl ⟨s', mem_held_of_jobs rfl hs'⟩
        · -- a job of a group is not a null pointer
          have hnull := hinv.null_of_entry hentry hready
          refine Or.inr ⟨List.mem_append_left _ ?_, (congrFun hchoice.ground.2 n).trans hnull⟩
          rcases hold with ⟨hran, -⟩ | ⟨g, hcounted, -⟩
          · exact hran
          · exact absurd hnull (h.solid n g hcounted (mem_held_of_entries hentry))

omit [Fintype τ] [DecidableEq τ] in
theorem Unmet.job_eq_none (h : Unmet c es f) : f.job = none := by
  cases f with
  | wait n => rfl
  | waitForAll g => rfl
  | _ => exact h.elim

omit [DecidableEq τ] in
/-- In a stall whoever has a job is in its function, below a wait. -/
theorem Stalled.body_of_held (h : Stalled c es) (hnested : Nested c) (hmem : (n, s) ∈ held c) :
    ∃ w : Waiter τ, w.Foremost c ∧ Unmet c es w.frame ∧ ∃ d, .tryRun d (.body n) ∈ w.below := by
  rcases mem_held_iff.mp hmem with ⟨t, f, hf, hjob⟩ | ⟨hentry, -⟩
  swap
  · rw [h.entries] at hentry
    exact absurd hentry List.not_mem_nil
  obtain ⟨w, rfl, hw, hunmet⟩ := h.waiting t (List.ne_nil_of_mem hf)
  refine ⟨w, hw, hunmet, ?_⟩
  obtain ⟨top, hframes, htop⟩ := hw
  rw [hframes, List.mem_append, List.mem_cons] at hf
  rcases hf with hf | rfl | hf
  · obtain ⟨d, rfl | rfl⟩ := htop f hf <;> cases hjob
  · rw [hunmet.job_eq_none] at hjob
    cases hjob
  · have htail : f ∈ (c.frames w.thread).tail := by
      rw [hframes]
      cases top with
      | nil => exact hf
      | cons x top => exact List.mem_append_right _ (List.mem_cons_of_mem _ hf)
    have hcarries := hnested w.thread f htail
    cases f with
    | tryRun d pc =>
      cases pc <;> first | exact hcarries.elim | skip
      cases hjob
      exact ⟨d, hf⟩
    | wait k => cases hjob
    | waitForAll g => cases hjob
    | _ => exact hcarries.elim

omit [DecidableEq τ] in
/-- The waits of a stall are knotted. -/
theorem Stalled.knot (h : Stalled c es) (hinv : Inv capacity bases c es stage group)
    (hnested : Nested c) (hcounted : Counted c es) (hpresent : Present c es) :
    Knot c es {w | w.Foremost c ∧ Unmet c es w.frame} := by
  constructor
  case on =>
    rintro w ⟨⟨top, hframes, -⟩, -⟩
    exact ⟨top, hframes.symm⟩
  case tied =>
    rintro w ⟨-, hunmet⟩
    have hawaited : ∃ n, Awaits es w.frame n ∧ Engaged es n ∧
        ¬ (.ran n ∈ es ∧ c.block n = nullptr) := by
      cases hframe : w.frame with
      | wait n =>
        rw [hframe] at hunmet
        exact ⟨n, .job n, Or.inl ⟨hunmet.1, hunmet.2.1⟩, fun hnull => hunmet.2.2 hnull.2⟩
      | waitForAll g =>
        rw [hframe] at hunmet
        have hpos : 0 < (outstanding es g.address).card := by
          rw [← hcounted.counter]
          exact Nat.pos_of_ne_zero fun hzero => hunmet (UInt32.toNat_inj.mp hzero)
        obtain ⟨n, hn⟩ := Finset.card_pos.mp hpos
        obtain ⟨hin, hout⟩ := mem_outstanding.mp hn
        refine ⟨n, .group g n hin, Or.inr ⟨_, hin, hout⟩, fun hnull => ?_⟩
        -- a job that was passed to `run` is counted by no group
        have hmem : .counted n g.address ∈ naming n es := (mem_naming rfl).mpr hin
        rw [hinv.history n, (hinv.group_of_ran hnull.1).1] at hmem
        cases hs : stage n <;>
          simp [hs, Stage.trace, Stage.origin, Stage.departure] at hmem
        all_goals
          have hfits := hinv.fits n
          rw [hs, (hinv.group_of_ran hnull.1).1] at hfits
          cases hfits
      | _ => rw [hframe] at hunmet; exact hunmet.elim
    obtain ⟨n, hawaits, hengaged, hnonnull⟩ := hawaited
    obtain ⟨s, hs⟩ := (hpresent.has n hengaged).resolve_right hnonnull
    obtain ⟨v, hv, hv', d, hbody⟩ := h.body_of_held hnested hs
    exact ⟨n, hawaits, v, ⟨hv, hv'⟩, d, hbody⟩

end Steps

section Runs
variable [Fintype τ] [DecidableEq τ] {capacity self : ℕ} {bases : List ℕ} {m₀ : Memory}
variable {c : Config τ} {es : List Event} {ls pre : List (Label τ)} (index : τ → ℕ)

variable {index} in
theorem present_of_exec (hplace : JobPool.Placement capacity bases) (hself : self < 2 ^ 64)
    (hne : self ≠ nullptr)
    (husage : Usage index bases.length (boot τ self capacity bases m₀) ls) (hfits : Fits ls)
    (hdelivers : DeliversReady index (boot τ self capacity bases m₀) ls) (hpre : pre <+: ls)
    (h : (step index).exec (boot τ self capacity bases m₀) pre = some (c, es)) :
    Nested c ∧ Present c es := by
  refine Stepper.exec_induction (I := fun _ c es => Nested c ∧ Present c es) ?_ ?_ hpre h
  · refine ⟨fun t f hf => absurd hf List.not_mem_nil, fun n g hn => absurd hn List.not_mem_nil, ?_⟩
    rintro n (⟨hran, -⟩ | ⟨g, hcounted, -⟩)
    · exact absurd hran List.not_mem_nil
    · exact absurd hcounted List.not_mem_nil
  · rintro pre l c es c' evs hl hexec ⟨hnested, hpresent⟩ hstep
    obtain ⟨stage, group, hinv⟩ := exists_inv_of_exec hplace hself hne husage hfits
      hdelivers ((List.prefix_append pre [l]).trans hl) hexec
    exact ⟨hnested.step hstep, hpresent.step hinv hstep
      (fun t n hlabel => husage.runs pre t n (hlabel ▸ hl) c es hexec)
      fun t n hlabel => hdelivers pre t n (hlabel ▸ hl) c es hexec⟩

end Runs

section Small

end Small

end Jobrocket.CallStacks
