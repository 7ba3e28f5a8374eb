import Jobrocket.GroupCompletion
import Jobrocket.JobMemory

/-! # Waits that never return

A thread that waits runs other jobs on top of the call that waits, and goes on only when
they have returned. So a job whose function is below a wait is not done before the wait
is. When every wait of a set of waits is for such a job, below a wait of the set, none of
them ever returns: one thread is enough, if a job waits for itself or takes, while it
waits, a job that waits for it.
-/
namespace Jobrocket.CallStacks
open Library Memory

/-- A call that waits, and the calls below it on the stack of its thread. -/
structure Waiter (τ : Type*) where
  thread : τ
  frame : Frame
  below : List Frame

variable {τ : Type*}

/-- The call waits for the job, or for a group that has counted the job. -/
inductive Awaits (es : List Event) : Frame → ℕ → Prop
  | job (n : ℕ) : Awaits es (.wait n) n
  | group (g : Group) (n : ℕ) (h : .counted n g.address ∈ es) : Awaits es (.waitForAll g) n

/-- The call has not returned, nor has any of those below it. -/
def Waiter.On (w : Waiter τ) (c : Config τ) : Prop := w.frame :: w.below <:+ c.frames w.thread

/-- Calls that wait, each for a job whose function is below one of them. -/
structure Knot (c : Config τ) (es : List Event) (ws : Set (Waiter τ)) : Prop where
  on : ∀ w ∈ ws, w.On c
  tied : ∀ w ∈ ws, ∃ n, Awaits es w.frame n ∧ ∃ v ∈ ws, ∃ d, .tryRun d (.body n) ∈ v.below

/-- The job of a function that is being executed is running. -/
def Running (c : Config τ) : Prop :=
  ∀ t d n, .tryRun d (.body n) ∈ c.frames t →
    Job.state c.memory (c.block n) = Job.State.running.code

section Steps
variable [Fintype τ] [DecidableEq τ] {capacity : ℕ} {bases : List ℕ} {index : τ → ℕ}
variable {c c₁ c' : Config τ} {es evs : List Event} {stage stage' : ℕ → Stage} {i n d : ℕ}
variable {group group' : ℕ → Option ℕ} {l : Label τ} {t : τ} {f : Frame} {fs rest : List Frame}
variable {ws : Set (Waiter τ)} {w : Waiter τ}

omit [Fintype τ] [DecidableEq τ] in
theorem Move.enters_body (h : Move i c f c₁ fs evs) (hmem : .tryRun d (.body n) ∈ fs) :
    Job.state c₁.memory (c₁.block n) = Job.State.running.code := by
  cases h with
  | execute k m =>
    cases List.mem_singleton.mp hmem
    exact Job.state_setState_self _ _ _
  | decrementGroup k g m => split at hmem <;> simp at hmem
  | leaveGroup k m =>
    rw [List.mem_singleton, Config.groupExit] at hmem
    split at hmem <;> simp at hmem
  | _ => simp at hmem

omit [DecidableEq τ] in
theorem Inv.running_of_mem (h : Inv capacity bases c es stage group)
    (hmem : .tryRun d (.body n) ∈ c.frames t) :
    stage n = .running ∧ (stage n).Live ∧ c.block n ≠ nullptr := by
  have hstage : stage n = .running := h.roles.role_eq (mem_held hmem rfl)
  have hfields := h.store.fields n
  rw [hstage] at hfields
  exact ⟨hstage, hstage ▸ trivial, hfields.1⟩

omit [Fintype τ] [DecidableEq τ] in
theorem eq_body_of_job (h : f.job = some (n, .running)) : ∃ d, f = .tryRun d (.body n) := by
  cases f with
  | tryRun d pc =>
    cases pc <;> simp [Frame.job, RunPC.job] at h
    exact ⟨d, h ▸ rfl⟩
  | _ => simp [Frame.job] at h

/-- No step changes the state of a job whose function is being executed, but the one that
ends it. -/
theorem Running.step (h : Running c) (hinv : Inv capacity bases c es stage group)
    (hinv' : Inv capacity bases c' (es ++ evs) stage' group')
    (hplace : JobPool.Placement capacity bases) (hindex : ∀ t, index t < bases.length)
    (hstep : CallStacks.step index c l = some (c', evs)) : Running c' := by
  intro u d n hmem
  cases stepped_of_step hstep with
  | call t call hat =>
    have hnone : .tryRun d (.body n) ∉ [call.enter.1] := by cases call <;> simp [Call.enter]
    exact h u d n ((mem_frames (fun _ hx => hx) hmem).resolve_right fun hnew => hnone hnew.2)
  | @choose t entry f rest fs c₁ evs htop hchoice =>
    obtain ⟨hmemory, hblock⟩ := hchoice.ground
    have hnone : .tryRun d (.body n) ∉ fs := by cases hchoice <;> simp
    have hold := (mem_frames (fun x hx => htop ▸ List.mem_cons_of_mem f hx) hmem).resolve_right
      fun hnew => hnone hnew.2
    change Job.state c₁.memory (c₁.block n) = _
    rw [hmemory, hblock]
    exact h u d n hold
  | @move t f rest fs c₁ evs htop hmove =>
    change Job.state c₁.memory (c₁.block n) = _
    rcases mem_frames (fun x hx => htop ▸ List.mem_cons_of_mem f hx) hmem with hold | ⟨-, hnew⟩
    · obtain ⟨hstage, hlive, hp⟩ := hinv.running_of_mem hold
      by_cases hf : ∀ s, f.job ≠ some (n, s)
      · have hsame := hinv.same_of_move hplace (hindex t) htop hmove hlive hp hf
        rw [hinv.block_of_move htop hmove (hinv.lt_next hlive) hlive.ne_counted,
          Job.state_of_same (hsame.mono (Nat.le_add_right _ _) le_rfl)]
        exact h u d n hold
      · -- the call that ends the function is no other than the one that is in it
        push Not at hf
        obtain ⟨s, hs⟩ := hf
        obtain rfl : s = .running := (hinv.stage_eq htop hs).symm.trans hstage
        obtain ⟨k, rfl⟩ := eq_body_of_job hs
        obtain ⟨hrunning, -⟩ := hinv'.running_of_mem hmem
        cases hmove with
        | body k n =>
          have hleaving : .tryRun k (.leaveGroup n) ∈
              Function.update c.frames t ([.tryRun k (.leaveGroup n)] ++ rest) t := by simp
          have hexecuted : stage' n = .executed := hinv'.roles.role_eq (mem_held hleaving rfl)
          rw [hexecuted] at hrunning
          cases hrunning
    · exact hmove.enters_body hnew

omit [DecidableEq τ] in
theorem Inv.not_executed (h : Inv capacity bases c es stage group) (hn : stage n = .running) :
    .executed n ∉ es := by
  intro hmem
  have hexecuted : .executed n ∈ naming n es := (mem_naming rfl).mpr hmem
  rw [h.history n, hn] at hexecuted
  cases hgroup : group n <;> simp [hgroup, Stage.trace, Stage.origin] at hexecuted

omit [DecidableEq τ] in
theorem Inv.outstanding_of_running (h : Inv capacity bases c es stage group)
    (hn : stage n = .running) {g : ℕ} (hcounted : .counted n g ∈ es) : n ∈ outstanding es g :=
  mem_outstanding.mpr ⟨hcounted, fun huncounted =>
    h.not_executed hn (h.executed_of_uncounted huncounted)⟩

omit [Fintype τ] [DecidableEq τ] in
/-- A wait for a job that is running goes on waiting. -/
theorem Move.waits (h : Move i c f c₁ fs evs) (hawaits : Awaits es f n)
    (hrunning : Job.state c.memory (c.block n) = Job.State.running.code)
    (hcount : ∀ g, .counted n g ∈ es → c.counters g ≠ 0) : ∃ gs, fs = gs ++ [f] := by
  cases hawaits with
  | job n =>
    cases h with
    | wait n => exact ⟨[.tryRun 0 .pop], rfl⟩
    | waited n hdone =>
      rw [hrunning] at hdone
      exact absurd hdone (by decide)
  | group g n hg =>
    cases h with
    | waitForAll g => exact ⟨[.tryRun 0 .pop], rfl⟩
    | waitedForAll g hzero => exact absurd hzero (hcount _ hg)

omit [Fintype τ] in
/-- A call stays where it is, if it is not replaced when it is the innermost. -/
theorem Waiter.On.step (h : w.On c) (htop : c.frames t = f :: rest)
    (hframes : c'.frames = Function.update c.frames t (fs ++ rest))
    (hstays : w.frame = f → ∃ gs, fs = gs ++ [f]) : w.On c' := by
  by_cases ht : w.thread = t
  · subst ht
    rw [Waiter.On, htop] at h
    rw [Waiter.On, hframes, Function.update_self]
    rcases List.suffix_cons_iff.mp h with heq | hrest
    · obtain ⟨hf, hbelow⟩ := List.cons.inj heq
      obtain ⟨gs, hgs⟩ := hstays hf
      rw [hgs, hf, hbelow, List.append_assoc]
      exact List.suffix_append _ _
    · exact hrest.trans (List.suffix_append _ _)
  · rw [Waiter.On, hframes, Function.update_of_ne ht]
    exact h

omit [Fintype τ] [DecidableEq τ] in
theorem Awaits.append (h : Awaits es f n) (evs : List Event) : Awaits (es ++ evs) f n := by
  cases h with
  | job n => exact .job n
  | group g n hg => exact .group g n (List.mem_append_left _ hg)

theorem Knot.step (h : Knot c es ws) (hinv : Inv capacity bases c es stage group)
    (hrunning : Running c) (hcounted : Counted c es)
    (hstep : CallStacks.step index c l = some (c', evs)) : Knot c' (es ++ evs) ws := by
  refine ⟨fun w hw => ?_, fun w hw => ?_⟩
  swap
  · obtain ⟨n, hawaits, hbody⟩ := h.tied w hw
    exact ⟨n, hawaits.append evs, hbody⟩
  have hon := h.on w hw
  obtain ⟨n, hawaits, v, hv, d, hbody⟩ := h.tied w hw
  cases stepped_of_step hstep with
  | call t call hat =>
    change w.frame :: w.below <:+ Function.update c.frames t (call.enter.1 :: c.frames t) w.thread
    by_cases ht : w.thread = t
    · subst ht
      rw [Function.update_self]
      exact hon.trans (List.suffix_cons _ _)
    · rwa [Function.update_of_ne ht]
  | @choose t entry f rest fs c₁ evs htop hchoice =>
    refine hon.step htop rfl fun hf => ?_
    cases hchoice <;> rw [hf] at hawaits <;> cases hawaits
  | @move t f rest fs c₁ evs htop hmove =>
    refine hon.step htop rfl fun hf => ?_
    rw [hf] at hawaits
    have hmem : .tryRun d (.body n) ∈ c.frames v.thread :=
      (h.on v hv).subset (List.mem_cons_of_mem _ hbody)
    obtain ⟨hstage, -, -⟩ := hinv.running_of_mem hmem
    refine hmove.waits hawaits (hrunning _ _ _ hmem) fun g hg hzero => ?_
    have hcard := hcounted.counter g
    rw [hzero] at hcard
    exact absurd (Finset.card_pos.mpr ⟨n, hinv.outstanding_of_running hstage hg⟩)
      (by rw [← hcard]; decide)

end Steps

section Runs
variable [Fintype τ] [DecidableEq τ] {capacity self : ℕ} {bases : List ℕ} {m₀ : Memory}
variable {c : Config τ} {es : List Event} {ls pre : List (Label τ)} (index : τ → ℕ)

variable {index} in
theorem counted_of_exec (hplace : JobPool.Placement capacity bases) (hself : self < 2 ^ 64)
    (hne : self ≠ nullptr)
    (husage : Usage index bases.length (boot τ self capacity bases m₀) ls) (hfits : Fits ls)
    (hdelivers : DeliversReady index (boot τ self capacity bases m₀) ls)
    (hbound : ∀ pre, pre <+: ls → ∀ c es,
      (step index).exec (boot τ self capacity bases m₀) pre = some (c, es) →
        ∀ g, (outstanding es g).card < 2 ^ 32)
    (hpre : pre <+: ls)
    (h : (step index).exec (boot τ self capacity bases m₀) pre = some (c, es)) :
    (∃ stage group, Inv capacity bases c es stage group) ∧ Running c ∧ Counted c es := by
  have hinv : ∀ pre, pre <+: ls → ∀ c es,
      (step index).exec (boot τ self capacity bases m₀) pre = some (c, es) →
        ∃ stage group, Inv capacity bases c es stage group := by
    intro pre hpre c es h
    exact exists_inv_of_exec hplace hself hne husage hfits hdelivers hpre h
  refine ⟨hinv pre hpre c es h, ?_⟩
  refine Stepper.exec_induction (I := fun _ c es => Running c ∧ Counted c es) ?_ ?_ hpre h
  · exact ⟨fun t d n hmem => absurd hmem List.not_mem_nil,
      fun _ => rfl, fun _ _ _ _ => List.not_mem_nil⟩
  · rintro pre l c es c' evs hl hexec ⟨hrunning, hcounted⟩ hstep
    have hnext := Stepper.exec_concat.mpr ⟨c, es, evs, hexec, hstep, rfl⟩
    obtain ⟨stage, group, hold⟩ := hinv pre ((List.prefix_append pre [l]).trans hl) c es hexec
    obtain ⟨stage', group', hnew⟩ := hinv _ hl c' _ hnext
    exact ⟨hrunning.step hold hnew hplace husage.index_lt hstep,
      hcounted.step hold hstep (hbound _ hl _ _ hnext)⟩

variable {index} in
theorem knot_of_post (hplace : JobPool.Placement capacity bases) (hself : self < 2 ^ 64)
    (hne : self ≠ nullptr)
    (husage : Usage index bases.length (boot τ self capacity bases m₀) ls) (hfits : Fits ls)
    (hdelivers : DeliversReady index (boot τ self capacity bases m₀) ls)
    (hbound : ∀ pre, pre <+: ls → ∀ c es,
      (step index).exec (boot τ self capacity bases m₀) pre = some (c, es) →
        ∀ g, (outstanding es g).card < 2 ^ 32)
    {post : List (Label τ)} (hpre : pre ++ post <+: ls)
    (h : (step index).exec (boot τ self capacity bases m₀) pre = some (c, es))
    {ws : Set (Waiter τ)} (hknot : Knot c es ws) {c' : Config τ} {es' : List Event}
    (h' : (step index).exec c post = some (c', es')) :
    Knot c' (es ++ es') ws := by
  refine Stepper.exec_induction (I := fun _ e evs => Knot e (es ++ evs) ws) ?_ ?_
    List.prefix_rfl h'
  · rwa [List.append_nil]
  · intro q l e evs e' evs' hl hexec hI hstep
    have hq : pre ++ q <+: ls :=
      ((List.prefix_append_right_inj pre).mpr ((List.prefix_append q [l]).trans hl)).trans hpre
    have hthere : (step index).exec (boot τ self capacity bases m₀) (pre ++ q) =
        some (e, es ++ evs) := by
      rw [Stepper.exec_append, h, Option.bind_some, hexec]
      rfl
    obtain ⟨⟨stage, group, hinv⟩, hrunning, hcounted⟩ :=
      counted_of_exec hplace hself hne husage hfits hdelivers hbound hq hthere
    rw [← List.append_assoc]
    exact hI.step hinv hrunning hcounted hstep

/-- Once the waits of a set are knotted none of them returns, whatever the threads do, and
no job whose function is below one of them is ever done. -/
theorem knot_of_exec (capacity : ℕ) (bases : List ℕ) (hplace : JobPool.Placement capacity bases)
    (self : ℕ) (hself : self < 2 ^ 64) (hne : self ≠ nullptr) (m₀ : Memory) (ls : List (Label τ))
    (husage : Usage index bases.length (boot τ self capacity bases m₀) ls) (hfits : Fits ls)
    (hdelivers : DeliversReady index (boot τ self capacity bases m₀) ls)
    (hbound : ∀ pre, pre <+: ls → ∀ c es,
      (step index).exec (boot τ self capacity bases m₀) pre = some (c, es) →
        ∀ g, (outstanding es g).card < 2 ^ 32)
    (pre post : List (Label τ)) (hpre : pre ++ post <+: ls) (c : Config τ) (es : List Event)
    (h : (step index).exec (boot τ self capacity bases m₀) pre = some (c, es))
    (ws : Set (Waiter τ)) (hknot : Knot c es ws) (c' : Config τ) (es' : List Event)
    (h' : (step index).exec c post = some (c', es')) :
    Knot c' (es ++ es') ws ∧
      ∀ w ∈ ws, ∀ d n, .tryRun d (.body n) ∈ w.below → .executed n ∉ es ++ es' := by
  have hend := knot_of_post hplace hself hne husage hfits hdelivers hbound hpre h hknot h'
  refine ⟨hend, fun w hw d n hbody => ?_⟩
  have hthere : (step index).exec (boot τ self capacity bases m₀) (pre ++ post) =
      some (c', es ++ es') := by
    rw [Stepper.exec_append, h, Option.bind_some, h']
    rfl
  obtain ⟨⟨stage, group, hinv⟩, -, -⟩ :=
    counted_of_exec hplace hself hne husage hfits hdelivers hbound hpre hthere
  have hmem := (hend.on w hw).subset (List.mem_cons_of_mem _ hbody)
  exact hinv.not_executed (hinv.running_of_mem hmem).1

end Runs

section Small

/-- The thread waits for job 0, which it runs meanwhile; the job waits for job 1, and that
waits for job 0. -/
abbrev circular : List (Label Unit) :=
  [.call () (.make callable), .go (), .call () (.make callable), .go ()] ++ running 0 ++ running 1 ++
    [.call () (.wait 0), .go (), .take () (some 0), .go (), .call () (.wait 1), .go (),
      .take () (some 1), .go (), .call () (.wait 0)]

/-- One more turn of the innermost wait. -/
abbrev turn : List (Label Unit) := [.go (), .take () none, .take () none]

/-- The waits of the two jobs. -/
abbrev inner : Waiter Unit :=
  ⟨(), .wait 0, [.tryRun 0 (.body 1), .wait 1, .tryRun 0 (.body 0), .wait 0]⟩

abbrev outer : Waiter Unit := ⟨(), .wait 1, [.tryRun 0 (.body 0), .wait 0]⟩

theorem knot_circular {c : Config Unit} (es : List Event)
    (h : c.frames () = inner.frame :: inner.below) : Knot c es {inner, outer} := by
  constructor
  case on =>
    rintro w (rfl | rfl)
    · rw [Waiter.On, h]
    · rw [Waiter.On, h]
      exact ⟨[.wait 0, .tryRun 0 (.body 1)], rfl⟩
  case tied =>
    rintro w (rfl | rfl)
    · exact ⟨0, .job 0, inner, Or.inl rfl, 0, by simp⟩
    · exact ⟨1, .job 1, inner, Or.inl rfl, 0, by simp⟩

theorem circular_frames : ((step fun _ => 0).exec (boot Unit 16 2 [1024] fun _ => 0) circular).map
    (fun r => r.1.frames ()) = some (inner.frame :: inner.below) := by decide +kernel

theorem circular_events :
    ((step fun _ => 0).exec (boot Unit 16 2 [1024] fun _ => 0) (circular ++ turn)).map (fun r => r.2) =
      some [.made 0, .made 1, .ran 0, .scheduled 0, .ran 1, .scheduled 1, .returned 0] := by
  decide +kernel

theorem circular_usage :
    Usage (fun _ => 0) 1 (boot Unit 16 2 [1024] fun _ => 0) (circular ++ turn) :=
  .of_check (fun _ => by decide) (by decide +kernel)

theorem circular_delivers :
    Delivers (fun _ => 0) (boot Unit 16 2 [1024] fun _ => 0) (circular ++ turn) :=
  .of_check (by decide +kernel)

theorem circular_bound (pre : List (Label Unit)) (hpre : pre <+: circular ++ turn)
    (c : Config Unit) (es : List Event)
    (h : (step fun _ => 0).exec (boot Unit 16 2 [1024] fun _ => 0) pre = some (c, es)) (g : ℕ) :
    (outstanding es g).card < 2 ^ 32 := by
  obtain ⟨⟨d, fs⟩, hall, hfs⟩ := Option.map_eq_some_iff.mp circular_events
  have hfs : fs = _ := hfs
  have hfew : fs.length < 2 ^ 32 := by
    rw [hfs]
    decide
  exact (bounded_of_exec _ hall hfew hpre h).1 g

theorem circular_turn : ∃ c es c' es',
    (step fun _ => 0).exec (boot Unit 16 2 [1024] fun _ => 0) circular = some (c, es) ∧
      c.frames () = inner.frame :: inner.below ∧ (step fun _ => 0).exec c turn = some (c', es') := by
  obtain ⟨⟨c, es⟩, hrun, hc⟩ := Option.map_eq_some_iff.mp circular_frames
  obtain ⟨⟨d, fs⟩, hall, -⟩ := Option.map_eq_some_iff.mp circular_events
  rw [Stepper.exec_append, hrun, Option.bind_some] at hall
  obtain ⟨⟨c', es'⟩, hturn, -⟩ := Option.map_eq_some_iff.mp hall
  exact ⟨c, es, c', es', hrun, hc, hturn⟩

/-- After a turn the innermost wait is where it was, and neither job has been done. -/
theorem knot_of_exec_circular :
    ∃ c es c' es', (step fun _ => 0).exec (boot Unit 16 2 [1024] fun _ => 0) circular = some (c, es) ∧
      (step fun _ => 0).exec c turn = some (c', es') ∧ Knot c' (es ++ es') {inner, outer} ∧
      .executed 0 ∉ es ++ es' ∧ .executed 1 ∉ es ++ es' := by
  obtain ⟨c, es, c', es', hrun, hframes, hturn⟩ := circular_turn
  have hplace : JobPool.Placement 2 [1024] := ⟨by decide, by decide, by decide, by decide⟩
  obtain ⟨hknot, hnever⟩ := knot_of_exec (fun _ => 0) 2 [1024] hplace 16 (by decide) (by decide)
    (fun _ => 0) (circular ++ turn) circular_usage (by decide) circular_delivers.ready circular_bound circular
    turn List.prefix_rfl c es hrun {inner, outer} (knot_circular es hframes) c' es' hturn
  exact ⟨c, es, c', es', hrun, hturn, hknot, hnever inner (Or.inl rfl) 0 0 (by simp),
    hnever inner (Or.inl rfl) 0 1 (by simp)⟩

end Small

end Jobrocket.CallStacks
