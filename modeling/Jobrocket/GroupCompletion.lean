import Jobrocket.JobStageSteps

/-! # Groups of jobs

A group counts a job before it makes it, and the worker that ran the job counts it no more
before it gives the block back. Between the two the job is outstanding, and the counter is
the number of these jobs. So a wait that reads zero returns when all of them have run. This
rests on callables that fit: one that does not can name another group in the next block.
-/
namespace Jobrocket.CallStacks
open Library Memory

/-- The job, if the event counts one in group `g`. -/
def Event.countedIn (g : ℕ) : Event → Option ℕ
  | .counted n a => if a = g then some n else none
  | _ => none

/-- The jobs that the group has counted and that have not been counted out again. -/
def outstanding (es : List Event) (g : ℕ) : Finset ℕ :=
  {n ∈ (es.filterMap (Event.countedIn g)).toFinset | .uncounted n g ∉ es}

/-- When a wait for a group returns, all jobs that were counted before have been executed. -/
def Complete (es : List Event) : Prop :=
  ∀ before g after, es = before ++ .waitedForAll g :: after →
    ∀ n, .counted n g ∈ before → .executed n ∈ before

variable {τ : Type*}

/-- Every counter is the number of the outstanding jobs of its group. -/
structure Counted (c : Config τ) (es : List Event) : Prop where
  counter : ∀ g, (c.counters g).toNat = (outstanding es g).card
  unclamped : ∀ t d g n, .tryRun d (.clampGroup g n) ∉ c.frames t

section Outstanding
variable {es evs : List Event} {n g a : ℕ}

@[simp] theorem mem_outstanding :
    n ∈ outstanding es g ↔ .counted n g ∈ es ∧ .uncounted n g ∉ es := by
  rw [outstanding, Finset.mem_filter, List.mem_toFinset, List.mem_filterMap]
  refine and_congr_left fun _ => ?_
  constructor
  · rintro ⟨e, he, hn⟩
    cases e with
    | counted k a =>
      simp only [Event.countedIn, Option.ite_none_right_eq_some, Option.some.injEq] at hn
      obtain ⟨rfl, rfl⟩ := hn
      exact he
    | _ => cases hn
  · exact fun h => ⟨_, h, if_pos rfl⟩

theorem card_outstanding_le (es : List Event) (g : ℕ) : (outstanding es g).card ≤ es.length :=
  (Finset.card_filter_le _ _).trans
    ((List.toFinset_card_le _).trans (List.length_filterMap_le _ _))

theorem outstanding_append (hcounted : ∀ n, .counted n g ∉ evs) (huncounted : ∀ n, .uncounted n g ∉ evs) :
    outstanding (es ++ evs) g = outstanding es g := by
  ext n
  simp [hcounted n, huncounted n]

theorem outstanding_counted (h : .uncounted n g ∉ es) :
    outstanding (es ++ [.counted n g]) g = insert n (outstanding es g) := by
  ext k
  simp only [mem_outstanding, List.mem_append, List.mem_singleton, Event.counted.injEq, and_true,
    reduceCtorEq, or_false, Finset.mem_insert]
  by_cases hk : k = n
  · subst hk
    simp [h]
  · simp [hk]

theorem outstanding_uncounted :
    outstanding (es ++ [.uncounted n g]) g = (outstanding es g).erase n := by
  ext k
  simp only [mem_outstanding, List.mem_append, List.mem_singleton, Event.uncounted.injEq, and_true,
    reduceCtorEq, or_false, Finset.mem_erase, not_or]
  tauto

theorem Complete.append (h : Complete es)
    (hevs : ∀ g, .waitedForAll g ∈ evs →
      evs = [.waitedForAll g] ∧ ∀ n, .counted n g ∈ es → .executed n ∈ es) :
    Complete (es ++ evs) := by
  intro before g after heq
  rcases List.append_eq_append_iff.mp heq with ⟨between, rfl, hlast⟩ | ⟨between, rfl, hrest⟩
  · obtain ⟨hsingle, hall⟩ := hevs g (by simp [hlast])
    rw [hsingle] at hlast
    have hnil : between = [] := by
      cases between with
      | nil => rfl
      | cons e between => simp at hlast
    rwa [hnil, List.append_nil]
  · cases between with
    | nil =>
      rw [List.append_nil] at hevs
      exact (hevs g (by rw [← List.nil_append evs, ← hrest]; simp)).2
    | cons e between =>
      obtain ⟨rfl, -⟩ := List.cons.inj hrest
      exact h before g between rfl

end Outstanding

/-- What a step does to the counters: a job is counted or counted out, the zero is stored,
or they stay. -/
theorem Move.counters {c c₁ : Config τ} {i : ℕ} {f : Frame} {fs : List Frame} {evs : List Event}
    (h : Move i c f c₁ fs evs) :
    (∃ g : Group, evs = [.counted c.next g.address] ∧ c₁.counters = Function.update c.counters
        g.address (AtomicCounter.increment (c.counters g.address)) ∧
        ∀ d a n, .tryRun d (.clampGroup a n) ∉ fs) ∨
      (∃ d g n, f = .tryRun d (.decrementGroup g n) ∧ evs = [.uncounted n g] ∧
        c₁.counters = Function.update c.counters g (c.counters g - 1) ∧
        fs = [.tryRun d (if AtomicCounter.clamps (c.counters g - 1) then .clampGroup g n
          else .release n)]) ∨
      (∃ d g n, f = .tryRun d (.clampGroup g n)) ∨
      c₁.counters = c.counters ∧ (∀ n g, .counted n g ∉ evs ∧ .uncounted n g ∉ evs) ∧
        ∀ d a n, .tryRun d (.clampGroup a n) ∉ fs := by
  cases h with
  | groupIncrement g function => exact Or.inl ⟨g, rfl, rfl, by simp⟩
  | decrementGroup d g n => exact Or.inr (Or.inl ⟨d, g, n, rfl, rfl, rfl, rfl⟩)
  | clampGroup d g n => exact Or.inr (Or.inr (Or.inl ⟨d, g, n, rfl⟩))
  | release d n =>
    obtain ⟨pool, heq⟩ := releaseJob_eq c n
    rw [heq]
    exact Or.inr (Or.inr (Or.inr ⟨rfl, by simp, by simp⟩))
  | leaveGroup d n =>
    refine Or.inr (Or.inr (Or.inr ⟨rfl, by simp, fun k a b hk => ?_⟩))
    simp only [List.mem_singleton, Frame.tryRun.injEq, Config.groupExit] at hk
    split at hk <;> simp at hk
  | _ => exact Or.inr (Or.inr (Or.inr ⟨rfl, by simp, by simp⟩))

theorem Move.zero_of_waitedForAll {c c₁ : Config τ} {i a : ℕ} {f : Frame} {fs : List Frame}
    {evs : List Event} (h : Move i c f c₁ fs evs) (hg : .waitedForAll a ∈ evs) :
    evs = [.waitedForAll a] ∧ c.counters a = 0 := by
  cases h with
  | waitedForAll g hzero =>
    obtain rfl : a = g.address := by simpa using hg
    exact ⟨rfl, hzero⟩
  | _ => simp at hg

section Counters
variable [Fintype τ] [DecidableEq τ] {capacity : ℕ} {bases : List ℕ} {index : τ → ℕ}
variable {c c₁ c' : Config τ} {l : Label τ} {es evs : List Event} {stage : ℕ → Stage}
variable {group : ℕ → Option ℕ} {i n g : ℕ} {t : τ} {f : Frame} {fs rest : List Frame}

omit [DecidableEq τ] in
theorem Inv.executed_of_uncounted (h : Inv capacity bases c es stage group)
    (hn : .uncounted n g ∈ es) : .executed n ∈ es := by
  have hmem : .uncounted n g ∈ naming n es := (mem_naming rfl).mpr hn
  rw [h.history n] at hmem
  have hexecuted := Stage.executed_of_uncounted hmem
  rw [← h.history n] at hexecuted
  exact (mem_naming rfl).mp hexecuted

omit [DecidableEq τ] in
theorem Inv.outstanding_of_leaving (h : Inv capacity bases c es stage group)
    (hn : stage n = .leaving g) : n ∈ outstanding es g := by
  have hgroup := h.fits n
  have hhistory := h.history n
  rw [hn] at hgroup hhistory
  have hgroup : group n = some g := hgroup
  rw [hgroup] at hhistory
  have htrace : naming n es = [.counted n g, .executed n] := hhistory
  have hcounted : .counted n g ∈ naming n es := by simp [htrace]
  have huncounted : .uncounted n g ∉ naming n es := by simp [htrace]
  exact mem_outstanding.mpr
    ⟨(mem_naming rfl).mp hcounted, fun hmem => huncounted ((mem_naming rfl).mpr hmem)⟩

omit [DecidableEq τ] in
theorem Inv.unnamed (h : Inv capacity bases c es stage group) {e : Event}
    (he : e.job = some c.next) : e ∉ es := by
  have hhistory := h.history c.next
  rw [h.unborn c.next le_rfl] at hhistory
  intro hmem
  have hnone := (mem_naming he).mpr hmem
  rw [hhistory] at hnone
  exact List.not_mem_nil hnone

theorem Counted.move (h : Counted c es) (hinv : Inv capacity bases c es stage group)
    (htop : c.frames t = f :: rest) (hmove : Move i c f c₁ fs evs)
    (hbound : ∀ g, (outstanding (es ++ evs) g).card < 2 ^ 32) :
    Counted (c₁.withTop c t fs rest) (es ++ evs) := by
  have hframes : (∀ d a n, .tryRun d (.clampGroup a n) ∉ fs) →
      ∀ u d a n, .tryRun d (.clampGroup a n) ∉ (c₁.withTop c t fs rest).frames u :=
    fun hfs u d a n => not_mem_update (fun u => h.unclamped u d a n)
      (fun x hx => htop ▸ List.mem_cons_of_mem f hx) (hfs d a n)
  rcases hmove.counters with ⟨g, rfl, hcounters, hfs⟩ | ⟨d, g, n, rfl, rfl, hcounters, rfl⟩ |
    ⟨d, g, n, rfl⟩ | ⟨hcounters, hnone, hfs⟩
  · refine ⟨fun a => ?_, hframes hfs⟩
    have hold := h.counter a
    have hroom := hbound a
    change (c₁.counters a).toNat = _
    rw [hcounters]
    by_cases ha : a = g.address
    · subst ha
      rw [outstanding_counted (hinv.unnamed rfl), Finset.card_insert_of_notMem
        (fun hmem => hinv.unnamed rfl (mem_outstanding.mp hmem).1)] at hroom ⊢
      rw [Function.update_self, AtomicCounter.increment_toNat (by omega), hold]
    · rw [Function.update_of_ne ha, outstanding_append (by simp [ha]) (by simp)]
      exact hold
  · have hmem := hinv.outstanding_of_leaving (hinv.stage_eq htop rfl)
    have hpos : c.counters g ≠ 0 := by
      intro hzero
      have hcard := h.counter g
      rw [hzero] at hcard
      exact absurd (Finset.card_pos.mpr ⟨n, hmem⟩) (by rw [← hcard]; decide)
    constructor
    · intro a
      have hold := h.counter a
      change (c₁.counters a).toNat = _
      rw [hcounters]
      by_cases ha : a = g
      · subst ha
        have hsub := sub_one_toNat hpos
        rw [Function.update_self, outstanding_uncounted, Finset.card_erase_of_mem hmem]
        omega
      · rw [Function.update_of_ne ha, outstanding_append (by simp) (by simp [ha])]
        exact hold
    · refine hframes fun k a b hk => ?_
      rw [if_neg (mt AtomicCounter.clamps_iff.mp hpos)] at hk
      simp at hk
  · exact absurd (htop ▸ List.mem_cons_self) (h.unclamped t d g n)
  · refine ⟨fun a => ?_, hframes hfs⟩
    rw [outstanding_append (fun n => (hnone n a).1) fun n => (hnone n a).2]
    change (c₁.counters a).toNat = _
    rw [hcounters]
    exact h.counter a

omit [Fintype τ] [DecidableEq τ] in
/-- A step that leaves the counters, and whose events are of no group. -/
theorem Counted.same (h : Counted c es) (hcounters : c'.counters = c.counters)
    (hevs : ∀ n g, .counted n g ∉ evs ∧ .uncounted n g ∉ evs)
    (hframes : ∀ t d g n, .tryRun d (.clampGroup g n) ∉ c'.frames t) : Counted c' (es ++ evs) where
  counter g := by
    rw [hcounters, outstanding_append (fun n => (hevs n g).1) fun n => (hevs n g).2]
    exact h.counter g
  unclamped := hframes

theorem Counted.step (h : Counted c es) (hinv : Inv capacity bases c es stage group)
    (hstep : CallStacks.step index c l = some (c', evs))
    (hbound : ∀ g, (outstanding (es ++ evs) g).card < 2 ^ 32) : Counted c' (es ++ evs) := by
  cases stepped_of_step hstep with
  | call t call hat =>
    refine h.same rfl (by cases call <;> simp [Call.enter]) fun u d g n => ?_
    have htop : .tryRun d (.clampGroup g n) ∉ [call.enter.1] := by cases call <;> simp [Call.enter]
    exact not_mem_update (fun u => h.unclamped u d g n) (fun _ hx => hx) htop
  | @move t f rest fs c₁ evs htop hmove => exact h.move hinv htop hmove hbound
  | @choose t entry f rest fs c₁ evs htop hchoice =>
    have hsame : c₁.counters = c.counters ∧ (∀ n g, .counted n g ∉ evs ∧ .uncounted n g ∉ evs) ∧
        ∀ d g n, .tryRun d (.clampGroup g n) ∉ fs := by
      cases hchoice <;> simp
    exact h.same hsame.1 hsame.2.1 fun u d g n => not_mem_update (fun u => h.unclamped u d g n)
      (fun x hx => htop ▸ List.mem_cons_of_mem f hx) (hsame.2.2 d g n)

/-- A wait that returns has read zero, so no job of the group was outstanding. -/
theorem Complete.step (h : Complete es) (hcounted : Counted c es)
    (hinv : Inv capacity bases c es stage group)
    (hstep : CallStacks.step index c l = some (c', evs)) : Complete (es ++ evs) := by
  refine h.append fun g hg => ?_
  cases stepped_of_step hstep with
  | call t call hat => cases call <;> simp [Call.enter] at hg
  | choose t entry htop hchoice => cases hchoice <;> simp at hg
  | move t htop hmove =>
    obtain ⟨hevs, hzero⟩ := hmove.zero_of_waitedForAll hg
    refine ⟨hevs, fun n hn => ?_⟩
    have hcard := hcounted.counter g
    rw [hzero] at hcard
    have hempty : outstanding es g = ∅ := Finset.card_eq_zero.mp hcard.symm
    have hnone : n ∉ outstanding es g := by simp [hempty]
    exact hinv.executed_of_uncounted (by simpa [hn] using hnone)

end Counters

section Runs
variable [Fintype τ] [DecidableEq τ] (index : τ → ℕ)

/-- Fewer than `2 ^ 32` jobs are outstanding, of any group and of the scheduler. -/
def Bounded (es : List Event) : Prop :=
  (∀ g, (outstanding es g).card < 2 ^ 32) ∧
    total Event.schedules es < total Event.leaves es + 2 ^ 32

theorem total_schedules_le (es : List Event) : total Event.schedules es ≤ es.length := by
  induction es with
  | nil => exact le_rfl
  | cons e es ih =>
    have hone : e.schedules ≤ 1 := by cases e <;> simp [Event.schedules]
    rw [total_cons, List.length_cons]
    omega

theorem bounded_of_length_lt {es : List Event} (h : es.length < 2 ^ 32) : Bounded es :=
  ⟨fun g => (card_outstanding_le es g).trans_lt h, by have := total_schedules_le es; omega⟩

omit [Fintype τ] in
/-- A run with few events stays within the bound. -/
theorem bounded_of_exec {c₀ c d : Config τ} {ls pre : List (Label τ)} {es fs : List Event}
    (hrun : (step index).exec c₀ ls = some (c, es)) (hlength : es.length < 2 ^ 32)
    (hpre : pre <+: ls) (hexec : (step index).exec c₀ pre = some (d, fs)) : Bounded fs :=
  bounded_of_length_lt ((Stepper.exec_events_initial hrun hpre hexec).length_le.trans_lt hlength)

end Runs

section Small

/-- A group whose counter is at address 4096. -/
abbrev small : Group := ⟨4096, by decide, by decide⟩

/-- The thread runs a job in the group and waits for it. -/
abbrev runAndWait : List (Label Unit) :=
  [.call () (.groupRun small callable), .go (), .go (), .go (), .go (), .go (),
    .call () (.waitForAll small), .go (), .take () (some 0), .go (), .go (), .go (), .go (), .go (),
    .go (), .go ()]

theorem runAndWait_usage :
    Usage (fun _ => 0) 1 (boot Unit 16 1 [1024] fun _ => 0) runAndWait :=
  .of_check (fun _ => by decide) (by decide +kernel)

theorem runAndWait_delivers :
    Delivers (fun _ => 0) (boot Unit 16 1 [1024] fun _ => 0) runAndWait :=
  .of_check (by decide +kernel)

end Small

end Jobrocket.CallStacks
