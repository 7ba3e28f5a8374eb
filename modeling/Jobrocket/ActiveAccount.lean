import Jobrocket.CallStacks

/-! # The account of `active_jobs_`

Every entry is counted when it is scheduled, and `try_run_job` counts it no more when it
has run its job. An entry that was not ready when it was taken is dropped and stays
counted for ever. So the counter is the number of entries whose calls have not finished,
and of all entries dropped by calls that have.
-/
namespace Jobrocket.CallStacks
open Library
open scoped BigOperators

/-- What the events add up to. -/
def total (w : Event → ℕ) (es : List Event) : ℕ := (es.map w).sum

namespace Event

def schedules : Event → ℕ
  | .scheduled _ => 1
  | _ => 0

def leaves : Event → ℕ
  | .left _ => 1
  | _ => 0

def drops : Event → ℕ
  | .returned dropped => dropped
  | _ => 0

end Event

/-- One from the choice of a job to the decrement of the counter. -/
def RunPC.running : RunPC → ℕ
  | .pop | .steal | .clampActive => 0
  | _ => 1

/-- The number of entries that the call has taken. -/
def Frame.took : Frame → ℕ
  | .tryRun dropped pc => dropped + pc.running
  | _ => 0

/-- One while `schedule_job` has counted its entry and not pushed it. -/
def Frame.pushing : Frame → ℕ
  | .push _ => 1
  | _ => 0

variable {τ : Type*} [Fintype τ]

def frameTotal (w : Frame → ℕ) (c : Config τ) : ℕ := ∑ t, ((c.frames t).map w).sum

/-- `active_jobs_` is the number of entries that were counted and whose taking call has not
finished: those of calls of `schedule_job`, those in the deques and those taken. -/
def Accounted (c : Config τ) : Prop :=
  c.activeJobs.toNat =
    frameTotal Frame.pushing c + c.entries.length + frameTotal Frame.took c

/-- The deques at their contract: a pop or a steal gives an entry that was pushed and has
not been taken. -/
def Delivers [DecidableEq τ] (index : τ → ℕ) (c₀ : Config τ) (ls : List (Label τ)) : Prop :=
  ∀ pre t n, pre ++ [.take t (some n)] <+: ls →
    ∀ c es, (step index).exec c₀ pre = some (c, es) → n ∈ c.entries

/-- The test of `Delivers` at one label; the execution before it is evaluated at a take only. -/
def takesQueued : Label τ → Option (Config τ × List Event) → Bool
  | .take _ (some n), some (c, _) => decide (n ∈ c.entries)
  | _, _ => true

omit [Fintype τ] in
theorem Delivers.of_check [DecidableEq τ] {index : τ → ℕ} {c₀ : Config τ} {ls : List (Label τ)}
    (h : ∀ k (hk : k < ls.length), takesQueued ls[k] ((step index).exec c₀ (ls.take k)) = true) :
    Delivers index c₀ ls :=
  fun _ _ _ hl _ _ hexec => of_decide_eq_true (Stepper.holds_of_check h hl hexec)

/-- Every entry that was scheduled has been counted no more, has been dropped, or is still in
a call or in the deques. -/
def Balanced (c : Config τ) (es : List Event) : Prop :=
  total Event.schedules es = total Event.leaves es + total Event.drops es +
    (frameTotal Frame.pushing c + c.entries.length + frameTotal Frame.took c)

/-- The entries of the run, and the counter. -/
structure Account (c : Config τ) (es : List Event) : Prop where
  entries : Balanced c es
  active : c.activeJobs.toNat + total Event.leaves es = total Event.schedules es
  unclamped : ∀ t d, .tryRun d .clampActive ∉ c.frames t

@[simp] theorem total_nil (w : Event → ℕ) : total w [] = 0 := rfl

@[simp] theorem total_append (w : Event → ℕ) (es fs : List Event) :
    total w (es ++ fs) = total w es + total w fs := by
  simp [total]

@[simp] theorem total_cons (w : Event → ℕ) (e : Event) (es : List Event) :
    total w (e :: es) = w e + total w es := by
  simp [total]

section Frames
variable [DecidableEq τ] {c c' : Config τ} {t : τ} {f : Frame} {fs rest : List Frame}

theorem frameTotal_top (w : Frame → ℕ) (htop : c.frames t = f :: rest)
    (hframes : c'.frames = Function.update c.frames t (fs ++ rest)) :
    frameTotal w c' + w f = frameTotal w c + (fs.map w).sum := by
  have hsum := sum_update_add (fun l : List Frame => (l.map w).sum) c.frames t (fs ++ rest)
  rw [← hframes, htop] at hsum
  simp only [List.map_append, List.sum_append, List.map_cons, List.sum_cons] at hsum
  unfold frameTotal
  omega

theorem frameTotal_push (w : Frame → ℕ)
    (hframes : c'.frames = Function.update c.frames t (f :: c.frames t)) :
    frameTotal w c' = frameTotal w c + w f := by
  have hsum := sum_update_add (fun l : List Frame => (l.map w).sum) c.frames t (f :: c.frames t)
  rw [← hframes] at hsum
  simp only [List.map_cons, List.sum_cons] at hsum
  unfold frameTotal
  omega

omit [DecidableEq τ] in
theorem le_frameTotal (w : Frame → ℕ) (h : f ∈ c.frames t) : w f ≤ frameTotal w c :=
  (List.single_le_sum (fun _ _ => Nat.zero_le _) _ (List.mem_map_of_mem h)).trans
    (Finset.single_le_sum (f := fun t => ((c.frames t).map w).sum) (fun _ _ => Nat.zero_le _)
      (Finset.mem_univ t))

end Frames

section Moves
variable {c c₁ : Config τ} {i : ℕ} {f : Frame} {fs : List Frame} {es : List Event}

omit [Fintype τ]

@[simp] theorem running_groupExit (c : Config τ) (n : ℕ) : (c.groupExit n).running = 1 := by
  unfold Config.groupExit
  dsimp only
  split <;> rfl

theorem running_ite (p : Prop) [Decidable p] (g n : ℕ) :
    (if p then RunPC.clampGroup g n else .release n).running = 1 := by
  split <;> rfl

theorem Move.entries (h : Move i c f c₁ fs es) :
    total Event.schedules es + (f.pushing + c.entries.length + f.took) =
      total Event.leaves es + total Event.drops es +
        ((fs.map Frame.pushing).sum + c₁.entries.length + (fs.map Frame.took).sum) := by
  cases h with
  | release d n =>
    obtain ⟨pool, heq⟩ := releaseJob_eq c n
    simp [heq, Frame.pushing, Frame.took, RunPC.running]
  | decrementGroup d g n =>
    have hself : (RunPC.decrementGroup g n).running = 1 := rfl
    simp [Event.schedules, Event.leaves, Event.drops, Frame.pushing, Frame.took, running_ite, hself]
  | leaveGroup d n =>
    have hself : (RunPC.leaveGroup n).running = 1 := rfl
    simp [Frame.pushing, Frame.took, hself]
  | _ =>
    simp [Event.schedules, Event.leaves, Event.drops, Frame.pushing, Frame.took, RunPC.running]
    try omega

theorem Choice.entries {entry : Option ℕ} (h : Choice c entry f c₁ fs es)
    (hmem : ∀ n, entry = some n → n ∈ c.entries) :
    total Event.schedules es + (f.pushing + c.entries.length + f.took) =
      total Event.leaves es + total Event.drops es +
        ((fs.map Frame.pushing).sum + c₁.entries.length + (fs.map Frame.took).sum) := by
  have herase : ∀ n, entry = some n → (c.entries.erase n).length + 1 = c.entries.length := by
    intro n hn
    have hpos := List.length_pos_of_mem (hmem n hn)
    rw [List.length_erase_of_mem (hmem n hn)]
    omega
  cases h with
  | ready d n pc hpc h =>
    have := herase n rfl
    rcases hpc with rfl | rfl <;> simp [Frame.pushing, Frame.took, RunPC.running] <;> omega
  | popDrop d n h =>
    have := herase n rfl
    simp [Frame.pushing, Frame.took, RunPC.running]
    omega
  | stealDrop d n h =>
    have := herase n rfl
    simp [Event.schedules, Event.leaves, Event.drops, Frame.pushing, Frame.took, RunPC.running]
    omega
  | popNothing d => simp [Frame.pushing, Frame.took, RunPC.running]
  | stealNothing d =>
    simp [Event.schedules, Event.leaves, Event.drops, Frame.pushing, Frame.took, RunPC.running]
    omega

theorem sub_one_toNat {x : UInt32} (h : x ≠ 0) : (x - 1).toNat + 1 = x.toNat := by
  have hpos : x.toNat ≠ 0 := fun h0 => h (UInt32.toNat_inj.mp h0)
  have hlt := x.toNat_lt
  rw [UInt32.toNat_sub, UInt32.toNat_one]
  omega

theorem Move.active (h : Move i c f c₁ fs es)
    (hroom : c.activeJobs.toNat + total Event.schedules es < total Event.leaves es + 2 ^ 32)
    (htook : f.took ≤ c.activeJobs.toNat) (hunclamped : ∀ d, f ≠ .tryRun d .clampActive) :
    c₁.activeJobs.toNat + total Event.leaves es = c.activeJobs.toNat + total Event.schedules es ∧
      ∀ d, .tryRun d .clampActive ∉ fs := by
  cases h with
  | schedule n => exact ⟨AtomicCounter.increment_toNat ((Nat.zero_add (2 ^ 32)) ▸ hroom), by simp⟩
  | leaveActive d n h => exact ⟨sub_one_toNat h, by simp⟩
  | wrapActive d n h =>
    rw [h] at htook
    simp [Frame.took, RunPC.running] at htook
  | clampActive d => exact absurd rfl (hunclamped d)
  | release d n =>
    obtain ⟨pool, heq⟩ := releaseJob_eq c n
    rw [heq]
    exact ⟨rfl, by simp⟩
  | leaveGroup d n =>
    refine ⟨rfl, fun k hk => ?_⟩
    have hexit : RunPC.running .clampActive = 1 := by
      rw [← running_groupExit c n]
      simp only [List.mem_singleton, Frame.tryRun.injEq] at hk
      rw [hk.2]
    cases hexit
  | decrementGroup d g n =>
    refine ⟨rfl, fun k hk => ?_⟩
    simp only [List.mem_singleton, Frame.tryRun.injEq] at hk
    have hexit := running_ite (AtomicCounter.clamps (c.counters g - 1) = true) g n
    rw [← hk.2] at hexit
    cases hexit
  | _ => exact ⟨rfl, by simp⟩

theorem Choice.active {entry : Option ℕ} (h : Choice c entry f c₁ fs es) :
    c₁.activeJobs = c.activeJobs ∧ total Event.leaves es = 0 ∧ total Event.schedules es = 0 ∧
      ∀ d, .tryRun d .clampActive ∉ fs := by
  cases h <;> simp [Event.leaves, Event.schedules]

end Moves

section Steps
variable [DecidableEq τ] {index : τ → ℕ} {c c' : Config τ} {l : Label τ} {es evs : List Event}

omit [DecidableEq τ] in
theorem account_start (pool : JobPool) (m : Memory) : Account (start τ pool m) [] where
  entries := by simp [Balanced, frameTotal, start]
  active := rfl
  unclamped := by simp [start]

theorem enter_weights (call : Call) :
    total Event.schedules call.enter.2 = 0 ∧ total Event.leaves call.enter.2 = 0 ∧
      total Event.drops call.enter.2 = 0 ∧ call.enter.1.pushing = 0 ∧ call.enter.1.took = 0 ∧
      ∀ d, .tryRun d .clampActive ≠ call.enter.1 := by
  cases call <;> simp [Call.enter, Event.schedules, Event.leaves, Event.drops, Frame.pushing,
    Frame.took, RunPC.running]

omit [Fintype τ] in
theorem not_mem_update {t u : τ} {f : Frame} {fs rest : List Frame} (hold : ∀ u, f ∉ c.frames u)
    (hrest : ∀ g ∈ rest, g ∈ c.frames t) (hfs : f ∉ fs) :
    f ∉ Function.update c.frames t (fs ++ rest) u := by
  by_cases hut : u = t
  · subst hut
    rw [Function.update_self, List.mem_append]
    exact not_or.mpr ⟨hfs, fun hmem => hold u (hrest _ hmem)⟩
  · rw [Function.update_of_ne hut]
    exact hold u

/-- The innermost call of a thread takes a step that its own weights and events balance. -/
theorem Balanced.top {t : τ} {f : Frame} {rest fs : List Frame} {c₁ : Config τ}
    (h : Balanced c es) (htop : c.frames t = f :: rest)
    (hentries : total Event.schedules evs + (f.pushing + c.entries.length + f.took) =
      total Event.leaves evs + total Event.drops evs +
        ((fs.map Frame.pushing).sum + c₁.entries.length + (fs.map Frame.took).sum)) :
    Balanced { c₁ with frames := Function.update c.frames t (fs ++ rest) } (es ++ evs) := by
  set c' : Config τ := { c₁ with frames := Function.update c.frames t (fs ++ rest) } with hc'
  have hpushing : frameTotal Frame.pushing c' + f.pushing =
      frameTotal Frame.pushing c + (fs.map Frame.pushing).sum := frameTotal_top _ htop rfl
  have htook : frameTotal Frame.took c' + f.took =
      frameTotal Frame.took c + (fs.map Frame.took).sum := frameTotal_top _ htop rfl
  have hsame : c'.entries = c₁.entries := rfl
  unfold Balanced at h ⊢
  rw [total_append, total_append, total_append, hsame]
  omega

/-- No step loses an entry, whatever the counter is. -/
theorem Balanced.step (h : Balanced c es) (hstep : CallStacks.step index c l = some (c', evs))
    (hdelivers : ∀ t n, l = .take t (some n) → n ∈ c.entries) : Balanced c' (es ++ evs) := by
  cases stepped_of_step hstep with
  | call t call hat =>
    obtain ⟨hs, hl, hd, hpush, htook, -⟩ := enter_weights call
    unfold Balanced
    rw [total_append, total_append, total_append, hs, hl, hd, frameTotal_push Frame.pushing rfl,
      frameTotal_push Frame.took rfl, hpush, htook]
    exact h
  | move t htop hmove => exact h.top htop hmove.entries
  | choose t entry htop hchoice =>
    exact h.top htop (hchoice.entries fun n hn => hdelivers t n (by rw [hn]))

omit [DecidableEq τ] in
theorem Account.took_le (h : Account c es) {t : τ} {f : Frame} (hf : f ∈ c.frames t) :
    f.took ≤ c.activeJobs.toNat := by
  have hle := le_frameTotal Frame.took hf
  have hentries : total Event.schedules es = _ := h.entries
  have hactive := h.active
  omega

theorem Account.counter (h : Account c es) (hstep : CallStacks.step index c l = some (c', evs))
    (hroom : total Event.schedules (es ++ evs) < total Event.leaves (es ++ evs) + 2 ^ 32) :
    c'.activeJobs.toNat + total Event.leaves evs =
        c.activeJobs.toNat + total Event.schedules evs ∧
      ∀ t d, .tryRun d .clampActive ∉ c'.frames t := by
  have hactive := h.active
  rw [total_append, total_append] at hroom
  cases stepped_of_step hstep with
  | call t call hat =>
    obtain ⟨hs, hl, -, -, -, hclamp⟩ := enter_weights call
    refine ⟨by rw [hs, hl], fun u d => ?_⟩
    have htop : .tryRun d .clampActive ∉ [call.enter.1] := by simpa using hclamp d
    exact not_mem_update (fun u => h.unclamped u d) (fun _ hg => hg) htop
  | @move t f rest fs c₁ es htop hmove =>
    have hmem : f ∈ c.frames t := htop ▸ List.mem_cons_self
    obtain ⟨hcounter, hclamp⟩ := hmove.active (by omega) (h.took_le hmem)
      fun d hf => h.unclamped t d (hf ▸ hmem)
    exact ⟨hcounter, fun u d => not_mem_update (fun u => h.unclamped u d)
      (fun g hg => htop ▸ List.mem_cons_of_mem f hg) (hclamp d)⟩
  | @choose t entry f rest fs c₁ es htop hchoice =>
    obtain ⟨hcounter, hl, hs, hclamp⟩ := hchoice.active
    refine ⟨?_, fun u d => not_mem_update (fun u => h.unclamped u d)
      (fun g hg => htop ▸ List.mem_cons_of_mem f hg) (hclamp d)⟩
    rw [← hcounter, hl, hs]

theorem Account.step (h : Account c es) (hstep : CallStacks.step index c l = some (c', evs))
    (hdelivers : ∀ t n, l = .take t (some n) → n ∈ c.entries)
    (hroom : total Event.schedules (es ++ evs) < total Event.leaves (es ++ evs) + 2 ^ 32) :
    Account c' (es ++ evs) := by
  have hactive := h.active
  obtain ⟨hcounter, hclamp⟩ := h.counter hstep hroom
  refine ⟨h.entries.step hstep hdelivers, ?_, hclamp⟩
  rw [total_append, total_append]
  omega

omit [DecidableEq τ] in
/-- The counter is exact as long as nothing has been dropped. -/
theorem Account.exact_iff (h : Account c es) : Accounted c ↔ total Event.drops es = 0 := by
  have hentries : total Event.schedules es = _ := h.entries
  have hactive := h.active
  unfold Accounted
  omega

omit [Fintype τ] in
theorem schedules_or_drops (hstep : CallStacks.step index c l = some (c', evs)) :
    total Event.schedules evs = 0 ∨ total Event.drops evs = 0 := by
  cases stepped_of_step hstep with
  | call t call hat => exact .inl (enter_weights call).1
  | move t htop hmove => cases hmove <;> simp [Event.schedules, Event.drops]
  | choose t entry htop hchoice => exact .inl hchoice.active.2.2.1

theorem Account.room (h : Account c es) (hstep : CallStacks.step index c l = some (c', evs))
    (hdelivers : ∀ t n, l = .take t (some n) → n ∈ c.entries) (hbefore : Accounted c)
    (hafter : Accounted c') :
    total Event.schedules (es ++ evs) < total Event.leaves (es ++ evs) + 2 ^ 32 := by
  have hactive := h.active
  have hlt := c.activeJobs.toNat_lt
  rcases schedules_or_drops hstep with hs | hd
  · rw [total_append, total_append, hs]
    omega
  · have hentries : total Event.schedules (es ++ evs) = _ := h.entries.step hstep hdelivers
    have hlt' := c'.activeJobs.toNat_lt
    rw [hafter] at hlt'
    rw [total_append Event.drops, h.exact_iff.mp hbefore, hd] at hentries
    omega

end Steps

section Runs
variable [DecidableEq τ] (index : τ → ℕ) (pool : JobPool) (m : Memory) (ls : List (Label τ))

theorem account_of_exec (hdelivers : Delivers index (start τ pool m) ls)
    (hroom : ∀ pre, pre <+: ls → ∀ c es, (step index).exec (start τ pool m) pre = some (c, es) →
      total Event.schedules es < total Event.leaves es + 2 ^ 32)
    {pre : List (Label τ)} (hpre : pre <+: ls) {c : Config τ} {es : List Event}
    (h : (step index).exec (start τ pool m) pre = some (c, es)) : Account c es := by
  refine Stepper.exec_induction (I := fun _ c es => Account c es) (account_start pool m) ?_ hpre h
  intro pre l c es c' evs hl hexec hI hstep
  have hnext := Stepper.exec_concat.mpr ⟨c, es, evs, hexec, hstep, rfl⟩
  exact hI.step hstep (fun t n hlabel => hdelivers pre t n (hlabel ▸ hl) c es hexec)
    (hroom _ hl _ _ hnext)

omit [DecidableEq τ] in
theorem total_drops_eq_zero (es : List Event) :
    total Event.drops es = 0 ↔ ∀ d, .returned d ∈ es → d = 0 := by
  rw [total, List.sum_eq_zero_iff]
  simp only [List.mem_map, forall_exists_index, and_imp, forall_apply_eq_imp_iff₂]
  constructor
  · exact fun h d hd => h _ hd
  · intro h e he
    cases e with
    | returned d => exact h d he
    | _ => rfl

/-- The counter of active jobs is the number of entries that have been counted and whose call
has not finished in every state of a run, exactly if no call that has finished took an entry
that was not ready, and the entries that are counted always fit into the counter. -/
theorem accounted_iff (hdelivers : Delivers index (start τ pool m) ls) (final : Config τ)
    (events : List Event) (hrun : (step index).exec (start τ pool m) ls = some (final, events)) :
    (∀ pre, pre <+: ls → ∀ c es, (step index).exec (start τ pool m) pre = some (c, es) →
        Accounted c) ↔
      (∀ d, .returned d ∈ events → d = 0) ∧
        ∀ pre, pre <+: ls → ∀ c es, (step index).exec (start τ pool m) pre = some (c, es) →
          total Event.schedules es < total Event.leaves es + 2 ^ 32 := by
  rw [← total_drops_eq_zero]
  constructor
  · intro hexact
    have hroom : ∀ pre, pre <+: ls → ∀ c es, (step index).exec (start τ pool m) pre = some (c, es) →
        Account c es ∧ total Event.schedules es < total Event.leaves es + 2 ^ 32 := by
      intro pre hpre c es h
      refine Stepper.exec_induction (I := fun _ c es => Account c es ∧
        total Event.schedules es < total Event.leaves es + 2 ^ 32) ?_ ?_ hpre h
      · exact ⟨account_start pool m, by simp⟩
      · rintro pre l c es c' evs hl hexec ⟨haccount, -⟩ hstep
        have hnext := Stepper.exec_concat.mpr ⟨c, es, evs, hexec, hstep, rfl⟩
        have hgiven : ∀ t n, l = .take t (some n) → n ∈ c.entries :=
          fun t n hlabel => hdelivers pre t n (hlabel ▸ hl) c es hexec
        have hfits := haccount.room hstep hgiven
          (hexact pre ((List.prefix_append pre [l]).trans hl) c es hexec) (hexact _ hl c' _ hnext)
        exact ⟨haccount.step hstep hgiven hfits, hfits⟩
    have hlast := hroom ls List.prefix_rfl final events hrun
    exact ⟨hlast.1.exact_iff.mp (hexact ls List.prefix_rfl final events hrun),
      fun pre hpre c es h => (hroom pre hpre c es h).2⟩
  · rintro ⟨hdrops, hroom⟩ pre hpre c es h
    obtain ⟨rest, rfl⟩ := Stepper.exec_events_initial hrun hpre h
    rw [total_append] at hdrops
    exact (account_of_exec index pool m ls hdelivers hroom hpre h).exact_iff.mpr (by omega)

omit [DecidableEq τ] in
/-- An exact counter is zero when the deques are empty and no call is in progress that
counts an entry or has taken one. -/
theorem Accounted.eq_zero {c : Config τ} (h : Accounted c) (hentries : c.entries = [])
    (hidle : ∀ t, ∀ f ∈ c.frames t, f.pushing = 0 ∧ f.took = 0) : c.activeJobs = 0 := by
  have hzero : ∀ w : Frame → ℕ, (∀ t, ∀ f ∈ c.frames t, w f = 0) → frameTotal w c = 0 := by
    intro w hw
    refine Finset.sum_eq_zero fun t _ => List.sum_eq_zero fun x hx => ?_
    obtain ⟨f, hf, rfl⟩ := List.mem_map.mp hx
    exact hw t f hf
  rw [Accounted, hentries, hzero _ fun t f hf => (hidle t f hf).1,
    hzero _ fun t f hf => (hidle t f hf).2] at h
  exact UInt32.toNat_inj.mp h

end Runs

section Small

/-- A job is made and run once. -/
abbrev once : List (Label Unit) := [.call () (.make callable), .go ()] ++ running 0 ++ taking 0

/-- The job is run once more after it has completed. -/
abbrev again : List (Label Unit) :=
  once ++ running 0 ++ [.call () .tryRun, .take () (some 0), .take () none]

theorem accounted_iff_once :
    ∃ final events, (step fun _ => 0).exec single once = some (final, events) ∧
      .returned 0 ∈ events ∧
      ((∀ pre, pre <+: once → ∀ c es, (step fun _ => 0).exec single pre = some (c, es) →
          Accounted c) ↔
        (∀ d, .returned d ∈ events → d = 0) ∧
          ∀ pre, pre <+: once → ∀ c es, (step fun _ => 0).exec single pre = some (c, es) →
            total Event.schedules es < total Event.leaves es + 2 ^ 32) := by
  have hevents : ((step fun _ => 0).exec single once).map Prod.snd = some [.made 0, .ran 0,
      .scheduled 0, .executed 0, .left 0, .returned 0] := by decide +kernel
  have hdelivers : Delivers (fun _ => 0) single once := .of_check (by decide +kernel)
  obtain ⟨⟨c, es⟩, hrun, hes⟩ := Option.map_eq_some_iff.mp hevents
  have hes : es = _ := hes
  exact ⟨c, es, hrun, by rw [hes]; decide, accounted_iff (fun _ => 0) _ _ once hdelivers c es hrun⟩

/-- The job that is run again is dropped, and the counter stays at one for ever. -/
theorem run_again_not_accounted :
    ∃ c es, (step fun _ => 0).exec single again = some (c, es) ∧ c.entries = [] ∧
      c.frames () = [] ∧ c.activeJobs = 1 ∧ ¬ Accounted c := by
  have hend : ((step fun _ => 0).exec single again).map (fun r =>
      (r.1.entries, (r.1.frames ()).isEmpty, r.1.activeJobs)) = some ([], true, 1) := by
    decide +kernel
  obtain ⟨⟨c, es⟩, h, hc⟩ := Option.map_eq_some_iff.mp hend
  simp only [Prod.mk.injEq, List.isEmpty_iff] at hc
  obtain ⟨hentries, hframes, hactive⟩ := hc
  refine ⟨c, es, h, hentries, hframes, hactive, fun haccounted => ?_⟩
  have hzero := haccounted.eq_zero hentries fun t f hf => by
    rw [hframes] at hf
    exact absurd hf List.not_mem_nil
  rw [hactive] at hzero
  exact absurd hzero (by decide)

end Small

end Jobrocket.CallStacks
