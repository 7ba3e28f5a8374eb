import Jobrocket.JobMemory

/-! # What a job executes

The callable of a job lies in its block from the allocation on. Other threads allocate, run
and free jobs meanwhile, and the block itself was another job's before and will be again.
Until the job is freed its bytes are those it was made with, whoever has it.
-/
namespace Jobrocket.CallStacks
open Library Memory

variable {τ : Type*}

/-- The number of the job that a step begins to make, and its callable. -/
def begins (c : Config τ) : Label τ → Option (ℕ × List UInt8)
  | .go t =>
    match c.frames t with
    | .groupIncrement _ function :: _ => some (c.next, function)
    | .make function :: _ => some (c.next, function)
    | _ => none
  | _ => none

/-- The callable is in the block of the job, if the job has one. -/
def Stored (c : Config τ) (n : ℕ) (function : List UInt8) : Prop :=
  c.block n ≠ nullptr →
    c.memory.loadBytes (c.block n + 28) function.length = function

/-- A frame or a deque has the live job, or the program has its pointer and has not run it. -/
def Has [Fintype τ] (c : Config τ) (es : List Event) (n : ℕ) : Prop :=
  (∃ s : Stage, s.Live ∧ (n, s) ∈ held c) ∨ .made n ∈ es ∧ .ran n ∉ es

/-- A step of the run up to here began to make the job, with this callable. -/
def Begun [DecidableEq τ] (index : τ → ℕ) (c₀ : Config τ) (ls : List (Label τ)) (n : ℕ)
    (function : List UInt8) : Prop :=
  ∃ pre l c es, pre ++ [l] <+: ls ∧ (step index).exec c₀ pre = some (c, es) ∧
    begins c l = some (n, function)

/-- The callable is on its way to the block of the job, and in it as long as someone has
the job. -/
structure Carried [Fintype τ] (c : Config τ) (es : List Event) (n : ℕ) (function : List UInt8) :
    Prop where
  born : n < c.next
  fits : function.length ≤ Job.functionRoom
  making : ∀ t g other, .groupMake g n other ∈ c.frames t → other = function
  stored : Has c es n → Stored c n function

theorem Stored.of_same {c c' : Config τ} {n : ℕ} {function : List UInt8} (h : Stored c n function)
    (hfits : function.length ≤ Job.functionRoom) (hblock : c'.block n = c.block n) (hsame : c.block n ≠ nullptr →
      c.memory.Same c'.memory (c.block n + 28) (c.block n + Job.size)) : Stored c' n function := by
  intro hp
  rw [hblock] at hp ⊢
  rw [loadBytes_eq ((hsame hp).mono le_rfl ?_)]
  · exact h hp
  · unfold Job.functionRoom Job.size at *
    omega

theorem stored_of_alloc {pool pool' : JobPool} {m m' : Memory} {i p : ℕ} {function : List UInt8}
    {calls : List (ℕ × Option Error)}
    (h : pool.allocateJob m i function = (.ok p, pool', m', calls)) :
    m'.loadBytes (p + 28) function.length = function := by
  rw [JobPool.allocateJob_memory h]
  refine List.ext_getElem (by simp [loadBytes]) fun k _ hk => ?_
  simp only [loadBytes, List.getElem_map, List.getElem_range]
  exact JobPool.construct_function hk

section Steps
variable [Fintype τ] [DecidableEq τ] {capacity : ℕ} {bases : List ℕ} {index : τ → ℕ}
variable {c c₁ c' : Config τ} {es evs : List Event} {stage : ℕ → Stage} {i : ℕ}
variable {group : ℕ → Option ℕ} {n : ℕ} {l : Label τ} {function : List UInt8} {s : Stage}
variable {t : τ} {f : Frame} {fs rest : List Frame} {entry : Option ℕ}

omit [DecidableEq τ] in
/-- Who has a job that is live has it at its stage. -/
theorem Inv.live_of_has (h : Inv capacity bases c es stage group) (hn : Has c es n) :
    (stage n).Live := by
  rcases hn with ⟨s, hs, hmem⟩ | ⟨hmade, hran⟩
  · exact (h.roles.role_eq hmem).symm ▸ hs
  · have hmade' : .made n ∈ naming n es := (mem_naming rfl).mpr hmade
    have hran' : .ran n ∉ naming n es := mt (mem_naming rfl).mp hran
    rw [h.history n] at hmade' hran'
    rw [Stage.eq_made hmade' hran']
    trivial

omit [Fintype τ] [DecidableEq τ] in
theorem mem_jobs_single : (n, s) ∈ jobs [f] ↔ f.job = some (n, s) := by
  simp [eq_comm]

omit [Fintype τ] [DecidableEq τ] in
theorem mem_queued {ns : List ℕ} : (n, s) ∈ queued ns ↔ n ∈ ns ∧ s = .ready := by
  simp [queued, eq_comm]

omit [Fintype τ] [DecidableEq τ] in
theorem groupExit_job (c : Config τ) (d k : ℕ) :
    ∃ r, (Frame.tryRun d (c.groupExit k)).job = some (k, r) := by
  by_cases hg : Job.groupCounter c.memory (c.block k) = nullptr
  · exact ⟨.done, by simp [Config.groupExit, hg, Frame.job, RunPC.job]⟩
  · exact ⟨.leaving (Job.groupCounter c.memory (c.block k)),
      by simp [Config.groupExit, hg, Frame.job, RunPC.job]⟩

omit [Fintype τ] [DecidableEq τ] in
/-- A live job that a call goes on with is one it had, or has just got its block. -/
theorem Move.gives (h : Move i c f c₁ fs evs) (hs : s.Live) (hmem : (n, s) ∈ jobs fs) :
    (∃ r : Stage, r.Live ∧ f.job = some (n, r)) ∨ ∃ g function, f = .groupMake g n function := by
  cases h with
  | groupIncrement g function =>
    cases mem_jobs_single.mp hmem
    exact hs.elim
  | groupMake g k function halloc =>
    cases mem_jobs_single.mp hmem
    exact Or.inr ⟨g, function, rfl⟩
  | groupSet g k =>
    cases mem_jobs_single.mp hmem
    exact Or.inl ⟨.fresh g.address, trivial, rfl⟩
  | schedule k =>
    cases mem_jobs_single.mp hmem
    exact Or.inl ⟨.ready, trivial, rfl⟩
  | execute d k =>
    cases mem_jobs_single.mp hmem
    exact Or.inl ⟨.taken, trivial, rfl⟩
  | body d k =>
    cases mem_jobs_single.mp hmem
    exact Or.inl ⟨.running, trivial, rfl⟩
  | leaveGroup d k =>
    obtain ⟨r, hr⟩ := groupExit_job c d k
    cases hr.symm.trans (mem_jobs_single.mp hmem)
    exact Or.inl ⟨.executed, trivial, rfl⟩
  | decrementGroup d g k =>
    have hjob := mem_jobs_single.mp hmem
    split at hjob <;> cases hjob <;> exact Or.inl ⟨.leaving g, trivial, rfl⟩
  | clampGroup d g k =>
    cases mem_jobs_single.mp hmem
    exact Or.inl ⟨.done, trivial, rfl⟩
  | _ => simp [jobs_cons, Frame.job, RunPC.job] at hmem

omit [Fintype τ] [DecidableEq τ] in
theorem Move.entries_eq (h : Move i c f c₁ fs evs) :
    c₁.entries = c.entries ∨ ∃ k, f = .push k ∧ c₁.entries = k :: c.entries := by
  cases h with
  | push k => exact Or.inr ⟨k, rfl, rfl⟩
  | release d k =>
    obtain ⟨pool, heq⟩ := releaseJob_eq c k
    rw [heq]
    exact Or.inl rfl
  | _ => exact Or.inl rfl

omit [Fintype τ] [DecidableEq τ] in
theorem Choice.gives (h : Choice c entry f c₁ fs evs)
    (hentry : ∀ k, entry = some k → Job.isReady c.memory (c.block k) = true → k ∈ c.entries) :
    (∀ s, (n, s) ∈ jobs fs → n ∈ c.entries) ∧ ∀ k ∈ c₁.entries, k ∈ c.entries := by
  cases h with
  | ready d k pc hpc hready =>
    refine ⟨fun s hmem => ?_, fun x hx => List.mem_of_mem_erase hx⟩
    cases mem_jobs_single.mp hmem
    exact hentry n rfl hready
  | popDrop d k hready => exact ⟨by simp [Frame.job, RunPC.job], fun x hx => List.mem_of_mem_erase hx⟩
  | stealDrop d k hready => exact ⟨by simp, fun x hx => List.mem_of_mem_erase hx⟩
  | popNothing d => exact ⟨by simp [Frame.job, RunPC.job], fun x hx => hx⟩
  | stealNothing d => exact ⟨by simp, fun x hx => hx⟩

omit [Fintype τ] [DecidableEq τ] in
theorem Move.makes (h : Move i c f c₁ fs evs) (hmade : .made n ∈ evs) :
    (∃ function, f = .make function) ∧ n = c.next := by
  cases h with
  | made function halloc => exact ⟨⟨function, rfl⟩, by simpa using hmade⟩
  | refused function halloc => exact ⟨⟨function, rfl⟩, by simpa using hmade⟩
  | _ => simp at hmade

/-- What is held was, or goes on with the innermost call, or is in a deque. -/
theorem mem_held_top (htop : c.frames t = f :: rest)
    (hframes : c'.frames = Function.update c.frames t (fs ++ rest)) (hmem : (n, s) ∈ held c') :
    (n, s) ∈ held c ∨ (n, s) ∈ jobs fs ∨ n ∈ c'.entries ∧ s = .ready := by
  have hheld := held_top htop hframes
  have hsum : (n, s) ∈ held c' + (jobs [f] + queued c.entries) :=
    Multiset.mem_add.mpr (Or.inl hmem)
  rwa [hheld, Multiset.mem_add, Multiset.mem_add, mem_queued] at hsum

omit [DecidableEq τ] in
theorem has_of_frame (hf : f ∈ c.frames t) (hjob : f.job = some (n, s)) (hs : s.Live) :
    Has c es n := Or.inl ⟨s, hs, mem_held hf hjob⟩

omit [DecidableEq τ] in
theorem has_of_entries (hn : n ∈ c.entries) : Has c es n :=
  Or.inl ⟨.ready, trivial, mem_held_of_entries hn⟩

/-- Nobody gets a job but from who had it, or when it is made. -/
theorem Has.of_step (hn : Has c' (es ++ evs) n) (hstep : step index c l = some (c', evs))
    (hruns : ∀ t n, l = .call t (.run n) → .made n ∈ es ∧ .ran n ∉ es)
    (hdelivers : ∀ t n, l = .take t (some n) → Job.isReady c.memory (c.block n) = true →
      n ∈ c.entries) :
    Has c es n ∨ ∃ t f rest, l = .go t ∧ c.frames t = f :: rest ∧
      ((∃ g function, f = .groupMake g n function) ∨ (∃ function, f = .make function) ∧
        n = c.next) := by
  cases stepped_of_step hstep with
  | call t call hat =>
    left
    rcases hn with ⟨s, hs, hmem⟩ | ⟨hmade, hran⟩
    · have hpush : held { c with frames := Function.update c.frames t (call.enter.1 :: c.frames t) } =
          held c + jobs [call.enter.1] := held_push rfl rfl
      rw [hpush, Multiset.mem_add, mem_jobs_single] at hmem
      rcases hmem with hold | hnew
      · exact Or.inl ⟨s, hs, hold⟩
      · cases call with
        | run k =>
          cases hnew
          exact Or.inr (hruns t _ rfl)
        | _ => cases hnew
    · have hevs : .made n ∉ call.enter.2 := by cases call <;> simp [Call.enter]
      rw [List.mem_append, or_iff_left hevs] at hmade
      exact Or.inr ⟨hmade, fun hmem => hran (List.mem_append_left _ hmem)⟩
  | @move t f rest fs c₁ evs htop hmove =>
    have hf : f ∈ c.frames t := htop ▸ List.mem_cons_self
    rcases hn with ⟨s, hs, hmem⟩ | ⟨hmade, hran⟩
    · rcases mem_held_top htop rfl hmem with hold | hnew | ⟨hentry, -⟩
      · exact Or.inl (Or.inl ⟨s, hs, hold⟩)
      · rcases hmove.gives hs hnew with ⟨r, hr, hjob⟩ | hmake
        · exact Or.inl (has_of_frame hf hjob hr)
        · exact Or.inr ⟨t, f, rest, rfl, htop, Or.inl hmake⟩
      · left
        have hentry : n ∈ c₁.entries := hentry
        rcases hmove.entries_eq with heq | ⟨k, rfl, heq⟩
        · exact has_of_entries (heq ▸ hentry)
        · rw [heq] at hentry
          rcases List.mem_cons.mp hentry with rfl | hold
          · exact has_of_frame (s := .ready) hf rfl trivial
          · exact has_of_entries hold
    · rcases List.mem_append.mp hmade with hold | hnew
      · exact Or.inl (Or.inr ⟨hold, fun hmem => hran (List.mem_append_left _ hmem)⟩)
      · exact Or.inr ⟨t, f, rest, rfl, htop, Or.inr (hmove.makes hnew)⟩
  | @choose t entry f rest fs c₁ evs htop hchoice =>
    left
    obtain ⟨hfs, hentries⟩ := hchoice.gives (n := n) fun k hk => hdelivers t k (by rw [hk])
    rcases hn with ⟨s, hs, hmem⟩ | ⟨hmade, hran⟩
    · rcases mem_held_top htop rfl hmem with hold | hnew | ⟨hentry, -⟩
      · exact Or.inl ⟨s, hs, hold⟩
      · exact has_of_entries (hfs s hnew)
      · exact has_of_entries (hentries n hentry)
    · have hevs : .made n ∉ evs := by cases hchoice <;> simp
      rw [List.mem_append, or_iff_left hevs] at hmade
      exact Or.inr ⟨hmade, fun hmem => hran (List.mem_append_left _ hmem)⟩

omit [Fintype τ] [DecidableEq τ] in
theorem Move.making (h : Move i c f c₁ fs evs) {g : Group} {other : List UInt8}
    (hmem : .groupMake g n other ∈ fs) : n = c.next ∧ f = .groupIncrement g other := by
  cases h with
  | groupIncrement g' function =>
    cases List.mem_singleton.mp hmem
    exact ⟨rfl, rfl⟩
  | _ => simp at hmem

omit [Fintype τ] [DecidableEq τ] in
theorem Move.next_le (h : Move i c f c₁ fs evs) : c.next ≤ c₁.next := by
  cases h with
  | release d k =>
    obtain ⟨pool, heq⟩ := releaseJob_eq c k
    rw [heq]
  | groupIncrement g function => exact Nat.le_succ _
  | made function halloc => exact Nat.le_succ _
  | refused function halloc => exact Nat.le_succ _
  | _ => exact le_rfl

omit [Fintype τ] in
theorem making_of_step (hstep : step index c l = some (c', evs)) :
    c.next ≤ c'.next ∧ ∀ u g k other, .groupMake g k other ∈ c'.frames u →
      .groupMake g k other ∈ c.frames u ∨ k = c.next ∧ ∃ t rest, l = .go t ∧
        c.frames t = .groupIncrement g other :: rest := by
  cases stepped_of_step hstep with
  | call t call hat =>
    refine ⟨le_rfl, fun u g k other hmem => Or.inl ?_⟩
    have hnone : .groupMake g k other ∉ [call.enter.1] := by cases call <;> simp [Call.enter]
    exact (mem_frames (fun _ hx => hx) hmem).resolve_right fun hnew => hnone hnew.2
  | @move t f rest fs c₁ evs htop hmove =>
    refine ⟨hmove.next_le, fun u g k other hmem => ?_⟩
    rcases mem_frames (fun x hx => htop ▸ List.mem_cons_of_mem f hx) hmem with hmem | ⟨-, hmem⟩
    · exact Or.inl hmem
    · obtain ⟨hk, rfl⟩ := hmove.making hmem
      exact Or.inr ⟨hk, t, rest, rfl, htop⟩
  | @choose t entry f rest fs c₁ evs htop hchoice =>
    refine ⟨le_of_eq (by cases hchoice <;> rfl), fun u g k other hmem => Or.inl ?_⟩
    have hnone : .groupMake g k other ∉ fs := by cases hchoice <;> simp
    exact (mem_frames (fun x hx => htop ▸ List.mem_cons_of_mem f hx) hmem).resolve_right
      fun hnew => hnone hnew.2

omit [Fintype τ] in
theorem stored_of_groupMake {g : Group} (htop : c.frames t = .groupMake g n function :: rest)
    (hstep : step index c (.go t) = some (c', evs)) : Stored c' n function := by
  cases stepped_of_step hstep with
  | @move _ f rest' fs c₁ evs htop' hmove =>
    obtain ⟨rfl, rfl⟩ := List.cons.inj (htop.symm.trans htop')
    cases hmove with
    | groupMake g n function halloc =>
      intro _
      simpa using stored_of_alloc halloc

theorem Carried.step (h : Carried c es n function) (hinv : Inv capacity bases c es stage group)
    (hplace : JobPool.Placement capacity bases) (hindex : ∀ t, index t < bases.length)
    (hstep : CallStacks.step index c l = some (c', evs))
    (hruns : ∀ t n, l = .call t (.run n) → .made n ∈ es ∧ .ran n ∉ es)
    (hdelivers : ∀ t n, l = .take t (some n) → Job.isReady c.memory (c.block n) = true →
      n ∈ c.entries) : Carried c' (es ++ evs) n function := by
  obtain ⟨hnext, hmaking⟩ := making_of_step hstep
  have hborn := h.born
  constructor
  case born => exact hborn.trans_le hnext
  case fits => exact h.fits
  case making =>
    intro u g other hmem
    rcases hmaking u g n other hmem with hold | ⟨hn, -⟩
    · exact h.making u g other hold
    · exact absurd hn hborn.ne
  case stored =>
    intro hhas
    rcases hhas.of_step hstep hruns hdelivers with hold | ⟨t, f, rest, rfl, htop, hnew⟩
    · have hlive := hinv.live_of_has hold
      exact (h.stored hold).of_same h.fits (hinv.block_of_step hstep hborn hlive.ne_counted)
        (hinv.function_of_step hplace hindex hstep hlive)
    · rcases hnew with ⟨g, other, rfl⟩ | ⟨-, hn⟩
      · have hsame := h.making t g other (htop ▸ List.mem_cons_self)
        subst hsame
        exact stored_of_groupMake htop hstep
      · exact absurd hn hborn.ne

omit [Fintype τ] in
theorem stored_of_make (htop : c.frames t = .make function :: rest)
    (hstep : step index c (.go t) = some (c', evs)) : Stored c' c.next function := by
  cases stepped_of_step hstep with
  | @move _ f rest' fs c₁ evs htop' hmove =>
    obtain ⟨rfl, rfl⟩ := List.cons.inj (htop.symm.trans htop')
    cases hmove with
    | made function halloc =>
      intro _
      simpa using stored_of_alloc halloc
    | refused function halloc => exact fun hp => absurd (Function.update_self ..) hp

omit [Fintype τ] [DecidableEq τ] in
theorem begins_iff : begins c l = some (n, function) ↔
    n = c.next ∧ ∃ t rest, l = .go t ∧ ((∃ g, c.frames t = .groupIncrement g function :: rest) ∨
      c.frames t = .make function :: rest) := by
  constructor
  · intro h
    cases l with
    | go t =>
      simp only [begins] at h
      split at h
      · next g other rest htop =>
        cases h
        exact ⟨rfl, t, rest, rfl, Or.inl ⟨g, htop⟩⟩
      · next other rest htop =>
        cases h
        exact ⟨rfl, t, rest, rfl, Or.inr htop⟩
      · cases h
    | _ => cases h
  · rintro ⟨rfl, t, rest, rfl, ⟨g, htop⟩ | htop⟩ <;> simp [begins, htop]

theorem carried_of_begins (hinv : Inv capacity bases c es stage group)
    (hbegins : begins c l = some (n, function))
    (hstep : CallStacks.step index c l = some (c', evs))
    (hruns : ∀ t n, l = .call t (.run n) → .made n ∈ es ∧ .ran n ∉ es)
    (hdelivers : ∀ t n, l = .take t (some n) → Job.isReady c.memory (c.block n) = true →
      n ∈ c.entries) : Carried c' (es ++ evs) n function := by
  obtain ⟨rfl, t, rest, rfl, htop⟩ := begins_iff.mp hbegins
  have hunborn := hinv.unborn c.next le_rfl
  constructor
  case born =>
    cases stepped_of_step hstep with
    | @move _ f rest' fs c₁ evs htop' hmove =>
      rcases htop with ⟨g, htop⟩ | htop
      · obtain ⟨rfl, rfl⟩ := List.cons.inj (htop.symm.trans htop')
        cases hmove
        exact Nat.lt_succ_self _
      · obtain ⟨rfl, rfl⟩ := List.cons.inj (htop.symm.trans htop')
        cases hmove <;> exact Nat.lt_succ_self _
  case fits =>
    rcases htop with ⟨g, htop⟩ | htop <;>
      exact hinv.callables t _ (htop ▸ List.mem_cons_self)
  case making =>
    intro u g other hmem
    rcases (making_of_step hstep).2 u g _ other hmem with hold | ⟨-, t', rest', ht, htop'⟩
    · have hcounted := hinv.roles.role_eq (mem_held hold rfl)
      rw [hunborn] at hcounted
      cases hcounted
    · cases ht
      rcases htop with ⟨g', htop⟩ | htop <;> rw [htop] at htop' <;> cases htop'
      rfl
  case stored =>
    intro hhas
    rcases hhas.of_step hstep hruns hdelivers with hold | ⟨u, f, rest', hu, htop', hnew⟩
    · have hlive := hinv.live_of_has hold
      rw [hunborn] at hlive
      exact hlive.elim
    · cases hu
      rcases htop with ⟨g, htop⟩ | htop
      · rw [htop] at htop'
        obtain ⟨rfl, -⟩ := List.cons.inj htop'
        simp at hnew
      · exact stored_of_make htop hstep

omit [DecidableEq τ] in
/-- A job that is taken and not done with is one that somebody has, and it has a block. -/
theorem Inv.has_of_taken (h : Inv capacity bases c es stage group) {d : ℕ} {pc : RunPC}
    (hpc : pc = .execute n ∨ pc = .body n) (hframe : .tryRun d pc ∈ c.frames t) :
    Has c es n ∧ c.block n ≠ nullptr := by
  have hjob : ∃ s : Stage, s.Live ∧ (Frame.tryRun d pc).job = some (n, s) ∧
      ∀ p, s.Fields c.memory c.pool.self p (group n) → p ≠ nullptr := by
    rcases hpc with rfl | rfl
    · exact ⟨.taken, trivial, rfl, fun p hp => hp.1⟩
    · exact ⟨.running, trivial, rfl, fun p hp => hp.1⟩
  obtain ⟨s, hs, hjob, hnonnull⟩ := hjob
  have hstage : stage n = s := h.roles.role_eq (mem_held hframe hjob)
  exact ⟨has_of_frame hframe hjob hs, hnonnull _ (hstage ▸ h.store.fields n)⟩

end Steps

section Runs
variable [DecidableEq τ] {index : τ → ℕ} {c₀ c : Config τ} {ls : List (Label τ)} {l : Label τ}
variable {es : List Event} {n : ℕ} {function : List UInt8}

theorem Begun.mono {more : List (Label τ)} (h : Begun index c₀ ls n function) (hpre : ls <+: more) :
    Begun index c₀ more n function := by
  obtain ⟨pre, l, c, es, hl, hexec, hbegins⟩ := h
  exact ⟨pre, l, c, es, hl.trans hpre, hexec, hbegins⟩

theorem begun_concat (hexec : (step index).exec c₀ ls = some (c, es)) :
    Begun index c₀ (ls ++ [l]) n function ↔
      Begun index c₀ ls n function ∨ begins c l = some (n, function) := by
  constructor
  · rintro ⟨pre, x, d, fs, hx, hpre, hbegins⟩
    rcases List.prefix_concat_iff.mp hx with heq | hx
    · obtain ⟨rfl, hlast⟩ := List.append_inj' heq rfl
      obtain rfl : x = l := by simpa using hlast
      cases hexec.symm.trans hpre
      exact Or.inr hbegins
    · exact Or.inl ⟨pre, x, d, fs, hx, hpre, hbegins⟩
  · rintro (h | hbegins)
    · exact h.mono (List.prefix_append ls [l])
    · exact ⟨ls, l, c, es, List.prefix_rfl, hexec, hbegins⟩

theorem begins_of_next {c' : Config τ} {evs : List Event} (hstep : step index c l = some (c', evs))
    (hn : c.next ≤ n) (hlt : n < c'.next) : ∃ function, begins c l = some (n, function) := by
  cases stepped_of_step hstep with
  | call t call hat => exact absurd hlt (not_lt.mpr hn)
  | @choose t entry f rest fs c₁ evs htop hchoice =>
    cases hchoice <;> exact absurd hlt (not_lt.mpr hn)
  | @move t f rest fs c₁ evs htop hmove =>
    have hlt : n < c₁.next := hlt
    cases hmove with
    | groupIncrement g function =>
      exact ⟨function, begins_iff.mpr ⟨by dsimp only at hlt; omega, t, rest, rfl, Or.inl ⟨g, htop⟩⟩⟩
    | made function halloc =>
      exact ⟨function, begins_iff.mpr ⟨by dsimp only at hlt; omega, t, rest, rfl, Or.inr htop⟩⟩
    | refused function halloc =>
      exact ⟨function, begins_iff.mpr ⟨by dsimp only at hlt; omega, t, rest, rfl, Or.inr htop⟩⟩
    | release d k =>
      obtain ⟨pool, heq⟩ := releaseJob_eq c k
      rw [heq] at hlt
      exact absurd hlt (not_lt.mpr hn)
    | _ => exact absurd hlt (not_lt.mpr hn)

variable [Fintype τ] {capacity self : ℕ} {bases : List ℕ} {m₀ : Memory}

theorem carried_of_exec (hplace : JobPool.Placement capacity bases) (hself : self < 2 ^ 64)
    (hne : self ≠ nullptr)
    (husage : Usage index bases.length (boot τ self capacity bases m₀) ls) (hfits : Fits ls)
    (hdelivers : DeliversReady index (boot τ self capacity bases m₀) ls)
    {pre : List (Label τ)} (hpre : pre <+: ls)
    (h : (step index).exec (boot τ self capacity bases m₀) pre = some (c, es)) :
    (∀ n < c.next, ∃ function, Begun index (boot τ self capacity bases m₀) pre n function) ∧
      ∀ n function, Begun index (boot τ self capacity bases m₀) pre n function →
        Carried c es n function := by
  refine Stepper.exec_induction (I := fun pre c es =>
    (∀ n < c.next, ∃ function, Begun index (boot τ self capacity bases m₀) pre n function) ∧
      ∀ n function, Begun index (boot τ self capacity bases m₀) pre n function →
        Carried c es n function) ?_ ?_ hpre h
  · refine ⟨fun n hn => absurd hn (Nat.not_lt_zero n), ?_⟩
    rintro n function ⟨pre, l, c, es, hl, -⟩
    exact absurd (List.prefix_nil.mp hl) (by simp)
  · rintro pre l c es c' evs hl hexec ⟨hall, hcarried⟩ hstep
    obtain ⟨stage, group, hinv⟩ := exists_inv_of_exec hplace hself hne husage hfits
      hdelivers ((List.prefix_append pre [l]).trans hl) hexec
    have hruns : ∀ t n, l = .call t (.run n) → .made n ∈ es ∧ .ran n ∉ es :=
      fun t n hlabel => husage.runs pre t n (hlabel ▸ hl) c es hexec
    have hgiven : ∀ t n, l = .take t (some n) → Job.isReady c.memory (c.block n) = true →
        n ∈ c.entries := fun t n hlabel => hdelivers pre t n (hlabel ▸ hl) c es hexec
    constructor
    · intro n hn
      by_cases hold : n < c.next
      · obtain ⟨function, hbegun⟩ := hall n hold
        exact ⟨function, (begun_concat hexec).mpr (Or.inl hbegun)⟩
      · obtain ⟨function, hbegins⟩ := begins_of_next hstep (not_lt.mp hold) hn
        exact ⟨function, (begun_concat hexec).mpr (Or.inr hbegins)⟩
    · intro n function hbegun
      rcases (begun_concat hexec).mp hbegun with hold | hbegins
      · exact (hcarried n function hold).step hinv hplace husage.index_lt hstep hruns hgiven
      · exact carried_of_begins hinv hbegins hstep hruns hgiven

variable (index)

end Runs

section Small

abbrev other : List UInt8 := [2, 3]

def taken : List Frame → Option (ℕ × ℕ)
  | .tryRun d (.execute n) :: _ => some (d, n)
  | _ => none

end Small

end Jobrocket.CallStacks
