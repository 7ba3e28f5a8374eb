import Jobrocket.JobStages
import Jobrocket.Library.Roles

/-! # Who has a job

Every job that is in flight is held by one frame or one entry of a deque, and the place
where it is held says its stage. The invariant ties the stages to the holders, to the
events that have named the jobs, and to the blocks.
-/
namespace Jobrocket.CallStacks
open Library Memory
open scoped BigOperators

/-- The job that a call of `try_run_job` has taken and not done with, and its stage there. -/
def RunPC.job : RunPC → Option (ℕ × Stage)
  | .execute n => some (n, .taken)
  | .body n => some (n, .running)
  | .leaveGroup n => some (n, .executed)
  | .decrementGroup g n => some (n, .leaving g)
  | .clampGroup _ n | .release n => some (n, .done)
  | .pop | .steal | .leaveActive _ | .clampActive => none

def Frame.job : Frame → Option (ℕ × Stage)
  | .groupMake g n _ => some (n, .counted g.address)
  | .groupSet g n => some (n, .fresh g.address)
  | .schedule n | .push n => some (n, .ready)
  | .tryRun _ pc => pc.job
  | _ => none

def jobs (fs : List Frame) : Multiset (ℕ × Stage) := ↑(fs.filterMap Frame.job)

/-- The callable of a call that makes a job has room behind the job's fields. -/
def Frame.Fits : Frame → Prop
  | .groupIncrement _ function | .groupMake _ _ function | .make function =>
    function.length ≤ Job.functionRoom
  | _ => True

instance : DecidablePred Frame.Fits
  | .groupIncrement _ function | .groupMake _ _ function | .make function =>
    inferInstanceAs (Decidable (function.length ≤ Job.functionRoom))
  | .groupSet _ _ | .waitForAll _ | .schedule _ | .push _ | .wait _ | .tryRun _ _ => .isTrue trivial

def queued (ns : List ℕ) : Multiset (ℕ × Stage) := ↑(ns.map fun n => (n, Stage.ready))

variable {τ : Type*} [Fintype τ]

/-- The jobs in flight, each with its stage. -/
def held (c : Config τ) : Multiset (ℕ × Stage) := ∑ t, jobs (c.frames t) + queued c.entries

/-- The job that an event names. -/
def Event.job : Event → Option ℕ
  | .counted n _ | .uncounted n _ | .made n | .ran n | .executed n => some n
  | _ => none

def naming (n : ℕ) (es : List Event) : List Event := es.filter fun e => e.job = some n

/-- The stages agree with the holders, with the events, and with the blocks, and every job that
is being made will fit into its block. -/
structure Inv (capacity : ℕ) (bases : List ℕ) (c : Config τ) (es : List Event)
    (stage : ℕ → Stage) (group : ℕ → Option ℕ) : Prop where
  roles : Roles Stage.InFlight (held c) stage
  unborn : ∀ n, c.next ≤ n → stage n = .unborn
  fits : ∀ n, (stage n).Fits (group n)
  groups : ∀ n g, group n = some g → g ≠ nullptr
  history : ∀ n, naming n es = (stage n).trace n (group n)
  store : Store capacity bases c.memory c.pool c.block stage group
  callables : ∀ t, ∀ f ∈ c.frames t, f.Fits

@[simp] theorem jobs_nil : jobs [] = 0 := rfl

@[simp] theorem jobs_cons (f : Frame) (fs : List Frame) :
    jobs (f :: fs) = ↑f.job.toList + jobs fs := by
  unfold jobs
  cases h : f.job with
  | none => simp [h]
  | some a => simp [h, Multiset.singleton_add]

@[simp] theorem jobs_append (fs gs : List Frame) : jobs (fs ++ gs) = jobs fs + jobs gs := by
  simp [jobs]

@[simp] theorem naming_append (n : ℕ) (es evs : List Event) :
    naming n (es ++ evs) = naming n es ++ naming n evs := List.filter_append ..

theorem mem_naming {n : ℕ} {es : List Event} {e : Event} (h : e.job = some n) :
    e ∈ naming n es ↔ e ∈ es := by
  simp [naming, h]

theorem naming_single {n : ℕ} {e : Event} (h : e.job = some n) : naming n [e] = [e] := by
  simp [naming, h]

theorem naming_single_ne {n k : ℕ} {e : Event} (h : e.job = some n) (hk : k ≠ n) :
    naming k [e] = [] := by
  simp [naming, h, hk.symm]

section Holders
variable [DecidableEq τ] {c c' c₁ : Config τ} {t : τ} {f : Frame} {fs rest : List Frame}

/-- What is held beside the entries, when the frames of one thread change at their top. -/
theorem held_top (htop : c.frames t = f :: rest)
    (hframes : c'.frames = Function.update c.frames t (fs ++ rest)) :
    held c' + (jobs [f] + queued c.entries) = held c + (jobs fs + queued c'.entries) := by
  have hsum := sum_update_add jobs c.frames t (fs ++ rest)
  rw [← hframes, htop, jobs_append, jobs_cons] at hsum
  have hcancel : (∑ u, jobs (c'.frames u)) + jobs [f] = (∑ u, jobs (c.frames u)) + jobs fs := by
    rw [jobs_cons, jobs_nil, add_zero]
    rw [← add_assoc, ← add_assoc] at hsum
    exact add_right_cancel hsum
  unfold held
  rw [add_add_add_comm, hcancel]
  abel

theorem held_push (hframes : c'.frames = Function.update c.frames t (f :: c.frames t))
    (hentries : c'.entries = c.entries) : held c' = held c + jobs [f] := by
  have hsum := sum_update_add jobs c.frames t (f :: c.frames t)
  rw [← hframes, jobs_cons, ← add_assoc] at hsum
  have hcancel := add_right_cancel hsum
  unfold held
  rw [hcancel, hentries, jobs_cons, jobs_nil, add_zero]
  abel

omit [DecidableEq τ] in
theorem mem_held {n : ℕ} {s : Stage} (hf : f ∈ c.frames t) (hjob : f.job = some (n, s)) :
    (n, s) ∈ held c := by
  have hmem : (n, s) ∈ jobs (c.frames t) := List.mem_filterMap.mpr ⟨f, hf, hjob⟩
  have hle : jobs (c.frames t) ≤ ∑ u, jobs (c.frames u) :=
    Finset.single_le_sum (f := fun u => jobs (c.frames u)) (fun _ _ => zero_le) (Finset.mem_univ t)
  exact Multiset.mem_add.mpr (Or.inl (Multiset.mem_of_le hle hmem))

omit [DecidableEq τ] in
theorem mem_held_of_entries {n : ℕ} (hn : n ∈ c.entries) : (n, .ready) ∈ held c :=
  Multiset.mem_add.mpr (Or.inr (List.mem_map.mpr ⟨n, hn, rfl⟩))

theorem held_change (htop : c.frames t = f :: rest)
    (hframes : c'.frames = Function.update c.frames t (fs ++ rest))
    (hentries : c'.entries = c.entries) : held c' + jobs [f] = held c + jobs fs := by
  have hheld := held_top htop hframes
  rw [hentries, ← add_assoc, ← add_assoc] at hheld
  exact add_right_cancel hheld

theorem queued_cons (n : ℕ) (ns : List ℕ) : queued (n :: ns) = {(n, .ready)} + queued ns := rfl

theorem queued_erase {n : ℕ} {ns : List ℕ} (h : n ∈ ns) :
    queued ns = {(n, .ready)} + queued (ns.erase n) := by
  rw [← queued_cons]
  exact Multiset.coe_eq_coe.mpr ((List.perm_cons_erase h).map _)

theorem held_take {n : ℕ} (hn : n ∈ c.entries) (htop : c.frames t = f :: rest)
    (hframes : c'.frames = Function.update c.frames t (fs ++ rest))
    (hentries : c'.entries = c.entries.erase n) (hf : f.job = none) :
    held c' + {(n, .ready)} = held c + jobs fs := by
  have hheld := held_top htop hframes
  have hidle : jobs [f] = 0 := by simp [hf]
  rw [hentries, queued_erase hn, hidle, zero_add, ← add_assoc, ← add_assoc] at hheld
  exact add_right_cancel hheld

end Holders

section Stages
variable [DecidableEq τ] {capacity : ℕ} {bases : List ℕ} {c c' c₁ : Config τ} {es evs : List Event}
variable {stage stage' : ℕ → Stage} {group group' : ℕ → Option ℕ} {n : ℕ} {r s : Stage} {g : Option ℕ}
variable {t : τ} {f : Frame} {fs rest : List Frame} {taken : Option ℕ}

/-- The invariant holds at the next configuration, and no job has lost its block since but
to the allocation that took it. -/
def Follows (capacity : ℕ) (bases : List ℕ) (c c' : Config τ) (es : List Event)
    (stage : ℕ → Stage) (taken : Option ℕ) : Prop :=
  ∃ stage' group', Inv capacity bases c' es stage' group' ∧
    ∀ k, stage' k = .recycled → stage k = .recycled ∨ stage k = .freed ∧ taken = some (c.block k)

omit [DecidableEq τ] in
theorem Follows.of_update (h : Inv capacity bases c' es (Function.update stage n s) group')
    (hs : s ≠ .recycled) : Follows capacity bases c c' es stage taken := by
  refine ⟨_, _, h, fun k hk => Or.inl ?_⟩
  by_cases hkn : k = n
  · rw [hkn, Function.update_self] at hk
    exact absurd hk hs
  · rwa [Function.update_of_ne hkn] at hk

omit [DecidableEq τ] in
/-- One job changes its stage. -/
theorem Inv.update (h : Inv capacity bases c es stage group)
    (hroles : Roles Stage.InFlight (held c') (Function.update stage n s))
    (hnext : ∀ k, c'.next ≤ k → c.next ≤ k ∧ k ≠ n) (hfits : s.Fits g)
    (hgroup : ∀ a, g = some a → a ≠ nullptr)
    (hhistory : s.trace n g = (stage n).trace n (group n) ++ naming n evs)
    (hevs : ∀ k, k ≠ n → naming k evs = [])
    (hstore : Store capacity bases c'.memory c'.pool c'.block (Function.update stage n s)
      (Function.update group n g)) (hcallables : ∀ t, ∀ f ∈ c'.frames t, f.Fits) :
    Inv capacity bases c' (es ++ evs) (Function.update stage n s) (Function.update group n g) := by
  constructor
  case roles => exact hroles
  case unborn =>
    intro k hk
    obtain ⟨hk, hkn⟩ := hnext k hk
    rw [Function.update_of_ne hkn]
    exact h.unborn k hk
  case fits =>
    intro k
    by_cases hkn : k = n
    · subst hkn
      rwa [Function.update_self, Function.update_self]
    · rw [Function.update_of_ne hkn, Function.update_of_ne hkn]
      exact h.fits k
  case groups =>
    intro k a hk
    by_cases hkn : k = n
    · subst hkn
      rw [Function.update_self] at hk
      exact hgroup a hk
    · rw [Function.update_of_ne hkn] at hk
      exact h.groups k a hk
  case history =>
    intro k
    rw [naming_append, h.history k]
    by_cases hkn : k = n
    · subst hkn
      rw [Function.update_self, Function.update_self, hhistory]
    · rw [Function.update_of_ne hkn, Function.update_of_ne hkn, hevs k hkn, List.append_nil]
  case store => exact hstore
  case callables => exact hcallables

omit [DecidableEq τ] in
/-- A job that was born goes on to its next stage. -/
theorem Inv.advance (h : Inv capacity bases c es stage group) (hn : stage n ≠ .unborn)
    (hroles : Roles Stage.InFlight (held c') (Function.update stage n s))
    (hnext : c'.next = c.next) (hfits : s.Fits (group n))
    (hhistory : s.trace n (group n) = (stage n).trace n (group n) ++ naming n evs)
    (hevs : ∀ k, k ≠ n → naming k evs = [])
    (hstore : Store capacity bases c'.memory c'.pool c'.block (Function.update stage n s)
      (Function.update group n (group n))) (hcallables : ∀ t, ∀ f ∈ c'.frames t, f.Fits) :
    Inv capacity bases c' (es ++ evs) (Function.update stage n s) group := by
  have hinv := h.update hroles (fun k hk => ?_) hfits (h.groups n) hhistory hevs hstore
    hcallables
  · rwa [Function.update_eq_self] at hinv
  · rw [hnext] at hk
    exact ⟨hk, fun hkn => hn (h.unborn n (hkn ▸ hk))⟩

omit [DecidableEq τ] in
/-- A step that moves no job. -/
theorem Inv.idle (h : Inv capacity bases c es stage group) (hheld : held c' = held c)
    (hnext : c'.next = c.next) (hevs : ∀ k, naming k evs = []) (hmemory : c'.memory = c.memory)
    (hpool : c'.pool = c.pool) (hblock : c'.block = c.block)
    (hcallables : ∀ t, ∀ f ∈ c'.frames t, f.Fits) :
    Follows capacity bases c c' (es ++ evs) stage taken := by
  refine ⟨stage, group, ?_, fun k hk => Or.inl hk⟩
  constructor
  case roles => exact hheld.symm ▸ h.roles
  case unborn => exact hnext.symm ▸ h.unborn
  case fits => exact h.fits
  case groups => exact h.groups
  case history =>
    intro k
    rw [naming_append, hevs k, List.append_nil]
    exact h.history k
  case store =>
    rw [hmemory, hpool, hblock]
    exact h.store
  case callables => exact hcallables

omit [Fintype τ] in
/-- The calls that a step leaves were there before it or take the place of the innermost. -/
theorem mem_frames {u : τ} {g : Frame} (hrest : ∀ x ∈ rest, x ∈ c.frames t)
    (hg : g ∈ Function.update c.frames t (fs ++ rest) u) : g ∈ c.frames u ∨ u = t ∧ g ∈ fs := by
  by_cases hut : u = t
  · subst hut
    rw [Function.update_self] at hg
    exact (List.mem_append.mp hg).symm.imp (hrest g) fun hfs => ⟨rfl, hfs⟩
  · rw [Function.update_of_ne hut] at hg
    exact Or.inl hg

theorem Inv.callables_push (h : Inv capacity bases c es stage group)
    (hrest : ∀ x ∈ rest, x ∈ c.frames t)
    (hframes : c'.frames = Function.update c.frames t (fs ++ rest)) (hfs : ∀ x ∈ fs, x.Fits) :
    ∀ u, ∀ x ∈ c'.frames u, x.Fits := by
  intro u x hx
  rw [hframes] at hx
  exact (mem_frames hrest hx).elim (h.callables u x) fun hnew => hfs x hnew.2

/-- The calls that take the place of the innermost one fit, and the others did before. -/
theorem Inv.callables_top (h : Inv capacity bases c es stage group) (htop : c.frames t = f :: rest)
    (hframes : c'.frames = Function.update c.frames t (fs ++ rest)) (hfs : ∀ x ∈ fs, x.Fits) :
    ∀ u, ∀ x ∈ c'.frames u, x.Fits :=
  h.callables_push (fun _ hx => htop ▸ List.mem_cons_of_mem f hx) hframes hfs

omit [DecidableEq τ] in
theorem Inv.stage_eq (h : Inv capacity bases c es stage group) (htop : c.frames t = f :: rest)
    (hjob : f.job = some (n, r)) : stage n = r :=
  h.roles.role_eq (mem_held (htop ▸ List.mem_cons_self) hjob)

theorem Inv.roles_change (h : Inv capacity bases c es stage group) (htop : c.frames t = f :: rest)
    (hframes : c'.frames = Function.update c.frames t (fs ++ rest))
    (hentries : c'.entries = c.entries) (hjob : f.job = some (n, r)) (hfs : jobs fs = {(n, s)})
    (hs : s.InFlight) : Roles Stage.InFlight (held c') (Function.update stage n s) := by
  have hheld := held_change htop hframes hentries
  rw [jobs_cons, jobs_nil, add_zero, hjob, hfs] at hheld
  exact h.roles.change (mem_held (htop ▸ List.mem_cons_self) hjob) hheld hs

theorem Inv.roles_remove (h : Inv capacity bases c es stage group) (htop : c.frames t = f :: rest)
    (hframes : c'.frames = Function.update c.frames t (fs ++ rest))
    (hentries : c'.entries = c.entries) (hjob : f.job = some (n, r)) (hfs : jobs fs = 0)
    (hs : ¬ s.InFlight) : Roles Stage.InFlight (held c') (Function.update stage n s) := by
  have hheld := held_change htop hframes hentries
  rw [jobs_cons, jobs_nil, add_zero, hjob, hfs, add_zero] at hheld
  exact h.roles.remove (mem_held (htop ▸ List.mem_cons_self) hjob) hheld hs

omit [DecidableEq τ] in
theorem Inv.recycle (h : Inv capacity bases c es stage group) (p : ℕ) :
    Inv capacity bases c es (Stage.recycle c.block p stage) group := by
  have hcases := Stage.recycle_cases c.block p stage
  constructor
  case roles =>
    refine h.roles.congr fun k hk => ?_
    rcases hcases k with ⟨heq, -⟩ | ⟨heq, hfreed, -⟩
    · exact heq
    · rw [heq, hfreed] at hk
      exact absurd hk (by simp [Stage.InFlight])
  case unborn =>
    intro k hk
    rcases hcases k with ⟨heq, -⟩ | ⟨-, hfreed, -⟩
    · exact heq.trans (h.unborn k hk)
    · rw [h.unborn k hk] at hfreed
      cases hfreed
  case fits =>
    intro k
    rcases hcases k with ⟨heq, -⟩ | ⟨heq, -⟩
    · exact heq.symm ▸ h.fits k
    · rw [heq]
      trivial
  case groups => exact h.groups
  case history =>
    intro k
    rcases hcases k with ⟨heq, -⟩ | ⟨heq, hfreed, -⟩
    · exact heq.symm ▸ h.history k
    · rw [heq, h.history k, hfreed]
      rfl
  case store => exact h.store.recycle p
  case callables => exact h.callables

end Stages

end Jobrocket.CallStacks
