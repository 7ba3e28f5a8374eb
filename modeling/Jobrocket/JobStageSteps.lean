import Jobrocket.ActiveAccount
import Jobrocket.JobStageInvariant

/-! # The stages along a run

The next step of a call knows the stage of the job it has, since it holds it, and moves it
to the next one. A block is taken from a job only by an allocation, and only from one that
has been executed.
-/
namespace Jobrocket.CallStacks
open Library Memory

variable {τ : Type*} [Fintype τ]

/-- The block that the next step of a call takes from the pool, if it takes one. -/
def Frame.takes (pool : JobPool) (i : ℕ) : Frame → Option ℕ
  | .groupMake _ _ _ | .make _ => pool.nextBlock i
  | _ => none

section Moves
variable [DecidableEq τ] {capacity : ℕ} {bases : List ℕ} {c c₁ : Config τ} {es evs : List Event}
variable {stage : ℕ → Stage} {group : ℕ → Option ℕ} {i n d : ℕ} {t : τ} {fs rest : List Frame}
variable {f : Frame} {taken : Option ℕ}

/-- The innermost call of the thread is replaced by other calls. -/
def Config.withTop (c₁ c : Config τ) (t : τ) (fs rest : List Frame) : Config τ :=
  { c₁ with frames := Function.update c.frames t (fs ++ rest) }

theorem Inv.groupIncrement (h : Inv capacity bases c es stage group) {g : Group}
    {function : List UInt8} {counters : ℕ → UInt32}
    (htop : c.frames t = .groupIncrement g function :: rest) :
    Follows capacity bases c
      (Config.withTop { c with counters := counters, next := c.next + 1 } c t
        [.groupMake g c.next function] rest)
      (es ++ [.counted c.next g.address]) stage taken := by
  set c' := Config.withTop { c with counters := counters, next := c.next + 1 } c t
    [.groupMake g c.next function] rest
  have hnew := h.unborn c.next le_rfl
  have hheld : held c' = (c.next, .counted g.address) ::ₘ held c := by
    have hchange : held c' + jobs [.groupIncrement g function] =
        held c + jobs [.groupMake g c.next function] := held_change htop rfl rfl
    rw [← Multiset.singleton_add, add_comm]
    simpa [Frame.job] using hchange
  have hroles : Roles Stage.InFlight (held c') (Function.update stage c.next (.counted g.address)) := by
    rw [hheld]
    exact h.roles.add (by simp [hnew, Stage.InFlight]) trivial
  have hstore := h.store.restage (n := c.next) (s := .counted g.address) (g := some g.address)
    (Or.inr (by simp [hnew, Stage.Live])) (fun hs => hs.elim) trivial
  have hfits : Frame.Fits (.groupMake g c.next function) :=
    h.callables t (.groupIncrement g function) (htop ▸ List.mem_cons_self)
  refine .of_update (h.update (g := some g.address) hroles (fun k hk => ?_) rfl ?_ ?_ ?_ hstore
    (h.callables_top htop rfl (by simpa using hfits))) (by simp)
  · have hk : c.next + 1 ≤ k := hk
    exact ⟨Nat.le_of_succ_le hk, by omega⟩
  · rintro a ⟨⟩
    exact g.ne_null
  · rw [hnew, naming_single rfl]
    rfl
  · exact fun k hk => naming_single_ne rfl hk

/-- A job goes on to its next stage in the innermost call. -/
theorem Inv.pass (h : Inv capacity bases c es stage group) {r s : Stage} {m : Memory}
    {counters : ℕ → UInt32} (htop : c.frames t = f :: rest) (hjob : f.job = some (n, r))
    (hr : r ≠ .unborn) (hfs : jobs fs = {(n, s)}) (hs : s.InFlight) (hfits : s.Fits (group n))
    (hhistory : s.trace n (group n) = r.trace n (group n) ++ naming n evs)
    (hevs : ∀ k, k ≠ n → naming k evs = []) (hcallables : ∀ x ∈ fs, x.Fits)
    (hstore : stage n = r → r.Fields c.memory c.pool.self (c.block n) (group n) →
      Store capacity bases m c.pool c.block (Function.update stage n s)
        (Function.update group n (group n))) :
    Follows capacity bases c
      (Config.withTop { c with memory := m, counters := counters } c t fs rest) (es ++ evs) stage
      taken := by
  set c' := Config.withTop { c with memory := m, counters := counters } c t fs rest
  have hn := h.stage_eq htop hjob
  have hroles : Roles Stage.InFlight (held c') (Function.update stage n s) :=
    h.roles_change htop rfl rfl hjob hfs hs
  have hnext := hstore hn (hn ▸ h.store.fields n)
  refine .of_update (h.advance (hn ▸ hr) hroles rfl hfits (hn.symm ▸ hhistory) hevs hnext
    (h.callables_top htop rfl hcallables)) ?_
  rintro rfl
  exact hs

theorem Inv.groupSet (h : Inv capacity bases c es stage group)
    (hplace : JobPool.Placement capacity bases) {g : Group}
    (htop : c.frames t = .groupSet g n :: rest) :
    Follows capacity bases c
      (Config.withTop { c with memory := Job.setGroupCounter c.memory (c.block n) g.address } c t
        [.schedule n] rest) (es ++ []) stage taken := by
  have hgroup := h.fits n
  rw [h.stage_eq htop rfl] at hgroup
  have hgroup : group n = some g.address := hgroup
  refine h.pass (s := .ready) htop rfl (by simp) rfl trivial trivial ?_ (fun _ _ => rfl)
    (by simp [Frame.Fits]) fun hn hfields => ?_
  · rw [hgroup]
    rfl
  · refine h.store.write hplace (by simp [hn, Stage.Live]) trivial hfields.1
      (fun lo hi hout => same_store (by omega)) ?_
    rw [hgroup]
    exact hfields.join g.lt

theorem Inv.leaveGroup (h : Inv capacity bases c es stage group)
    (htop : c.frames t = .tryRun d (.leaveGroup n) :: rest) :
    Follows capacity bases c (Config.withTop c c t [.tryRun d (c.groupExit n)] rest) (es ++ [])
      stage taken := by
  have hn : stage n = .executed := h.stage_eq htop rfl
  have hfields := h.store.fields n
  rw [hn] at hfields
  obtain ⟨-, -, hcounter, -⟩ := hfields
  cases hgroup : group n with
  | none =>
    have hexit : c.groupExit n = .release n := by
      rw [Config.groupExit, hcounter, hgroup, Option.getD_none]
      exact if_neg (not_not.mpr rfl)
    rw [hexit]
    refine h.pass (s := .done) htop rfl (by simp) rfl trivial trivial ?_ (fun _ _ => rfl)
      (by simp [Frame.Fits]) fun hn hf => h.store.restage (Or.inr (by simp [hn, Stage.Live]))
        (fun _ => by simp [hn, Stage.Holds]) ⟨hf.1, hf.2.1, hf.2.2.2⟩
    rw [hgroup]
    rfl
  | some g =>
    have hexit : c.groupExit n = .decrementGroup g n := by
      rw [Config.groupExit, hcounter, hgroup, Option.getD_some]
      exact if_pos (h.groups n g hgroup)
    rw [hexit]
    exact h.pass (s := .leaving g) htop rfl (by simp) rfl trivial hgroup (List.append_nil _).symm
      (fun _ _ => rfl) (by simp [Frame.Fits]) fun hn hf => h.store.restage
        (Or.inr (by simp [hn, Stage.Live])) (fun _ => by simp [hn, Stage.Holds])
        ⟨hf.1, hf.2.1, hf.2.2.2⟩

theorem Inv.decrementGroup (h : Inv capacity bases c es stage group) {g : ℕ}
    {counters : ℕ → UInt32} {pc : RunPC} (hpc : pc = .clampGroup g n ∨ pc = .release n)
    (htop : c.frames t = .tryRun d (.decrementGroup g n) :: rest) :
    Follows capacity bases c (Config.withTop { c with counters := counters } c t [.tryRun d pc] rest)
      (es ++ [.uncounted n g]) stage taken := by
  have hn : stage n = .leaving g := h.stage_eq htop rfl
  have hgroup := h.fits n
  rw [hn] at hgroup
  have hgroup : group n = some g := hgroup
  refine h.pass (s := .done) htop rfl (by simp) ?_ trivial trivial ?_
    (fun k hk => naming_single_ne rfl hk) (by simp [Frame.Fits]) fun hn hf => h.store.restage
      (Or.inr (by simp [hn, Stage.Live])) (fun _ => by simp [hn, Stage.Holds]) hf
  · rcases hpc with rfl | rfl <;> rfl
  · rw [hgroup, naming_single rfl]
    rfl

theorem Inv.release (h : Inv capacity bases c es stage group)
    (hplace : JobPool.Placement capacity bases)
    (htop : c.frames t = .tryRun d (.release n) :: rest) :
    Follows capacity bases c (Config.withTop (c.releaseJob n) c t [.tryRun d (.leaveActive n)] rest)
      (es ++ []) stage taken := by
  have hn : stage n = .done := h.stage_eq htop rfl
  have hfields := h.store.fields n
  rw [hn] at hfields
  have hrelease : c.releaseJob n = { c with pool := c.pool.freeJob c.memory (c.block n) } := by
    simp only [Config.releaseJob, hfields.2.1, ne_eq, h.store.self_ne, not_false_eq_true, if_true]
  rw [hrelease]
  refine .of_update (h.advance (by simp [hn])
    (h.roles_remove (s := .freed) htop rfl rfl rfl rfl id) rfl trivial ?_ (fun _ _ => rfl) ?_
    (h.callables_top htop rfl (by simp [Frame.Fits]))) (by simp)
  · rw [hn]
    exact (List.append_nil _).symm
  · rw [Function.update_eq_self]
    exact h.store.free hplace hn

omit [DecidableEq τ] in
/-- A job loses its block to no allocation but that of the block. -/
theorem Follows.of_recycle {c' : Config τ} {s : Stage} {group' : ℕ → Option ℕ} {p : ℕ}
    (h : Inv capacity bases c' es (Function.update (Stage.recycle c.block p stage) n s) group')
    (hs : s ≠ .recycled) : Follows capacity bases c c' es stage (some p) := by
  refine ⟨_, _, h, fun k hk => ?_⟩
  by_cases hkn : k = n
  · rw [hkn, Function.update_self] at hk
    exact absurd hk hs
  · rw [Function.update_of_ne hkn] at hk
    rcases Stage.recycle_cases c.block p stage k with ⟨heq, -⟩ | ⟨-, hfreed, hblock⟩
    · exact Or.inl (heq ▸ hk)
    · exact Or.inr ⟨hfreed, hblock ▸ rfl⟩

omit [DecidableEq τ] in
theorem Inv.nextBlock_eq (h : Inv capacity bases c es stage group)
    (hplace : JobPool.Placement capacity bases) (hi : i < bases.length) {p : ℕ}
    {function : List UInt8} (hfits : function.length ≤ Job.functionRoom) {pool : JobPool}
    {m : Memory} {calls : List (ℕ × Option Error)}
    (halloc : c.pool.allocateJob c.memory i function = (.ok p, pool, m, calls)) :
    c.pool.nextBlock i = some p := by
  obtain ⟨live, hinv, -⟩ := h.store.given
  exact (hinv.allocated hplace hi hfits halloc).2.1

theorem Inv.groupMake (h : Inv capacity bases c es stage group)
    (hplace : JobPool.Placement capacity bases) (hi : i < bases.length) {g : Group} {p : ℕ}
    {function : List UInt8} {pool : JobPool} {m : Memory} {calls : List (ℕ × Option Error)}
    (halloc : c.pool.allocateJob c.memory i function = (.ok p, pool, m, calls))
    (htop : c.frames t = .groupMake g n function :: rest) :
    Follows capacity bases c
      (Config.withTop { c with memory := m, pool := pool, block := Function.update c.block n p } c t
        [.groupSet g n] rest) (es ++ []) stage (c.pool.nextBlock i) := by
  have hn : stage n = .counted g.address := h.stage_eq htop rfl
  have hold : ¬ (stage n).Holds := by simp [hn, Stage.Holds]
  have hfits : function.length ≤ Job.functionRoom :=
    h.callables t (.groupMake g n function) (htop ▸ List.mem_cons_self)
  have hstore := h.store.alloc hplace hi hfits halloc (s := .fresh g.address) (g := group n) hold
    trivial fun hp hsource _ hstate => ⟨hp, hsource, hstate⟩
  have hrec := h.recycle p
  have hn' : Stage.recycle c.block p stage n = .counted g.address := hrec.stage_eq htop rfl
  have hgroup := h.fits n
  rw [hn] at hgroup
  rw [h.nextBlock_eq hplace hi hfits halloc]
  refine .of_recycle (hrec.advance (by simp [hn']) (hrec.roles_change htop rfl rfl rfl rfl trivial)
    rfl hgroup ?_ (fun _ _ => rfl) hstore (h.callables_top htop rfl (by simp [Frame.Fits])))
    (by simp)
  rw [hn']
  exact (List.append_nil _).symm

/-- A job that is made, or whose allocation is refused, is the next one and has no group. -/
theorem Inv.born (h : Inv capacity bases c es stage group) {function : List UInt8} {m : Memory}
    {pool : JobPool} {p : ℕ} (htop : c.frames t = .make function :: rest)
    (hstore : Store capacity bases m pool (Function.update c.block c.next p)
      (Function.update stage c.next .made) (Function.update group c.next none)) :
    Inv capacity bases
      (Config.withTop { c with memory := m, pool := pool, next := c.next + 1,
                               block := Function.update c.block c.next p } c t [] rest)
      (es ++ [.made c.next]) (Function.update stage c.next .made)
      (Function.update group c.next none) := by
  set c' := Config.withTop { c with memory := m, pool := pool, next := c.next + 1,
                                    block := Function.update c.block c.next p } c t [] rest
  have hnew := h.unborn c.next le_rfl
  have hheld : held c' = held c := by
    have hchange : held c' + jobs [.make function] = held c + jobs [] := held_change htop rfl rfl
    simpa [Frame.job] using hchange
  have hroles : Roles Stage.InFlight (held c') (Function.update stage c.next .made) := by
    rw [hheld]
    exact h.roles.idle (by simp [hnew, Stage.InFlight]) id
  refine h.update hroles (fun k hk => ?_) rfl (by simp) ?_ (fun k hk => naming_single_ne rfl hk)
    hstore (h.callables_top htop rfl (by simp))
  · have hk : c.next + 1 ≤ k := hk
    exact ⟨Nat.le_of_succ_le hk, by omega⟩
  · rw [hnew, naming_single rfl]
    rfl

theorem Inv.made (h : Inv capacity bases c es stage group)
    (hplace : JobPool.Placement capacity bases) (hi : i < bases.length) {p : ℕ}
    {function : List UInt8} {pool : JobPool} {m : Memory} {calls : List (ℕ × Option Error)}
    (halloc : c.pool.allocateJob c.memory i function = (.ok p, pool, m, calls))
    (htop : c.frames t = .make function :: rest) :
    Follows capacity bases c
      (Config.withTop { c with memory := m, pool := pool, next := c.next + 1,
                               block := Function.update c.block c.next p } c t [] rest)
      (es ++ [.made c.next]) stage (c.pool.nextBlock i) := by
  have hold : ¬ (stage c.next).Holds := by simp [h.unborn c.next le_rfl, Stage.Holds]
  have hfits : function.length ≤ Job.functionRoom :=
    h.callables t (.make function) (htop ▸ List.mem_cons_self)
  have hstore := h.store.alloc hplace hi hfits halloc (s := .made) (g := none) hold trivial
    fun _ hsource hcounter hstate _ => ⟨hsource, hcounter, hstate⟩
  rw [h.nextBlock_eq hplace hi hfits halloc]
  exact .of_recycle ((h.recycle p).born htop hstore) (by simp)

theorem Inv.refused (h : Inv capacity bases c es stage group)
    (hplace : JobPool.Placement capacity bases) (hi : i < bases.length) {e : Error}
    {function : List UInt8} {pool : JobPool} {m : Memory} {calls : List (ℕ × Option Error)}
    (halloc : c.pool.allocateJob c.memory i function = (.error e, pool, m, calls))
    (htop : c.frames t = .make function :: rest) :
    Follows capacity bases c
      (Config.withTop { c with memory := m, pool := pool, next := c.next + 1,
                               block := Function.update c.block c.next nullptr } c t [] rest)
      (es ++ [.made c.next]) stage taken := by
  have hold : ¬ (stage c.next).Holds := by simp [h.unborn c.next le_rfl, Stage.Holds]
  have hfits : function.length ≤ Job.functionRoom :=
    h.callables t (.make function) (htop ▸ List.mem_cons_self)
  exact .of_update (h.born htop (h.store.refuse hplace hi hfits halloc hold)) (by simp)

theorem Inv.push (h : Inv capacity bases c es stage group) (htop : c.frames t = .push n :: rest) :
    Follows capacity bases c (Config.withTop { c with entries := n :: c.entries } c t [] rest)
      (es ++ []) stage taken := by
  set c' := Config.withTop { c with entries := n :: c.entries } c t [] rest
  have hheld : held c' + ({(n, .ready)} + queued c.entries) =
      held c + (jobs [] + ({(n, .ready)} + queued c.entries)) := held_top htop rfl
  rw [jobs_nil, zero_add] at hheld
  exact h.idle (add_right_cancel hheld) rfl (fun _ => rfl) rfl rfl rfl
    (h.callables_top htop rfl (by simp))

/-- The program passes a job to `run` that `make_job` gave it. -/
theorem Inv.run (h : Inv capacity bases c es stage group) (hmade : .made n ∈ es)
    (hran : .ran n ∉ es) :
    Follows capacity bases c
      { c with frames := Function.update c.frames t (.schedule n :: c.frames t) } (es ++ [.ran n])
      stage taken := by
  have hhistory := h.history n
  have hn : stage n = .made := by
    have hmade' : .made n ∈ naming n es := (mem_naming rfl).mpr hmade
    have hran' : .ran n ∉ naming n es := mt (mem_naming rfl).mp hran
    rw [hhistory] at hmade' hran'
    exact Stage.eq_made hmade' hran'
  have hgroup := h.fits n
  have hfields := h.store.fields n
  rw [hn] at hgroup hfields
  have hgroup : group n = none := hgroup
  set c' := { c with frames := Function.update c.frames t (.schedule n :: c.frames t) }
  have hheld : held c' = (n, .ready) ::ₘ held c := by
    have hpush : held c' = held c + jobs [.schedule n] := held_push rfl rfl
    rw [hpush, add_comm]
    rfl
  have hroles : Roles Stage.InFlight (held c') (Function.update stage n .ready) := by
    rw [hheld]
    exact h.roles.add (by simp [hn, Stage.InFlight]) trivial
  have hpushed : ∀ x ∈ [Frame.schedule n], x.Fits := by simp [Frame.Fits]
  have hcallables : ∀ u, ∀ x ∈ c'.frames u, x.Fits := h.callables_push (fun _ hx => hx) rfl hpushed
  refine .of_update (h.advance (by simp [hn]) hroles rfl trivial ?_
    (fun k hk => naming_single_ne rfl hk) ?_ hcallables) (by simp)
  · rw [hn, hgroup, naming_single rfl]
    rfl
  · exact h.store.restage (Or.inr (by simp [hn, Stage.Live])) (fun _ => by simp [hn, Stage.Holds])
      hfields

/-- A ready entry is taken. -/
theorem Inv.take (h : Inv capacity bases c es stage group) {pc : RunPC} (hn : n ∈ c.entries)
    (hpc : pc = .pop ∨ pc = .steal) (htop : c.frames t = .tryRun d pc :: rest)
    (hready : Job.isReady c.memory (c.block n) = true) :
    Follows capacity bases c
      (Config.withTop { c with entries := c.entries.erase n } c t [.tryRun d (.execute n)] rest)
      (es ++ []) stage taken := by
  have hstage : stage n = .ready := h.roles.role_eq (mem_held_of_entries hn)
  have hfields := h.store.fields n
  rw [hstage] at hfields
  obtain ⟨hp, -⟩ := Job.isReady_iff.mp hready
  obtain ⟨hsource, hcounter, -⟩ := hfields hp
  have hjob : (Frame.tryRun d pc).job = none := by rcases hpc with rfl | rfl <;> rfl
  set c' := Config.withTop { c with entries := c.entries.erase n } c t [.tryRun d (.execute n)] rest
  have hheld : held c' + {(n, .ready)} = held c + jobs [.tryRun d (.execute n)] :=
    held_take hn htop rfl rfl hjob
  have htaken : Stage.InFlight .taken := trivial
  have hroles := h.roles.change (mem_held_of_entries hn) hheld htaken
  refine .of_update (h.advance (by simp [hstage]) hroles rfl trivial ?_ (fun _ _ => rfl) ?_
    (h.callables_top htop rfl (by simp [Frame.Fits]))) (by simp)
  · rw [hstage]
    exact (List.append_nil _).symm
  · exact h.store.restage (Or.inr (by simp [hstage, Stage.Live]))
      (fun _ => by simp [hstage, Stage.Holds]) ⟨hp, hsource, hcounter⟩

/-- What the jobs depend on beside the frames. -/
def Config.ground (c : Config τ) : Memory × JobPool × (ℕ → ℕ) × List ℕ × ℕ :=
  (c.memory, c.pool, c.block, c.entries, c.next)

omit [Fintype τ] [DecidableEq τ] in
theorem ground_eq (h : c₁.ground = c.ground) :
    c₁.memory = c.memory ∧ c₁.pool = c.pool ∧ c₁.block = c.block ∧ c₁.entries = c.entries ∧
      c₁.next = c.next := by
  simpa only [Config.ground, Prod.mk.injEq] using h

/-- The innermost call changes and holds the job it held. -/
theorem Inv.stay (h : Inv capacity bases c es stage group) (htop : c.frames t = f :: rest)
    (hjobs : jobs fs = jobs [f]) (hevs : ∀ k, naming k evs = []) (hground : c₁.ground = c.ground)
    (hcallables : ∀ x ∈ fs, x.Fits) :
    Follows capacity bases c (c₁.withTop c t fs rest) (es ++ evs) stage taken := by
  obtain ⟨hmemory, hpool, hblock, hentries, hnext⟩ := ground_eq hground
  have hheld : held (c₁.withTop c t fs rest) + jobs [f] = held c + jobs fs :=
    held_change htop rfl hentries
  rw [hjobs] at hheld
  exact h.idle (add_right_cancel hheld) hnext hevs hmemory hpool hblock
    (h.callables_top htop rfl hcallables)

/-- An entry that is not ready is a null pointer, and it is dropped. What is taken and is
no entry changes nothing. -/
theorem Inv.drop (h : Inv capacity bases c es stage group) {pc : RunPC}
    (hpc : pc = .pop ∨ pc = .steal) (hfs : jobs fs = 0) (htop : c.frames t = .tryRun d pc :: rest)
    (hready : Job.isReady c.memory (c.block n) = false) (hevs : ∀ k, naming k evs = [])
    (hcallables : ∀ x ∈ fs, x.Fits) :
    Follows capacity bases c
      (Config.withTop { c with entries := c.entries.erase n } c t fs rest) (es ++ evs) stage
      taken := by
  have hjob : (Frame.tryRun d pc).job = none := by rcases hpc with rfl | rfl <;> rfl
  by_cases hn : n ∈ c.entries
  swap
  · have hjobs : jobs fs = jobs [.tryRun d pc] := by rw [hfs, jobs_cons, hjob]; rfl
    rw [List.erase_of_not_mem hn]
    exact h.stay htop hjobs hevs rfl hcallables
  have hstage : stage n = .ready := h.roles.role_eq (mem_held_of_entries hn)
  have hfields := h.store.fields n
  rw [hstage] at hfields
  have hp : c.block n = nullptr := by
    by_contra hp
    exact absurd (Job.isReady_iff.mpr ⟨hp, (hfields hp).2.2⟩) (by simp [hready])
  set c' := Config.withTop { c with entries := c.entries.erase n } c t fs rest
  have hheld : held c' + {(n, .ready)} = held c + jobs fs := held_take hn htop rfl rfl hjob
  rw [hfs, add_zero] at hheld
  have hdropped : ¬ Stage.InFlight .dropped := id
  have hroles := h.roles.remove (mem_held_of_entries hn) hheld hdropped
  refine .of_update (h.advance (by simp [hstage]) hroles rfl trivial ?_ (fun k _ => hevs k) ?_
    (h.callables_top htop rfl hcallables)) (by simp)
  · rw [hstage, hevs n]
    exact (List.append_nil _).symm
  · exact h.store.restage (Or.inl hp) (fun hs => hs.elim) trivial

omit [Fintype τ] [DecidableEq τ] in
theorem Move.fits (h : Move i c f c₁ fs evs) (hf : f.Fits) : ∀ x ∈ fs, x.Fits := by
  cases h with
  | groupIncrement g function =>
    intro x hx
    cases List.mem_singleton.mp hx
    exact hf
  | _ => simp [Frame.Fits]

theorem Inv.move (h : Inv capacity bases c es stage group)
    (hplace : JobPool.Placement capacity bases) (hi : i < bases.length)
    (htop : c.frames t = f :: rest) (hmove : Move i c f c₁ fs evs) :
    Follows capacity bases c (c₁.withTop c t fs rest) (es ++ evs) stage (f.takes c.pool i) := by
  have hfits := hmove.fits (h.callables t f (htop ▸ List.mem_cons_self))
  cases hmove with
  | groupIncrement g function => exact h.groupIncrement htop
  | groupMake g n function halloc => exact h.groupMake hplace hi halloc htop
  | groupSet g n => exact h.groupSet hplace htop
  | waitForAll g => exact h.stay htop rfl (fun _ => rfl) rfl hfits
  | waitedForAll g hzero => exact h.stay htop rfl (fun _ => rfl) rfl hfits
  | made function halloc => exact h.made hplace hi halloc htop
  | refused function halloc => exact h.refused hplace hi halloc htop
  | schedule n => exact h.stay htop rfl (fun _ => rfl) rfl hfits
  | push n => exact h.push htop
  | wait n => exact h.stay htop rfl (fun _ => rfl) rfl hfits
  | waited n hdone => exact h.stay htop rfl (fun _ => rfl) rfl hfits
  | execute d n =>
    exact h.pass htop rfl (by simp) rfl trivial trivial (List.append_nil _).symm (fun _ _ => rfl)
      hfits fun hn hfields => h.store.setState hplace (by simp [hn, Stage.Live]) trivial hfields.1
        hfields.execute
  | body d n =>
    refine h.pass htop rfl (by simp) rfl trivial trivial ?_ (fun k hk => naming_single_ne rfl hk)
      hfits fun hn hfields => h.store.setState hplace (by simp [hn, Stage.Live]) trivial hfields.1
        hfields.complete
    rw [naming_single rfl]
    rfl
  | leaveGroup d n => exact h.leaveGroup htop
  | decrementGroup d g n =>
    refine h.decrementGroup ?_ htop
    split
    · exact Or.inl rfl
    · exact Or.inr rfl
  | clampGroup d g n => exact h.stay htop rfl (fun _ => rfl) rfl hfits
  | release d n => exact h.release hplace htop
  | leaveActive d n hpos => exact h.stay htop rfl (fun _ => rfl) rfl hfits
  | wrapActive d n hzero => exact h.stay htop rfl (fun _ => rfl) rfl hfits
  | clampActive d => exact h.stay htop rfl (fun _ => rfl) rfl hfits

theorem Inv.choice (h : Inv capacity bases c es stage group) {entry : Option ℕ}
    (htop : c.frames t = f :: rest) (hchoice : Choice c entry f c₁ fs evs)
    (hentry : ∀ n, entry = some n → Job.isReady c.memory (c.block n) = true → n ∈ c.entries) :
    Follows capacity bases c (c₁.withTop c t fs rest) (es ++ evs) stage taken := by
  cases hchoice with
  | ready d n pc hpc hready => exact h.take (hentry n rfl hready) hpc htop hready
  | popDrop d n hready =>
    exact h.drop (Or.inl rfl) rfl htop hready (fun _ => rfl) (by simp [Frame.Fits])
  | stealDrop d n hready => exact h.drop (Or.inr rfl) rfl htop hready (fun _ => rfl) (by simp)
  | popNothing d => exact h.stay htop rfl (fun _ => rfl) rfl (by simp [Frame.Fits])
  | stealNothing d => exact h.stay htop rfl (fun _ => rfl) rfl (by simp)

/-- A call of the program holds no job, but for the one that is passed to `run`. -/
theorem Inv.call (h : Inv capacity bases c es stage group) (call : Call)
    (hrun : ∀ n, call = .run n → .made n ∈ es ∧ .ran n ∉ es) (hfits : call.enter.1.Fits) :
    Follows capacity bases c
      { c with frames := Function.update c.frames t (call.enter.1 :: c.frames t) }
      (es ++ call.enter.2) stage taken := by
  have hidle : call.enter.1.job = none → call.enter.2 = [] → Follows capacity bases c
      { c with frames := Function.update c.frames t (call.enter.1 :: c.frames t) }
      (es ++ call.enter.2) stage taken := by
    intro hjob hevents
    rw [hevents]
    set c' := { c with frames := Function.update c.frames t (call.enter.1 :: c.frames t) }
    have hheld : held c' = held c + jobs [call.enter.1] := held_push rfl rfl
    rw [jobs_cons, hjob] at hheld
    have hpushed : ∀ x ∈ [call.enter.1], x.Fits := by simpa using hfits
    exact h.idle (hheld.trans (add_zero _)) rfl (fun _ => rfl) rfl rfl rfl
      (h.callables_push (fun _ hx => hx) rfl hpushed)
  cases call with
  | run n => exact h.run (hrun n rfl).1 (hrun n rfl).2
  | groupRun g function => exact hidle rfl rfl
  | waitForAll g => exact hidle rfl rfl
  | make function => exact hidle rfl rfl
  | wait n => exact hidle rfl rfl
  | tryRun => exact hidle rfl rfl

end Moves

section Runs
variable [DecidableEq τ] {capacity self : ℕ} {bases : List ℕ} {index : τ → ℕ} {m₀ : Memory}
variable {c c' : Config τ} {l : Label τ} {ls pre : List (Label τ)} {es evs : List Event}
variable {stage : ℕ → Stage} {group : ℕ → Option ℕ}

/-- The block that a step takes from the pool, if it takes one. -/
def takes (index : τ → ℕ) (c : Config τ) : Label τ → Option ℕ
  | .go t => (c.frames t).head?.bind (Frame.takes c.pool (index t))
  | _ => none

/-- What the calls rely on: a thread has an index in the pool, and `run` is given a pointer
that `make_job` returned, once. -/
structure Usage (index : τ → ℕ) (threads : ℕ) (c₀ : Config τ) (ls : List (Label τ)) : Prop where
  index_lt : ∀ t, index t < threads
  runs : ∀ pre t n, pre ++ [.call t (.run n)] <+: ls →
    ∀ c es, (step index).exec c₀ pre = some (c, es) → .made n ∈ es ∧ .ran n ∉ es

/-- The test of `Usage` at one label, which looks at the execution before a `run` only. -/
def runsMade : Label τ → Option (Config τ × List Event) → Bool
  | .call _ (.run n), some (_, es) => decide (.made n ∈ es ∧ .ran n ∉ es)
  | _, _ => true

omit [Fintype τ] in
theorem Usage.of_check {threads : ℕ} {c₀ : Config τ} (hindex : ∀ t, index t < threads)
    (h : ∀ k (hk : k < ls.length), runsMade ls[k] ((CallStacks.step index).exec c₀ (ls.take k)) = true) :
    Usage index threads c₀ ls :=
  ⟨hindex, fun _ _ _ hl _ _ hexec => of_decide_eq_true (Stepper.holds_of_check h hl hexec)⟩

def Label.Fits : Label τ → Prop
  | .call _ made => made.enter.1.Fits
  | _ => True

instance : DecidablePred (Label.Fits (τ := τ))
  | .call _ made => inferInstanceAs (Decidable made.enter.1.Fits)
  | .go _ | .take _ _ => .isTrue trivial

/-- Every callable that a job is made with has room in the job's block. -/
def Fits (ls : List (Label τ)) : Prop := ∀ l ∈ ls, l.Fits

instance : DecidablePred (Fits (τ := τ)) := fun ls => inferInstanceAs (Decidable (∀ l ∈ ls, l.Fits))

/-- The deques at what the jobs need of them: what is ready when a pop or a steal gives it was
pushed and has not been taken. -/
def DeliversReady (index : τ → ℕ) (c₀ : Config τ) (ls : List (Label τ)) : Prop :=
  ∀ pre t n, pre ++ [.take t (some n)] <+: ls → ∀ c es, (step index).exec c₀ pre = some (c, es) →
    Job.isReady c.memory (c.block n) = true → n ∈ c.entries

omit [Fintype τ] in
theorem Delivers.ready {c₀ : Config τ} (h : Delivers index c₀ ls) : DeliversReady index c₀ ls :=
  fun pre t n hl c es hexec _ => h pre t n hl c es hexec

/-- The program starts with a new pool. -/
def boot (τ : Type*) (self capacity : ℕ) (bases : List ℕ) (m : Memory) : Config τ :=
  start τ (JobPool.create self capacity bases m).1 (JobPool.create self capacity bases m).2

omit [DecidableEq τ] in
theorem inv_boot (hplace : JobPool.Placement capacity bases) (hself : self < 2 ^ 64)
    (hne : self ≠ nullptr) :
    Inv capacity bases (boot τ self capacity bases m₀) [] (fun _ => .unborn) fun _ => none where
  roles := by
    have hheld : held (boot τ self capacity bases m₀) = 0 := by
      simp [held, boot, start, queued]
    rw [hheld]
    exact .empty fun _ => id
  unborn _ _ := rfl
  fits _ := trivial
  groups _ _ hg := by cases hg
  history _ := rfl
  store :=
    { given := ⟨_, JobPool.inv_create hplace hself m₀, fun _ => by simp [Stage.Live]⟩
      self_ne := hne
      placed := fun _ hn => hn.elim
      apart := fun _ _ hn => hn.elim
      fields := fun _ => trivial }
  callables _ _ hf := absurd hf List.not_mem_nil

theorem Inv.step (h : Inv capacity bases c es stage group)
    (hplace : JobPool.Placement capacity bases) (hindex : ∀ t, index t < bases.length)
    (hstep : CallStacks.step index c l = some (c', evs))
    (hruns : ∀ t n, l = .call t (.run n) → .made n ∈ es ∧ .ran n ∉ es)
    (hfits : l.Fits)
    (hdelivers : ∀ t n, l = .take t (some n) → Job.isReady c.memory (c.block n) = true →
      n ∈ c.entries) :
    Follows capacity bases c c' (es ++ evs) stage (takes index c l) := by
  cases stepped_of_step hstep with
  | call t call hat => exact h.call call (fun n hn => hruns t n (by rw [hn])) hfits
  | @move t f rest fs c₁ evs htop hmove =>
    have htakes : takes index c (.go t) = f.takes c.pool (index t) := by simp [takes, htop]
    rw [htakes]
    exact h.move hplace (hindex t) htop hmove
  | choose t entry htop hchoice =>
    exact h.choice htop hchoice fun n hn => hdelivers t n (by rw [hn])

/-- The invariant holds along every run, and a job whose block was given away is one of
those whose blocks were taken after they had been executed. -/
theorem inv_of_exec {P : List Event → ℕ → Prop} (hplace : JobPool.Placement capacity bases)
    (hself : self < 2 ^ 64) (hne : self ≠ nullptr)
    (husage : Usage index bases.length (boot τ self capacity bases m₀) ls) (hfits : Fits ls)
    (hdelivers : DeliversReady index (boot τ self capacity bases m₀) ls)
    (hmono : ∀ es evs n, P es n → P (es ++ evs) n)
    (htaken : ∀ pre l, pre ++ [l] <+: ls → ∀ c es,
      (CallStacks.step index).exec (boot τ self capacity bases m₀) pre = some (c, es) →
        ∀ n, .executed n ∈ es → takes index c l = some (c.block n) → P es n)
    (hpre : pre <+: ls)
    (h : (CallStacks.step index).exec (boot τ self capacity bases m₀) pre = some (c, es)) :
    ∃ stage group, Inv capacity bases c es stage group ∧ ∀ n, stage n = .recycled → P es n := by
  refine Stepper.exec_induction (I := fun _ c es => ∃ stage group,
    Inv capacity bases c es stage group ∧ ∀ n, stage n = .recycled → P es n) ?_ ?_ hpre h
  · exact ⟨_, _, inv_boot hplace hself hne, by simp⟩
  · rintro pre l c es c' evs hl hexec ⟨stage, group, hinv, hlost⟩ hstep
    obtain ⟨stage', group', hinv', hrecycled⟩ := hinv.step hplace husage.index_lt hstep
      (fun t n hlabel => husage.runs pre t n (hlabel ▸ hl) c es hexec)
      (hfits l (hl.subset (by simp)))
      (fun t n hlabel => hdelivers pre t n (hlabel ▸ hl) c es hexec)
    refine ⟨stage', group', hinv', fun n hn => hmono es evs n ?_⟩
    rcases hrecycled n hn with hn | ⟨hfreed, htake⟩
    · exact hlost n hn
    · have hhistory := hinv.history n
      rw [hfreed] at hhistory
      have hexecuted : .executed n ∈ naming n es := by
        rw [hhistory]
        simp [Stage.trace]
      exact htaken pre l hl c es hexec n ((mem_naming rfl).mp hexecuted) htake

theorem exists_inv_of_exec (hplace : JobPool.Placement capacity bases) (hself : self < 2 ^ 64)
    (hne : self ≠ nullptr)
    (husage : Usage index bases.length (boot τ self capacity bases m₀) ls) (hfits : Fits ls)
    (hdelivers : DeliversReady index (boot τ self capacity bases m₀) ls) (hpre : pre <+: ls)
    (h : (CallStacks.step index).exec (boot τ self capacity bases m₀) pre = some (c, es)) :
    ∃ stage group, Inv capacity bases c es stage group := by
  obtain ⟨stage, group, hinv, -⟩ := inv_of_exec (P := fun _ _ => True) hplace hself hne husage
    hfits hdelivers (fun _ _ _ _ => trivial) (fun _ _ _ _ _ _ _ _ _ => trivial) hpre h
  exact ⟨stage, group, hinv⟩

end Runs

end Jobrocket.CallStacks
