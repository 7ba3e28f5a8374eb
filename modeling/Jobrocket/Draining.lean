import Jobrocket.Detail.RNGPeriod
import Jobrocket.GroupBatches
import Jobrocket.WorkerSteps

/-! # One thread finds every job

A thread that only calls `try_run_job` takes the jobs of its own queue first and then steals
from the workers that its generator draws. Over a round the generator draws every worker, so
the thread comes to each queue as often as it has to, and executes every job, whoever
scheduled it.
-/
namespace Jobrocket.FixedWorkStealingQueue
open Library
variable {q : FixedWorkStealingQueue ℕ} {R R' : Finset ℕ} {j k : ℕ}

theorem between_pop (h : q.Between k) : q.pop.1 = some (q.slot k) ∨ q.pop.2.Between k := by
  obtain ⟨hlo, hhi⟩ := h
  have hpred : (q.bottom - 1).toNat = q.bottom.toNat - 1 := toNat_sub_one (by omega)
  rcases word_trichotomy q.top (q.bottom - 1) with htop | htop | htop
  · rw [pop_many htop]
    rcases eq_or_ne k (q.bottom - 1).toNat with rfl | hne
    · exact Or.inl rfl
    · refine Or.inr ⟨hlo, ?_⟩
      dsimp only
      omega
  · have htop' : q.top.toNat = (q.bottom - 1).toNat := congrArg UInt64.toNat htop
    rw [pop_last htop]
    have hk : k = q.top.toNat := by omega
    exact Or.inl (congrArg _ (congrArg _ hk.symm))
  · have hlt := UInt64.lt_iff_toNat_lt.mp htop
    omega

theorem bottom_pop_lt (h : q.Between k) (hleft : q.pop.2.Between j) :
    q.pop.2.bottom.toNat < q.bottom.toNat := by
  obtain ⟨hlo, hhi⟩ := h
  have hpred : (q.bottom - 1).toNat = q.bottom.toNat - 1 := toNat_sub_one (by omega)
  rcases word_trichotomy q.top (q.bottom - 1) with htop | htop | htop
  · rw [pop_many htop]
    dsimp only
    omega
  · -- the last entry is gone
    rw [pop_last htop] at hleft
    exact absurd (hleft.1.trans_lt hleft.2) (lt_irrefl _)
  · have hlt := UInt64.lt_iff_toNat_lt.mp htop
    omega

theorem between_steal (h : q.Between k) : q.steal.1 = some (q.slot k) ∨ q.steal.2.Between k := by
  obtain ⟨hlo, hhi⟩ := h
  have hlt : q.top < q.bottom := UInt64.lt_iff_toNat_lt.mpr (lt_of_le_of_lt hlo hhi)
  have hsucc := toNat_add_one_of_lt hlt
  rw [steal_some hlt]
  rcases eq_or_ne k q.top.toNat with rfl | hne
  · exact Or.inl rfl
  · refine Or.inr ⟨?_, hhi⟩
    dsimp only
    omega

theorem top_lt_steal (h : q.Between k) : q.top.toNat < q.steal.2.top.toNat := by
  have hlt : q.top < q.bottom := UInt64.lt_iff_toNat_lt.mpr (lt_of_le_of_lt h.1 h.2)
  rw [steal_some hlt]
  dsimp only
  rw [toNat_add_one_of_lt hlt]
  exact Nat.lt_succ_self _

/-- The jobs of a set are named by slots only together with an entry. -/
def Held (q : FixedWorkStealingQueue ℕ) (R : Finset ℕ) : Prop :=
  ∀ pos, q.slot pos ∈ R → ∃ k, q.Between k ∧ q.slot k = q.slot pos

theorem Held.mono (h : q.Held R) (hsub : R' ⊆ R) : q.Held R' := fun pos hpos => h pos (hsub hpos)

theorem Held.pop (h : q.Held R) (hsub : R' ⊆ R) (htaken : ∀ p, q.pop.1 = some p → p ∉ R') :
    q.pop.2.Held R' := by
  intro pos hpos
  rw [pop_slot] at hpos ⊢
  obtain ⟨k, hk, hslot⟩ := h pos (hsub hpos)
  rcases between_pop hk with hpop | hk'
  · exact absurd (hslot ▸ hpos) (htaken _ hpop)
  · exact ⟨k, hk', (pop_slot q k).trans hslot⟩

theorem Held.steal (h : q.Held R) (hsub : R' ⊆ R) (htaken : ∀ p, q.steal.1 = some p → p ∉ R') :
    q.steal.2.Held R' := by
  intro pos hpos
  rw [steal_slot] at hpos ⊢
  obtain ⟨k, hk, hslot⟩ := h pos (hsub hpos)
  rcases between_steal hk with hsteal | hk'
  · exact absurd (hslot ▸ hpos) (htaken _ hsteal)
  · exact ⟨k, hk', (steal_slot q k).trans hslot⟩

end Jobrocket.FixedWorkStealingQueue

namespace Jobrocket.Xoroshiro128

/-- From every state but zero the generator comes to draw each worker. -/
theorem exists_victim {r : Xoroshiro128} (hr : r ≠ 0) {workers i : ℕ} (hi : i < workers)
    (hworkers : workers ≤ 2 ^ 64) : ∃ n, victim ((fun s => s.next.2)^[n] r) workers = i := by
  set s := drawnWords.symm (1, UInt64.ofNat i) with hs
  have hpair : drawnWords s = (1, UInt64.ofNat i) := drawnWords.apply_symm_apply _
  have hne : s ≠ 0 := by
    intro hzero
    have hfirst : s.s0 = 1 := congrArg Prod.fst hpair
    rw [hzero] at hfirst
    exact absurd hfirst (by decide)
  have hdrawn : s.next.1 = UInt64.ofNat i := congrArg Prod.snd hpair
  obtain ⟨n, ⟨-, hn⟩, -⟩ := existsUnique_turn hr hne
  refine ⟨n, ?_⟩
  have hvalue : (UInt64.ofNat i).toNat = i :=
    UInt64.toNat_ofNat_of_lt' (lt_of_lt_of_le hi hworkers)
  rw [hn, victim, hdrawn, hvalue, Nat.mod_eq_of_lt hi]

end Jobrocket.Xoroshiro128

namespace Jobrocket.JobSystem
open Library Memory FixedWorkStealingQueue Xoroshiro128

/-- A number of calls of `try_run_job` on worker `w`, with the jobs that they execute. -/
def turns (w : ℕ) : ℕ → JobSystem → List ℕ × JobSystem
  | 0, s => ([], s)
  | n + 1, s =>
    let (job, s) := s.tryRunJob w
    let (jobs, s) := turns w n s
    (job.toList ++ jobs, s)

/-- The layout of the pool, the worker whose thread takes part, and the jobs that were
scheduled, each with the counter of its group. -/
structure Depot where
  capacity : ℕ
  bases : List ℕ
  w : ℕ
  jobs : Finset ℕ
  group : ℕ → ℕ
  placement : JobPool.Placement capacity bases

def Depot.Block (d : Depot) (p : ℕ) : Prop :=
  ∃ i, ∃ hi : i < d.bases.length, p ∈ blocks d.bases[i] Job.size d.capacity

/-- The bytes of a counter lie outside the pool. -/
def Depot.Outside (d : Depot) (g : ℕ) : Prop :=
  ∀ b ∈ d.bases, g + 4 ≤ b ∨ b + Job.size * d.capacity ≤ g

/-- The jobs of `R` are still to be executed. They are ready, and no other job that a slot of
a queue names is. -/
structure Stocked (d : Depot) (s : JobSystem) (R : Finset ℕ) : Prop where
  pool : ∃ live, JobPool.Inv d.capacity d.bases s.pool s.memory live ∧ ∀ p ∈ R, ∃ i, p ∈ live i
  self_ne : s.pool.self ≠ nullptr
  worker : d.w < s.workers.length
  few : s.workers.length ≤ 2 ^ 64
  id : (s.worker d.w).id.toNat = d.w
  rand : (s.worker d.w).rand ≠ 0
  sub : R ⊆ d.jobs
  block : ∀ p ∈ d.jobs, d.Block p
  ready : ∀ p ∈ R, Job.state s.memory p = Job.State.ready.code
  source : ∀ p ∈ R, Job.sourcePool s.memory p = s.pool.self
  group : ∀ p ∈ R, Job.groupCounter s.memory p = d.group p
  outside : ∀ p ∈ d.jobs, d.group p ≠ nullptr → d.Outside (d.group p)
  done : ∀ p ∈ d.jobs, p ∉ R → Job.state s.memory p = Job.State.completed.code
  named : ∀ v pos, (s.queue v).slot pos = nullptr ∨ d.Block ((s.queue v).slot pos)
  stale : ∀ v pos, (s.queue v).slot pos ∉ R → Job.isReady s.memory ((s.queue v).slot pos) = false
  queued : ∀ p ∈ R, ∃ v < s.workers.length, ∃ pos, (s.queue v).slot pos = p

/-- Where a slot names a job that is still to be executed, an entry of its queue does. -/
def Entered (s : JobSystem) (R : Finset ℕ) : Prop := ∀ v, (s.queue v).Held R

section Blocks
variable {d : Depot} {s : JobSystem} {R : Finset ℕ} {p q g lo hi : ℕ}

theorem Depot.Block.ne_null (h : d.Block p) : p ≠ nullptr := by
  obtain ⟨i, hi, hp⟩ := h
  have hbase := d.placement.nonnull _ (List.getElem_mem hi)
  have hbounds := blocks_bounds hp
  unfold nullptr at *
  omega

theorem Depot.Block.apart (hp : d.Block p) (hq : d.Block q) (hne : p ≠ q) :
    p + Job.size ≤ q ∨ q + Job.size ≤ p := by
  obtain ⟨i, hi, hp⟩ := hp
  obtain ⟨j, hj, hq⟩ := hq
  exact d.placement.blocks_apart hi hj hp hq (Or.inr hne)

theorem Depot.Block.outside (h : d.Block p) (hg : d.Outside g) :
    g + 4 ≤ p ∨ p + Job.size ≤ g := by
  obtain ⟨i, hi, hp⟩ := h
  have hbounds := blocks_bounds hp
  have hout := hg _ (List.getElem_mem hi)
  omega

theorem Depot.Block.same (hp : d.Block p) (hq : d.Block q) (hne : q ≠ p) {m : Memory}
    (hg : g ≠ nullptr → d.Outside g) : m.Same (afterRun m g p) q (q + Job.size) := by
  refine same_afterRun ?_ fun hne => ?_
  · have hapart := hp.apart hq hne.symm
    unfold Job.size at *
    omega
  · have hout := hq.outside (hg hne)
    omega

theorem Stocked.outside_of_mem (h : Stocked d s R) (hp : p ∈ R) :
    d.group p ≠ nullptr → d.Outside (d.group p) := h.outside p (h.sub hp)

theorem Stocked.isReady_iff (h : Stocked d s R) (v pos : ℕ) :
    Job.isReady s.memory ((s.queue v).slot pos) = true ↔ (s.queue v).slot pos ∈ R := by
  constructor
  · intro hready
    by_contra hp
    rw [h.stale v pos hp] at hready
    cases hready
  · intro hp
    exact Job.isReady_iff.mpr ⟨(h.block _ (h.sub hp)).ne_null, h.ready _ hp⟩

end Blocks

section Take
variable {d : Depot} {s : JobSystem} {R : Finset ℕ} {v : ℕ} {q : FixedWorkStealingQueue ℕ}
variable {r : Xoroshiro128} {taken : Option ℕ}

theorem worker_setQueue (s : JobSystem) (v w : ℕ) (q : FixedWorkStealingQueue ℕ) :
    ((s.setQueue v q).worker w).id = (s.worker w).id ∧
      ((s.setQueue v q).worker w).rand = (s.worker w).rand := by
  simp only [worker, setQueue, List.getD_eq_getElem?_getD, List.getElem?_modify]
  by_cases hv : v = w
  · subst hv
    cases s.workers[v]? <;> simp
  · cases s.workers[w]? <;> simp [hv]

theorem worker_setRand (h : v < s.workers.length) :
    ((s.setRand v r).worker v).id = (s.worker v).id ∧ ((s.setRand v r).worker v).rand = r := by
  simp [worker, setRand, List.getD_eq_getElem?_getD, h]

theorem slot_setQueue (hslot : ∀ pos, q.slot pos = (s.queue v).slot pos) (w pos : ℕ) :
    ((s.setQueue v q).queue w).slot pos = (s.queue w).slot pos := by
  by_cases hw : w = v
  · subst hw
    by_cases hlt : w < s.workers.length
    · rw [queue_setQueue hlt, hslot]
    · rw [setQueue, List.modify_eq_self (not_lt.mp hlt)]
  · rw [queue_setQueue_ne hw]

theorem Stocked.setQueue (h : Stocked d s R)
    (hslot : ∀ pos, q.slot pos = (s.queue v).slot pos) : Stocked d (s.setQueue v q) R := by
  obtain ⟨hid, hrand⟩ := worker_setQueue s v d.w q
  have hslots := slot_setQueue hslot
  refine { h with worker := ?_, few := ?_, id := hid ▸ h.id, rand := hrand ▸ h.rand,
                  named := fun w pos => ?_, stale := fun w pos => ?_, queued := fun p hp => ?_ }
  · rw [setQueue_workers_length]
    exact h.worker
  · rw [setQueue_workers_length]
    exact h.few
  · rw [hslots]
    exact h.named w pos
  · rw [hslots]
    exact h.stale w pos
  · obtain ⟨w, hw, pos, rfl⟩ := h.queued p hp
    exact ⟨w, setQueue_workers_length.symm ▸ hw, pos, hslots w pos⟩

theorem Stocked.setRand (h : Stocked d s R) (hr : r ≠ 0) : Stocked d (s.setRand d.w r) R := by
  obtain ⟨hid, hrand⟩ := worker_setRand (r := r) h.worker
  refine { h with worker := ?_, few := ?_, id := hid ▸ h.id, rand := hrand.symm ▸ hr,
                  named := fun w pos => ?_, stale := fun w pos => ?_, queued := fun p hp => ?_ }
  · rw [setRand_workers_length]
    exact h.worker
  · rw [setRand_workers_length]
    exact h.few
  · rw [queue_setRand]
    exact h.named w pos
  · rw [queue_setRand]
    exact h.stale w pos
  · obtain ⟨w, hw, pos, rfl⟩ := h.queued p hp
    exact ⟨w, setRand_workers_length.symm ▸ hw, pos, by rw [queue_setRand]⟩

theorem Stocked.readyJob (h : Stocked d s R)
    (htaken : ∀ p, taken = some p → ∃ pos, p = (s.queue v).slot pos) :
    (∀ p, s.readyJob taken = some p → p ∈ R) ∧
      ∀ p, taken = some p → p ∉ R \ (s.readyJob taken).toFinset := by
  have hready : ∀ p, taken = some p → (Job.isReady s.memory p = true ↔ p ∈ R) := by
    intro p hp
    obtain ⟨pos, rfl⟩ := htaken p hp
    exact h.isReady_iff v pos
  constructor
  · intro p hp
    obtain ⟨hp, hp'⟩ := readyJob_eq_some hp
    exact (hready p hp).mp hp'
  · intro p hp hmem
    obtain ⟨hp', hnot⟩ := Finset.mem_sdiff.mp hmem
    subst hp
    have hfound : s.readyJob (some p) = some p :=
      Option.filter_some_pos ((hready p rfl).mpr hp')
    rw [hfound] at hnot
    simp at hnot

theorem Entered.setQueue {R' : Finset ℕ} (h : Entered s R) (hsub : R' ⊆ R) (hq : q.Held R') :
    Entered (s.setQueue v q) R' := by
  intro w
  by_cases hw : w = v
  · subst hw
    by_cases hlt : w < s.workers.length
    · rwa [queue_setQueue hlt]
    · rw [JobSystem.setQueue, List.modify_eq_self (not_lt.mp hlt)]
      exact (h w).mono hsub
  · rw [queue_setQueue_ne hw]
    exact (h w).mono hsub

theorem Stocked.popJob (h : Stocked d s R) (he : Entered s R) :
    Stocked d (s.popJob d.w).2 R ∧ (∀ p, (s.popJob d.w).1 = some p → p ∈ R) ∧
      Entered (s.popJob d.w).2 (R \ (s.popJob d.w).1.toFinset) := by
  have hfrom : ∀ p, (s.queue d.w).pop.1 = some p → ∃ pos, p = (s.queue d.w).slot pos := by
    intro p hp
    obtain ⟨pos, -, hslot⟩ := (pop_between (s.queue d.w)).1 p hp
    exact ⟨pos, hslot⟩
  obtain ⟨hmem, htaken⟩ := h.readyJob hfrom
  have hsub := Finset.sdiff_subset (s := R) (t := (s.popJob d.w).1.toFinset)
  refine ⟨h.setQueue (pop_slot _), hmem, ?_⟩
  exact he.setQueue hsub ((he d.w).pop hsub htaken)

theorem Stocked.stealJob (h : Stocked d s R) (he : Entered s R) :
    Stocked d (s.stealJob d.w).2 R ∧ (∀ p, (s.stealJob d.w).1 = some p → p ∈ R) ∧
      Entered (s.stealJob d.w).2 (R \ (s.stealJob d.w).1.toFinset) := by
  have hrand : (s.worker d.w).rand.next.2 ≠ 0 := iterate_ne_zero h.rand 1
  have hnext := h.setRand hrand
  set s₁ := s.setRand d.w (s.worker d.w).rand.next.2 with hs₁
  have he₁ : Entered s₁ R := fun v => by
    rw [hs₁, queue_setRand]
    exact he v
  simp only [JobSystem.stealJob]
  split
  · set v := (s.worker d.w).rand.next.1.toNat % s₁.workers.length
    have hfrom : ∀ p, (s₁.queue v).steal.1 = some p → ∃ pos, p = (s₁.queue v).slot pos := by
      intro p hp
      obtain ⟨pos, -, hslot⟩ := (steal_between (s₁.queue v)).1 p hp
      exact ⟨pos, hslot⟩
    obtain ⟨hmem, htaken⟩ := hnext.readyJob hfrom
    have hsub := Finset.sdiff_subset (s := R)
      (t := (s₁.readyJob (s₁.queue v).steal.1).toFinset)
    refine ⟨hnext.setQueue (steal_slot _), hmem, ?_⟩
    exact he₁.setQueue hsub ((he₁ v).steal hsub htaken)
  · refine ⟨hnext, fun p hp => absurd hp (Option.some_ne_none p).symm, ?_⟩
    exact fun v => (he₁ v).mono Finset.sdiff_subset

/-- A turn that executes nothing: the own queue is popped, and the worker drawn is stolen from
unless it is the own one. -/
structure Idle (w : ℕ) (s s' : JobSystem) : Prop where
  rand : (s'.worker w).rand = (s.worker w).rand.next.2
  length : s'.workers.length = s.workers.length
  own : s'.queue w = (s.queue w).pop.2
  others : ∀ v, v ≠ w → s'.queue v =
    if victim (s.worker w).rand s.workers.length = v then (s.queue v).steal.2 else s.queue v

theorem idle_of_getNextJob (hw : v < s.workers.length) (hid : (s.worker v).id.toNat = v)
    (hpop : (s.popJob v).1 = none) : Idle v s (s.getNextJob v).2 := by
  have hlen : (s.popJob v).2.workers.length = s.workers.length := setQueue_workers_length
  obtain ⟨hid₁, hrand₁⟩ := worker_setQueue s v v (s.queue v).pop.2
  have hid' : ((s.popJob v).2.worker v).id = (s.worker v).id := hid₁
  have hrand' : ((s.popJob v).2.worker v).rand = (s.worker v).rand := hrand₁
  have hown : (s.popJob v).2.queue v = (s.queue v).pop.2 := queue_setQueue hw
  have hother : ∀ u, u ≠ v → (s.popJob v).2.queue u = s.queue u := fun u hu => queue_setQueue_ne hu
  have hget : (s.getNextJob v).2 = ((s.popJob v).2.stealJob v).2 := by rw [getNextJob_eq, hpop]
  rw [hget]
  set s₁ := (s.popJob v).2
  have hw₁ : v < s₁.workers.length := hlen.symm ▸ hw
  obtain ⟨hid₂, hrand₂⟩ := worker_setRand (r := (s₁.worker v).rand.next.2) hw₁
  set s₂ := s₁.setRand v (s₁.worker v).rand.next.2 with hs₂
  have hlen₂ : s₂.workers.length = s.workers.length := setRand_workers_length.trans hlen
  have hdrawn : (s₁.worker v).rand.next.1.toNat % s₂.workers.length =
      victim (s.worker v).rand s.workers.length := by rw [hlen₂, hrand', victim]
  have hdraws : (s₂.worker v).id.toNat = v := by rw [hid₂, hid', hid]
  simp only [JobSystem.stealJob, ← hs₂, hdrawn, hdraws]
  split
  · next hne =>
    constructor
    case rand => rw [(worker_setQueue s₂ _ v _).2, hrand₂, hrand']
    case length => exact setQueue_workers_length.trans hlen₂
    case own => rw [queue_setQueue_ne (Ne.symm hne), hs₂, queue_setRand, hown]
    case others =>
      intro u hu
      split
      · next heq =>
        subst heq
        rw [queue_setQueue (hlen₂.symm ▸ Nat.mod_lt _ (Nat.zero_lt_of_lt hw)), hs₂, queue_setRand,
          hother _ hu]
      · next hneq => rw [queue_setQueue_ne (Ne.symm hneq), hs₂, queue_setRand, hother u hu]
  · next heq =>
    constructor
    case rand => rw [hrand₂, hrand']
    case length => exact hlen₂
    case own => rw [hs₂, queue_setRand, hown]
    case others =>
      intro u hu
      rw [if_neg (fun h => hu (h.symm.trans (not_not.mp heq))), hs₂, queue_setRand, hother u hu]

theorem stealJob_memory (s : JobSystem) (w : ℕ) : (s.stealJob w).2.memory = s.memory := by
  simp only [JobSystem.stealJob]
  split <;> rfl

theorem Stocked.getNextJob (h : Stocked d s R) (he : Entered s R) :
    ∃ o s', s.getNextJob d.w = (o, s') ∧ Stocked d s' R ∧ (∀ p, o = some p → p ∈ R) ∧
      Entered s' (R \ o.toFinset) ∧ s'.memory = s.memory ∧ s'.activeJobs = s.activeJobs ∧
      (o = none → Idle d.w s s') := by
  obtain ⟨hnext, hmem, hentered⟩ := h.popJob he
  rw [getNextJob_eq]
  cases hpop : (s.popJob d.w).1 with
  | some p =>
    refine ⟨some p, _, rfl, hnext, ?_, hpop ▸ hentered, rfl, rfl, fun hnone => by cases hnone⟩
    exact fun q hq => hmem q (hpop.trans hq)
  | none =>
    rw [hpop, Option.toFinset_none, Finset.sdiff_empty] at hentered
    obtain ⟨hnext', hmem', hentered'⟩ := hnext.stealJob hentered
    have hidle := idle_of_getNextJob h.worker h.id hpop
    rw [getNextJob_eq, hpop] at hidle
    exact ⟨((s.popJob d.w).2.stealJob d.w).1, ((s.popJob d.w).2.stealJob d.w).2, rfl, hnext', hmem',
      hentered', stealJob_memory _ d.w, stealJob_activeJobs, fun _ => hidle⟩

end Take

section Run
variable {d : Depot} {s : JobSystem} {R : Finset ℕ} {p : ℕ}

/-- The execution of a job takes it from those that are to be executed, and the blocks of all
others stay as they are. -/
theorem Stocked.runJob (h : Stocked d s R) (hp : p ∈ R) :
    Stocked d (s.runJob p) (R \ {p}) ∧
      (s.runJob p).memory = afterRun s.memory (d.group p) p ∧
      (s.runJob p).activeJobs = AtomicCounter.decrement s.activeJobs := by
  obtain ⟨live, hpool, hlive⟩ := h.pool
  obtain ⟨i, hi⟩ := hlive p hp
  have hblock := h.block p (h.sub hp)
  have hg := h.outside_of_mem hp
  have hcounter : d.group p ≠ nullptr → d.group p + 4 ≤ p ∨ p + Job.size ≤ d.group p :=
    fun hne => hblock.outside (hg hne)
  have hrun := runJob_afterRun h.self_ne (h.source p hp) (h.group p hp) hcounter
  obtain ⟨hfree, hself⟩ := (inv_afterRun hpool d.placement hi hg).freeJob d.placement hi
  have hcompleted := state_afterRun (m := s.memory) hcounter
  have hsame : ∀ q, d.Block q → q ≠ p →
      s.memory.Same (afterRun s.memory (d.group p) p) q (q + Job.size) :=
    fun q hq hne => hblock.same hq hne hg
  have hstate : ∀ q, d.Block q → q ≠ p →
      Job.state (afterRun s.memory (d.group p) p) q = Job.state s.memory q :=
    fun q hq hne => Job.state_of_same ((hsame q hq hne).mono (Nat.le_add_right q 8) le_rfl)
  have hmem : ∀ q, q ∈ R \ {p} ↔ q ∈ R ∧ q ≠ p := by simp
  rw [hrun]
  refine ⟨?_, rfl, rfl⟩
  constructor
  case pool =>
    refine ⟨_, hfree, fun q hq => ?_⟩
    obtain ⟨hq, hne⟩ := (hmem q).mp hq
    exact hpool.mem_live_erase.mpr ⟨hne, hlive q hq⟩
  case self_ne => exact hself.symm ▸ h.self_ne
  case worker => exact h.worker
  case few => exact h.few
  case id => exact h.id
  case rand => exact h.rand
  case sub => exact Finset.sdiff_subset.trans h.sub
  case block => exact h.block
  case ready =>
    intro q hq
    obtain ⟨hq, hne⟩ := (hmem q).mp hq
    exact (hstate q (h.block q (h.sub hq)) hne).trans (h.ready q hq)
  case source =>
    intro q hq
    obtain ⟨hq, hne⟩ := (hmem q).mp hq
    exact (Job.sourcePool_of_same (hsame q (h.block q (h.sub hq)) hne)).trans
      ((h.source q hq).trans hself.symm)
  case group =>
    intro q hq
    obtain ⟨hq, hne⟩ := (hmem q).mp hq
    have hfields := (hsame q (h.block q (h.sub hq)) hne).mono (Nat.le_add_right q 8) le_rfl
    exact (Job.groupCounter_of_same hfields).trans (h.group q hq)
  case outside => exact h.outside
  case done =>
    intro q hq hnot
    by_cases hne : q = p
    · subst hne
      exact hcompleted
    · have hold : q ∉ R := fun hqR => hnot ((hmem q).mpr ⟨hqR, hne⟩)
      exact (hstate q (h.block q hq) hne).trans (h.done q hq hold)
  case named => exact h.named
  case stale =>
    intro v pos hnot
    change (s.queue v).slot pos ∉ R \ {p} at hnot
    change Job.isReady (afterRun s.memory (d.group p) p) ((s.queue v).slot pos) = false
    by_cases hne : (s.queue v).slot pos = p
    · rw [hne, Job.isReady, hcompleted]
      simp [Job.State.code]
    · have hold : (s.queue v).slot pos ∉ R := fun hR => hnot ((hmem _).mpr ⟨hR, hne⟩)
      rcases h.named v pos with hnull | hblock'
      · simp [Job.isReady, hnull]
      · rw [← h.stale v pos hold, Job.isReady, Job.isReady, hstate _ hblock' hne]
  case queued => exact fun q hq => h.queued q ((hmem q).mp hq).1

/-- A turn: what was executed, and what it left. -/
structure Turned (d : Depot) (s s' : JobSystem) (R : Finset ℕ) (o : Option ℕ) : Prop where
  stocked : Stocked d s' (R \ o.toFinset)
  entered : Entered s' (R \ o.toFinset)
  mem : ∀ p, o = some p → p ∈ R
  memory : s'.memory = o.elim s.memory fun p => afterRun s.memory (d.group p) p
  active : s'.activeJobs = o.elim s.activeJobs fun _ => AtomicCounter.decrement s.activeJobs
  idle : o = none → Idle d.w s s'

theorem Stocked.tryRunJob (h : Stocked d s R) (he : Entered s R) :
    ∃ o s', s.tryRunJob d.w = (o, s') ∧ Turned d s s' R o := by
  obtain ⟨o, s₁, hnext, hstocked, hmem, hentered, hmemory, hactive, hidle⟩ := h.getNextJob he
  cases o with
  | none =>
    rw [Option.toFinset_none, Finset.sdiff_empty] at hentered
    refine ⟨none, s₁, by rw [JobSystem.tryRunJob, hnext], ?_⟩
    constructor
    case stocked => simpa using hstocked
    case entered => simpa using hentered
    case mem => exact hmem
    case memory => exact hmemory
    case active => exact hactive
    case idle => exact hidle
  | some p =>
    obtain ⟨hrun, hmemory', hactive'⟩ := hstocked.runJob (hmem p rfl)
    refine ⟨some p, s₁.runJob p, by rw [JobSystem.tryRunJob, hnext], ?_⟩
    constructor
    case stocked => rwa [Option.toFinset_some]
    case entered =>
      intro v
      rw [queue_of_workers (runJob_workers s₁ p)]
      exact hentered v
    case mem => exact hmem
    case memory => rw [hmemory', hmemory, Option.elim_some]
    case active => rw [hactive', hactive, Option.elim_some]
    case idle => exact fun hnone => by cases hnone

end Run

section Turns
variable {d : Depot} {s s' : JobSystem} {R : Finset ℕ} {w v : ℕ} {o : Option ℕ}

theorem turns_succ (h : s.tryRunJob w = (o, s')) (n : ℕ) :
    turns w (n + 1) s = (o.toList ++ (turns w n s').1, (turns w n s').2) := by
  rw [turns, h]

theorem turns_add (w m n : ℕ) (s : JobSystem) :
    turns w (m + n) s =
      ((turns w m s).1 ++ (turns w n (turns w m s).2).1, (turns w n (turns w m s).2).2) := by
  induction m generalizing s with
  | zero => rw [Nat.zero_add, turns, List.nil_append]
  | succ m ih =>
    have hturn : s.tryRunJob w = ((s.tryRunJob w).1, (s.tryRunJob w).2) := rfl
    rw [Nat.succ_add, turns_succ hturn, turns_succ hturn, ih, List.append_assoc]

theorem Stocked.after (h : Stocked d s R) (he : Entered s R) (n : ℕ) :
    ∃ jobs s', turns d.w n s = (jobs, s') ∧ Stocked d s' (R \ jobs.toFinset) ∧
      Entered s' (R \ jobs.toFinset) ∧ jobs.Nodup ∧ (∀ p ∈ jobs, p ∈ R) ∧
      s'.memory = jobs.foldl (fun m p => afterRun m (d.group p) p) s.memory ∧
      s'.activeJobs.toNat = s.activeJobs.toNat - jobs.length := by
  induction n generalizing s R with
  | zero =>
    refine ⟨[], s, rfl, ?_, ?_, List.nodup_nil, by simp, rfl, rfl⟩ <;>
      rwa [List.toFinset_nil, Finset.sdiff_empty]
  | succ n ih =>
    obtain ⟨o, s₁, hturn, hturned⟩ := h.tryRunJob he
    obtain ⟨jobs, s', hturns, hstocked, hentered, hnodup, hmem, hmemory, hactive⟩ :=
      ih hturned.stocked hturned.entered
    have hsdiff : (R \ o.toFinset) \ jobs.toFinset = R \ (o.toList ++ jobs).toFinset := by
      rw [List.toFinset_append, sdiff_sdiff_left]
      cases o <;> rfl
    rw [hsdiff] at hstocked hentered
    have hnot : ∀ p ∈ jobs, p ∈ R ∧ p ∉ o.toFinset := fun p hp => Finset.mem_sdiff.mp (hmem p hp)
    refine ⟨o.toList ++ jobs, s', ?_, hstocked, hentered, ?_, ?_, ?_, ?_⟩
    · rw [turns_succ hturn, hturns]
    · cases o with
      | none => exact hnodup
      | some p => exact List.nodup_cons.mpr ⟨fun hp => (hnot p hp).2 (by simp), hnodup⟩
    · intro p hp
      rcases List.mem_append.mp hp with hp | hp
      · exact hturned.mem p (Option.mem_toList.mp hp)
      · exact (hnot p hp).1
    · rw [hmemory, hturned.memory]
      cases o <;> rfl
    · rw [hactive, hturned.active]
      cases o with
      | none => rfl
      | some p =>
        have hdecrement := AtomicCounter.decrement_toNat s.activeJobs
        simp only [Option.elim_some, Option.toList_some, List.length_append, List.length_singleton]
        omega

theorem exists_turns (h : Stocked d s R) (he : Entered s R)
    (hidle : ∀ s', Stocked d s' R → Entered s' R → Idle d.w s s' → ∃ n, (turns d.w n s').1 ≠ []) :
    ∃ n, (turns d.w n s).1 ≠ [] := by
  obtain ⟨o, s', hturn, hturned⟩ := h.tryRunJob he
  have hstocked := hturned.stocked
  have hentered := hturned.entered
  cases o with
  | some p => exact ⟨1, by simp [turns_succ hturn]⟩
  | none =>
    rw [Option.toFinset_none, Finset.sdiff_empty] at hstocked hentered
    obtain ⟨n, hn⟩ := hidle s' hstocked hentered (hturned.idle rfl)
    exact ⟨n + 1, by rwa [turns_succ hturn]⟩

/-- The pops come to a job in the own queue. -/
theorem Stocked.exists_own (h : Stocked d s R) (he : Entered s R)
    (hown : ∃ pos, (s.queue d.w).slot pos ∈ R) : ∃ n, (turns d.w n s).1 ≠ [] := by
  induction hm : (s.queue d.w).bottom.toNat using Nat.strong_induction_on generalizing s with
  | _ m ih =>
    refine exists_turns h he fun s' h' he' hidle => ?_
    obtain ⟨pos, hpos⟩ := hown
    have hslot : (s'.queue d.w).slot pos = (s.queue d.w).slot pos := by rw [hidle.own, pop_slot]
    obtain ⟨k, hk, -⟩ := he d.w pos hpos
    obtain ⟨j, hj, -⟩ := he' d.w pos (hslot.symm ▸ hpos)
    have hlt : (s'.queue d.w).bottom.toNat < m := by
      rw [hidle.own] at hj ⊢
      exact hm ▸ bottom_pop_lt hk hj
    exact ih _ hlt h' he' ⟨pos, hslot.symm ▸ hpos⟩ rfl

/-- A turn that draws worker `v` brings the search on, as the steal takes the first entry. -/
theorem Stocked.exists_drawn (h : Stocked d s R) (he : Entered s R) (hv : v ≠ d.w)
    (hin : ∃ pos, (s.queue v).slot pos ∈ R)
    (hdrawn : victim (s.worker d.w).rand s.workers.length = v)
    (hnext : ∀ s', Stocked d s' R → Entered s' R → s'.workers.length = s.workers.length →
      (∃ pos, (s'.queue v).slot pos ∈ R) → (s.queue v).top.toNat < (s'.queue v).top.toNat →
      ∃ n, (turns d.w n s').1 ≠ []) : ∃ n, (turns d.w n s).1 ≠ [] := by
  refine exists_turns h he fun s' h' he' hidle => ?_
  obtain ⟨pos, hpos⟩ := hin
  have hqueue : s'.queue v = (s.queue v).steal.2 := by rw [hidle.others v hv, if_pos hdrawn]
  have hslot : (s'.queue v).slot pos = (s.queue v).slot pos := by rw [hqueue, steal_slot]
  obtain ⟨k, hk, -⟩ := he v pos hpos
  refine hnext s' h' he' hidle.length ⟨pos, hslot.symm ▸ hpos⟩ ?_
  rw [hqueue]
  exact top_lt_steal hk

/-- The steals come to a job in another queue: the generator draws its worker again and again. -/
theorem Stocked.exists_other (h : Stocked d s R) (he : Entered s R) (hv : v ≠ d.w)
    (hlt : v < s.workers.length) (hin : ∃ pos, (s.queue v).slot pos ∈ R) :
    ∃ n, (turns d.w n s).1 ≠ [] := by
  induction hm : 2 ^ 64 - (s.queue v).top.toNat using Nat.strong_induction_on generalizing s with
  | _ m ih =>
    have hfound : ∀ s', Stocked d s' R → Entered s' R → v < s'.workers.length →
        (∃ pos, (s'.queue v).slot pos ∈ R) → 2 ^ 64 - (s'.queue v).top.toNat < m →
        ∃ n, (turns d.w n s').1 ≠ [] :=
      fun s' h' he' hlt' hin' hless => ih _ hless h' he' hlt' hin' rfl
    have hstep : ∀ s' : JobSystem, (s.queue v).top.toNat < (s'.queue v).top.toNat →
        2 ^ 64 - (s'.queue v).top.toNat < m := by
      intro s' htop
      have hmax := (s'.queue v).top.toNat_lt
      omega
    obtain ⟨n, hn⟩ := exists_victim h.rand hlt h.few
    clear ih
    induction n generalizing s with
    | zero =>
      exact h.exists_drawn he hv hin hn fun s' h' he' hlen hin' htop =>
        hfound s' h' he' (hlen.symm ▸ hlt) hin' (hstep s' htop)
    | succ n ihn =>
      by_cases hdrawn : victim (s.worker d.w).rand s.workers.length = v
      · exact h.exists_drawn he hv hin hdrawn fun s' h' he' hlen hin' htop =>
          hfound s' h' he' (hlen.symm ▸ hlt) hin' (hstep s' htop)
      · refine exists_turns h he fun s' h' he' hidle => ?_
        have hqueue : s'.queue v = s.queue v := by rw [hidle.others v hv, if_neg hdrawn]
        rw [Function.iterate_succ_apply, ← hidle.rand, ← hidle.length] at hn
        refine ihn h' he' (hidle.length ▸ hlt) (hqueue ▸ hin) (hqueue ▸ hm) (fun s'' htop => ?_) hn
        exact hstep s'' (hqueue ▸ htop)

theorem Stocked.exists_turn (h : Stocked d s R) (he : Entered s R) (hR : R.Nonempty) :
    ∃ n, (turns d.w n s).1 ≠ [] := by
  obtain ⟨p, hp⟩ := hR
  obtain ⟨v, hlt, pos, rfl⟩ := h.queued p hp
  by_cases hv : v = d.w
  · exact h.exists_own he ⟨pos, hv ▸ hp⟩
  · exact h.exists_other he hv hlt ⟨pos, hp⟩

theorem Stocked.exists_empty (h : Stocked d s R) (he : Entered s R) :
    ∃ n, ∀ m, n ≤ m → R \ (turns d.w m s).1.toFinset = ∅ := by
  induction hcard : R.card using Nat.strong_induction_on generalizing s R with
  | _ c ih =>
    rcases R.eq_empty_or_nonempty with rfl | hR
    · exact ⟨0, fun m _ => Finset.empty_sdiff _⟩
    obtain ⟨n, hn⟩ := h.exists_turn he hR
    obtain ⟨jobs, s', hturns, hstocked, hentered, -, hmem, -⟩ := h.after he n
    rw [hturns] at hn
    obtain ⟨p, hp⟩ := List.exists_mem_of_ne_nil _ hn
    have hless : (R \ jobs.toFinset).card < c := by
      rw [← hcard]
      refine Finset.card_lt_card ((Finset.ssubset_iff_of_subset Finset.sdiff_subset).mpr ?_)
      exact ⟨p, hmem p hp, by simp [hp]⟩
    obtain ⟨n', hn'⟩ := ih _ hless hstocked hentered rfl
    refine ⟨n + n', fun m hm => ?_⟩
    obtain ⟨k, rfl⟩ := Nat.exists_eq_add_of_le (le_trans (Nat.le_add_right n n') hm)
    have hleft := hn' k (by omega)
    rwa [turns_add, hturns, List.toFinset_append, ← Finset.sup_eq_union, ← sdiff_sdiff_left]

end Turns

section Waits
variable {d : Depot} {s : JobSystem} {R : Finset ℕ} {w p g n : ℕ}

theorem exists_wait (hp : p ≠ nullptr)
    (h : Job.state (turns w n s).2.memory p = Job.State.completed.code) :
    ∃ k s', wait k s w p = some (.returned, s') ∧
      Job.state s'.memory p = Job.State.completed.code := by
  induction n generalizing s with
  | zero =>
    have hnow : Job.state s.memory p = Job.State.completed.code := h
    exact ⟨1, s, by rw [wait, if_neg hp, if_neg (not_not.mpr hnow)], hnow⟩
  | succ n ih =>
    by_cases hnow : Job.state s.memory p = Job.State.completed.code
    · exact ⟨1, s, by rw [wait, if_neg hp, if_neg (not_not.mpr hnow)], hnow⟩
    · obtain ⟨k, s', hwait, hstate⟩ := ih (s := (s.tryRunJob w).2) h
      exact ⟨k + 1, s', by rw [wait, if_neg hp, if_pos hnow, hwait], hstate⟩

theorem exists_waitForAll (h : (turns w n s).2.memory.load 4 g = 0) :
    ∃ k j done, waitForAll k s w g = some (done, (turns w j s).2) ∧
      (turns w j s).2.memory.load 4 g = 0 := by
  have hzero : ∀ s : JobSystem, ¬ s.memory.load 4 g > 0 →
      ∃ k j done, waitForAll k s w g = some (done, (turns w j s).2) ∧
        (turns w j s).2.memory.load 4 g = 0 := by
    intro s hnow
    refine ⟨1, 0, [], ?_, Nat.eq_zero_of_not_pos hnow⟩
    rw [waitForAll, if_neg hnow, turns]
  induction n generalizing s with
  | zero =>
    have hnow : s.memory.load 4 g = 0 := h
    exact hzero s (by omega)
  | succ n ih =>
    by_cases hnow : s.memory.load 4 g > 0
    · obtain ⟨k, j, done, hloop, hend⟩ := ih (s := (s.tryRunJob w).2) h
      let taken := (s.tryRunJob w).1.toList.map fun p => (p, buffer s.memory p)
      refine ⟨k + 1, j + 1, taken ++ done, ?_, hend⟩
      rw [waitForAll, if_pos hnow]
      simp only [hloop, Option.map_some]
      rfl
    · exact hzero s hnow

/-- The counter `g` counts the jobs of its group down, and no other counter overlaps with it. -/
theorem load_foldl_afterRun {jobs : List ℕ} {m : Memory} (hblock : ∀ p ∈ jobs, d.Block p)
    (hg : g ≠ nullptr) (hout : d.Outside g)
    (hapart : ∀ p ∈ jobs, d.group p = g ∨ d.group p = nullptr ∨ d.group p + 4 ≤ g ∨
      g + 4 ≤ d.group p) :
    (jobs.foldl (fun m p => afterRun m (d.group p) p) m).load 4 g =
      m.load 4 g - jobs.countP fun p => d.group p = g := by
  induction jobs generalizing m with
  | nil => rfl
  | cons p jobs ih =>
    have hp := (hblock p List.mem_cons_self).outside hout
    unfold Job.size at hp
    have hone : (afterRun m (d.group p) p).load 4 g =
        m.load 4 g - if d.group p = g then 1 else 0 := by
      have hexecute : (execute m p).load 4 g = m.load 4 g :=
        (same_execute m p (by omega)).load_eq le_rfl le_rfl
      by_cases heq : d.group p = g
      · rw [if_pos heq, heq, afterRun, if_pos hg, load_decrementAt, hexecute]
      · have hcounter := (hapart p List.mem_cons_self).resolve_left heq
        have hsame : m.Same (afterRun m (d.group p) p) g (g + 4) :=
          same_afterRun (by omega) fun hne => by
            have := hcounter.resolve_left hne
            omega
        rw [if_neg heq, hsame.load_eq le_rfl le_rfl, Nat.sub_zero]
    rw [List.foldl_cons, ih (fun q hq => hblock q (List.mem_cons_of_mem p hq))
      (fun q hq => hapart q (List.mem_cons_of_mem p hq)), hone, List.countP_cons, Nat.sub_sub,
      Nat.add_comm]
    simp only [decide_eq_true_eq]

/-- Whether a list lacks some of the members of a set that have a property. -/
theorem card_sub_countP {jobs : List ℕ} (hnodup : jobs.Nodup) (hsub : ∀ p ∈ jobs, p ∈ R)
    (P : ℕ → Prop) [DecidablePred P] :
    (R.filter P).card - jobs.countP (P ·) = 0 ↔ ∀ p ∈ R, P p → p ∈ jobs := by
  have hcount : jobs.countP (P ·) = (jobs.toFinset.filter P).card := by
    rw [List.countP_eq_length_filter, ← List.toFinset_card_of_nodup (hnodup.filter _),
      List.toFinset_filter]
    simp only [decide_eq_true_eq]
  have hsubset : jobs.toFinset.filter P ⊆ R.filter P :=
    Finset.filter_subset_filter P fun p hp => hsub p (List.mem_toFinset.mp hp)
  rw [hcount, Nat.sub_eq_zero_iff_le]
  constructor
  · intro hle p hp hP
    have hmem : p ∈ jobs.toFinset.filter P := by
      rw [Finset.eq_of_subset_of_card_le hsubset hle]
      exact Finset.mem_filter.mpr ⟨hp, hP⟩
    exact List.mem_toFinset.mp (Finset.mem_filter.mp hmem).1
  · intro hall
    refine Finset.card_le_card fun p hp => ?_
    obtain ⟨hp, hP⟩ := Finset.mem_filter.mp hp
    exact Finset.mem_filter.mpr ⟨List.mem_toFinset.mpr (hall p hp hP), hP⟩

end Waits

section Pair

/-- Two workers. A job in the group at 512 is in the queue of the second one. -/
abbrev pairSite : Site where
  capacity := 2
  bases := [1024]
  queueCapacity := 4
  system := start 16 2 [1024] 2 4 fun _ => 0
  w := 1
  i := 0
  live := fun _ => []
  entries := []
  placement := smallSite.placement
  thread := smallSite.thread

def pairSystem : JobSystem := (pairSite.system.groupRuns 1 0 512 [[1]]).2

/-- The thread of the first worker takes part. -/
abbrev pairDepot : Depot where
  capacity := 2
  bases := [1024]
  w := 0
  jobs := {1024}
  group := fun _ => 512
  placement := pairSite.placement

theorem slot_mem (q : FixedWorkStealingQueue ℕ) (pos : ℕ) :
    q.slot pos ∈ q.jobs ∨ q.slot pos = default := by
  rw [slot, List.getD_eq_getElem?_getD]
  cases hpos : q.jobs[pos % q.capacity]? with
  | none => exact Or.inr rfl
  | some p => exact Or.inl (List.mem_of_getElem? hpos)

theorem pairSystem_slot (v pos : ℕ) :
    (pairSystem.queue v).slot pos = 1024 ∧ v = 1 ∨ (pairSystem.queue v).slot pos = nullptr := by
  have hfirst : (pairSystem.queue 0).jobs = [0, 0, 0, 0] := by decide +kernel
  have hsecond : (pairSystem.queue 1).jobs = [1024, 0, 0, 0] := by decide +kernel
  have hlength : pairSystem.workers.length = 2 := by decide +kernel
  rcases slot_mem (pairSystem.queue v) pos with h | h
  · match v, h with
    | 0, h =>
      rw [hfirst] at h
      exact Or.inr (by simpa [nullptr] using h)
    | 1, h =>
      rw [hsecond] at h
      exact (List.mem_cons.mp h).imp (⟨·, rfl⟩) (by simp [nullptr])
    | v + 2, h =>
      have hnone : pairSystem.workers[v + 2]? = none := List.getElem?_eq_none (by omega)
      rw [queue, worker, List.getD_eq_getElem?_getD, hnone] at h
      cases h
  · exact Or.inr h

theorem exists_pairBatch : ∃ js, js.map Prod.fst = [1024] ∧ Batch pairSite 512 pairSystem js := by
  have hbatch : Batch pairSite 512 pairSite.system [] :=
    batch_start pairSite.placement (by decide) (by decide) (by decide) pairSite.thread
      (by decide +kernel)
  have hout : pairSite.Outside 512 := by
    intro b hb
    rw [List.mem_singleton.mp hb]
    decide
  have hfns : ∀ f ∈ [[(1 : UInt8)]], f.length ≤ Job.functionSize := by decide
  have hroom : pairSite.Room [[(1 : UInt8)]].length := ⟨by decide, by decide, by decide, by decide⟩
  obtain ⟨js, s, hruns, -, hafter⟩ :=
    hbatch.groupRuns (by decide) (by decide) hout hfns hroom rfl
  have hs : pairSystem = s := by rw [pairSystem, hruns]
  rw [List.nil_append, ← hs] at hafter
  have hentries : (pairSystem.queue 1).entries = [1024] := by decide +kernel
  exact ⟨js, hafter.queue.entries_eq.symm.trans hentries, hafter⟩

theorem pair_stocked :
    Stocked pairDepot pairSystem pairDepot.jobs ∧ Entered pairSystem pairDepot.jobs := by
  obtain ⟨js, hjs, hbatch⟩ := exists_pairBatch
  obtain ⟨j, hj, hp⟩ : ∃ j ∈ js, j.1 = 1024 :=
    List.mem_map.mp (hjs.symm ▸ List.mem_singleton_self 1024)
  have hslot := pairSystem_slot
  have hblock : pairDepot.Block 1024 := ⟨0, by decide, by decide +kernel⟩
  constructor
  · constructor
    case pool =>
      refine ⟨_, hbatch.pool, fun p hp => ⟨0, ?_⟩⟩
      rw [Finset.mem_singleton.mp hp]
      simp [hjs]
    case self_ne => decide +kernel
    case worker => decide +kernel
    case few => decide +kernel
    case id => decide +kernel
    case rand => decide +kernel
    case sub => exact Finset.Subset.refl _
    case block => exact fun p hp => Finset.mem_singleton.mp hp ▸ hblock
    case ready => simpa [hp] using hbatch.ready j hj
    case source => simpa [hp] using hbatch.source j hj
    case group => simpa [hp] using hbatch.group j hj
    case outside =>
      intro p hp hne b hb
      rw [List.mem_singleton.mp hb]
      exact Or.inl (show 512 + 4 ≤ 1024 by decide)
    case done => exact fun p hp hnot => absurd hp hnot
    case named => exact fun v pos => (hslot v pos).elim (fun h => Or.inr (h.1 ▸ hblock)) Or.inl
    case stale =>
      intro v pos hnot
      rcases hslot v pos with ⟨h, -⟩ | h
      · exact absurd (Finset.mem_singleton.mpr h) hnot
      · rw [h]
        rfl
    case queued =>
      intro p hp
      rw [Finset.mem_singleton.mp hp]
      exact ⟨1, by decide +kernel, 0, by decide +kernel⟩
  · intro v pos hpos
    rcases hslot v pos with ⟨h, rfl⟩ | h
    · refine ⟨0, ?_, by rw [h]; decide +kernel⟩
      unfold Between
      decide +kernel
    · rw [h] at hpos
      exact absurd (Finset.mem_singleton.mp hpos) (by decide)

end Pair

/-- One thread that goes on calling `try_run_job` executes every job that is in a queue, its
own or another worker's, exactly once, and then no queue holds a job that it could still run. -/
theorem drained_of_turns (d : Depot) (s : JobSystem) (h : Stocked d s d.jobs)
    (he : Entered s d.jobs) :
    ∃ n, ∀ m, n ≤ m → ∃ jobs s', turns d.w m s = (jobs, s') ∧ jobs.Nodup ∧
      jobs.toFinset = d.jobs ∧ (∀ p ∈ d.jobs, Job.state s'.memory p = Job.State.completed.code) ∧
      (∀ v pos, Job.isReady s'.memory ((s'.queue v).slot pos) = false) ∧
      s'.activeJobs.toNat = s.activeJobs.toNat - d.jobs.card := by
  obtain ⟨n, hn⟩ := h.exists_empty he
  refine ⟨n, fun m hm => ?_⟩
  have hempty := hn m hm
  obtain ⟨jobs, s', hturns, hstocked, -, hnodup, hmem, -, hactive⟩ := h.after he m
  rw [hturns] at hempty
  rw [hempty] at hstocked
  have hall : jobs.toFinset = d.jobs := by
    apply Finset.Subset.antisymm
    · exact fun p hp => hmem p (List.mem_toFinset.mp hp)
    · exact Finset.sdiff_eq_empty_iff_subset.mp hempty
  refine ⟨jobs, s', hturns, hnodup, hall, fun p hp => ?_, fun v pos => ?_, ?_⟩
  · exact hstocked.done p hp (Finset.notMem_empty p)
  · exact hstocked.stale v pos (Finset.notMem_empty _)
  · rw [hactive, ← hall, List.toFinset_card_of_nodup hnodup]

/-- The thread of the first worker steals the job of the second one. -/
theorem drained_of_turns_pair :
    ∃ n, ∀ m, n ≤ m → ∃ s', turns 0 m pairSystem = ([1024], s') := by
  obtain ⟨n, hn⟩ := drained_of_turns pairDepot pairSystem pair_stocked.1 pair_stocked.2
  refine ⟨n, fun m hm => ?_⟩
  obtain ⟨jobs, s', hturns, hnodup, hall, -⟩ := hn m hm
  have hjobs : jobs = [1024] := by
    apply List.perm_singleton.mp
    rw [List.perm_ext_iff_of_nodup hnodup (List.nodup_singleton _)]
    intro p
    rw [← List.mem_toFinset, hall, Finset.mem_singleton, List.mem_singleton]
  exact ⟨s', hjobs ▸ hturns⟩

/-- So both waits return on a thread that nobody helps, wherever the jobs are queued: `wait` for
each of the jobs, and `wait_for_all` for a group whose jobs they are. -/
theorem returned_of_waits (d : Depot) (s : JobSystem) (h : Stocked d s d.jobs)
    (he : Entered s d.jobs) :
    (∀ p ∈ d.jobs, ∃ k s', wait k s d.w p = some (.returned, s') ∧
      Job.state s'.memory p = Job.State.completed.code) ∧
    ∀ g, g ≠ nullptr → d.Outside g →
      (∀ p ∈ d.jobs, d.group p = g ∨ d.group p = nullptr ∨ d.group p + 4 ≤ g ∨
        g + 4 ≤ d.group p) →
      s.memory.load 4 g = (d.jobs.filter fun p => d.group p = g).card →
      ∃ k done s', waitForAll k s d.w g = some (done, s') ∧
        ∀ p ∈ d.jobs, d.group p = g → Job.state s'.memory p = Job.State.completed.code := by
  obtain ⟨n, hn⟩ := h.exists_empty he
  have hempty := hn n le_rfl
  refine ⟨fun p hp => ?_, fun g hg hout hapart hcount => ?_⟩
  · obtain ⟨jobs, s', hturns, hstocked, -⟩ := h.after he n
    rw [hturns] at hempty
    refine exists_wait (n := n) (h.block p hp).ne_null ?_
    rw [hturns]
    exact hstocked.done p hp (hempty ▸ Finset.notMem_empty p)
  · have hload : ∀ m, (turns d.w m s).2.memory.load 4 g =
        (d.jobs.filter fun p => d.group p = g).card -
          (turns d.w m s).1.countP fun p => d.group p = g := by
      intro m
      obtain ⟨jobs, s', hturns, -, -, -, hmem, hmemory, -⟩ := h.after he m
      rw [hturns, hmemory, load_foldl_afterRun (fun p hp => h.block p (hmem p hp)) hg hout
        (fun p hp => hapart p (hmem p hp)), hcount]
    -- a counter at zero has counted all jobs of the group
    have hall : ∀ m, (turns d.w m s).2.memory.load 4 g = 0 ↔
        ∀ p ∈ d.jobs, d.group p = g → p ∈ (turns d.w m s).1 := by
      intro m
      obtain ⟨jobs, s', hturns, -, -, hnodup, hmem, -⟩ := h.after he m
      rw [hload m, hturns]
      exact card_sub_countP hnodup hmem _
    have hend : (turns d.w n s).2.memory.load 4 g = 0 := by
      refine (hall n).mpr fun p hp _ => ?_
      have hsub := Finset.sdiff_eq_empty_iff_subset.mp hempty hp
      exact List.mem_toFinset.mp hsub
    obtain ⟨k, j, done, hloop, hzero⟩ := exists_waitForAll hend
    refine ⟨k, done, _, hloop, fun p hp hpg => ?_⟩
    have hmem := (hall j).mp hzero p hp hpg
    obtain ⟨jobs, s', hturns, hstocked, -⟩ := h.after he j
    rw [hturns] at hmem ⊢
    exact hstocked.done p hp fun hleft => (Finset.mem_sdiff.mp hleft).2 (List.mem_toFinset.mpr hmem)

theorem returned_of_waits_pair :
    (∃ k s', wait k pairSystem 0 1024 = some (.returned, s')) ∧
      ∃ k done s', waitForAll k pairSystem 0 512 = some (done, s') := by
  obtain ⟨hwait, hgroup⟩ := returned_of_waits pairDepot pairSystem pair_stocked.1 pair_stocked.2
  obtain ⟨k, s', hk, -⟩ := hwait 1024 (Finset.mem_singleton_self _)
  have hout : pairDepot.Outside 512 := by
    intro b hb
    rw [List.mem_singleton.mp hb]
    decide
  obtain ⟨k', done, s'', hk', -⟩ := hgroup 512 (by decide) hout (fun _ _ => Or.inl rfl)
    (by decide +kernel)
  exact ⟨⟨k, s', hk⟩, k', done, s'', hk'⟩

end Jobrocket.JobSystem
