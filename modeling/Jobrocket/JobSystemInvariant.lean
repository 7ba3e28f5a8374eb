import Jobrocket.Detail.QueueExposure
import Jobrocket.Worker

/-! # Jobs in the workers' queues

A queue slot names a block, not an allocation: after a pop or a steal the slot still holds
the pointer, and the block behind it may be recycled. What is known of a slot is kept in
two parts. Every slot names a block that was allocated once, and that holds in every run;
that no entry of a queue names a block whose new job is not scheduled yet holds only as
long as no call brings such a slot back between the indices.
-/
namespace Jobrocket.JobSystem
open Library Memory FixedWorkStealingQueue

inductive Event where
  | allocated (i job : ℕ)
  | refused (i : ℕ) (error : Error)
  | scheduled (job : ℕ)
  | executed (job : ℕ)
  deriving DecidableEq

inductive Status where
  | never
  | allocated
  | scheduled
  | done
  deriving DecidableEq

/-- The job can still run. -/
def Status.Live : Status → Prop
  | .allocated => True
  | .scheduled => True
  | _ => False

/-- The status of the job in block `p` after one more event. -/
def Status.next (p : ℕ) (st : Status) : Event → Status
  | .allocated _ job => if job = p then .allocated else st
  | .refused _ _ => st
  | .scheduled job => if job = p ∧ st = .allocated then .scheduled else st
  | .executed job => if job = p then .done else st

def record (st : ℕ → Status) (e : Event) : ℕ → Status := fun p => (st p).next p e

/-- What the bytes of block `p` say about the job in it. -/
def Fields (m : Memory) (self p : ℕ) : Status → Prop
  | .never => True
  | .done => Job.state m p = Job.State.completed.code
  | _ => Job.state m p = Job.State.ready.code ∧ Job.sourcePool m p = self ∧
      Job.groupCounter m p = nullptr

/-- Blocks, fields and slots agree with what happened to the jobs. -/
structure Inv (capacity : ℕ) (bases : List ℕ) (s : JobSystem) (st : ℕ → Status) : Prop where
  pool : ∃ live, JobPool.Inv capacity bases s.pool s.memory live ∧
    ∀ p, (∃ i, p ∈ live i) ↔ (st p).Live
  self_ne : s.pool.self ≠ nullptr
  block : ∀ p, st p ≠ .never → ∃ i, ∃ hi : i < bases.length, p ∈ blocks bases[i] Job.size capacity
  fields : ∀ p, Fields s.memory s.pool.self p (st p)
  slots : ∀ w, w < s.workers.length → ∀ pos,
    (s.queue w).slot pos = nullptr ∨ st ((s.queue w).slot pos) ≠ .never

/-- No entry of a queue names a job that is not scheduled. -/
def Scheduled (s : JobSystem) (st : ℕ → Status) : Prop :=
  ∀ w, w < s.workers.length → ∀ pos, (s.queue w).Between pos →
    st ((s.queue w).slot pos) ≠ .allocated

section Fields
variable {m m' : Memory} {self p : ℕ} {x y : Status}

theorem fields_of_live (h : x.Live) : Fields m self p x ↔ Job.state m p = Job.State.ready.code ∧
    Job.sourcePool m p = self ∧ Job.groupCounter m p = nullptr := by
  cases x with
  | never => exact absurd h id
  | allocated => exact Iff.rfl
  | scheduled => exact Iff.rfl
  | done => exact absurd h id

theorem Fields.transport (h : Fields m self p x) (hlive : x.Live → m.Same m' p (p + Job.size))
    (hdone : x = .done → m.Same m' (p + 8) (p + Job.size)) : Fields m' self p x := by
  have hfields : x.Live → Fields m' self p x := by
    intro hx
    obtain ⟨hstate, hsource, hgroup⟩ := (fields_of_live hx).mp h
    have hsame := hlive hx
    have hsame' := hsame.mono (Nat.le_add_right p 8) le_rfl
    exact (fields_of_live hx).mpr ⟨(Job.state_of_same hsame').trans hstate,
      (Job.sourcePool_of_same hsame).trans hsource, (Job.groupCounter_of_same hsame').trans hgroup⟩
  cases x with
  | never => trivial
  | allocated => exact hfields trivial
  | scheduled => exact hfields trivial
  | done => exact (Job.state_of_same (hdone rfl)).trans h

theorem Status.next_ne_never (h : x ≠ .never) (e : Event) : x.next p e ≠ .never := by
  cases e with
  | allocated i job =>
    simp only [Status.next]
    split <;> simp_all
  | refused i error => exact h
  | scheduled job =>
    simp only [Status.next]
    split <;> simp_all
  | executed job =>
    simp only [Status.next]
    split <;> simp_all

theorem Status.eq_scheduled (h : x.Live) (hne : x ≠ .allocated) : x = .scheduled := by
  cases x with
  | never => exact absurd h id
  | allocated => exact absurd rfl hne
  | scheduled => rfl
  | done => exact absurd h id

/-- Scheduling turns an allocated job into a scheduled one and does nothing else. -/
theorem Status.next_scheduled (x : Status) (p job : ℕ) :
    x.next p (.scheduled job) = x ∨ (x = .allocated ∧ x.next p (.scheduled job) = .scheduled) := by
  by_cases h : job = p ∧ x = .allocated
  · exact Or.inr ⟨h.2, if_pos h⟩
  · exact Or.inl (if_neg h)

end Fields

section Queues
variable {capacity : ℕ} {bases : List ℕ} {s : JobSystem} {st : ℕ → Status} {w : ℕ}
variable {q : FixedWorkStealingQueue ℕ}

theorem Inv.null (h : Inv capacity bases s st) (hplace : JobPool.Placement capacity bases) :
    st nullptr = .never := by
  by_contra hne
  obtain ⟨i, hi, hp⟩ := h.block nullptr hne
  have hlo := (blocks_bounds hp).1
  have hbase := hplace.nonnull _ (List.getElem_mem hi)
  unfold nullptr at *
  omega

theorem Inv.setQueue (h : Inv capacity bases s st)
    (hslot : ∀ pos, q.slot pos = nullptr ∨ st (q.slot pos) ≠ .never) :
    Inv capacity bases (s.setQueue w q) st := by
  refine { h with slots := fun v hv pos => ?_ }
  rw [setQueue_workers_length] at hv
  by_cases hvw : v = w
  · subst hvw
    rw [queue_setQueue hv]
    exact hslot pos
  · rw [queue_setQueue_ne hvw]
    exact h.slots v hv pos

theorem Scheduled.setQueue (h : Scheduled s st)
    (hslot : ∀ pos, q.Between pos → st (q.slot pos) ≠ .allocated) :
    Scheduled (s.setQueue w q) st := by
  intro v hv pos
  rw [setQueue_workers_length] at hv
  by_cases hvw : v = w
  · subst hvw
    rw [queue_setQueue hv]
    exact hslot pos
  · rw [queue_setQueue_ne hvw]
    exact h v hv pos

theorem Inv.setRand (h : Inv capacity bases s st) (r : Xoroshiro128) :
    Inv capacity bases (s.setRand w r) st := by
  refine { h with slots := fun v hv pos => ?_ }
  rw [setRand_workers_length] at hv
  rw [queue_setRand]
  exact h.slots v hv pos

theorem Scheduled.setRand (h : Scheduled s st) (r : Xoroshiro128) :
    Scheduled (s.setRand w r) st := by
  intro v hv pos
  rw [setRand_workers_length] at hv
  rw [queue_setRand]
  exact h v hv pos

/-- A ready job taken from a slot is one that was allocated and has not run. -/
theorem Inv.live_of_ready (h : Inv capacity bases s st) {p : ℕ}
    (hready : Job.isReady s.memory p = true) (hslot : p = nullptr ∨ st p ≠ .never) :
    (st p).Live := by
  obtain ⟨hne, hstate⟩ := Job.isReady_iff.mp hready
  have hp := hslot.resolve_left hne
  cases hst : st p with
  | never => exact absurd hst hp
  | allocated => trivial
  | scheduled => trivial
  | done =>
    have hdone := h.fields p
    rw [hst] at hdone
    rw [show Job.state s.memory p = _ from hdone] at hstate
    exact absurd hstate (by decide)

end Queues

section Calls
variable {capacity : ℕ} {bases : List ℕ} {s : JobSystem} {st : ℕ → Status} {w : ℕ}

theorem readyJob_eq_some {taken : Option ℕ} {p : ℕ} (h : s.readyJob taken = some p) :
    taken = some p ∧ Job.isReady s.memory p = true := Option.filter_eq_some_iff.mp h

/-- Taking an entry moves an index of the queue and no slot. What is taken was allocated once,
and it is scheduled if the entries are that the taking reaches. -/
theorem Inv.takeQueue (h : Inv capacity bases s st) (hw : w < s.workers.length)
    {q : FixedWorkStealingQueue ℕ} {taken : Option ℕ} {reach : ℕ → Prop}
    (hslot : ∀ pos, q.slot pos = (s.queue w).slot pos)
    (htaken : ∀ p, taken = some p → ∃ pos, reach pos ∧ p = (s.queue w).slot pos)
    (hbetween : ∀ pos, q.Between pos → reach pos) :
    Inv capacity bases (s.setQueue w q) st ∧
      (∀ p, taken = some p → p = nullptr ∨ st p ≠ .never) ∧
      ((∀ pos, reach pos → st ((s.queue w).slot pos) ≠ .allocated) →
        (Scheduled s st → Scheduled (s.setQueue w q) st) ∧
          ∀ p, taken = some p → st p ≠ .allocated) := by
  refine ⟨h.setQueue fun pos => ?_, fun p hp => ?_, fun hreach => ⟨fun hs => ?_, fun p hp => ?_⟩⟩
  · rw [hslot]
    exact h.slots w hw pos
  · obtain ⟨pos, -, rfl⟩ := htaken p hp
    exact h.slots w hw pos
  · refine hs.setQueue fun pos hpos => ?_
    rw [hslot]
    exact hreach pos (hbetween pos hpos)
  · obtain ⟨pos, hpos, rfl⟩ := htaken p hp
    exact hreach pos hpos

/-- A pop takes a job that was allocated once, and a scheduled one if all entries are and
the pop exposes no other. -/
theorem Inv.popQueue (h : Inv capacity bases s st) (hw : w < s.workers.length) :
    Inv capacity bases (s.setQueue w (s.queue w).pop.2) st ∧
      (∀ p, (s.queue w).pop.1 = some p → p = nullptr ∨ st p ≠ .never) ∧
      (Scheduled s st →
        (∀ pos, (s.queue w).Exposed pos → st ((s.queue w).slot pos) ≠ .allocated) →
          Scheduled (s.setQueue w (s.queue w).pop.2) st ∧
            ∀ p, (s.queue w).pop.1 = some p → st p ≠ .allocated) := by
  obtain ⟨hpopped, hbetween⟩ := pop_between (s.queue w)
  obtain ⟨hinv, htaken, hsched⟩ := h.takeQueue hw (pop_slot _) hpopped hbetween
  refine ⟨hinv, htaken, fun hs hclear => ?_⟩
  exact (hsched fun pos hpos => hpos.elim (hs w hw pos) (hclear pos)).imp_left (· hs)

theorem Inv.stealQueue (h : Inv capacity bases s st) (hw : w < s.workers.length) :
    Inv capacity bases (s.setQueue w (s.queue w).steal.2) st ∧
      (∀ p, (s.queue w).steal.1 = some p → p = nullptr ∨ st p ≠ .never) ∧
      (Scheduled s st → Scheduled (s.setQueue w (s.queue w).steal.2) st ∧
        ∀ p, (s.queue w).steal.1 = some p → st p ≠ .allocated) := by
  obtain ⟨hstolen, hbetween⟩ := steal_between (s.queue w)
  obtain ⟨hinv, htaken, hsched⟩ := h.takeQueue hw (steal_slot _) hstolen hbetween
  exact ⟨hinv, htaken, fun hs => (hsched (hs w hw)).imp_left (· hs)⟩

/-- A pop and a steal find a job that has not run, and one that is scheduled if all
entries are and the pop exposes no other. -/
theorem Inv.getNextJob (h : Inv capacity bases s st) (hw : w < s.workers.length) :
    ∃ next s', s.getNextJob w = (next, s') ∧ Inv capacity bases s' st ∧
      s'.workers.length = s.workers.length ∧
      (∀ p, next = some p → (st p).Live) ∧
      (Scheduled s st →
        (∀ pos, (s.queue w).Exposed pos → st ((s.queue w).slot pos) ≠ .allocated) →
          Scheduled s' st ∧ ∀ p, next = some p → st p ≠ .allocated) := by
  obtain ⟨hinv₁, hslot₁, hsched₁⟩ := h.popQueue hw
  set s₁ := s.setQueue w (s.queue w).pop.2 with hs₁
  have hlen₁ : s₁.workers.length = s.workers.length := setQueue_workers_length
  cases hpop : s₁.readyJob (s.queue w).pop.1 with
  | some p =>
    obtain ⟨hjob, hready⟩ := readyJob_eq_some hpop
    refine ⟨some p, s₁, ?_, hinv₁, hlen₁, ?_, fun hs hclear => ?_⟩
    · simp only [JobSystem.getNextJob, ← hs₁, hpop]
    · rintro p ⟨⟩
      exact hinv₁.live_of_ready hready (hslot₁ p hjob)
    · obtain ⟨hall, hne⟩ := hsched₁ hs hclear
      refine ⟨hall, ?_⟩
      rintro p ⟨⟩
      exact hne p hjob
  | none =>
    set r := (s₁.worker w).rand.next with hr
    set s₂ := s₁.setRand w r.2 with hs₂
    have hinv₂ : Inv capacity bases s₂ st := hinv₁.setRand r.2
    have hlen₂ : s₂.workers.length = s.workers.length := setRand_workers_length.trans hlen₁
    set v := r.1.toNat % s₂.workers.length with hv
    by_cases hid : v = (s₂.worker w).id.toNat
    · -- The worker drew itself: nothing is stolen.
      refine ⟨none, s₂, ?_, hinv₂, hlen₂, ?_, fun hs hclear => ⟨(hsched₁ hs hclear).1.setRand r.2, ?_⟩⟩
      · simp only [JobSystem.getNextJob, ← hs₁, hpop, ← hr, ← hs₂, ← hv]
        exact if_neg (not_not.mpr hid)
      · rintro p ⟨⟩
      · rintro p ⟨⟩
    · have hvlt : v < s₂.workers.length := Nat.mod_lt _ (by omega)
      obtain ⟨hinv₃, hslot₃, hsched₃⟩ := hinv₂.stealQueue hvlt
      set s₃ := s₂.setQueue v (s₂.queue v).steal.2 with hs₃
      refine ⟨s₃.readyJob (s₂.queue v).steal.1, s₃, ?_, hinv₃,
        setQueue_workers_length.trans hlen₂, ?_, fun hs hclear => ?_⟩
      · simp only [JobSystem.getNextJob, ← hs₁, hpop, ← hr, ← hs₂, ← hv, ← hs₃]
        exact if_pos hid
      · intro p hp
        obtain ⟨hjob, hready⟩ := readyJob_eq_some hp
        exact hinv₃.live_of_ready hready (hslot₃ p hjob)
      · obtain ⟨hall, hne⟩ := hsched₃ ((hsched₁ hs hclear).1.setRand r.2)
        exact ⟨hall, fun p hp => hne p (readyJob_eq_some hp).1⟩

theorem Inv.scheduleJob (h : Inv capacity bases s st) (hplace : JobPool.Placement capacity bases)
    {job : ℕ} (hw : w < s.workers.length) (hjob : job = nullptr ∨ st job ≠ .never) :
    Inv capacity bases (s.scheduleJob w job) (record st (.scheduled job)) ∧
      (Scheduled s st → Scheduled (s.scheduleJob w job) (record st (.scheduled job))) := by
  have hnext := fun p => Status.next_scheduled (st p) p job
  have hself : record st (.scheduled job) job ≠ .allocated := by
    simp only [record, Status.next]
    split <;> simp_all
  have hold : ∀ p, st p ≠ .allocated → record st (.scheduled job) p ≠ .allocated := by
    intro p hp
    rcases hnext p with h' | ⟨h', -⟩
    · rwa [record, h']
    · exact absurd h' hp
  have hpush : Inv capacity bases (s.setQueue w ((s.queue w).push job)) st :=
    h.setQueue fun pos => by
      rcases push_slot (s.queue w) job pos with hslot | hslot
      · rwa [hslot]
      · rw [hslot]
        exact h.slots w hw pos
  obtain ⟨live, hpool, hlive⟩ := h.pool
  constructor
  · constructor
    case pool =>
      refine ⟨live, hpool, fun p => (hlive p).trans ?_⟩
      rcases hnext p with h' | ⟨h', h''⟩
      · rw [record, h']
      · rw [record, h'', h']
        exact Iff.rfl
    case self_ne => exact h.self_ne
    case block =>
      refine fun p hp => h.block p fun h0 => hp ?_
      simp [record, Status.next, h0]
    case fields =>
      intro p
      have hp := h.fields p
      rcases hnext p with h' | ⟨h', h''⟩
      · rwa [record, h']
      · rw [h'] at hp
        rw [record, h'']
        exact hp
    case slots =>
      intro v hv pos
      exact (hpush.slots v hv pos).imp_right fun hne => Status.next_ne_never hne _
  · intro hs
    have hsched : Scheduled (s.setQueue w ((s.queue w).push job)) (record st (.scheduled job)) := by
      refine Scheduled.setQueue (fun v hv pos hpos => hold _ (hs v hv pos hpos)) fun pos hpos => ?_
      rcases push_between (s.queue w) job hpos with hslot | hslot | ⟨hpos', hslot⟩
      · rwa [hslot]
      · rw [hslot]
        apply hold _
        rw [show (default : ℕ) = nullptr from rfl, h.null hplace]
        decide
      · rw [hslot]
        exact hold _ (hs w hw pos hpos')
    exact hsched

/-- The frame rule: an event that changes the status of one block only. -/
theorem Inv.update (h : Inv capacity bases s st) (p : ℕ) {s' : JobSystem} {e : Event}
    (hself : s'.pool.self = s.pool.self) (hworkers : s'.workers = s.workers)
    (hpool : ∃ live, JobPool.Inv capacity bases s'.pool s'.memory live ∧
      ∀ q, (∃ i, q ∈ live i) ↔ (record st e q).Live)
    (hblock : ∃ i, ∃ hi : i < bases.length, p ∈ blocks bases[i] Job.size capacity)
    (hfields : Fields s'.memory s.pool.self p (record st e p))
    (hother : ∀ q, q ≠ p → record st e q = st q)
    (hlive : ∀ q, q ≠ p → (st q).Live → s.memory.Same s'.memory q (q + Job.size))
    (hdone : ∀ q, q ≠ p → st q = .done → s.memory.Same s'.memory (q + 8) (q + Job.size)) :
    Inv capacity bases s' (record st e) := by
  have hqueue : ∀ v, s'.queue v = s.queue v := fun v => by
    simp only [JobSystem.queue, JobSystem.worker, hworkers]
  constructor
  case pool => exact hpool
  case self_ne => exact hself.symm ▸ h.self_ne
  case block =>
    intro q hq
    by_cases hqp : q = p
    · exact hqp.symm ▸ hblock
    · exact h.block q (hother q hqp ▸ hq)
  case fields =>
    intro q
    rw [hself]
    by_cases hqp : q = p
    · rwa [hqp]
    · rw [hother q hqp]
      exact (h.fields q).transport (hlive q hqp) (hdone q hqp)
  case slots =>
    intro v hv pos
    rw [hworkers] at hv
    rw [hqueue]
    exact (h.slots v hv pos).imp_right fun hne => Status.next_ne_never hne _

theorem same_execute (m : Memory) (p : ℕ) {lo hi : ℕ} (h : hi ≤ p + 8 ∨ p + 12 ≤ lo) :
    m.Same (execute m p) lo hi :=
  (Job.same_setState m .running h).trans (Job.same_setState _ .completed h)

/-- A job without a group is executed and goes back to the pool it came from. -/
theorem runJob_of_fields {p : ℕ} (hsource : Job.sourcePool s.memory p = s.pool.self)
    (hgroup : Job.groupCounter s.memory p = nullptr) (hself : s.pool.self ≠ nullptr) :
    s.runJob p = { s with
      memory := execute s.memory p
      pool := s.pool.freeJob (execute s.memory p) p
      activeJobs := AtomicCounter.decrement s.activeJobs } := by
  have hgroup' : Job.groupCounter (execute s.memory p) p = nullptr := by
    have hword : s.memory.Same (execute s.memory p) (p + 16) (p + 24) := same_execute _ _ (by omega)
    exact (hword.load_eq le_rfl le_rfl).trans hgroup
  have hsource' : Job.sourcePool (execute s.memory p) p = s.pool.self := by
    have hword : s.memory.Same (execute s.memory p) p (p + 8) := same_execute _ _ (by omega)
    exact (hword.load_eq le_rfl le_rfl).trans hsource
  simp only [JobSystem.runJob, hgroup', hsource', ne_eq, not_true_eq_false, if_false, hself,
    not_false_eq_true, if_true]

theorem Inv.runJob (h : Inv capacity bases s st) (hplace : JobPool.Placement capacity bases)
    {p : ℕ} (hp : (st p).Live) :
    Inv capacity bases (s.runJob p) (record st (.executed p)) ∧
      (Scheduled s st → Scheduled (s.runJob p) (record st (.executed p))) := by
  obtain ⟨live, hpool, hlive⟩ := h.pool
  obtain ⟨i, hi⟩ := (hlive p).mpr hp
  have hib := hpool.lt_of_mem hi
  have hpb := hpool.mem_blocks hib hi
  obtain ⟨-, hsource, hgroup⟩ := (fields_of_live hp).mp (h.fields p)
  have hpool' : JobPool.Inv capacity bases s.pool (execute s.memory p) live :=
    hpool.of_fields hplace hib hpb fun lo hi' hout => same_execute s.memory p (by omega)
  obtain ⟨hfree, hself⟩ := hpool'.freeJob hplace hi
  have hother : ∀ q, st q ≠ .never → q ≠ p →
      s.memory.Same (execute s.memory p) q (q + Job.size) := by
    intro q hq hne
    obtain ⟨j, hj, hqb⟩ := h.block q hq
    have := hplace.blocks_apart hj hib hqb hpb (Or.inr hne)
    apply same_execute s.memory p
    unfold Job.size at *
    omega
  have hnew : ∀ q, q ≠ p → record st (.executed p) q = st q := fun q hq => if_neg (Ne.symm hq)
  have hdone : record st (.executed p) p = .done := if_pos rfl
  rw [runJob_of_fields hsource hgroup h.self_ne]
  constructor
  · apply h.update p
    case hself => exact hself
    case hworkers => rfl
    case hpool =>
      refine ⟨_, hfree, fun q => ?_⟩
      by_cases hq : q = p
      · subst hq
        rw [hdone]
        exact iff_of_false (fun hlost => (hpool'.mem_live_erase.mp hlost).1 rfl) id
      · rw [hnew q hq, ← hlive q]
        exact hpool'.mem_live_erase.trans (and_iff_right hq)
    case hblock => exact ⟨i, hib, hpb⟩
    case hfields =>
      rw [hdone]
      exact Job.state_setState_self _ _ _
    case hother => exact hnew
    case hlive =>
      intro q hqp hq
      exact hother q (fun h0 => by rw [h0] at hq; exact hq) hqp
    case hdone =>
      intro q hqp hq
      exact (hother q (fun h0 => by simp [h0] at hq) hqp).mono (Nat.le_add_right q 8) le_rfl
  · intro hs v hv pos hpos
    have hold := hs v hv pos hpos
    change record st (.executed p) ((s.queue v).slot pos) ≠ .allocated
    by_cases hq : (s.queue v).slot pos = p
    · rw [hq, hdone]
      decide
    · rwa [hnew _ hq]

theorem Inv.allocateJob (h : Inv capacity bases s st) (hplace : JobPool.Placement capacity bases)
    {i : ℕ} (hi : i < bases.length) {function : List UInt8}
    (hfn : function.length ≤ Job.functionRoom) :
    ∃ result s', s.allocateJob i function = (result, s') ∧ s'.workers = s.workers ∧
      ((∃ e, result = .error e ∧ Inv capacity bases s' st ∧
          (Scheduled s st → Scheduled s' st)) ∨
        ∃ c, result = .ok c ∧ s.pool.nextBlock i = some c ∧
          Inv capacity bases s' (record st (.allocated i c)) ∧
          (Scheduled s st → (∀ w, w < s.workers.length → ∀ pos, (s.queue w).Between pos →
            (s.queue w).slot pos ≠ c) → Scheduled s' (record st (.allocated i c)))) := by
  obtain ⟨live, hpool, hlive⟩ := h.pool
  obtain ⟨result, pool', m', calls, hcall, hself, -, hcases⟩ :=
    hpool.allocateJob hplace hi hfn
  refine ⟨result, { s with memory := m', pool := pool' }, ?_, rfl, ?_⟩
  · simp only [JobSystem.allocateJob, hcall]
  rcases hcases with ⟨rfl, -, -, hpool', rfl⟩ |
    ⟨c, m₁, rfl, hnext, hcb, hnew, rfl, hpool', hblocks, hjobs⟩
  · refine Or.inl ⟨_, rfl, ?_, id⟩
    exact { h with
      pool := ⟨live, hpool', hlive⟩
      self_ne := by rw [hself]; exact h.self_ne
      fields := by rw [hself]; exact h.fields }
  · refine Or.inr ⟨c, rfl, hnext, ?_, ?_⟩
    · have hlt := hpool.self_lt
      have hcount := hplace.count_lt
      obtain ⟨hsource, hstate, hgroup, -⟩ := JobPool.construct_fields m₁ c function
        (by omega : s.pool.self < 256 ^ 8) (by omega : i < 256 ^ 4)
      have hc : record st (.allocated i c) c = .allocated := if_pos rfl
      have hother : ∀ q, q ≠ c → record st (.allocated i c) q = st q := fun q hq =>
        if_neg (Ne.symm hq)
      apply h.update c
      case hself => exact hself
      case hworkers => rfl
      case hpool =>
        refine ⟨_, hpool', fun q => ?_⟩
        by_cases hq : q = c
        · subst hq
          rw [hc]
          exact iff_of_true ⟨i, by simp⟩ trivial
        · rw [hother q hq, ← hlive q]
          exact JobPool.mem_live_cons.trans (or_iff_right hq)
      case hblock => exact ⟨i, hi, hcb⟩
      case hfields =>
        rw [hc]
        exact ⟨hstate, hsource, hgroup⟩
      case hother => exact hother
      case hlive =>
        intro q _ hq
        obtain ⟨j, hj⟩ := (hlive q).mpr hq
        exact (hjobs j q hj).2
      case hdone =>
        intro q hqc hq
        obtain ⟨j, hj, hqb⟩ := h.block q (by rw [hq]; decide)
        exact hblocks j hj q hqb hqc
    · intro hs hclear v hv pos hpos
      change record st (.allocated i c) ((s.queue v).slot pos) ≠ .allocated
      have hne : c ≠ (s.queue v).slot pos := (hclear v hv pos hpos).symm
      rw [record, Status.next, if_neg hne]
      exact hs v hv pos hpos

end Calls

end Jobrocket.JobSystem
