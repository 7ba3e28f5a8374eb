import Jobrocket.CallStacks

/-! # The stages of a job

A job goes through its stages in one order, whoever moves it: it is counted by its group,
gets a block, is scheduled, taken, run and counted no more, and its block goes back to the
pool. The stage says what the block holds and which events have named the job. A stage is
not data of the program; it is kept beside it.
-/
namespace Jobrocket.CallStacks
open Library Memory FixedPoolAllocator

/-- `recycled` follows `freed` when the block is given to another job. A job whose pointer
is null is `dropped` when it is taken. -/
inductive Stage where
  | unborn
  | counted (g : ℕ)
  | fresh (g : ℕ)
  | made
  | ready
  | taken
  | running
  | executed
  | leaving (g : ℕ)
  | done
  | freed
  | recycled
  | dropped
  deriving DecidableEq

namespace Stage

/-- A frame or an entry of a deque has the job. -/
def InFlight : Stage → Prop
  | .unborn | .made | .freed | .recycled | .dropped => False
  | _ => True

/-- The pool has given the job a block and not got it back. -/
def Live : Stage → Prop
  | .unborn | .counted _ | .freed | .recycled | .dropped => False
  | _ => True

/-- The block is the job's, or was and has not been given to another. -/
def Holds : Stage → Prop
  | .unborn | .counted _ | .recycled | .dropped => False
  | _ => True

/-- The stages that name a group name the job's own, and a job that `make_job` gave and
nobody has run has none. -/
def Fits (group : Option ℕ) : Stage → Prop
  | .counted g | .fresh g | .leaving g => group = some g
  | .made => group = none
  | _ => True

/-- What the bytes of the block say about the job. -/
def Fields (m : Memory) (self p : ℕ) (group : Option ℕ) : Stage → Prop
  | .fresh _ => p ≠ nullptr ∧ Job.sourcePool m p = self ∧ Job.state m p = Job.State.ready.code
  | .made | .ready => p ≠ nullptr → Job.sourcePool m p = self ∧
      Job.groupCounter m p = group.getD nullptr ∧ Job.state m p = Job.State.ready.code
  | .taken | .running => p ≠ nullptr ∧ Job.sourcePool m p = self ∧
      Job.groupCounter m p = group.getD nullptr
  | .executed => p ≠ nullptr ∧ Job.sourcePool m p = self ∧
      Job.groupCounter m p = group.getD nullptr ∧ Job.state m p = Job.State.completed.code
  | .leaving _ | .done => p ≠ nullptr ∧ Job.sourcePool m p = self ∧
      Job.state m p = Job.State.completed.code
  | .freed => p ≠ nullptr ∧ Job.state m p = Job.State.completed.code
  | _ => True

/-- The events of a job up to the moment it is scheduled. -/
def origin (n : ℕ) : Option ℕ → List Event
  | some g => [.counted n g]
  | none => [.made n, .ran n]

def departure (n : ℕ) : Option ℕ → List Event
  | some g => [.uncounted n g]
  | none => []

/-- The events that name the job, in their order. -/
def trace (n : ℕ) (group : Option ℕ) : Stage → List Event
  | .unborn => []
  | .counted g | .fresh g => [.counted n g]
  | .made => [.made n]
  | .ready | .taken | .running | .dropped => origin n group
  | .executed | .leaving _ => origin n group ++ [.executed n]
  | .done | .freed | .recycled => origin n group ++ [.executed n] ++ departure n group

/-- The jobs that are done with block `p` do not hold it any more. -/
def recycle (block : ℕ → ℕ) (p : ℕ) (stage : ℕ → Stage) : ℕ → Stage := fun n =>
  if stage n = .freed ∧ block n = p then .recycled else stage n

variable {m m' : Memory} {self p n : ℕ} {group : Option ℕ} {s : Stage}

theorem Live.holds (h : s.Live) : s.Holds := by
  cases s <;> trivial

theorem holds_iff : s.Holds ↔ s.Live ∨ s = .freed := by
  cases s <;> simp [Holds, Live]

theorem Fields.transport (h : Fields m self p group s)
    (hlive : s.Live → p ≠ nullptr → m.Same m' p (p + Job.size))
    (hfreed : s.Holds → p ≠ nullptr → m.Same m' (p + 8) (p + Job.size)) :
    Fields m' self p group s := by
  have hsource : s.Live → p ≠ nullptr → Job.sourcePool m' p = Job.sourcePool m p :=
    fun hs hp => Job.sourcePool_of_same (hlive hs hp)
  have hgroup : s.Holds → p ≠ nullptr → Job.groupCounter m' p = Job.groupCounter m p :=
    fun hs hp => Job.groupCounter_of_same (hfreed hs hp)
  have hstate : s.Holds → p ≠ nullptr → Job.state m' p = Job.state m p :=
    fun hs hp => Job.state_of_same (hfreed hs hp)
  cases s with
  | unborn => trivial
  | counted g => trivial
  | recycled => trivial
  | dropped => trivial
  | fresh g => exact ⟨h.1, (hsource trivial h.1).trans h.2.1, (hstate trivial h.1).trans h.2.2⟩
  | made =>
    exact fun hp => ⟨(hsource trivial hp).trans (h hp).1, (hgroup trivial hp).trans (h hp).2.1,
      (hstate trivial hp).trans (h hp).2.2⟩
  | ready =>
    exact fun hp => ⟨(hsource trivial hp).trans (h hp).1, (hgroup trivial hp).trans (h hp).2.1,
      (hstate trivial hp).trans (h hp).2.2⟩
  | taken => exact ⟨h.1, (hsource trivial h.1).trans h.2.1, (hgroup trivial h.1).trans h.2.2⟩
  | running => exact ⟨h.1, (hsource trivial h.1).trans h.2.1, (hgroup trivial h.1).trans h.2.2⟩
  | executed =>
    exact ⟨h.1, (hsource trivial h.1).trans h.2.1, (hgroup trivial h.1).trans h.2.2.1,
      (hstate trivial h.1).trans h.2.2.2⟩
  | leaving g => exact ⟨h.1, (hsource trivial h.1).trans h.2.1, (hstate trivial h.1).trans h.2.2⟩
  | done => exact ⟨h.1, (hsource trivial h.1).trans h.2.1, (hstate trivial h.1).trans h.2.2⟩
  | freed => exact ⟨h.1, (hstate trivial h.1).trans h.2⟩

theorem Fields.join (h : Fields m self p group (.fresh n)) (hn : n < 2 ^ 64) :
    Fields (Job.setGroupCounter m p n) self p (some n) .ready := fun _ =>
  ⟨(Job.sourcePool_setGroupCounter ..).trans h.2.1, Job.groupCounter_setGroupCounter_self m p hn,
    (Job.state_setGroupCounter ..).trans h.2.2⟩

theorem Fields.execute (h : Fields m self p group .taken) :
    Fields (Job.setState m p .running) self p group .running :=
  ⟨h.1, (Job.sourcePool_setState ..).trans h.2.1, (Job.groupCounter_setState ..).trans h.2.2⟩

theorem Fields.complete (h : Fields m self p group .running) :
    Fields (Job.setState m p .completed) self p group .executed :=
  ⟨h.1, (Job.sourcePool_setState ..).trans h.2.1, (Job.groupCounter_setState ..).trans h.2.2,
    Job.state_setState_self m p .completed⟩

theorem executed_mem_trace (h : .executed n ∈ trace n group s) :
    s = .executed ∨ (∃ g, s = .leaving g) ∨ s = .done ∨ s = .freed ∨ s = .recycled := by
  cases s <;> cases group <;> simp [trace, origin] at h ⊢

theorem executed_of_uncounted {g : ℕ} (h : .uncounted n g ∈ trace n group s) :
    .executed n ∈ trace n group s := by
  cases s <;> cases group <;> simp [trace, origin] at h ⊢

theorem eq_made (hmade : .made n ∈ trace n group s) (hran : .ran n ∉ trace n group s) :
    s = .made := by
  cases s <;> cases group <;> simp [trace, origin, departure] at hmade hran ⊢

theorem Fields.completed (h : Fields m self p group s) (hs : .executed n ∈ trace n group s)
    (hne : s ≠ .recycled) : Job.state m p = Job.State.completed.code := by
  rcases executed_mem_trace hs with rfl | ⟨g, rfl⟩ | rfl | rfl | rfl
  · exact h.2.2.2
  · exact h.2.2
  · exact h.2.2
  · exact h.2
  · exact absurd rfl hne

section Recycle
variable {block : ℕ → ℕ} {stage : ℕ → Stage} {k : ℕ}

theorem recycle_cases (block : ℕ → ℕ) (p : ℕ) (stage : ℕ → Stage) (k : ℕ) :
    recycle block p stage k = stage k ∧ ¬ (stage k = .freed ∧ block k = p) ∨
      recycle block p stage k = .recycled ∧ stage k = .freed ∧ block k = p := by
  by_cases h : stage k = .freed ∧ block k = p
  · exact Or.inr ⟨if_pos h, h⟩
  · exact Or.inl ⟨if_neg h, h⟩

theorem live_recycle : (recycle block p stage k).Live ↔ (stage k).Live := by
  rcases recycle_cases block p stage k with ⟨heq, -⟩ | ⟨heq, hfreed, -⟩
  · rw [heq]
  · rw [heq, hfreed]
    exact Iff.rfl

theorem holds_recycle (h : (recycle block p stage k).Holds) :
    (stage k).Holds ∧ ¬ (stage k = .freed ∧ block k = p) := by
  rcases recycle_cases block p stage k with ⟨heq, hne⟩ | ⟨heq, -⟩
  · exact ⟨heq ▸ h, hne⟩
  · rw [heq] at h
    exact absurd h id

end Recycle

end Stage

/-- What the pool and the bytes hold agrees with the stages: the live jobs have the blocks
that the pool has given away, no block is held by two, and the fields are as the stages say. -/
structure Store (capacity : ℕ) (bases : List ℕ) (m : Memory) (pool : JobPool) (block : ℕ → ℕ)
    (stage : ℕ → Stage) (group : ℕ → Option ℕ) : Prop where
  given : ∃ live, JobPool.Inv capacity bases pool m live ∧
    ∀ p, (∃ i, p ∈ live i) ↔ p ≠ nullptr ∧ ∃ n, (stage n).Live ∧ block n = p
  self_ne : pool.self ≠ nullptr
  placed : ∀ n, (stage n).Holds → block n ≠ nullptr →
    ∃ i, ∃ hi : i < bases.length, block n ∈ blocks bases[i] Job.size capacity
  apart : ∀ n k, (stage n).Holds → (stage k).Holds → block n ≠ nullptr → block n = block k → n = k
  fields : ∀ n, (stage n).Fields m pool.self (block n) (group n)

namespace Store
variable {capacity : ℕ} {bases : List ℕ} {m m' : Memory} {pool pool' : JobPool} {block : ℕ → ℕ}
variable {stage : ℕ → Stage} {group : ℕ → Option ℕ} {n p : ℕ} {s : Stage} {g : Option ℕ}

theorem blocks_apart (h : Store capacity bases m pool block stage group)
    (hplace : JobPool.Placement capacity bases) {k : ℕ} (hn : (stage n).Holds)
    (hk : (stage k).Holds) (hp : block n ≠ nullptr) (hq : block k ≠ nullptr) (hne : n ≠ k) :
    block n + Job.size ≤ block k ∨ block k + Job.size ≤ block n := by
  obtain ⟨i, hi, hpb⟩ := h.placed n hn hp
  obtain ⟨j, hj, hqb⟩ := h.placed k hk hq
  exact hplace.blocks_apart hi hj hpb hqb (Or.inr fun heq => hne (h.apart n k hn hk hp heq))

/-- A job changes its stage and keeps its block, and no other's bytes are written. -/
theorem update (h : Store capacity bases m pool block stage group)
    (hpool : ∀ live, JobPool.Inv capacity bases pool m live → JobPool.Inv capacity bases pool m' live)
    (hlive : block n = nullptr ∨ (s.Live ↔ (stage n).Live)) (hholds : s.Holds → (stage n).Holds)
    (hfields : s.Fields m' pool.self (block n) g)
    (hother : ∀ k, k ≠ n → (stage k).Holds → block k ≠ nullptr →
      m.Same m' (block k) (block k + Job.size)) :
    Store capacity bases m' pool block (Function.update stage n s) (Function.update group n g) := by
  have hkept : ∀ k, (Function.update stage n s k).Holds → (stage k).Holds := by
    intro k hk
    by_cases hkn : k = n
    · subst hkn
      rw [Function.update_self] at hk
      exact hholds hk
    · rwa [Function.update_of_ne hkn] at hk
  constructor
  case given =>
    obtain ⟨live, hinv, hiff⟩ := h.given
    refine ⟨live, hpool live hinv, fun q => (hiff q).trans (and_congr_right fun hq => ?_)⟩
    refine exists_congr fun k => ?_
    by_cases hkn : k = n
    · subst hkn
      rw [Function.update_self]
      rcases hlive with hnull | hsame
      · rw [hnull]
        exact iff_of_false (fun hk => hq hk.2.symm) fun hk => hq hk.2.symm
      · rw [hsame]
    · rw [Function.update_of_ne hkn]
  case self_ne => exact h.self_ne
  case placed => exact fun k hk => h.placed k (hkept k hk)
  case apart => exact fun k l hk hl => h.apart k l (hkept k hk) (hkept l hl)
  case fields =>
    intro k
    by_cases hkn : k = n
    · subst hkn
      rwa [Function.update_self, Function.update_self]
    · rw [Function.update_of_ne hkn, Function.update_of_ne hkn]
      exact (h.fields k).transport (fun hs hp => hother k hkn hs.holds hp)
        fun hs hp => (hother k hkn hs hp).mono (Nat.le_add_right _ _) le_rfl

/-- A job changes its stage and nothing is written. -/
theorem restage (h : Store capacity bases m pool block stage group)
    (hlive : block n = nullptr ∨ (s.Live ↔ (stage n).Live)) (hholds : s.Holds → (stage n).Holds)
    (hfields : s.Fields m pool.self (block n) g) :
    Store capacity bases m pool block (Function.update stage n s) (Function.update group n g) :=
  h.update (fun _ hinv => hinv) hlive hholds hfields fun _ _ _ _ => .refl _ _ _

/-- The state or the group counter of a live job is written. -/
theorem write (h : Store capacity bases m pool block stage group)
    (hplace : JobPool.Placement capacity bases) (hn : (stage n).Live) (hs : s.Live)
    (hp : block n ≠ nullptr)
    (hsame : ∀ lo hi, hi ≤ block n + 8 ∨ block n + 24 ≤ lo → m.Same m' lo hi)
    (hfields : s.Fields m' pool.self (block n) g) :
    Store capacity bases m' pool block (Function.update stage n s) (Function.update group n g) := by
  obtain ⟨i, hi, hblock⟩ := h.placed n hn.holds hp
  refine h.update (fun live hinv => hinv.of_fields hplace hi hblock hsame)
    (Or.inr (iff_of_true hs hn)) (fun _ => hn.holds) hfields fun k hkn hk hq => hsame _ _ ?_
  have := h.blocks_apart hplace hk hn.holds hq hp hkn
  unfold Job.size at *
  omega

theorem setState (h : Store capacity bases m pool block stage group)
    (hplace : JobPool.Placement capacity bases) {x : Job.State} (hn : (stage n).Live) (hs : s.Live)
    (hp : block n ≠ nullptr)
    (hfields : s.Fields (Job.setState m (block n) x) pool.self (block n) g) :
    Store capacity bases (Job.setState m (block n) x) pool block (Function.update stage n s)
      (Function.update group n g) :=
  h.write hplace hn hs hp (fun _ _ hout => Job.same_setState _ _ (by omega)) hfields

/-- A job that held no block gets one, or the null pointer. -/
theorem place (h : Store capacity bases m pool block stage group) (hn : ¬ (stage n).Holds)
    (hs : s.Live) (hself : pool'.self = pool.self)
    (hpool : ∃ live, JobPool.Inv capacity bases pool' m' live ∧ ∀ q, (∃ i, q ∈ live i) ↔
      q ≠ nullptr ∧ (p = q ∨ ∃ k, (stage k).Live ∧ block k = q))
    (hplaced : p ≠ nullptr → ∃ i, ∃ hi : i < bases.length, p ∈ blocks bases[i] Job.size capacity)
    (hnew : p ≠ nullptr → ∀ k, (stage k).Holds → block k ≠ p)
    (hfields : s.Fields m' pool.self p g)
    (hlive : ∀ k, (stage k).Live → block k ≠ nullptr → m.Same m' (block k) (block k + Job.size))
    (hfreed : ∀ k, (stage k).Holds → block k ≠ nullptr →
      m.Same m' (block k + 8) (block k + Job.size)) :
    Store capacity bases m' pool' (Function.update block n p) (Function.update stage n s)
      (Function.update group n g) := by
  constructor
  case given =>
    obtain ⟨live, hinv, hiff⟩ := hpool
    refine ⟨live, hinv, fun q => (hiff q).trans (and_congr_right fun _ => ?_)⟩
    constructor
    · rintro (rfl | ⟨k, hk, rfl⟩)
      · exact ⟨n, by rwa [Function.update_self], Function.update_self ..⟩
      · have hkn : k ≠ n := fun heq => hn (heq ▸ hk.holds)
        exact ⟨k, by rwa [Function.update_of_ne hkn], Function.update_of_ne hkn ..⟩
    · rintro ⟨k, hk, rfl⟩
      by_cases hkn : k = n
      · subst hkn
        exact Or.inl (Function.update_self k p block).symm
      · rw [Function.update_of_ne hkn] at hk ⊢
        exact Or.inr ⟨k, hk, rfl⟩
  case self_ne => exact hself.symm ▸ h.self_ne
  case placed =>
    intro k hk hq
    by_cases hkn : k = n
    · subst hkn
      rw [Function.update_self] at hq ⊢
      exact hplaced hq
    · rw [Function.update_of_ne hkn] at hk hq ⊢
      exact h.placed k hk hq
  case apart =>
    intro k l hk hl hq heq
    by_cases hkn : k = n
    · by_cases hln : l = n
      · rw [hkn, hln]
      · rw [hkn, Function.update_self] at hq heq
        rw [Function.update_of_ne hln] at hl heq
        exact absurd heq.symm (hnew hq l hl)
    · rw [Function.update_of_ne hkn] at hk hq heq
      by_cases hln : l = n
      · rw [hln, Function.update_self] at heq
        exact absurd heq (hnew (heq ▸ hq) k hk)
      · rw [Function.update_of_ne hln] at hl heq
        exact h.apart k l hk hl hq heq
  case fields =>
    intro k
    rw [hself]
    by_cases hkn : k = n
    · subst hkn
      rwa [Function.update_self, Function.update_self, Function.update_self]
    · rw [Function.update_of_ne hkn, Function.update_of_ne hkn, Function.update_of_ne hkn]
      exact (h.fields k).transport (hlive k) (hfreed k)

theorem recycle (h : Store capacity bases m pool block stage group) (p : ℕ) :
    Store capacity bases m pool block (Stage.recycle block p stage) group := by
  constructor
  case given =>
    obtain ⟨live, hinv, hiff⟩ := h.given
    refine ⟨live, hinv, fun q => (hiff q).trans (and_congr_right fun _ => ?_)⟩
    exact exists_congr fun k => and_congr_left fun _ => Stage.live_recycle.symm
  case self_ne => exact h.self_ne
  case placed => exact fun k hk => h.placed k (Stage.holds_recycle hk).1
  case apart => exact fun k l hk hl => h.apart k l (Stage.holds_recycle hk).1 (Stage.holds_recycle hl).1
  case fields =>
    intro k
    rcases Stage.recycle_cases block p stage k with ⟨heq, -⟩ | ⟨heq, -⟩
    · rw [heq]
      exact h.fields k
    · rw [heq]
      trivial

/-- An allocation gives the job a block that no live job has. A job that was done with
this block loses it. -/
theorem alloc (h : Store capacity bases m pool block stage group)
    (hplace : JobPool.Placement capacity bases) {i : ℕ} (hi : i < bases.length)
    {function : List UInt8} (hfits : function.length ≤ Job.functionRoom)
    {calls : List (ℕ × Option Error)}
    (halloc : pool.allocateJob m i function = (.ok p, pool', m', calls))
    (hn : ¬ (stage n).Holds) (hs : s.Live)
    (hfields : p ≠ nullptr → Job.sourcePool m' p = pool.self → Job.groupCounter m' p = nullptr →
      Job.state m' p = Job.State.ready.code → s.Fields m' pool.self p g) :
    Store capacity bases m' pool' (Function.update block n p)
      (Function.update (Stage.recycle block p stage) n s) (Function.update group n g) := by
  obtain ⟨live, hinv, hiff⟩ := h.given
  obtain ⟨hself, -, hc, hinv', ⟨hsource, hgroup, hstate⟩, hwritten, hothers⟩ :=
    hinv.allocated hplace hi hfits halloc
  have hp : p ≠ nullptr := by
    have hlo := (blocks_bounds hc).1
    have hbase := hplace.nonnull _ (List.getElem_mem hi)
    unfold nullptr at *
    omega
  have hlive : ∀ k, (stage k).Live → block k ≠ nullptr → ∃ j, block k ∈ live j :=
    fun k hk hq => (hiff (block k)).mpr ⟨hq, k, hk, rfl⟩
  have hfree : ∀ k, (Stage.recycle block p stage k).Holds → block k ≠ nullptr → block k ≠ p := by
    intro k hk hq
    obtain ⟨hold, hne⟩ := Stage.holds_recycle hk
    rcases Stage.holds_iff.mp hold with hk | hk
    · obtain ⟨j, hj⟩ := hlive k hk hq
      exact (hothers j _ hj).1
    · exact fun heq => hne ⟨hk, heq⟩
  refine (h.recycle p).place (fun hk => hn (Stage.holds_recycle hk).1) hs hself
    ⟨_, hinv', fun q => ?_⟩ (fun _ => ⟨i, hi, hc⟩) (fun _ k hk heq => hfree k hk (heq ▸ hp) heq)
    (hfields hp hsource hgroup hstate) (fun k hk hq => ?_) fun k hk hq => ?_
  · rw [JobPool.mem_live_cons, hiff q]
    constructor
    · rintro (rfl | ⟨hq, k, hk, heq⟩)
      · exact ⟨hp, Or.inl rfl⟩
      · exact ⟨hq, Or.inr ⟨k, Stage.live_recycle.mpr hk, heq⟩⟩
    · rintro ⟨hq, rfl | ⟨k, hk, heq⟩⟩
      · exact Or.inl rfl
      · exact Or.inr ⟨hq, k, Stage.live_recycle.mp hk, heq⟩
  · obtain ⟨j, hj⟩ := hlive k (Stage.live_recycle.mp hk) hq
    exact (hothers j _ hj).2
  · obtain ⟨j, hj, hqb⟩ := h.placed k (Stage.holds_recycle hk).1 hq
    exact hwritten j hj _ hqb (hfree k hk hq)

theorem refuse (h : Store capacity bases m pool block stage group)
    (hplace : JobPool.Placement capacity bases) {i : ℕ} (hi : i < bases.length)
    {function : List UInt8} (hfits : function.length ≤ Job.functionRoom) {e : Error}
    {calls : List (ℕ × Option Error)}
    (halloc : pool.allocateJob m i function = (.error e, pool', m', calls))
    (hn : ¬ (stage n).Holds) :
    Store capacity bases m' pool' (Function.update block n nullptr)
      (Function.update stage n .made) (Function.update group n g) := by
  obtain ⟨live, hinv, hiff⟩ := h.given
  obtain ⟨hself, -, hinv', rfl⟩ := hinv.refused hplace hi hfits halloc
  refine h.place hn trivial hself ⟨live, hinv', fun q => ?_⟩ (fun hnull => absurd rfl hnull)
    (fun hnull => absurd rfl hnull) (fun hnull => absurd rfl hnull) (fun _ _ _ => .refl _ _ _)
    fun _ _ _ => .refl _ _ _
  rw [hiff q]
  exact and_congr_right fun hq => (or_iff_right hq.symm).symm

theorem free (h : Store capacity bases m pool block stage group)
    (hplace : JobPool.Placement capacity bases) (hn : stage n = .done) :
    Store capacity bases m (pool.freeJob m (block n)) block (Function.update stage n .freed)
      group := by
  obtain ⟨live, hinv, hiff⟩ := h.given
  have hfields := h.fields n
  rw [hn] at hfields
  obtain ⟨hp, -, hstate⟩ := hfields
  have hlive : (stage n).Live := by
    rw [hn]
    trivial
  obtain ⟨i, hi⟩ := (hiff (block n)).mpr ⟨hp, n, hlive, rfl⟩
  obtain ⟨hinv', hself⟩ := hinv.freeJob hplace hi
  have hkept : ∀ k, (Function.update stage n .freed k).Holds → (stage k).Holds := by
    intro k hk
    by_cases hkn : k = n
    · exact hkn ▸ hlive.holds
    · rwa [Function.update_of_ne hkn] at hk
  constructor
  case given =>
    refine ⟨_, hinv', fun q => ?_⟩
    rw [hinv.mem_live_erase, hiff q, and_left_comm]
    refine and_congr_right fun hq => ?_
    constructor
    · rintro ⟨hne, k, hk, rfl⟩
      have hkn : k ≠ n := fun heq => hne (heq ▸ rfl)
      exact ⟨k, by rwa [Function.update_of_ne hkn], rfl⟩
    · rintro ⟨k, hk, rfl⟩
      by_cases hkn : k = n
      · rw [hkn, Function.update_self] at hk
        exact absurd hk id
      · rw [Function.update_of_ne hkn] at hk
        exact ⟨fun heq => hkn (h.apart k n hk.holds hlive.holds hq heq), k, hk, rfl⟩
  case self_ne => exact hself.symm ▸ h.self_ne
  case placed => exact fun k hk => h.placed k (hkept k hk)
  case apart => exact fun k l hk hl => h.apart k l (hkept k hk) (hkept l hl)
  case fields =>
    intro k
    rw [hself]
    by_cases hkn : k = n
    · subst hkn
      rw [Function.update_self]
      exact ⟨hp, hstate⟩
    · rw [Function.update_of_ne hkn]
      exact h.fields k

end Store

end Jobrocket.CallStacks
