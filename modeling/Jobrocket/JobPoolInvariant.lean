import Jobrocket.JobPoolCalls

/-! # The invariant of the pool

Every thread's blocks are split between its chain, its free list and its live jobs. The
live jobs are an argument of the invariant: it says what a call does to them, and leaves
it to the user of the pool to keep account of them.
-/
namespace Jobrocket.JobPool
open Library Memory FixedPoolAllocator

/-- The split of every thread's blocks. -/
structure Inv (capacity : ℕ) (bases : List ℕ) (pool : JobPool) (m : Memory)
    (live : ℕ → List ℕ) : Prop where
  self_lt : pool.self < 2 ^ 64
  allocators_length : pool.allocators.length = bases.length
  freeLists_length : pool.freeLists.length = bases.length
  shelf : ∀ i (hi : i < bases.length), ∃ cs, ShelfOf capacity bases[i] i pool m cs (live i)
  live_nil : ∀ i, bases.length ≤ i → live i = []

section Placement
variable {capacity : ℕ} {bases : List ℕ} {i j p q : ℕ}

theorem Placement.apart (h : Placement capacity bases) (hi : i < bases.length)
    (hj : j < bases.length) (hne : i ≠ j) :
    bases[i] + Job.size * capacity ≤ bases[j] ∨ bases[j] + Job.size * capacity ≤ bases[i] := by
  rcases Nat.lt_or_gt_of_ne hne with hlt | hlt
  · exact List.pairwise_iff_getElem.mp h.disjoint i j hi hj hlt
  · exact (List.pairwise_iff_getElem.mp h.disjoint j i hj hi hlt).symm

theorem Placement.blocks_apart (h : Placement capacity bases) (hi : i < bases.length)
    (hj : j < bases.length) (hp : p ∈ blocks bases[i] Job.size capacity)
    (hq : q ∈ blocks bases[j] Job.size capacity) (hne : i ≠ j ∨ p ≠ q) :
    p + Job.size ≤ q ∨ q + Job.size ≤ p := by
  by_cases hij : i = j
  · subst hij
    exact blocks_disjoint hp hq (hne.resolve_left (· rfl))
  · have hp' := blocks_bounds hp
    have hq' := blocks_bounds hq
    have := h.apart hi hj hij
    omega

end Placement

section Inv
variable {capacity : ℕ} {bases : List ℕ} {pool pool' : JobPool} {m m' : Memory}
variable {live : ℕ → List ℕ} {i j p q : ℕ}

theorem Inv.mem_blocks (h : Inv capacity bases pool m live) (hi : i < bases.length)
    (hp : p ∈ live i) : p ∈ blocks bases[i] Job.size capacity := by
  obtain ⟨cs, hshelf⟩ := h.shelf i hi
  exact hshelf.mem_blocks (List.mem_append_right _ hp)

theorem Inv.lt_of_mem (h : Inv capacity bases pool m live) (hp : p ∈ live i) :
    i < bases.length := by
  by_contra hi
  rw [h.live_nil i (not_lt.mp hi)] at hp
  exact List.not_mem_nil hp

theorem Inv.live_nodup (h : Inv capacity bases pool m live) (i : ℕ) : (live i).Nodup := by
  by_cases hi : i < bases.length
  · obtain ⟨cs, hshelf⟩ := h.shelf i hi
    exact (List.nodup_append.mp hshelf.nodup).2.1
  · rw [h.live_nil i (not_lt.mp hi)]
    exact List.nodup_nil

theorem Inv.live_apart (h : Inv capacity bases pool m live) (hplace : Placement capacity bases)
    (hp : p ∈ live i) (hq : q ∈ live j) (hne : i ≠ j ∨ p ≠ q) :
    p + Job.size ≤ q ∨ q + Job.size ≤ p := by
  have hi := h.lt_of_mem hp
  have hj := h.lt_of_mem hq
  exact hplace.blocks_apart hi hj (h.mem_blocks hi hp) (h.mem_blocks hj hq) hne

theorem mem_live_cons : (∃ j, q ∈ Function.update live i (p :: live i) j) ↔ q = p ∨ ∃ j, q ∈ live j := by
  constructor
  · rintro ⟨j, hj⟩
    by_cases hji : j = i
    · subst hji
      rw [Function.update_self] at hj
      exact (List.mem_cons.mp hj).imp_right fun hq => ⟨j, hq⟩
    · rw [Function.update_of_ne hji] at hj
      exact Or.inr ⟨j, hj⟩
  · rintro (rfl | ⟨j, hj⟩)
    · exact ⟨i, by simp⟩
    · by_cases hji : j = i
      · subst hji
        exact ⟨j, by simp [hj]⟩
      · exact ⟨j, by rwa [Function.update_of_ne hji]⟩

theorem Inv.mem_live_erase (h : Inv capacity bases pool m live) :
    (∃ j, q ∈ (live j).erase p) ↔ q ≠ p ∧ ∃ j, q ∈ live j := by
  simp only [(h.live_nodup _).mem_erase_iff, exists_and_left]

/-- A call of thread `i` that writes to its own array only leaves another thread's shelf as
it was. -/
theorem Placement.shelf_other (hplace : Placement capacity bases) (hi : i < bases.length)
    (hj : j < bases.length) (hji : j ≠ i) {cs l : List ℕ} (honly : OnlyThread i pool pool')
    (hsame : ∀ lo hi', hi' ≤ bases[i] ∨ bases[i] + Job.size * capacity ≤ lo → m.Same m' lo hi')
    (h : ShelfOf capacity bases[j] j pool m cs l) : ShelfOf capacity bases[j] j pool' m' cs l := by
  obtain ⟨ha, hf⟩ := honly.other j hji
  rw [ShelfOf, ha, hf]
  exact h.of_same (hsame _ _ (hplace.apart hj hi hji))

/-- The frame rule: a call of thread `i` that writes to its own array only. -/
theorem Inv.update (h : Inv capacity bases pool m live) (hplace : Placement capacity bases)
    (hi : i < bases.length) {cs l : List ℕ} (honly : OnlyThread i pool pool')
    (hsame : ∀ lo hi', hi' ≤ bases[i] ∨ bases[i] + Job.size * capacity ≤ lo → m.Same m' lo hi')
    (hshelf : ShelfOf capacity bases[i] i pool' m' cs l) :
    Inv capacity bases pool' m' (Function.update live i l) := by
  constructor
  case self_lt => exact honly.self_eq ▸ h.self_lt
  case allocators_length => exact honly.allocators_length.trans h.allocators_length
  case freeLists_length => exact honly.freeLists_length.trans h.freeLists_length
  case shelf =>
    intro j hj
    by_cases hji : j = i
    · subst hji
      rw [Function.update_self]
      exact ⟨cs, hshelf⟩
    · obtain ⟨cs', hother⟩ := h.shelf j hj
      rw [Function.update_of_ne hji]
      exact ⟨cs', hplace.shelf_other hi hj hji honly hsame hother⟩
  case live_nil =>
    intro j hj
    rw [Function.update_of_ne (by omega)]
    exact h.live_nil j hj

theorem Inv.entries_mem_blocks (h : Inv capacity bases pool m live) (hi : i < bases.length) {e : ℕ}
    (he : e ∈ (pool.freeList i).entries) : e ∈ blocks bases[i] Job.size capacity := by
  obtain ⟨cs, hshelf⟩ := h.shelf i hi
  exact hshelf.mem_blocks (List.mem_append_left _ (List.mem_append_right _ he))

theorem Inv.entries_bounds (h : Inv capacity bases pool m live) (hi : i < bases.length) {e : ℕ}
    (he : e ∈ (pool.freeList i).entries) :
    bases[i] ≤ e ∧ e + Job.size ≤ bases[i] + Job.size * capacity :=
  blocks_bounds (h.entries_mem_blocks hi he)

/-- Outside the thread's array no entry's chain word is written. -/
theorem Inv.entries_outside (h : Inv capacity bases pool m live) (hi : i < bases.length)
    {lo hi' : ℕ} (hout : hi' ≤ bases[i] ∨ bases[i] + Job.size * capacity ≤ lo) :
    ∀ e ∈ (pool.freeList i).entries, hi' ≤ e ∨ e + 8 ≤ lo := by
  intro e he
  have hbounds := h.entries_bounds hi he
  unfold Job.size at *
  omega

/-- A block that is not live lies apart from every live job. -/
theorem Inv.apart_live (h : Inv capacity bases pool m live) (hplace : Placement capacity bases)
    (hi : i < bases.length) (hp : p ∈ blocks bases[i] Job.size capacity) (hnew : p ∉ live i)
    (hq : q ∈ live j) : p + Job.size ≤ q ∨ q + Job.size ≤ p := by
  have hj := h.lt_of_mem hq
  apply hplace.blocks_apart hi hj hp (h.mem_blocks hj hq)
  by_cases hij : i = j
  · subst hij
    exact Or.inr fun hpq => hnew (hpq ▸ hq)
  · exact Or.inl hij

theorem Inv.entries_not_live (h : Inv capacity bases pool m live) (hi : i < bases.length) {e : ℕ}
    (he : e ∈ (pool.freeList i).entries) : e ∉ live i := by
  obtain ⟨cs, hshelf⟩ := h.shelf i hi
  intro hlive
  exact (List.nodup_append.mp hshelf.nodup).2.2 e (List.mem_append_right _ he) e hlive rfl

theorem Inv.allocateJob (h : Inv capacity bases pool m live) (hplace : Placement capacity bases)
    (hi : i < bases.length) {function : List UInt8}
    (hfn : function.length ≤ Job.functionRoom) :
    ∃ result pool' m' calls, pool.allocateJob m i function = (result, pool', m', calls) ∧
      pool'.self = pool.self ∧ (∀ call ∈ calls, call.2 = none) ∧
      ((result = .error exhausted ∧ pool.nextBlock i = none ∧
          (∀ p ∈ blocks bases[i] Job.size capacity, p ∈ live i) ∧
          Inv capacity bases pool' m' live ∧ m' = m) ∨
        ∃ c m₁, result = .ok c ∧ pool.nextBlock i = some c ∧
          c ∈ blocks bases[i] Job.size capacity ∧ c ∉ live i ∧
          m' = construct m₁ c pool.self i function ∧
          Inv capacity bases pool' m' (Function.update live i (c :: live i)) ∧
          (∀ j (hj : j < bases.length), ∀ q ∈ blocks bases[j] Job.size capacity, q ≠ c →
            m.Same m' (q + 8) (q + Job.size)) ∧
          ∀ j, ∀ q ∈ live j, q ≠ c ∧ m.Same m' q (q + Job.size)) := by
  have hself := h.self_lt
  have hcount := hplace.count_lt
  have hfits := hplace.fits _ (List.getElem_mem hi)
  obtain ⟨cs, hshelf⟩ := h.shelf i hi
  obtain ⟨result, pool', m', calls, hcall, honly, hok, hcases⟩ :=
    allocateJob_spec (by omega) (by omega) (hplace.nonnull _ (List.getElem_mem hi)) (by omega)
      (by rw [h.allocators_length]; exact hi) (by rw [h.freeLists_length]; exact hi) hfn hshelf
  refine ⟨result, pool', m', calls, hcall, honly.self_eq, hok, ?_⟩
  rcases hcases with ⟨hres, hnext, hall, hshelf', rfl⟩ | ⟨c, cs', m₁, hres, hnext, rfl, hshelf', -, hsame⟩
  · refine Or.inl ⟨hres, hnext, hall, ?_, rfl⟩
    have hinv := h.update hplace hi honly (fun _ _ _ => .refl _ _ _) hshelf'
    rwa [Function.update_eq_self] at hinv
  · have hc : c ∈ blocks bases[i] Job.size capacity := hshelf'.mem_blocks (by simp)
    have hcb := blocks_bounds hc
    have hnew : c ∉ live i := fun hmem => by
      have := (List.nodup_append.mp hshelf'.nodup).2.1
      exact (List.nodup_cons.mp this).1 hmem
    -- The call writes to the chain words of the drained blocks and to the new job.
    have hframe : ∀ lo hi', (∀ e ∈ (pool.freeList i).entries, hi' ≤ e ∨ e + 8 ≤ lo) →
        (hi' ≤ c ∨ c + Job.size ≤ lo) → m.Same (construct m₁ c pool.self i function) lo hi' :=
      fun lo hi' hdrained hjob => .trans (hsame lo hi' hdrained) (construct_same hfn hjob)
    refine Or.inr ⟨c, m₁, hres, hnext, hc, hnew, rfl, ?_, ?_, ?_⟩
    · refine h.update hplace hi honly (fun lo hi' hout => ?_) hshelf'
      exact hframe lo hi' (h.entries_outside hi hout) (by omega)
    · intro j hj q hq hne
      refine hframe _ _ (fun e he => ?_) ?_
      · by_cases heq : q = e
        · exact Or.inr (heq ▸ le_rfl)
        · have := hplace.blocks_apart hj hi hq (h.entries_mem_blocks hi he) (Or.inr heq)
          unfold Job.size at *
          omega
      · have := hplace.blocks_apart hj hi hq hc (Or.inr hne)
        omega
    · intro j q hq
      have hcq := h.apart_live hplace hi hc hnew hq
      refine ⟨fun hqc => ?_, hframe _ _ (fun e he => ?_) hcq.symm⟩
      · unfold Job.size at hcq
        omega
      · have := h.apart_live hplace hi (h.entries_mem_blocks hi he) (h.entries_not_live hi he) hq
        unfold Job.size at *
        omega

/-- What an allocation that gives a job has done. -/
theorem Inv.allocated (h : Inv capacity bases pool m live) (hplace : Placement capacity bases)
    (hi : i < bases.length) {function : List UInt8} (hfn : function.length ≤ Job.functionRoom)
    {calls : List (ℕ × Option Error)}
    (halloc : pool.allocateJob m i function = (.ok p, pool', m', calls)) :
    pool'.self = pool.self ∧ pool.nextBlock i = some p ∧
      p ∈ blocks bases[i] Job.size capacity ∧
      Inv capacity bases pool' m' (Function.update live i (p :: live i)) ∧
      (Job.sourcePool m' p = pool.self ∧ Job.groupCounter m' p = nullptr ∧
        Job.state m' p = Job.State.ready.code) ∧
      (∀ j (hj : j < bases.length), ∀ q ∈ blocks bases[j] Job.size capacity, q ≠ p →
        m.Same m' (q + 8) (q + Job.size)) ∧
      ∀ j, ∀ q ∈ live j, q ≠ p ∧ m.Same m' q (q + Job.size) := by
  have hlt := h.self_lt
  have hcount := hplace.count_lt
  obtain ⟨result, pool₁, m₁, calls₁, hcall, hself, -, hcases⟩ := h.allocateJob hplace hi hfn
  rw [halloc] at hcall
  cases hcall
  rcases hcases with ⟨hres, -⟩ | ⟨c, m₂, hres, hnext, hc, -, rfl, hinv, hblocks, hjobs⟩
  · cases hres
  · cases hres
    obtain ⟨hsource, hstate, hgroup, -⟩ := construct_fields m₂ p function
      (by omega : pool.self < 256 ^ 8) (by omega : i < 256 ^ 4)
    exact ⟨hself, hnext, hc, hinv, ⟨hsource, hgroup, hstate⟩, hblocks, hjobs⟩

theorem Inv.refused (h : Inv capacity bases pool m live) (hplace : Placement capacity bases)
    (hi : i < bases.length) {function : List UInt8} (hfn : function.length ≤ Job.functionRoom)
    {e : Error} {calls : List (ℕ × Option Error)}
    (halloc : pool.allocateJob m i function = (.error e, pool', m', calls)) :
    pool'.self = pool.self ∧ pool.nextBlock i = none ∧ Inv capacity bases pool' m' live ∧ m' = m := by
  obtain ⟨result, pool₁, m₁, calls₁, hcall, hself, -, hcases⟩ := h.allocateJob hplace hi hfn
  rw [halloc] at hcall
  cases hcall
  rcases hcases with ⟨-, hnext, -, hinv, hm⟩ | ⟨c, m₂, hres, -⟩
  · exact ⟨hself, hnext, hinv, hm⟩
  · cases hres

theorem Inv.freeAllThisThread (h : Inv capacity bases pool m live)
    (hplace : Placement capacity bases) (hi : i < bases.length) :
    ∃ pool' m' calls, pool.freeAllThisThread m i = (pool', m', calls) ∧
      (∀ call ∈ calls, call.2 = none) ∧ Inv capacity bases pool' m' live := by
  have hfits := hplace.fits _ (List.getElem_mem hi)
  obtain ⟨cs, hshelf⟩ := h.shelf i hi
  obtain ⟨pool', m', calls, hcall, honly, hshelf', -, hcalls, hsame⟩ :=
    freeAllThisThread_spec (hplace.nonnull _ (List.getElem_mem hi)) (by omega)
      (by rw [h.allocators_length]; exact hi) (by rw [h.freeLists_length]; exact hi) hshelf
  refine ⟨pool', m', calls, hcall, ?_, ?_⟩
  · intro call hc
    rw [hcalls] at hc
    obtain ⟨p, -, rfl⟩ := List.mem_map.mp hc
    rfl
  · have hinv := h.update hplace hi honly
      (fun lo hi' hout => hsame lo hi' (h.entries_outside hi hout)) hshelf'
    rwa [Function.update_eq_self] at hinv

/-- A live job is live for one thread only. -/
theorem Inv.owner_unique (h : Inv capacity bases pool m live) (hplace : Placement capacity bases)
    (hp : p ∈ live i) (hq : p ∈ live j) : i = j := by
  by_contra hne
  have := h.live_apart hplace hp hq (Or.inl hne)
  unfold Job.size at this
  omega

theorem Inv.freeJob (h : Inv capacity bases pool m live) (hplace : Placement capacity bases)
    (hp : p ∈ live i) :
    Inv capacity bases (pool.freeJob m p) m (fun j => (live j).erase p) ∧
      (pool.freeJob m p).self = pool.self := by
  have hi := h.lt_of_mem hp
  obtain ⟨cs, hshelf⟩ := h.shelf i hi
  obtain ⟨honly, -, hshelf'⟩ := freeJob_spec (by rw [h.freeLists_length]; exact hi) hshelf hp
  have hlive : (fun j => (live j).erase p) = Function.update live i ((live i).erase p) := by
    funext j
    by_cases hji : j = i
    · rw [hji, Function.update_self]
    · rw [Function.update_of_ne hji]
      exact List.erase_of_not_mem fun hq => hji (h.owner_unique hplace hq hp)
  rw [hlive]
  exact ⟨h.update hplace hi honly (fun _ _ _ => .refl _ _ _) hshelf', honly.self_eq⟩

theorem Inv.of_arrays (h : Inv capacity bases pool m live)
    (hsame : ∀ b ∈ bases, m.Same m' b (b + Job.size * capacity)) :
    Inv capacity bases pool m' live := by
  refine { h with shelf := fun i hi => ?_ }
  obtain ⟨cs, hshelf⟩ := h.shelf i hi
  exact ⟨cs, hshelf.of_same (hsame _ (List.getElem_mem hi))⟩

/-- A write to the state or the group counter of a job touches no chain word and no tag. -/
theorem Inv.of_fields (h : Inv capacity bases pool m live) (hplace : Placement capacity bases)
    (hi : i < bases.length) (hp : p ∈ blocks bases[i] Job.size capacity)
    (hsame : ∀ lo hi', hi' ≤ p + 8 ∨ p + 24 ≤ lo → m.Same m' lo hi') :
    Inv capacity bases pool m' live := by
  have hwords : ∀ j (hj : j < bases.length), ∀ q ∈ blocks bases[j] Job.size capacity,
      m.Same m' q (q + 8) ∧ m.Same m' (q + 24) (q + 28) := by
    intro j hj q hq
    by_cases hqp : q = p
    · subst hqp
      exact ⟨hsame _ _ (by omega), hsame _ _ (by omega)⟩
    · have := hplace.blocks_apart hj hi hq hp (Or.inr hqp)
      unfold Job.size at this
      exact ⟨hsame _ _ (by omega), hsame _ _ (by omega)⟩
  refine { h with shelf := fun j hj => ?_ }
  obtain ⟨cs, hshelf⟩ := h.shelf j hj
  refine ⟨cs, hshelf.transport (fun c hc => ?_) (fun q hq => ?_)⟩
  · exact (hwords j hj c (hshelf.chain.mem_blocks c hc)).1
  · have hmem : q ∈ cs ++ (pool.freeList j).entries ++ live j := by
      rw [List.append_assoc]
      exact List.mem_append_right _ hq
    exact (hwords j hj q (hshelf.mem_blocks hmem)).2

end Inv

section Create
variable {capacity : ℕ} {bases : List ℕ}

theorem createAllocators_spec (hplace : Placement capacity bases) (m : Memory) :
    (createAllocators capacity bases m).1.length = bases.length ∧
      (∀ i (hi : i < bases.length), ((createAllocators capacity bases m).1.getD i default).Represents
        bases[i] Job.size capacity (createAllocators capacity bases m).2
        (blocks bases[i] Job.size capacity)) ∧
      ∀ lo hi, (∀ b ∈ bases, hi ≤ b ∨ b + Job.size * capacity ≤ lo) →
        m.Same (createAllocators capacity bases m).2 lo hi := by
  induction bases generalizing m with
  | nil => exact ⟨rfl, fun i hi => absurd hi (Nat.not_lt_zero i), fun _ _ _ => .refl _ _ _⟩
  | cons base bases ih =>
    have hfits := hplace.fits base List.mem_cons_self
    obtain ⟨happart, hrest⟩ := List.pairwise_cons.mp hplace.disjoint
    have hplace' : Placement capacity bases :=
      ⟨(Nat.lt_succ_self _).trans hplace.count_lt, fun b hb => hplace.nonnull b (.tail _ hb),
        fun b hb => hplace.fits b (.tail _ hb), hrest⟩
    obtain ⟨hlen, hrep, hsame⟩ := ih hplace'
      (FixedPoolAllocator.create base Job.size capacity m).2
    have hsize : 8 ≤ Job.size := by decide
    have hfirst := represents_create hsize (by omega : base + Job.size * capacity < 256 ^ 8) m
    refine ⟨congrArg (· + 1) hlen, ?_, ?_⟩
    · rintro (_ | i) hi
      · refine hfirst.transport fun c hc => hsame _ _ fun b hb => ?_
        have hc' := blocks_bounds hc
        have := happart b hb
        unfold Job.size at *
        omega
      · exact hrep i (Nat.lt_of_succ_lt_succ hi)
    · intro lo hi hout
      exact .trans (create_same hsize m (hout base List.mem_cons_self))
        (hsame lo hi fun b hb => hout b (.tail _ hb))

theorem freeList_create (self : ℕ) (m : Memory) {i : ℕ} (hi : i < bases.length) :
    (create self capacity bases m).1.freeList i = FreeList.create capacity := by
  simp [create, freeList, List.getD_eq_getElem?_getD, hi]

/-- A new shelf has all its blocks in the chain, in the order of their addresses. -/
theorem shelf_create (hplace : Placement capacity bases) (self : ℕ) (m : Memory) {i : ℕ}
    (hi : i < bases.length) :
    ShelfOf capacity bases[i] i (create self capacity bases m).1 (create self capacity bases m).2
      (blocks bases[i] Job.size capacity) [] := by
  rw [ShelfOf, freeList_create self m hi]
  constructor
  case chain => exact (createAllocators_spec hplace m).2.1 i hi
  case elements_length => exact List.length_replicate
  case next_le => exact Nat.zero_le _
  case clean => exact FreeList.clean_create capacity
  case perm => simp
  case tagged => simp

theorem inv_create (hplace : Placement capacity bases) {self : ℕ} (hself : self < 2 ^ 64)
    (m : Memory) :
    Inv capacity bases (create self capacity bases m).1 (create self capacity bases m).2
      fun _ => [] := by
  constructor
  case self_lt => exact hself
  case allocators_length => exact (createAllocators_spec hplace m).1
  case freeLists_length => exact List.length_replicate
  case shelf => exact fun i hi => ⟨_, shelf_create hplace self m hi⟩
  case live_nil => exact fun _ _ => rfl

end Create

end Jobrocket.JobPool
