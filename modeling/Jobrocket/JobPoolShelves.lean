import Jobrocket.JobPool

/-! # One thread's share of the pool

A thread's blocks are split three ways: those in its allocator's chain, those on its free
list, and those that are live, that is allocated and not freed. Every call moves blocks
between the three and touches no byte outside the thread's own array.
-/
namespace Jobrocket.JobPool
open Library Memory FixedPoolAllocator

/-- The blocks of thread `i`, laid out from `base`: `cs` chained and `live` in use. -/
structure Shelf (capacity base i : ℕ) (a : FixedPoolAllocator) (fl : FreeList) (m : Memory)
    (cs live : List ℕ) : Prop where
  chain : a.Represents base Job.size capacity m cs
  elements_length : fl.elements.length = capacity
  next_le : fl.next ≤ capacity
  clean : fl.Clean
  perm : (cs ++ fl.entries ++ live).Perm (blocks base Job.size capacity)
  tagged : ∀ p ∈ fl.entries ++ live, Job.workerAlloc m p = i

section Shelf
variable {capacity base i : ℕ} {a : FixedPoolAllocator} {fl : FreeList} {m m' : Memory}
variable {cs live : List ℕ}

theorem Shelf.nodup (h : Shelf capacity base i a fl m cs live) :
    (cs ++ fl.entries ++ live).Nodup :=
  h.perm.nodup_iff.mpr (blocks_nodup (by decide))

theorem Shelf.mem_blocks (h : Shelf capacity base i a fl m cs live) {p : ℕ}
    (hp : p ∈ cs ++ fl.entries ++ live) : p ∈ blocks base Job.size capacity :=
  h.perm.mem_iff.mp hp

theorem Shelf.subperm_blocks (h : Shelf capacity base i a fl m cs live) {jobs : List ℕ}
    (hnodup : jobs.Nodup) (hlive : ∀ job ∈ jobs, job ∈ live) :
    (fl.entries ++ jobs).Subperm (blocks base Job.size capacity) := by
  have hjobs : (fl.entries ++ jobs).Subperm (fl.entries ++ live) :=
    (List.subperm_append_left _).mpr (hnodup.subperm hlive)
  have hall : (fl.entries ++ live).Subperm (cs ++ fl.entries ++ live) := by
    rw [List.append_assoc]
    exact (List.sublist_append_right _ _).subperm
  exact (hjobs.trans hall).trans h.perm.subperm

theorem Shelf.length_eq (h : Shelf capacity base i a fl m cs live) :
    cs.length + fl.next + live.length = capacity := by
  have hlen := h.perm.length_eq
  rwa [List.length_append, List.length_append, blocks_length,
    FreeList.entries_length (h.elements_length ▸ h.next_le)] at hlen

/-- Every block is live exactly if the chain and the free list are empty. -/
theorem Shelf.exhausted_iff (h : Shelf capacity base i a fl m cs live) :
    (∀ p ∈ blocks base Job.size capacity, p ∈ live) ↔ cs = [] ∧ fl.entries = [] := by
  have hnodup := h.nodup
  constructor
  · intro hall
    have hnone : cs ++ fl.entries = [] := by
      refine List.eq_nil_iff_forall_not_mem.mpr fun p hp => ?_
      have hp' := hall p (h.mem_blocks (List.mem_append_left _ hp))
      exact (List.nodup_append.mp hnodup).2.2 p hp p hp' rfl
    exact List.append_eq_nil_iff.mp hnone
  · rintro ⟨rfl, hnone⟩ p hp
    have hmem := h.perm.mem_iff.mpr hp
    simpa [hnone] using hmem

theorem Shelf.transport (h : Shelf capacity base i a fl m cs live)
    (hchain : ∀ c ∈ cs, m.Same m' c (c + 8))
    (htags : ∀ p ∈ fl.entries ++ live, m.Same m' (p + 24) (p + 28)) :
    Shelf capacity base i a fl m' cs live :=
  { h with
    chain := h.chain.transport hchain
    tagged := fun p hp => ((htags p hp).load_eq le_rfl le_rfl).trans (h.tagged p hp) }

theorem Shelf.of_same (h : Shelf capacity base i a fl m cs live)
    (hsame : m.Same m' base (base + Job.size * capacity)) :
    Shelf capacity base i a fl m' cs live := by
  refine h.transport (fun c hc => ?_) (fun p hp => ?_)
  · obtain ⟨hlo, hhi⟩ := blocks_bounds (h.chain.mem_blocks c hc)
    exact hsame.mono hlo (le_trans (Nat.add_le_add_left (by decide) c) hhi)
  · have hmem : p ∈ cs ++ fl.entries ++ live := by
      rw [List.append_assoc]
      exact List.mem_append_right _ hp
    obtain ⟨hlo, hhi⟩ := blocks_bounds (h.mem_blocks hmem)
    refine hsame.mono (by omega) (le_trans (Nat.add_le_add_left ?_ p) hhi)
    decide

theorem Shelf.push_entries (h : Shelf capacity base i a fl m cs live) {p : ℕ} (hp : p ∈ live) :
    (fl.push p).entries = fl.entries ++ [p] := by
  have hlen := h.length_eq
  have hpos := List.length_pos_of_mem hp
  exact FreeList.push_entries (by rw [h.elements_length]; omega) p

theorem Shelf.push (h : Shelf capacity base i a fl m cs live) {p : ℕ} (hp : p ∈ live) :
    Shelf capacity base i a (fl.push p) m cs (live.erase p) := by
  have hlen := h.length_eq
  have hpos := List.length_pos_of_mem hp
  have hentries := h.push_entries hp
  have hperm : (cs ++ fl.entries ++ (p :: live.erase p)).Perm (cs ++ fl.entries ++ live) :=
    (List.perm_cons_erase hp).symm.append_left _
  constructor
  case chain => exact h.chain
  case elements_length => rw [FreeList.push_elements_length, h.elements_length]
  case next_le =>
    change fl.next + 1 ≤ capacity
    omega
  case clean => exact h.clean.push p
  case perm =>
    rw [hentries]
    refine List.Perm.trans ?_ (hperm.trans h.perm)
    simp
  case tagged =>
    intro q hq
    rw [hentries] at hq
    apply h.tagged q
    simp only [List.mem_append, List.mem_singleton] at hq ⊢
    rcases hq with (hq | rfl) | hq
    · exact Or.inl hq
    · exact Or.inr hp
    · exact Or.inr (List.mem_of_mem_erase hq)

/-- One turn of the loop: the entry pushed last goes to the front of the chain. -/
theorem Shelf.recycle (h : Shelf capacity base i a fl m cs live) (hbase : base ≠ nullptr)
    (hfits : base + Job.size * capacity < 256 ^ 8) {n : ℕ} (hn : fl.next = n + 1) :
    ∃ job fl' a', fl.pop = (job, fl') ∧ fl'.next = n ∧ fl.entries = fl'.entries ++ [job] ∧
      a.free m job = .ok (a', m.store 8 job a.next) ∧
      Shelf capacity base i a' fl' (m.store 8 job a.next) (job :: cs) live := by
  have hle := h.next_le
  have hlen := h.length_eq
  obtain ⟨job, fl', hpop, hnext, helems, hentries⟩ :=
    FreeList.pop_succ hn (by rw [h.elements_length]; omega)
  have hnodup := h.nodup
  have hmem : job ∈ fl.entries := by simp [hentries]
  have hblock := h.mem_blocks (List.mem_append_left live (List.mem_append_right cs hmem))
  have hnew : job ∉ cs := fun hc =>
    (List.nodup_append.mp (List.nodup_append.mp hnodup).1).2.2 job hc job hmem rfl
  obtain ⟨a', hfree, hchain⟩ := h.chain.free_ok (by decide) hbase hfits hblock hnew (by omega)
  refine ⟨job, fl', a', hpop, hnext, hentries, hfree, ?_⟩
  constructor
  case chain => exact hchain
  case elements_length => exact helems.trans h.elements_length
  case next_le => omega
  case clean =>
    have hclean := h.clean.pop
    rwa [hpop] at hclean
  case perm =>
    refine List.Perm.trans ?_ h.perm
    rw [hentries, List.cons_append, List.cons_append, ← List.append_assoc cs,
      List.append_assoc _ [job]]
    exact List.perm_middle.symm
  case tagged =>
    intro q hq
    have hq' : q ∈ fl.entries ++ live := by
      simp only [hentries, List.mem_append, List.mem_singleton] at hq ⊢
      tauto
    rw [← h.tagged q hq']
    -- the word written into the block does not reach the fields behind it
    apply load_store_of_disjoint _
    have hq'' := h.mem_blocks (p := q) (by rw [List.append_assoc]; exact List.mem_append_right _ hq')
    by_cases hne : q = job
    · omega
    · have := blocks_disjoint hq'' hblock hne
      unfold Job.size at this
      omega

/-- The loop empties the free list into the allocator, oldest entry in front, and every
call of the allocator's `free` succeeds. -/
theorem Shelf.drain (hbase : base ≠ nullptr) (hfits : base + Job.size * capacity < 256 ^ 8)
    {turns : ℕ} (h : Shelf capacity base i a fl m cs live) (hturns : fl.next = turns) :
    ∃ a' fl' m' calls, drain turns a fl m = (a', fl', m', calls) ∧
      Shelf capacity base i a' fl' m' (fl.entries ++ cs) live ∧ fl'.entries = [] ∧
      calls = fl.entries.reverse.map (·, none) ∧
      ∀ lo hi, (∀ e ∈ fl.entries, hi ≤ e ∨ e + 8 ≤ lo) → m.Same m' lo hi := by
  induction turns generalizing a fl m cs with
  | zero =>
    have hnone : fl.entries = [] := by rw [FreeList.entries, hturns, List.take_zero]
    exact ⟨a, fl, m, [], rfl, by rwa [hnone], hnone, by rw [hnone]; rfl,
      fun _ _ _ => .refl _ _ _⟩
  | succ n ih =>
    obtain ⟨job, fl', a', hpop, hnext, hentries, hfree, hshelf⟩ := h.recycle hbase hfits hturns
    obtain ⟨a'', fl'', m'', calls, hdrain, hshelf', hnone, hcalls, hsame⟩ := ih hshelf hnext
    have hempty : fl.empty ≠ true := mt FreeList.empty_iff.mp (by omega)
    refine ⟨a'', fl'', m'', (job, none) :: calls, ?_, ?_, hnone, ?_, ?_⟩
    · simp only [JobPool.drain, if_neg hempty, hpop, hfree, hdrain]
    · rwa [hentries, List.append_assoc]
    · rw [hcalls, hentries, List.reverse_append]
      rfl
    · intro lo hi hout
      rw [hentries] at hout
      refine .trans (same_store ?_) (hsame lo hi fun e he => hout e (List.mem_append_left _ he))
      exact hout job (List.mem_append_right _ (List.mem_singleton_self job))

/-- The loop stops by itself: more turns than entries change nothing. -/
theorem drain_turns {n turns : ℕ} (a : FixedPoolAllocator) (fl : FreeList) (m : Memory)
    (hn : fl.next = n) (hle : n ≤ turns) : drain turns a fl m = drain n a fl m := by
  induction n generalizing turns a fl m with
  | zero => cases turns <;> simp [drain, FreeList.empty_iff.mpr hn]
  | succ n ih =>
    obtain ⟨turns, rfl⟩ := Nat.exists_eq_succ_of_ne_zero (by omega : turns ≠ 0)
    have hnext : fl.pop.2.next = n := by simp [FreeList.pop, hn]
    simp only [drain, ih _ _ _ hnext (Nat.le_of_succ_le_succ hle)]

end Shelf

section Construct
variable {m : Memory} {p self i : ℕ} {function : List UInt8}

/-- A callable that fits the block keeps the new job within it. -/
theorem construct_same (hfn : function.length ≤ Job.functionRoom) {lo hi : ℕ}
    (h : hi ≤ p ∨ p + Job.size ≤ lo) : m.Same (construct m p self i function) lo hi := by
  have hfn' : function.length ≤ 44 := hfn
  have hout : hi ≤ p ∨ p + 72 ≤ lo := h
  unfold construct Job.setGroupCounter Job.setState Job.setWorkerAlloc Job.setSourcePool
    Job.setFunction
  refine .trans (.trans (.trans (.trans (same_storeBytes ?_) (same_store ?_)) (same_store ?_))
    (same_store ?_)) (same_store ?_) <;> omega

theorem construct_fields (m : Memory) (p : ℕ) (function : List UInt8) (hself : self < 256 ^ 8)
    (hi : i < 256 ^ 4) :
    Job.sourcePool (construct m p self i function) p = self ∧
      Job.state (construct m p self i function) p = Job.State.ready.code ∧
      Job.groupCounter (construct m p self i function) p = nullptr ∧
      Job.workerAlloc (construct m p self i function) p = i := by
  unfold construct Job.setGroupCounter Job.setState Job.setWorkerAlloc Job.setSourcePool
    Job.sourcePool Job.state Job.groupCounter Job.workerAlloc
  refine ⟨?_, ?_, ?_, ?_⟩
  · rw [load_store_of_disjoint _ (by omega), load_store_of_disjoint _ (by omega),
      load_store_of_disjoint _ (by omega), load_store_self _ _ hself]
  · rw [load_store_of_disjoint _ (by omega), load_store_self _ _ (Job.state_code_lt _)]
  · rw [load_store_self _ _ (by decide)]
  · rw [load_store_of_disjoint _ (by omega), load_store_of_disjoint _ (by omega),
      load_store_self _ _ hi]

end Construct

theorem Shelf.construct {capacity base i self c : ℕ} {a : FixedPoolAllocator} {fl : FreeList}
    {m : Memory} {cs live : List ℕ} {function : List UInt8}
    (h : Shelf capacity base i a fl m (c :: cs) live) (hi : i < 256 ^ 4)
    (hself : self < 256 ^ 8) (hfn : function.length ≤ Job.functionRoom) :
    ∃ a', a.allocate m = (c, a') ∧
      Shelf capacity base i a' fl (construct m c self i function) cs (c :: live) := by
  obtain ⟨a', halloc, hchain⟩ := h.chain.allocate_cons
  refine ⟨a', halloc, ?_⟩
  have hnodup := h.nodup
  rw [List.cons_append, List.cons_append, List.nodup_cons] at hnodup
  have hc : c ∈ blocks base Job.size capacity := h.mem_blocks (by simp)
  have hapart : ∀ q ∈ cs ++ fl.entries ++ live, q + Job.size ≤ c ∨ c + Job.size ≤ q := by
    intro q hq
    apply blocks_disjoint (h.mem_blocks (List.mem_cons_of_mem c hq)) hc
    rintro rfl
    exact hnodup.1 hq
  constructor
  case chain =>
    refine hchain.transport fun d hd => construct_same hfn ?_
    have := hapart d (List.mem_append_left _ (List.mem_append_left _ hd))
    unfold Job.size at *
    omega
  case elements_length => exact h.elements_length
  case next_le => exact h.next_le
  case clean => exact h.clean
  case perm => exact (List.perm_middle.trans h.perm)
  case tagged =>
    intro q hq
    have hq' : q = c ∨ q ∈ fl.entries ++ live := by
      simp only [List.mem_append, List.mem_cons] at hq ⊢
      tauto
    rcases hq' with rfl | hq'
    · exact (construct_fields _ _ _ hself hi).2.2.2
    · have hout := hapart q (by rw [List.append_assoc]; exact List.mem_append_right _ hq')
      rw [← h.tagged q hq']
      refine (construct_same hfn ?_).load_eq le_rfl le_rfl
      unfold Job.size at *
      omega

end Jobrocket.JobPool
