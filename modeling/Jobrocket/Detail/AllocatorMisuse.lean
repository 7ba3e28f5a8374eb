import Jobrocket.Detail.AllocatorCalls

/-! # Frees that the allocator should refuse

`free` compares the pointer with the two ends of the array and counts the blocks that are
allocated. It knows neither where blocks begin nor which of them are allocated: a pointer
into a block, the address of the array's end and a block that is free already are put in
front of the chain like any other, as long as some block is allocated.
-/
namespace Jobrocket.FixedPoolAllocator
open Library Memory

/-- The call returns false and changes neither the allocator nor any byte. -/
def Rejects (s : FixedPoolAllocator × Memory) (data : ℕ) : Prop :=
  machine s (.free data) = (.freed false, s)

section Rejects
variable {base size count data : ℕ} {s : FixedPoolAllocator × Memory}

theorem rejects_iff (s : FixedPoolAllocator × Memory) (data : ℕ) :
    Rejects s data ↔
      data = nullptr ∨ s.1.blocksInitialized = 0 ∨ data < s.1.memory ∨ s.1.stop < data := by
  simp only [Rejects, machine, FixedPoolAllocator.free]
  split_ifs with hnull hzero hout
  · exact iff_of_true rfl (Or.inl hnull)
  · exact iff_of_true rfl (Or.inr (Or.inl (by omega)))
  · exact iff_of_true rfl (Or.inr (Or.inr hout.symm))
  · have haccept : (Answer.freed true) ≠ .freed false := by decide
    exact iff_of_false (fun h => haccept (congrArg Prod.fst h)) (by omega)

structure Sized (base size count : ℕ) (a : FixedPoolAllocator) : Prop where
  memory_eq : a.memory = base
  blockSize_eq : a.blockSize = size
  maxBlocks_eq : a.maxBlocks = count

theorem Sized.call (h : Sized base size count s.1) (call : Call) :
    Sized base size count (machine s call).2.1 := by
  cases call with
  | allocate =>
    simp only [machine, allocate]
    split
    · exact h
    · exact ⟨h.memory_eq, h.blockSize_eq, h.maxBlocks_eq⟩
  | free data =>
    simp only [machine, FixedPoolAllocator.free]
    split_ifs
    · exact h
    · exact h
    · exact h
    · exact ⟨h.memory_eq, h.blockSize_eq, h.maxBlocks_eq⟩
  | reset => exact ⟨h.memory_eq, h.blockSize_eq, h.maxBlocks_eq⟩
  | write a bytes => exact h

theorem sized_after (base size count : ℕ) (m : Memory) (calls : List Call) :
    Sized base size count (machine.after (create base size count m) calls).1 := by
  have hstep : ∀ (s : FixedPoolAllocator × Memory) (call : Call), Sized base size count s.1 → True →
      Sized base size count (machine s call).2.1 := fun _ call h _ => h.call call
  exact Machine.invariant (I := fun s => Sized base size count s.1) machine ⟨rfl, rfl, rfl⟩ hstep
    (fun _ _ _ => trivial) List.prefix_rfl

end Rejects

/-- In every state that any calls and writes lead to, a pointer, whether it is a block or
not, is refused exactly if it is null, no block is allocated, or it lies below the array or
behind its end. -/
theorem rejects_foreign_iff (base size count : ℕ) (m₀ : Memory) (calls : List Call) (data : ℕ) :
    let s := machine.after (create base size count m₀) calls
    Rejects s data ↔
      data = nullptr ∨ s.1.blocksInitialized = 0 ∨ data < base ∨ base + size * count < data := by
  intro s
  have hsized : Sized base size count s.1 := sized_after base size count m₀ calls
  have hstop : s.1.stop = base + size * count := by
    rw [stop, hsized.memory_eq, hsized.blockSize_eq, hsized.maxBlocks_eq]
  rw [rejects_iff, hstop, hsized.memory_eq]

/-- With one block allocated the end of the array and a pointer into a block are accepted. -/
theorem end_not_rejected :
    let s := machine.after (create 1024 8 2 fun _ => 0) [.allocate]
    (1040 ∉ blocks 1024 8 2 ∧ ¬ Rejects s 1040) ∧ 1028 ∉ blocks 1024 8 2 ∧ ¬ Rejects s 1028 := by
  intro s
  refine ⟨⟨by decide, fun h => ?_⟩, by decide, fun h => ?_⟩
  · exact absurd (congrArg Prod.fst h) (by decide)
  · exact absurd (congrArg Prod.fst h) (by decide)

def record (held : List ℕ) : Call × Answer → List ℕ
  | (.allocate, .block p) => if p = nullptr then held else p :: held
  | (.free p, .freed true) => held.erase p
  | (.reset, _) => []
  | _ => held

/-- The blocks that the calls have allocated and not freed. -/
def outstanding (s : FixedPoolAllocator × Memory) (calls : List Call) : List ℕ :=
  (calls.zip (machine.results s calls)).foldl record []

/-- A free of a block that is not allocated is refused, no block is handed out twice, and
no more of them than there are. -/
structure Harmless (count : ℕ) (s : FixedPoolAllocator × Memory) (calls : List Call) : Prop where
  rejects : ∀ pre p, pre ++ [.free p] <+: calls → p ∉ outstanding s pre →
    Rejects (machine.after s pre) p
  nodup : ∀ pre, pre <+: calls → (outstanding s pre).Nodup
  length_le : ∀ pre, pre <+: calls → (outstanding s pre).length ≤ count

section Harmless
variable {base size count : ℕ} {s : FixedPoolAllocator × Memory} {calls : List Call} {t : Stock ℕ}

theorem outstanding_concat (s : FixedPoolAllocator × Memory) (pre : List Call) (call : Call) :
    outstanding s (pre ++ [call]) =
      record (outstanding s pre) (call, (machine (machine.after s pre) call).1) := by
  rw [outstanding, Machine.results_append, List.zip_append (Machine.results_length ..).symm,
    List.foldl_append]
  rfl

theorem Refines.blocksInitialized_eq (h : Refines base size count s t) :
    s.1.blocksInitialized = t.held.length := by
  have hcount := h.chain.count_eq
  have hlen := h.stock.length
  rw [blocks_length] at hlen
  omega

theorem Refines.rejects_iff (h : Refines base size count s t) (hbase : base ≠ nullptr) {p : ℕ}
    (hp : p ∈ blocks base size count) : Rejects s p ↔ t.held = [] := by
  obtain ⟨hlo, hhi⟩ := blocks_bounds hp
  have hstop : s.1.stop = base + size * count := by
    rw [stop, h.chain.memory_eq, h.chain.blockSize_eq, h.chain.maxBlocks_eq]
  rw [FixedPoolAllocator.rejects_iff, h.blocksInitialized_eq, h.chain.memory_eq, hstop,
    List.length_eq_zero_iff]
  unfold nullptr at *
  constructor
  · rintro (hnull | hnone | hlt | hlt)
    · omega
    · exact hnone
    · omega
    · omega
  · exact fun hnone => Or.inr (Or.inl hnone)

/-- As long as every free of a block that is not allocated is refused, the allocator is the
stack. -/
theorem refines_outstanding (hsize : 8 ≤ size) (hbase : base ≠ nullptr)
    (hfits : base + size * count < 256 ^ 8) (m : Memory)
    (hcalls : ∀ call ∈ calls, call = .allocate ∨ ∃ p ∈ blocks base size count, call = .free p)
    (hrejects : ∀ pre p t, pre ++ [.free p] <+: calls →
      p ∉ outstanding (create base size count m) pre →
      Refines base size count (machine.after (create base size count m) pre) t →
      t.held = outstanding (create base size count m) pre →
        Rejects (machine.after (create base size count m) pre) p)
    {pre : List Call} (hpre : pre <+: calls) :
    ∃ t, Refines base size count (machine.after (create base size count m) pre) t ∧
      t.held = outstanding (create base size count m) pre := by
  refine prefix_induction (Q := fun pre => ∃ t,
    Refines base size count (machine.after (create base size count m) pre) t ∧
      t.held = outstanding (create base size count m) pre)
    ⟨_, refines_create hsize hfits m, rfl⟩ ?_ hpre
  rintro pre call hcall ⟨t, href, hheld⟩
  rw [outstanding_concat, Machine.after_append]
  rcases hcalls call (hcall.subset (List.mem_append_right _ (List.mem_singleton_self _))) with
    rfl | ⟨p, hp, rfl⟩
  · obtain ⟨hres, href'⟩ := href.allocate
    refine ⟨_, href', ?_⟩
    rw [hres, ← hheld]
    cases hw : t.waiting with
    | nil => rw [stack, Stock.take_nil hw]; rfl
    | cons c cs =>
      have hlo := (blocks_bounds (href.stock.mem_waiting (hw ▸ List.mem_cons_self : c ∈ t.waiting))).1
      have hne : c ≠ nullptr := by
        unfold nullptr at *
        omega
      rw [stack, Stock.take_cons hw]
      exact (if_neg hne).symm
  · by_cases hmem : p ∈ outstanding (create base size count m) pre
    · obtain ⟨hres, href'⟩ := href.free hsize hbase hfits (hheld ▸ hmem)
      refine ⟨_, href', ?_⟩
      rw [hres, ← hheld]
      rfl
    · have hrej := hrejects pre p t hcall hmem href hheld
      refine ⟨t, ?_, ?_⟩
      · rw [Machine.after_cons, Machine.after_nil, hrej]
        exact href
      · rw [hrej, hheld]
        rfl

end Harmless

/-- Double frees are harmless in exactly the runs in which a block that is not allocated is
freed only while no block is allocated. -/
theorem harmless_iff (base size count : ℕ) (hsize : 8 ≤ size) (hbase : base ≠ nullptr)
    (hfits : base + size * count < 256 ^ 8) (m₀ : Memory) (calls : List Call)
    (hcalls : ∀ call ∈ calls, call = .allocate ∨ ∃ p ∈ blocks base size count, call = .free p) :
    Harmless count (create base size count m₀) calls ↔
      ∀ pre p, pre ++ [.free p] <+: calls → p ∉ outstanding (create base size count m₀) pre →
        outstanding (create base size count m₀) pre = [] := by
  have hblock : ∀ pre p, pre ++ [.free p] <+: calls → p ∈ blocks base size count := by
    intro pre p hpre
    rcases hcalls _ (hpre.subset (List.mem_append_right _ (List.mem_singleton_self _))) with
      hcall | ⟨q, hq, hcall⟩
    · cases hcall
    · cases hcall
      exact hq
  constructor
  · intro h pre p hcall hmem
    have hpre : pre <+: calls := (List.prefix_append pre [.free p]).trans hcall
    obtain ⟨t, href, hheld⟩ := refines_outstanding hsize hbase hfits m₀ hcalls
      (fun pre p _ hcall hmem _ _ => h.rejects pre p hcall hmem) hpre
    rw [← hheld]
    exact (href.rejects_iff hbase (hblock pre p hcall)).mp (h.rejects pre p hcall hmem)
  · intro hnone
    have href := fun pre (hpre : pre <+: calls) =>
      refines_outstanding hsize hbase hfits m₀ hcalls (fun pre p t hcall hmem href hheld =>
        (href.rejects_iff hbase (hblock pre p hcall)).mpr (hheld.trans (hnone pre p hcall hmem)))
        hpre
    constructor
    case rejects =>
      intro pre p hcall hmem
      obtain ⟨t, ht, hheld⟩ := href pre ((List.prefix_append pre [.free p]).trans hcall)
      exact (ht.rejects_iff hbase (hblock pre p hcall)).mpr (hheld.trans (hnone pre p hcall hmem))
    case nodup =>
      intro pre hpre
      obtain ⟨t, ht, hheld⟩ := href pre hpre
      rw [← hheld]
      exact ht.stock.held_nodup (blocks_nodup (by omega))
    case length_le =>
      intro pre hpre
      obtain ⟨t, ht, hheld⟩ := href pre hpre
      have hlen := ht.stock.length
      rw [blocks_length] at hlen
      rw [← hheld]
      omega

theorem harmless_iff_matching :
    Harmless 2 (create 1024 8 2 fun _ => 0) [.allocate, .free 1024, .free 1024] ↔
      ∀ pre p, pre ++ [.free p] <+: [.allocate, .free 1024, .free 1024] →
        p ∉ outstanding (create 1024 8 2 fun _ => 0) pre →
          outstanding (create 1024 8 2 fun _ => 0) pre = [] :=
  harmless_iff 1024 8 2 (by decide) (by decide) (by decide) (fun _ => 0)
    [.allocate, .free 1024, .free 1024] (by decide)

/-- The first of two blocks is freed twice and then handed out twice. -/
theorem double_free_not_harmless :
    let calls := [.allocate, .allocate, .free 1024, .free 1024, .allocate, .allocate]
    (∀ call ∈ calls, call = .allocate ∨ ∃ p ∈ blocks 1024 8 2, call = .free p) ∧
      machine.results (create 1024 8 2 fun _ => 0) calls =
        [.block 1024, .block 1032, .freed true, .freed true, .block 1024, .block 1024] ∧
      ¬ Harmless 2 (create 1024 8 2 fun _ => 0) calls := by
  intro calls
  refine ⟨by decide, by decide +kernel, fun h => ?_⟩
  · have hnodup := h.nodup calls List.prefix_rfl
    have hheld : outstanding (create 1024 8 2 fun _ => 0) calls = [1024, 1024, 1032] := by
      decide +kernel
    rw [hheld] at hnodup
    exact absurd hnodup (by decide)

end Jobrocket.FixedPoolAllocator
