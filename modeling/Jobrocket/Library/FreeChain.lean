import Jobrocket.Library.Memory

/-! # Intrusive chains of blocks

A chain of free blocks is threaded through the blocks themselves: the first word of a
block is the address of the next one. The chain reads nothing but these words.
-/
namespace Library
open Memory

/-- The addresses of `count` blocks laid out from `base`. -/
def blocks (base size count : ℕ) : List ℕ := (List.range count).map fun k => base + size * k

/-- The blocks `cs` are chained from `p` on. -/
def Linked (m : Memory) : ℕ → List ℕ → Prop
  | _, [] => True
  | p, c :: cs => p = c ∧ Linked m (m.load 8 p) cs

section Blocks
variable {base size count p q : ℕ}

@[simp] theorem blocks_length : (blocks base size count).length = count := by simp [blocks]

theorem mem_blocks : p ∈ blocks base size count ↔ ∃ k < count, p = base + size * k := by
  simp [blocks, eq_comm]

theorem blocks_bounds (h : p ∈ blocks base size count) :
    base ≤ p ∧ p + size ≤ base + size * count := by
  obtain ⟨k, hk, rfl⟩ := mem_blocks.mp h
  refine ⟨Nat.le_add_right _ _, ?_⟩
  have := Nat.mul_le_mul_left size (show k + 1 ≤ count from hk)
  rw [Nat.mul_succ] at this
  omega

theorem blocks_disjoint (hp : p ∈ blocks base size count) (hq : q ∈ blocks base size count)
    (hne : p ≠ q) : p + size ≤ q ∨ q + size ≤ p := by
  obtain ⟨j, -, rfl⟩ := mem_blocks.mp hp
  obtain ⟨k, -, rfl⟩ := mem_blocks.mp hq
  rcases lt_trichotomy j k with h | rfl | h
  · have := Nat.mul_le_mul_left size (show j + 1 ≤ k from h)
    rw [Nat.mul_succ] at this
    omega
  · exact absurd rfl hne
  · have := Nat.mul_le_mul_left size (show k + 1 ≤ j from h)
    rw [Nat.mul_succ] at this
    omega

theorem blocks_nodup (hsize : 0 < size) : (blocks base size count).Nodup := by
  refine List.nodup_range.map_on fun j _ k _ h => ?_
  exact Nat.eq_of_mul_eq_mul_left hsize (Nat.add_left_cancel h)

theorem blocks_succ (base size count : ℕ) :
    blocks base size (count + 1) = base :: blocks (base + size) size count := by
  simp only [blocks, List.range_succ_eq_map, List.map_cons, List.map_map, Nat.mul_zero,
    Nat.add_zero]
  congr 1
  refine List.map_congr_left fun k _ => ?_
  simp only [Function.comp_apply, Nat.mul_succ]
  omega

end Blocks

section Linked
variable {m m' : Memory} {p q : ℕ} {cs : List ℕ}

theorem Linked.transport (h : Linked m p cs) (hsame : ∀ c ∈ cs, m.Same m' c (c + 8)) :
    Linked m' p cs := by
  induction cs generalizing p with
  | nil => trivial
  | cons c cs ih =>
    obtain ⟨rfl, hcs⟩ := h
    refine ⟨rfl, ?_⟩
    rw [(hsame p List.mem_cons_self).load_eq le_rfl le_rfl]
    exact ih hcs fun c hc => hsame c (List.mem_cons_of_mem _ hc)

theorem Linked.push (h : Linked m p cs) (hp : p < 256 ^ 8)
    (hq : ∀ c ∈ cs, q + 8 ≤ c ∨ c + 8 ≤ q) : Linked (m.store 8 q p) q (q :: cs) := by
  refine ⟨rfl, ?_⟩
  rw [load_store_self _ _ hp]
  exact h.transport fun c hc => same_store (hq c hc).symm

/-- The links determine the blocks that are chained. -/
theorem Linked.unique {ds : List ℕ} (h : Linked m p cs) (h' : Linked m p ds)
    (hlen : cs.length = ds.length) : cs = ds := by
  induction cs generalizing p ds with
  | nil => exact (List.eq_nil_of_length_eq_zero hlen.symm).symm
  | cons c cs ih =>
    cases ds with
    | nil => cases hlen
    | cons d ds =>
      obtain ⟨rfl, hcs⟩ := h
      obtain ⟨rfl, hds⟩ := h'
      rw [ih hcs hds (Nat.succ.inj hlen)]

end Linked

end Library
