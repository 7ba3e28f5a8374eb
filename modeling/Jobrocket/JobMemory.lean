import Jobrocket.JobPoolContainment
import Jobrocket.JobStageSteps

/-! # What a step writes

A step writes the state or the group counter of the job it has, or, when it allocates, a
block that no live job has. So the blocks of the other live jobs stay as they are, and the
callable of a live job is written by nobody.
-/
namespace Jobrocket.CallStacks
open Library Memory

variable {τ : Type*} [Fintype τ] [DecidableEq τ] {capacity : ℕ} {bases : List ℕ}
variable {index : τ → ℕ} {c c₁ c' : Config τ} {es evs : List Event} {stage : ℕ → Stage}
variable {group : ℕ → Option ℕ} {i n : ℕ} {t : τ} {f : Frame} {fs rest : List Frame} {l : Label τ}

omit [DecidableEq τ] in
/-- An allocation leaves the block of a live job alone, whether it succeeds or not. -/
theorem Inv.same_of_alloc (h : Inv capacity bases c es stage group)
    (hplace : JobPool.Placement capacity bases) (hi : i < bases.length) {function : List UInt8}
    (hfits : function.length ≤ Job.functionRoom) {result : Except Error ℕ} {pool : JobPool}
    {m : Memory} {calls : List (ℕ × Option Error)}
    (halloc : c.pool.allocateJob c.memory i function = (result, pool, m, calls))
    (hn : (stage n).Live) (hp : c.block n ≠ nullptr) :
    c.memory.Same m (c.block n) (c.block n + Job.size) := by
  obtain ⟨live, hinv, hiff⟩ := h.store.given
  obtain ⟨j, hj⟩ := (hiff (c.block n)).mpr ⟨hp, n, hn, rfl⟩
  cases result with
  | error e =>
    rw [(hinv.refused hplace hi hfits halloc).2.2.2]
    exact .refl _ _ _
  | ok p =>
    obtain ⟨-, -, -, -, -, -, hothers⟩ := hinv.allocated hplace hi hfits halloc
    exact (hothers j _ hj).2

omit [DecidableEq τ] in
theorem Inv.lt_next (h : Inv capacity bases c es stage group) (hn : (stage n).Live) :
    n < c.next := by
  by_contra hge
  rw [h.unborn n (not_lt.mp hge)] at hn
  exact hn

omit [Fintype τ] [DecidableEq τ] in
theorem Stage.Live.ne_counted {s : Stage} (h : s.Live) (g : ℕ) : s ≠ .counted g := by
  rintro rfl
  exact h

omit [DecidableEq τ] in
theorem Inv.block_of_move (h : Inv capacity bases c es stage group) (htop : c.frames t = f :: rest)
    (hmove : Move i c f c₁ fs evs) (hborn : n < c.next) (hn : ∀ g, stage n ≠ .counted g) :
    c₁.block n = c.block n := by
  cases hmove with
  | groupMake g k function halloc =>
    have hkn : n ≠ k := by
      rintro rfl
      exact hn _ (h.stage_eq htop rfl)
    exact Function.update_of_ne hkn _ _
  | made function halloc => exact Function.update_of_ne hborn.ne _ _
  | refused function halloc => exact Function.update_of_ne hborn.ne _ _
  | release d k =>
    obtain ⟨pool, heq⟩ := releaseJob_eq c k
    rw [heq]
  | _ => rfl

omit [DecidableEq τ] in
/-- A step for another job writes nothing into the block of a live job. -/
theorem Inv.same_of_move (h : Inv capacity bases c es stage group)
    (hplace : JobPool.Placement capacity bases) (hi : i < bases.length)
    (htop : c.frames t = f :: rest) (hmove : Move i c f c₁ fs evs) (hn : (stage n).Live)
    (hp : c.block n ≠ nullptr) (hf : ∀ s, f.job ≠ some (n, s)) :
    c.memory.Same c₁.memory (c.block n) (c.block n + Job.size) := by
  -- the fields that a step writes are those of the job that its call has
  have hwrite : ∀ {k : ℕ} {s : Stage}, f.job = some (k, s) → s.Live → c.block k ≠ nullptr →
      c.block n + Job.size ≤ c.block k ∨ c.block k + Job.size ≤ c.block n := by
    intro k s hk hs hq
    have hkn : n ≠ k := by
      rintro rfl
      exact hf s hk
    have hlive : (stage k).Live := (h.stage_eq htop hk).symm ▸ hs
    exact h.store.blocks_apart hplace hn.holds hlive.holds hp hq hkn
  have hfields : ∀ {k : ℕ} {s : Stage}, f.job = some (k, s) →
      s.Fields c.memory c.pool.self (c.block k) (group k) :=
    fun hk => h.stage_eq htop hk ▸ h.store.fields _
  have hfits := h.callables t f (htop ▸ List.mem_cons_self)
  cases hmove with
  | groupMake g k function halloc => exact h.same_of_alloc hplace hi hfits halloc hn hp
  | made function halloc => exact h.same_of_alloc hplace hi hfits halloc hn hp
  | refused function halloc => exact h.same_of_alloc hplace hi hfits halloc hn hp
  | groupSet g k =>
    have := hwrite rfl trivial (hfields rfl).1
    unfold Job.size at *
    exact same_store (by omega)
  | execute d k =>
    have := hwrite rfl trivial (hfields rfl).1
    unfold Job.size at *
    exact Job.same_setState _ _ (by omega)
  | body d k =>
    have := hwrite rfl trivial (hfields rfl).1
    unfold Job.size at *
    exact Job.same_setState _ _ (by omega)
  | release d k =>
    obtain ⟨pool, heq⟩ := releaseJob_eq c k
    rw [heq]
    exact .refl _ _ _
  | _ => exact .refl _ _ _

omit [DecidableEq τ] in
/-- No step writes into the callable of a live job. -/
theorem Inv.function_of_move (h : Inv capacity bases c es stage group)
    (hplace : JobPool.Placement capacity bases) (hi : i < bases.length)
    (htop : c.frames t = f :: rest) (hmove : Move i c f c₁ fs evs) (hn : (stage n).Live)
    (hp : c.block n ≠ nullptr) :
    c.memory.Same c₁.memory (c.block n + 28) (c.block n + Job.size) := by
  by_cases hf : ∀ s, f.job ≠ some (n, s)
  · exact (h.same_of_move hplace hi htop hmove hn hp hf).mono (Nat.le_add_right _ _) le_rfl
  · push Not at hf
    obtain ⟨s, hs⟩ := hf
    cases hmove with
    | groupMake g k function halloc =>
      cases hs
      rw [h.stage_eq htop rfl] at hn
      exact absurd hn id
    | made function halloc => cases hs
    | refused function halloc => cases hs
    | groupSet g k =>
      cases hs
      exact same_store (by omega)
    | execute d k =>
      cases hs
      exact Job.same_setState _ _ (by omega)
    | body d k =>
      cases hs
      exact Job.same_setState _ _ (by omega)
    | release d k =>
      obtain ⟨pool, heq⟩ := releaseJob_eq c k
      rw [heq]
      exact .refl _ _ _
    | _ => exact .refl _ _ _

omit [Fintype τ] [DecidableEq τ] in
theorem Choice.ground {entry : Option ℕ} (h : Choice c entry f c₁ fs evs) :
    c₁.memory = c.memory ∧ c₁.block = c.block := by
  cases h <;> exact ⟨rfl, rfl⟩

theorem Inv.block_of_step (h : Inv capacity bases c es stage group)
    (hstep : CallStacks.step index c l = some (c', evs)) (hborn : n < c.next)
    (hn : ∀ g, stage n ≠ .counted g) : c'.block n = c.block n := by
  cases stepped_of_step hstep with
  | call t call hat => rfl
  | @move t f rest fs c₁ evs htop hmove =>
    have hblock := h.block_of_move htop hmove hborn hn
    exact hblock
  | choose t entry htop hchoice => exact congrFun hchoice.ground.2 n

theorem Inv.function_of_step (h : Inv capacity bases c es stage group)
    (hplace : JobPool.Placement capacity bases) (hindex : ∀ t, index t < bases.length)
    (hstep : CallStacks.step index c l = some (c', evs)) (hn : (stage n).Live)
    (hp : c.block n ≠ nullptr) :
    c.memory.Same c'.memory (c.block n + 28) (c.block n + Job.size) := by
  cases stepped_of_step hstep with
  | call t call hat => exact .refl _ _ _
  | @move t f rest fs c₁ evs htop hmove =>
    have hsame := h.function_of_move hplace (hindex t) htop hmove hn hp
    exact hsame
  | choose t entry htop hchoice => exact fun x _ _ => congrFun hchoice.ground.1 x

end Jobrocket.CallStacks
