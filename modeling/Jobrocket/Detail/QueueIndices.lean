import Jobrocket.Detail.FixedWorkStealingQueue

/-! # The index words of the queue

`pop` decrements `bottom_` before it compares it with `top_`, and a pop that finds
nothing stores `top_ + 1`. The indices stay in order, within the 64-bit range and
below the number of pushes as long as no pop starts with both indices at that number.
-/
namespace Jobrocket.FixedWorkStealingQueue
open Library
variable {J : Type*}

def isPush : Call J → Bool
  | .push _ => true
  | _ => false

def pushes (calls : List (Call J)) : ℕ := calls.countP isPush

@[simp] theorem pushes_nil : pushes ([] : List (Call J)) = 0 := rfl
@[simp] theorem pushes_concat (calls : List (Call J)) (c : Call J) :
    pushes (calls ++ [c]) = pushes calls + if isPush c then 1 else 0 := by
  simp [pushes, List.countP_append, List.countP_singleton]

theorem pushes_le_length (calls : List (Call J)) : pushes calls ≤ calls.length :=
  List.countP_le_length

variable [Inhabited J]

theorem pop_indices {q : FixedWorkStealingQueue J} (h : q.top.toNat < q.bottom.toNat) :
    q.pop.2.top.toNat ≤ q.pop.2.bottom.toNat ∧ q.pop.2.bottom.toNat ≤ q.bottom.toNat ∧
      0 < q.pop.2.bottom.toNat := by
  have hpred : (q.bottom - 1).toNat = q.bottom.toNat - 1 := toNat_sub_one (by omega)
  have hle : q.top.toNat ≤ (q.bottom - 1).toNat := by omega
  rcases hle.lt_or_eq with hlt | heq
  · rw [pop_many (UInt64.lt_iff_toNat_lt.mpr hlt)]
    dsimp only
    omega
  · have hsucc : (q.top + 1).toNat = q.top.toNat + 1 :=
      toNat_add_one_of_lt (UInt64.lt_iff_toNat_lt.mpr h)
    rw [pop_last (UInt64.toNat_inj.mp heq)]
    dsimp only
    omega

theorem pop_empty_indices {q : FixedWorkStealingQueue J} (h : q.top.toNat = q.bottom.toNat)
    (hpos : 0 < q.bottom.toNat) (hmax : q.bottom.toNat + 1 < 2 ^ 64) :
    q.pop.1 = none ∧ q.pop.2.top = q.top ∧ q.pop.2.bottom.toNat = q.top.toNat + 1 := by
  have hpred := toNat_sub_one hpos
  rw [pop_none (UInt64.lt_iff_toNat_lt.mpr (by omega))]
  exact ⟨rfl, rfl, toNat_add_one (by omega)⟩

theorem steal_indices {q : FixedWorkStealingQueue J} (h : q.top.toNat ≤ q.bottom.toNat) :
    q.steal.2.top.toNat ≤ q.steal.2.bottom.toNat ∧ q.steal.2.bottom = q.bottom := by
  by_cases hlt : q.top < q.bottom
  · have hnat := UInt64.lt_iff_toNat_lt.mp hlt
    have hsucc := toNat_add_one_of_lt hlt
    rw [steal_some hlt]
    refine ⟨?_, rfl⟩
    dsimp only
    omega
  · rw [steal_none hlt]
    exact ⟨h, rfl⟩

/-- An index computed by the call leaves the 64-bit range: `b + 1` in a push,
`--bottom_` and `t + 1` in a pop, `t + 1` in a steal. -/
def Wraps (q : FixedWorkStealingQueue J) : Call J → Prop
  | .push _ => q.bottom.toNat + 1 = 2 ^ 64
  | .pop => q.bottom.toNat = 0 ∨ (¬ q.top < q.bottom - 1 ∧ q.top.toNat + 1 = 2 ^ 64)
  | .steal => q.top < q.bottom ∧ q.top.toNat + 1 = 2 ^ 64
  | .empty => False

/-- The indices after a call: in order, and `bottom_` at most the number of pushes. -/
def InRange (q : FixedWorkStealingQueue J) (pushed : ℕ) : Prop :=
  q.top.toNat ≤ q.bottom.toNat ∧ q.bottom.toNat ≤ pushed

/-- Along the calls nothing wraps, the indices stay in range after every call, and
nothing is taken before the first push. -/
def IndicesInRange (capacity : ℕ) (calls : List (Call J)) : Prop :=
  ∀ pre c, pre ++ [c] <+: calls →
    let q := machine.after (fresh J capacity) pre
    ¬ Wraps q c ∧ InRange (machine q c).2 (pushes (pre ++ [c])) ∧
      (pushes pre = 0 → ∀ job, (machine q c).1 ≠ .taken (some job))

/-- The state in which a pop stores a `bottom_` that no push accounts for. -/
def Drained (q : FixedWorkStealingQueue J) (pushed : ℕ) : Prop :=
  q.top = q.bottom ∧ q.bottom.toNat = pushed

/-- What one call keeps: besides the range, that `bottom_` does not return to zero. -/
structure Ranged (q : FixedWorkStealingQueue J) (pushed : ℕ) : Prop where
  range : InRange q pushed
  pos : 0 < pushed → 0 < q.bottom.toNat

omit [Inhabited J] in
theorem Ranged.push {q : FixedWorkStealingQueue J} {pushed : ℕ} (h : Ranged q pushed)
    (hp : pushed + 1 < 2 ^ 64) (job : J) :
    ¬ Wraps q (.push job) ∧ Ranged (q.push job) (pushed + 1) := by
  obtain ⟨hord, hle⟩ := h.range
  have hsucc := toNat_add_one (x := q.bottom) (by omega)
  refine ⟨?_, ⟨?_, ?_⟩, ?_⟩
  · simp only [Wraps]
    omega
  · rw [push_top, push_bottom, hsucc]
    omega
  · rw [push_bottom, hsucc]
    omega
  · rw [push_bottom, hsucc]
    omega

theorem Ranged.pop {q : FixedWorkStealingQueue J} {pushed : ℕ} (h : Ranged q pushed)
    (hp : pushed < 2 ^ 64) (hd : ¬ Drained q pushed) :
    ¬ Wraps q .pop ∧ Ranged q.pop.2 pushed ∧ (pushed = 0 → ∀ job, q.pop.1 ≠ some job) := by
  obtain ⟨hord, hle⟩ := h.range
  rcases hord.lt_or_eq with hlt | heq
  · obtain ⟨hord', hle', hpos'⟩ := pop_indices hlt
    have hpred : (q.bottom - 1).toNat = q.bottom.toNat - 1 := toNat_sub_one (by omega)
    have hb := q.bottom.toNat_lt
    refine ⟨?_, ⟨⟨hord', hle'.trans hle⟩, fun _ => hpos'⟩, fun h0 => by omega⟩
    simp only [Wraps]
    omega
  · have hne : q.bottom.toNat ≠ pushed := fun he => hd ⟨UInt64.toNat_inj.mp heq, he⟩
    have hpos := h.pos (by omega)
    obtain ⟨hnone, htop, hbottom⟩ := pop_empty_indices heq hpos (by omega)
    refine ⟨?_, ⟨⟨?_, ?_⟩, ?_⟩, fun _ job => by simp [hnone]⟩
    · simp only [Wraps]
      omega
    · rw [htop, hbottom]
      omega
    · rw [hbottom]
      omega
    · rw [hbottom]
      omega

theorem Ranged.steal {q : FixedWorkStealingQueue J} {pushed : ℕ} (h : Ranged q pushed) :
    ¬ Wraps q .steal ∧ Ranged q.steal.2 pushed ∧ (pushed = 0 → ∀ job, q.steal.1 ≠ some job) := by
  obtain ⟨hord, hle⟩ := h.range
  obtain ⟨hord', hbottom⟩ := steal_indices hord
  have hb := q.bottom.toNat_lt
  refine ⟨?_, ⟨⟨hord', by rw [hbottom]; exact hle⟩, by rw [hbottom]; exact h.pos⟩, ?_⟩
  · rintro ⟨hlt, hmax⟩
    have := UInt64.lt_iff_toNat_lt.mp hlt
    omega
  · intro h0 job
    have hlt : ¬ q.top < q.bottom := fun hlt => by
      have := UInt64.lt_iff_toNat_lt.mp hlt
      omega
    simp [steal_none hlt]

theorem Ranged.step {q : FixedWorkStealingQueue J} {pre : List (Call J)} {c : Call J}
    (h : Ranged q (pushes pre)) (hp : pushes (pre ++ [c]) < 2 ^ 64)
    (hd : c = .pop → ¬ Drained q (pushes pre)) :
    ¬ Wraps q c ∧ Ranged (machine q c).2 (pushes (pre ++ [c])) ∧
      (pushes pre = 0 → ∀ job, (machine q c).1 ≠ .taken (some job)) := by
  rw [pushes_concat] at hp ⊢
  cases c with
  | push job =>
    obtain ⟨hw, hr⟩ := h.push hp job
    exact ⟨hw, hr, fun _ _ => by simp [machine]⟩
  | pop =>
    obtain ⟨hw, hr, hnone⟩ := h.pop hp (hd rfl)
    exact ⟨hw, hr, fun h0 job => by simpa [machine] using hnone h0 job⟩
  | steal =>
    obtain ⟨hw, hr, hnone⟩ := h.steal
    exact ⟨hw, hr, fun h0 job => by simpa [machine] using hnone h0 job⟩
  | empty => exact ⟨id, h, fun _ _ => by simp [machine]⟩

theorem ranged_fresh (capacity : ℕ) : Ranged (fresh J capacity) 0 :=
  ⟨⟨le_rfl, le_rfl⟩, fun h => absurd h (lt_irrefl 0)⟩

omit [Inhabited J] in
theorem pushes_lt_of_call {pre calls : List (Call J)} {n : ℕ} (h : calls.length < n)
    (hpre : pre <+: calls) : pushes pre < n :=
  ((pushes_le_length pre).trans hpre.length_le).trans_lt h

theorem ranged_after {capacity : ℕ} {calls : List (Call J)} (hlen : calls.length < 2 ^ 64)
    (hd : ∀ pre, pre ++ [.pop] <+: calls →
      ¬ Drained (machine.after (fresh J capacity) pre) (pushes pre))
    {pre : List (Call J)} (hpre : pre <+: calls) :
    Ranged (machine.after (fresh J capacity) pre) (pushes pre) := by
  refine prefix_induction (Q := fun pre => Ranged (machine.after (fresh J capacity) pre)
    (pushes pre)) (ranged_fresh capacity) ?_ hpre
  intro pre c hc ih
  have hstep := ih.step (pushes_lt_of_call hlen hc) (fun he => hd pre (he ▸ hc))
  simpa using hstep.2.1

/-- A pop of a drained queue wraps an index or stores one above the number of pushes. -/
theorem Drained.not_inRange {q : FixedWorkStealingQueue J} {pushed : ℕ} (hd : Drained q pushed) :
    Wraps q .pop ∨ ¬ InRange q.pop.2 pushed := by
  obtain ⟨htop, hb⟩ := hd
  by_cases hw : Wraps q .pop
  · exact Or.inl hw
  · right
    have hpos : q.bottom.toNat ≠ 0 := fun h0 => hw (Or.inl h0)
    have hpred : (q.bottom - 1).toNat = q.bottom.toNat - 1 := toNat_sub_one (by omega)
    have hlt := q.bottom.toNat_lt
    have hmax : q.top.toNat + 1 ≠ 2 ^ 64 := by
      refine fun h1 => hw (Or.inr ⟨fun h' => ?_, h1⟩)
      have := UInt64.lt_iff_toNat_lt.mp h'
      rw [htop] at this
      omega
    rw [htop] at hmax
    obtain ⟨-, -, hbottom⟩ := pop_empty_indices (by rw [htop]) (by omega) (by omega)
    rintro ⟨-, hle⟩
    rw [hbottom, htop] at hle
    omega

/-- The indices stay in range exactly in the runs that never pop the queue while both
indices equal the number of pushes made so far. -/
theorem indicesInRange_iff (capacity : ℕ) (calls : List (Call J)) (hlen : calls.length < 2 ^ 64) :
    IndicesInRange capacity calls ↔
      ∀ pre, pre ++ [.pop] <+: calls →
        ¬ Drained (machine.after (fresh J capacity) pre) (pushes pre) := by
  constructor
  · intro h pre hpre hd
    obtain ⟨hw, hr, -⟩ := h pre .pop hpre
    rcases hd.not_inRange with hwraps | hrange
    · exact hw hwraps
    · exact hrange (by simpa [isPush, machine] using hr)
  · intro hd pre c hc q
    have hpre : pre <+: calls := (List.prefix_append pre [c]).trans hc
    obtain ⟨hw, hr, hnone⟩ := (ranged_after hlen hd hpre).step (pushes_lt_of_call hlen hc)
      (fun he => hd pre (he ▸ hc))
    exact ⟨hw, hr.range, hnone⟩

/-- A push and a pop: the queue is drained only after the last call. -/
theorem indicesInRange_iff_push_pop :
    IndicesInRange 4096 [.push 7, .pop] ↔
      ∀ pre, pre ++ [.pop] <+: [.push 7, .pop] →
        ¬ Drained (machine.after (fresh ℕ 4096) pre) (pushes pre) :=
  indicesInRange_iff 4096 [.push 7, .pop] (by decide)

/-- A worker that polls its own new queue first takes the null pointer out of it and
leaves `bottom_` at the largest word. -/
theorem poll_fresh_not_inRange :
    ([Call.pop] : List (Call ℕ)).length < 2 ^ 64 ∧
      machine.results (fresh ℕ 4096) [.pop] = [.taken (some 0)] ∧
      (machine.after (fresh ℕ 4096) [.pop]).bottom.toNat = 2 ^ 64 - 1 ∧
      ¬ IndicesInRange 4096 ([.pop] : List (Call ℕ)) := by
  have hlt : (fresh ℕ 4096).top < (fresh ℕ 4096).bottom - 1 := by decide
  refine ⟨by decide, ?_, ?_, fun h => (h [] .pop List.prefix_rfl).1 (Or.inl rfl)⟩
  · simp [machine, pop_many hlt]
  · simp only [Machine.after_cons, Machine.after_nil, machine, pop_many hlt]
    decide

end Jobrocket.FixedWorkStealingQueue
