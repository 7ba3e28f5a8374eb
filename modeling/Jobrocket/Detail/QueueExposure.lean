import Jobrocket.Detail.FixedWorkStealingQueue

/-! # Positions brought back between the indices

The slots of the ring are never cleared. A call of a queue with an entry only takes
positions out from between the indices, and a push adds the one it has just written. A pop
of an empty queue adds positions whose slots were written long before.
-/
namespace Jobrocket.FixedWorkStealingQueue
open Library
variable {J : Type*} [Inhabited J]

def Between (q : FixedWorkStealingQueue J) (pos : ℕ) : Prop :=
  q.top.toNat ≤ pos ∧ pos < q.bottom.toNat

/-- The positions that a pop of an empty queue takes or brings between the indices: the
one at `top_`, or all from `top_` on when the decrement of `bottom_` wraps around. -/
def Exposed (q : FixedWorkStealingQueue J) (pos : ℕ) : Prop :=
  q.empty = true ∧ q.top.toNat ≤ pos ∧ pos < 2 ^ 64 ∧ (q.bottom = 0 ∨ pos = q.top.toNat)

theorem pop_slot (q : FixedWorkStealingQueue J) (pos : ℕ) : q.pop.2.slot pos = q.slot pos := by
  rcases word_trichotomy q.top (q.bottom - 1) with h | h | h
  · rw [pop_many h]
    rfl
  · rw [pop_last h]
    rfl
  · rw [pop_none h]
    rfl

theorem steal_slot (q : FixedWorkStealingQueue J) (pos : ℕ) :
    q.steal.2.slot pos = q.slot pos := by
  by_cases h : q.top < q.bottom
  · rw [steal_some h]
    rfl
  · rw [steal_none h]

omit [Inhabited J] in
theorem pred_bottom (q : FixedWorkStealingQueue J) :
    (q.bottom = 0 ∧ (q.bottom - 1).toNat = 2 ^ 64 - 1 ∧ q.empty = true) ∨
      (0 < q.bottom.toNat ∧ (q.bottom - 1).toNat = q.bottom.toNat - 1) := by
  rcases Nat.eq_zero_or_pos q.bottom.toNat with h | h
  · have hzero : q.bottom = 0 := UInt64.toNat_inj.mp h
    refine Or.inl ⟨hzero, by rw [hzero]; rfl, (empty_iff q).mpr (by omega)⟩
  · exact Or.inr ⟨h, toNat_sub_one h⟩

/-- A pop takes an entry or an exposed slot, and leaves no other positions between the
indices. -/
theorem pop_between (q : FixedWorkStealingQueue J) :
    (∀ job, q.pop.1 = some job → ∃ pos, (q.Between pos ∨ q.Exposed pos) ∧ job = q.slot pos) ∧
      ∀ pos, q.pop.2.Between pos → q.Between pos ∨ q.Exposed pos := by
  have hmax := q.bottom.toNat_lt
  have htopmax := q.top.toNat_lt
  have hpred := pred_bottom q
  rcases word_trichotomy q.top (q.bottom - 1) with h | h | h
  · have hlt := UInt64.lt_iff_toNat_lt.mp h
    have hold : ∀ pos, q.top.toNat ≤ pos → pos ≤ (q.bottom - 1).toNat →
        q.Between pos ∨ q.Exposed pos := by
      intro pos hlo hhi
      rcases hpred with ⟨h0, hb, hempty⟩ | ⟨h0, hb⟩
      · exact Or.inr ⟨hempty, hlo, by omega, Or.inl h0⟩
      · exact Or.inl ⟨hlo, by omega⟩
    rw [pop_many h]
    refine ⟨fun job hjob => ⟨(q.bottom - 1).toNat, hold _ hlt.le le_rfl, ?_⟩, ?_⟩
    · exact (Option.some.inj hjob).symm
    · rintro pos ⟨hlo, hhi⟩
      exact hold pos hlo hhi.le
  · have htop : q.top.toNat = (q.bottom - 1).toNat := congrArg UInt64.toNat h
    rw [pop_last h]
    refine ⟨fun job hjob => ⟨q.top.toNat, ?_, (Option.some.inj hjob).symm⟩, ?_⟩
    · rcases hpred with ⟨h0, hb, hempty⟩ | ⟨h0, hb⟩
      · exact Or.inr ⟨hempty, le_rfl, htopmax, Or.inl h0⟩
      · exact Or.inl ⟨le_rfl, by omega⟩
    · rintro pos ⟨hlo, hhi⟩
      exact absurd (hlo.trans_lt hhi) (lt_irrefl _)
  · have hlt := UInt64.lt_iff_toNat_lt.mp h
    rw [pop_none h]
    refine ⟨fun job hjob => absurd hjob (Option.some_ne_none job).symm, ?_⟩
    rintro pos ⟨hlo, hhi⟩
    have hempty : q.empty = true := by
      rcases hpred with ⟨-, -, hempty⟩ | ⟨h0, hb⟩
      · exact hempty
      · exact (empty_iff q).mpr (by omega)
    dsimp only at hlo hhi
    rw [UInt64.toNat_add, UInt64.toNat_one] at hhi
    have hpos : pos = q.top.toNat := by omega
    exact Or.inr ⟨hempty, hlo, by omega, Or.inr hpos⟩

theorem steal_between (q : FixedWorkStealingQueue J) :
    (∀ job, q.steal.1 = some job → ∃ pos, q.Between pos ∧ job = q.slot pos) ∧
      ∀ pos, q.steal.2.Between pos → q.Between pos := by
  by_cases h : q.top < q.bottom
  · have hlt := UInt64.lt_iff_toNat_lt.mp h
    have hsucc := toNat_add_one_of_lt h
    rw [steal_some h]
    refine ⟨fun job hjob => ⟨q.top.toNat, ⟨le_rfl, hlt⟩, (Option.some.inj hjob).symm⟩, ?_⟩
    rintro pos ⟨hlo, hhi⟩
    dsimp only at hlo hhi
    exact ⟨by omega, hhi⟩
  · rw [steal_none h]
    exact ⟨fun job hjob => absurd hjob (Option.some_ne_none job).symm, fun _ => id⟩

theorem push_slot (q : FixedWorkStealingQueue J) (job : J) (pos : ℕ) :
    (q.push job).slot pos = job ∨ (q.push job).slot pos = q.slot pos := by
  change (q.write q.bottom job).slot pos = job ∨ (q.write q.bottom job).slot pos = q.slot pos
  by_cases hmod : pos % q.capacity = q.bottom.toNat % q.capacity
  · rcases Nat.eq_zero_or_pos q.capacity with hc | hc
    · have hnil : q.jobs = [] := List.eq_nil_of_length_eq_zero (q.jobs_length.trans hc)
      exact Or.inr (by simp [slot, write, hnil])
    · left
      rw [slot, write_capacity, hmod]
      exact slot_write_self hc q.bottom job
  · exact Or.inr (slot_write_ne hmod job)

theorem push_between (q : FixedWorkStealingQueue J) (job : J) {pos : ℕ}
    (h : (q.push job).Between pos) :
    (q.push job).slot pos = job ∨ (q.push job).slot pos = default ∨
      (q.Between pos ∧ (q.push job).slot pos = q.slot pos) := by
  obtain ⟨hlo, hhi⟩ := h
  rw [push_top] at hlo
  rw [push_bottom, UInt64.toNat_add, UInt64.toNat_one] at hhi
  have hmax := q.bottom.toNat_lt
  rcases push_slot q job pos with hjob | hold
  · exact Or.inl hjob
  · by_cases hpos : pos < q.bottom.toNat
    · exact Or.inr (Or.inr ⟨⟨hlo, hpos⟩, hold⟩)
    · have heq : pos = q.bottom.toNat := by omega
      rcases Nat.eq_zero_or_pos q.capacity with hc | hc
      · have hnil : q.jobs = [] := List.eq_nil_of_length_eq_zero (q.jobs_length.trans hc)
        exact Or.inr (Or.inl (hold.trans (by simp [slot, hnil])))
      · exact Or.inl (heq ▸ slot_write_self hc q.bottom job)

end Jobrocket.FixedWorkStealingQueue
