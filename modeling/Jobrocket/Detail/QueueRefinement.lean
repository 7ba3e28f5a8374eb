import Jobrocket.Detail.QueueIndices

/-! # The queue against a double-ended list

Called from one thread after another, the queue should be a list that grows at the
bottom and is taken from at both ends. It is one as long as nobody pops an empty
queue: that pop stores `top_ + 1` into `bottom_` and so brings a stale slot back
between the indices.
-/
namespace Jobrocket.FixedWorkStealingQueue
open Library
variable {J : Type*}

/-- The double-ended list: `push` appends, `pop` takes the last entry, `steal` the first. -/
def deque : Machine (List J) (Call J) (Answer J)
  | xs, .push job => (.pushed, xs ++ [job])
  | xs, .pop => (.taken xs.getLast?, xs.dropLast)
  | xs, .steal => (.taken xs.head?, xs.tail)
  | xs, .empty => (.isEmpty xs.isEmpty, xs)

def WithinCapacity (capacity : ℕ) (calls : List (Call J)) : Prop :=
  ∀ pre, pre <+: calls → (deque.after [] pre).length ≤ capacity

instance (capacity : ℕ) (calls : List (Call J)) : Decidable (WithinCapacity capacity calls) :=
  decidable_of_iff (∀ pre ∈ calls.inits, (deque.after [] pre).length ≤ capacity)
    (by simp only [WithinCapacity, List.mem_inits])

/-- The owner, the thread that pushes and pops, begins with a push. -/
def startsWithPush : List (Call J) → Bool
  | [] => true
  | .push _ :: _ => true
  | .pop :: _ => false
  | _ :: calls => startsWithPush calls

variable [Inhabited J]

/-- The queue holds the list between its indices and has room for it. -/
structure Represents (capacity : ℕ) (q : FixedWorkStealingQueue J) (xs : List J) : Prop where
  capacity_eq : q.capacity = capacity
  ordered : q.top.toNat ≤ q.bottom.toNat
  entries_eq : q.entries = xs

theorem Represents.length {capacity : ℕ} {q : FixedWorkStealingQueue J} {xs : List J}
    (h : Represents capacity q xs) : xs.length = q.bottom.toNat - q.top.toNat := by
  rw [← h.entries_eq, entries, window_length]

theorem represents_fresh (capacity : ℕ) : Represents capacity (fresh J capacity) [] :=
  ⟨rfl, le_rfl, window_self _ _⟩

theorem Represents.empty_eq {capacity : ℕ} {q : FixedWorkStealingQueue J} {xs : List J}
    (h : Represents capacity q xs) : q.empty = xs.isEmpty := by
  rw [Bool.eq_iff_iff, empty_iff, List.isEmpty_iff_length_eq_zero, h.length]
  have := h.ordered
  omega

theorem Represents.push {capacity : ℕ} {q : FixedWorkStealingQueue J} {xs : List J}
    (h : Represents capacity q xs) (hroom : xs.length < capacity)
    (hb : q.bottom.toNat + 1 < 2 ^ 64) (job : J) :
    Represents capacity (q.push job) (xs ++ [job]) := by
  have hlen := h.length
  have hord := h.ordered
  have hcap := h.capacity_eq
  refine ⟨h.capacity_eq, ?_, ?_⟩
  · rw [push_top, push_bottom, toNat_add_one hb]
    omega
  · rw [entries, push_top, push_bottom, toNat_add_one hb, window_push hord (by omega), ← entries,
      h.entries_eq]

theorem Represents.pop {capacity : ℕ} {q : FixedWorkStealingQueue J} {xs : List J}
    (h : Represents capacity q xs) (hne : q.top.toNat < q.bottom.toNat) :
    q.pop.1 = xs.getLast? ∧ Represents capacity q.pop.2 xs.dropLast := by
  have hpred : (q.bottom - 1).toNat = q.bottom.toNat - 1 := toNat_sub_one (by omega)
  have hle : q.top.toNat ≤ (q.bottom - 1).toNat := by omega
  have hlast : xs.getLast? = some (q.slot (q.bottom - 1).toNat) := by
    rw [← h.entries_eq, entries, window_getLast? _ hne, hpred]
  have hinit : xs.dropLast = window q.slot q.top.toNat (q.bottom - 1).toNat := by
    rw [← h.entries_eq, entries, window_dropLast _ hne, hpred]
  rcases hle.lt_or_eq with hlt | heq
  · rw [pop_many (UInt64.lt_iff_toNat_lt.mpr hlt)]
    exact ⟨hlast.symm, h.capacity_eq, hle, hinit.symm⟩
  · have htop : q.top = q.bottom - 1 := UInt64.toNat_inj.mp heq
    rw [pop_last htop]
    refine ⟨by rw [hlast, heq], h.capacity_eq, le_rfl, ?_⟩
    rw [hinit, ← heq, window_self]
    exact window_self _ _

theorem Represents.steal {capacity : ℕ} {q : FixedWorkStealingQueue J} {xs : List J}
    (h : Represents capacity q xs) :
    q.steal.1 = xs.head? ∧ Represents capacity q.steal.2 xs.tail := by
  by_cases hlt : q.top < q.bottom
  · have hnat := UInt64.lt_iff_toNat_lt.mp hlt
    have hsucc := toNat_add_one_of_lt hlt
    have hhead : xs.head? = some (q.slot q.top.toNat) := by
      rw [← h.entries_eq, entries, window_head? _ hnat]
    have htail : xs.tail = window q.slot (q.top + 1).toNat q.bottom.toNat := by
      rw [← h.entries_eq, entries, window_tail _ hnat, hsucc]
    rw [steal_some hlt]
    refine ⟨hhead.symm, h.capacity_eq, ?_, htail.symm⟩
    change (q.top + 1).toNat ≤ q.bottom.toNat
    omega
  · have hnat := mt UInt64.lt_iff_toNat_lt.mpr hlt
    have hxs : xs = [] := List.eq_nil_of_length_eq_zero (by rw [h.length]; omega)
    subst hxs
    rw [steal_none hlt]
    exact ⟨rfl, h⟩

/-- The calls the index arithmetic is right for. -/
def Sound (q : FixedWorkStealingQueue J) : Call J → Prop
  | .push _ => q.bottom.toNat + 1 < 2 ^ 64
  | .pop => q.empty = false
  | .steal => True
  | .empty => True

omit [Inhabited J] in
theorem top_lt_bottom {q : FixedWorkStealingQueue J} (hs : q.empty = false) :
    q.top.toNat < q.bottom.toNat := by
  by_contra hle
  rw [(empty_iff q).mpr (not_lt.mp hle)] at hs
  cases hs

theorem machine_simulates_deque (capacity : ℕ) :
    (machine (J := J)).Simulates deque (Represents capacity)
      (fun q xs c => Sound q c ∧ (deque xs c).2.length ≤ capacity) := by
  rintro q xs c h ⟨hs, hfits⟩
  cases c with
  | push job =>
    have hroom : xs.length < capacity := by
      simpa [deque, Nat.succ_le_iff] using hfits
    exact ⟨rfl, h.push hroom hs job⟩
  | pop =>
    obtain ⟨hres, hrep⟩ := h.pop (top_lt_bottom hs)
    exact ⟨congrArg Answer.taken hres, hrep⟩
  | steal =>
    obtain ⟨hres, hrep⟩ := h.steal
    exact ⟨congrArg Answer.taken hres, hrep⟩
  | empty => exact ⟨congrArg Answer.isEmpty h.empty_eq, h⟩

/-- The results of the calls are the list's, and after every call `empty()` tells
whether the list is empty. -/
def Conforms (capacity : ℕ) (calls : List (Call J)) : Prop :=
  machine.results (fresh J capacity) calls = deque.results [] calls ∧
    ∀ pre, pre <+: calls →
      (machine.after (fresh J capacity) pre).empty = (deque.after [] pre).isEmpty

/-- A call after which `empty()` is still right was one the index arithmetic is right for. -/
theorem Represents.sound {capacity : ℕ} {q : FixedWorkStealingQueue J} {xs : List J}
    (h : Represents capacity q xs) (hb : q.bottom.toNat + 1 < 2 ^ 64) (c : Call J)
    (hempty : (machine q c).2.empty = (deque xs c).2.isEmpty) : Sound q c := by
  cases c with
  | push job => exact hb
  | steal => trivial
  | empty => trivial
  | pop =>
    by_contra hs
    have hq : q.empty = true := by simpa [Sound] using hs
    have hord := h.ordered
    have heq : q.bottom.toNat = q.top.toNat := le_antisymm ((empty_iff q).mp hq) hord
    have hxs : xs = [] := List.isEmpty_iff.mp (h.empty_eq ▸ hq)
    have hafter : q.pop.2.empty = true := by simpa [machine, deque, hxs] using hempty
    have hle := (empty_iff _).mp hafter
    rcases Nat.eq_zero_or_pos q.bottom.toNat with h0 | hpos
    · have hzero : q.bottom = 0 := UInt64.toNat_inj.mp h0
      have hmax : (q.bottom - 1).toNat = 2 ^ 64 - 1 := by rw [hzero]; rfl
      rw [pop_many (UInt64.lt_iff_toNat_lt.mpr (by omega))] at hle
      dsimp only at hle
      omega
    · have hpred := toNat_sub_one hpos
      have hsucc : (q.top + 1).toNat = q.top.toNat + 1 := toNat_add_one (by omega)
      rw [pop_none (UInt64.lt_iff_toNat_lt.mpr (by omega))] at hle
      dsimp only at hle
      omega

theorem sound_indices {q : FixedWorkStealingQueue J} {c : Call J}
    (h : q.top.toNat ≤ q.bottom.toNat) (hs : Sound q c) :
    (machine q c).2.top.toNat ≤ (machine q c).2.bottom.toNat ∧
      (machine q c).2.bottom.toNat ≤ q.bottom.toNat + if isPush c then 1 else 0 := by
  cases c with
  | push job =>
    have hsucc : (q.bottom + 1).toNat = q.bottom.toNat + 1 := toNat_add_one hs
    simp only [machine, push_top, push_bottom, hsucc, isPush, if_true]
    omega
  | pop =>
    obtain ⟨hord, hle, -⟩ := pop_indices (top_lt_bottom hs)
    exact ⟨hord, hle⟩
  | steal =>
    obtain ⟨hord, hb⟩ := steal_indices h
    exact ⟨hord, hb.symm ▸ le_rfl⟩
  | empty => exact ⟨h, le_rfl⟩

section Refinement
variable {capacity : ℕ} {calls : List (Call J)}

/-- Runs that never pop an empty queue refine the list. -/
theorem conforms_of_sound (hfits : WithinCapacity capacity calls)
    (hs : ∀ pre c, pre ++ [c] <+: calls → Sound (machine.after (fresh J capacity) pre) c) :
    Conforms capacity calls := by
  have hguard : ∀ pre c, pre ++ [c] <+: calls →
      Sound (machine.after (fresh J capacity) pre) c ∧
        (deque (deque.after [] pre) c).2.length ≤ capacity := by
    intro pre c hc
    exact ⟨hs pre c hc, by simpa using hfits _ hc⟩
  refine ⟨(machine_simulates_deque capacity).results (represents_fresh capacity) hguard, ?_⟩
  intro pre hpre
  exact ((machine_simulates_deque capacity).after (represents_fresh capacity) hguard hpre).empty_eq

/-- While a run refines the list, its queue represents it and no index passes the
number of pushes. -/
theorem represents_of_conforms (hfits : WithinCapacity capacity calls)
    (hp : pushes calls + 1 < 2 ^ 64) (h : Conforms capacity calls)
    {pre : List (Call J)} (hpre : pre <+: calls) :
    Represents capacity (machine.after (fresh J capacity) pre) (deque.after [] pre) ∧
      (machine.after (fresh J capacity) pre).bottom.toNat ≤ pushes pre := by
  refine prefix_induction (Q := fun pre => Represents capacity
    (machine.after (fresh J capacity) pre) (deque.after [] pre) ∧
      (machine.after (fresh J capacity) pre).bottom.toNat ≤ pushes pre)
    ⟨represents_fresh capacity, le_rfl⟩ ?_ hpre
  intro pre c hc ⟨hrep, hle⟩
  have hmono : pushes pre ≤ pushes calls :=
    ((List.prefix_append pre [c]).trans hc).sublist.countP_le
  have hsound := hrep.sound (by omega) c (by simpa using h.2 _ hc)
  have hstep := machine_simulates_deque capacity _ _ c hrep ⟨hsound, by simpa using hfits _ hc⟩
  have hbottom := (sound_indices hrep.ordered hsound).2
  simp only [Machine.after_append, Machine.after_cons, Machine.after_nil, pushes_concat]
  exact ⟨hstep.2, by omega⟩

/-- Runs that refine the list never pop an empty queue. -/
theorem sound_of_conforms (hfits : WithinCapacity capacity calls)
    (hp : pushes calls + 1 < 2 ^ 64) (h : Conforms capacity calls) {pre : List (Call J)}
    {c : Call J} (hc : pre ++ [c] <+: calls) :
    Sound (machine.after (fresh J capacity) pre) c := by
  have hpre : pre <+: calls := (List.prefix_append pre [c]).trans hc
  obtain ⟨hrep, hle⟩ := represents_of_conforms hfits hp h hpre
  have hmono : pushes pre ≤ pushes calls := hpre.sublist.countP_le
  exact hrep.sound (by omega) c (by simpa using h.2 _ hc)

end Refinement

/-- The queue is the double-ended list in every run without a pop of an empty queue and
without an index overflow, and, with room for the indices, in no other run. -/
theorem conforms_iff_sound (capacity : ℕ) (calls : List (Call J))
    (hfits : WithinCapacity capacity calls) :
    ((∀ pre c, pre ++ [c] <+: calls → Sound (machine.after (fresh J capacity) pre) c) →
      Conforms capacity calls) ∧
    (pushes calls + 1 < 2 ^ 64 → Conforms capacity calls →
      ∀ pre c, pre ++ [c] <+: calls → Sound (machine.after (fresh J capacity) pre) c) :=
  ⟨conforms_of_sound hfits, fun hp h _ _ hc => sound_of_conforms hfits hp h hc⟩

/-- One job pushed and popped in a queue with a single slot. -/
theorem conforms_iff_sound_push_pop :
    ((∀ pre c, pre ++ [c] <+: [.push 7, .pop] → Sound (machine.after (fresh ℕ 1) pre) c) →
      Conforms 1 [.push 7, .pop]) ∧
    (pushes [Call.push 7, .pop] + 1 < 2 ^ 64 → Conforms 1 [.push 7, .pop] →
      ∀ pre c, pre ++ [c] <+: [.push 7, .pop] → Sound (machine.after (fresh ℕ 1) pre) c) :=
  conforms_iff_sound 1 [.push 7, .pop] (by decide)

/-- After the first pop of the empty queue the second returns true again: it takes the
slot above `top_`, which holds the null pointer of the constructor. -/
theorem pop_pop_not_conforms :
    startsWithPush ([.push 7, .pop, .pop, .pop] : List (Call ℕ)) = true ∧
      WithinCapacity 2 ([.push 7, .pop, .pop, .pop] : List (Call ℕ)) ∧
      machine.results (fresh ℕ 2) [.push 7, .pop, .pop, .pop] =
        [.pushed, .taken (some 7), .taken none, .taken (some 0)] ∧
      deque.results [] [.push 7, .pop, .pop, .pop] =
        [.pushed, .taken (some 7), .taken none, .taken none] ∧
      ¬ Conforms 2 ([.push 7, .pop, .pop, .pop] : List (Call ℕ)) := by
  refine ⟨by decide, by decide, by decide, by decide, ?_⟩
  rintro ⟨hres, -⟩
  revert hres
  decide

end Jobrocket.FixedWorkStealingQueue
