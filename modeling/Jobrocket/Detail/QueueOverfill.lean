import Jobrocket.Detail.QueueExposure
import Jobrocket.Detail.QueueIndices

/-! # The queue beyond its capacity

A push into a full ring overwrites the oldest entry, but leaves `top_` where it is. The
owner's end still sees the surviving entries; the thieves' end is behind by the number of
entries that were dropped, and reads the slot of the oldest one only when that number is
a multiple of the capacity.
-/
namespace Jobrocket.FixedWorkStealingQueue
open Library
variable {J : Type*}

/-- The double-ended list from which a push beyond the capacity removes the oldest entry. -/
def dropping (capacity : ℕ) : Machine (List J) (Call J) (Answer J)
  | xs, .push job => (.pushed, (if xs.length < capacity then xs else xs.tail) ++ [job])
  | xs, .pop => (.taken xs.getLast?, xs.dropLast)
  | xs, .steal => (.taken xs.head?, xs.tail)
  | xs, .empty => (.isEmpty xs.isEmpty, xs)

/-- How long that list is, and how many entries it has dropped. -/
structure Fill where
  size : ℕ
  dropped : ℕ
  deriving DecidableEq

namespace Fill

def empty : Fill := ⟨0, 0⟩

def add (capacity : ℕ) (f : Fill) : Call J → Fill
  | .push _ =>
    if f.size < capacity then { f with size := f.size + 1 } else { f with dropped := f.dropped + 1 }
  | .pop => { f with size := f.size - 1 }
  | .steal => { f with size := f.size - 1 }
  | .empty => f

def after (capacity : ℕ) (f : Fill) (calls : List (Call J)) : Fill :=
  calls.foldl (add capacity) f

/-- Pushes can always be made, pops and steals while something is left to deliver. -/
def Offers (f : Fill) : Call J → Prop
  | .push _ => True
  | .pop => f.size ≠ 0
  | .steal => f.size ≠ 0
  | .empty => False

@[simp] theorem after_nil (capacity : ℕ) (f : Fill) : f.after capacity ([] : List (Call J)) = f := rfl
@[simp] theorem after_cons (capacity : ℕ) (f : Fill) (c : Call J) (calls : List (Call J)) :
    f.after capacity (c :: calls) = (f.add capacity c).after capacity calls := rfl

end Fill

variable [Inhabited J]

/-- The ring holds the list just below `bottom_`, and `top_` is behind it by the number of
dropped entries. No entry is in two slots. -/
structure Laps (capacity : ℕ) (q : FixedWorkStealingQueue J) (xs : List J) (f : Fill) : Prop where
  capacity_eq : q.capacity = capacity
  size_eq : xs.length = f.size
  size_le : f.size ≤ capacity
  bottom_eq : q.bottom.toNat = q.top.toNat + f.dropped + f.size
  entries_eq : xs = window q.slot (q.top.toNat + f.dropped) q.bottom.toNat
  named : ∀ job ∈ xs, job ≠ default
  distinct : ∀ p r, q.slot p ≠ default → q.slot p = q.slot r → p % capacity = r % capacity

section Steps
variable {capacity : ℕ} {q : FixedWorkStealingQueue J} {xs : List J} {f : Fill}

theorem laps_fresh (capacity : ℕ) : Laps capacity (fresh J capacity) [] Fill.empty where
  capacity_eq := rfl
  size_eq := rfl
  size_le := Nat.zero_le _
  bottom_eq := rfl
  entries_eq := (window_self _ _).symm
  named := fun _ h => absurd h List.not_mem_nil
  distinct := fun p _ h => absurd (fresh_slot capacity p) h

theorem slot_congr {p r : ℕ} (h : p % q.capacity = r % q.capacity) : q.slot p = q.slot r := by
  rw [slot, h, ← slot]

theorem slot_push (hcap : 0 < q.capacity) (job : J) (p : ℕ) :
    (q.push job).slot p = if p % q.capacity = q.bottom.toNat % q.capacity then job else q.slot p := by
  split
  · next h => exact (slot_congr (q := q.push job) h).trans (slot_write_self hcap q.bottom job)
  · next h => exact slot_write_ne h job

/-- The new job is in one slot, as it was in none. -/
theorem Laps.distinct_push (h : Laps capacity q xs f) (hcap : 0 < capacity) {job : J}
    (hnew : ∀ p, q.slot p ≠ job) {p r : ℕ} (hp : (q.push job).slot p ≠ default)
    (heq : (q.push job).slot p = (q.push job).slot r) : p % capacity = r % capacity := by
  have hslot := slot_push (h.capacity_eq.symm ▸ hcap) job
  rw [h.capacity_eq] at hslot
  rw [hslot] at hp
  rw [hslot, hslot] at heq
  split at heq <;> split at heq
  · next hpb hrb => exact hpb.trans hrb.symm
  · exact absurd heq.symm (hnew r)
  · exact absurd heq (hnew p)
  · next hpb _ =>
    rw [if_neg hpb] at hp
    exact h.distinct p r hp heq

/-- The new job goes behind what is kept of the list, which leaves a slot of the ring free. -/
theorem Laps.append (h : Laps capacity q xs f) (hcap : 0 < capacity)
    (hroom : q.bottom.toNat + 1 < 2 ^ 64) {job : J} (hjob : job ≠ default)
    (hnew : ∀ p, q.slot p ≠ job) {ys : List J} {g : Fill} (hsub : ys ⊆ xs)
    (hlen : ys.length + 1 = g.size) (hle : g.size ≤ capacity)
    (hsum : g.dropped + g.size = f.dropped + f.size + 1)
    (hys : ys = window q.slot (q.top.toNat + g.dropped) q.bottom.toNat) :
    Laps capacity (q.push job) (ys ++ [job]) g := by
  have hbottom := h.bottom_eq
  have hcapacity := h.capacity_eq
  have hsucc : (q.push job).bottom.toNat = q.bottom.toNat + 1 := toNat_add_one hroom
  refine ⟨hcapacity, ?_, hle, ?_, ?_, ?_, fun _ _ => h.distinct_push hcap hnew⟩
  · rw [List.length_append, List.length_singleton, hlen]
  · rw [hsucc, push_top]
    omega
  · rw [hsucc, push_top, window_push (by omega) (by omega), hys]
  · intro x hx
    rcases List.mem_append.mp hx with hx | hx
    · exact h.named x (hsub hx)
    · exact List.mem_singleton.mp hx ▸ hjob

theorem Laps.push (h : Laps capacity q xs f) (hcap : 0 < capacity)
    (hroom : q.bottom.toNat + 1 < 2 ^ 64) {job : J} (hjob : job ≠ default)
    (hnew : ∀ p, q.slot p ≠ job) :
    Laps capacity (q.push job) (dropping capacity xs (.push job)).2 (f.add capacity (.push job)) := by
  have hbottom := h.bottom_eq
  have hsize := h.size_le
  have hlen := h.size_eq
  by_cases hfull : f.size < capacity
  · have hadd : f.add capacity (.push job) = { f with size := f.size + 1 } := if_pos hfull
    have hlist : (dropping capacity xs (.push job)).2 = xs ++ [job] := by
      rw [dropping, if_pos (hlen.symm ▸ hfull)]
    rw [hadd, hlist]
    exact h.append hcap hroom hjob hnew (List.Subset.refl xs) (congrArg (· + 1) hlen) hfull rfl
      h.entries_eq
  · have hadd : f.add capacity (.push job) = { f with dropped := f.dropped + 1 } := if_neg hfull
    have hlist : (dropping capacity xs (.push job)).2 = xs.tail ++ [job] := by
      rw [dropping, if_neg (hlen.symm ▸ hfull)]
    have htail : xs.tail.length + 1 = f.size := by
      rw [List.length_tail, hlen]
      omega
    rw [hadd, hlist]
    refine h.append hcap hroom hjob hnew (List.tail_subset xs) htail hsize ?_ ?_
    · exact Nat.add_right_comm ..
    · rw [h.entries_eq, window_tail _ (by omega)]
      rfl

/-- Taking an entry from either end moves an index and leaves the slots alone. -/
theorem Laps.take (h : Laps capacity q xs f) {r : FixedWorkStealingQueue J} {ys : List J}
    (hcapacity : r.capacity = q.capacity) (hslot : ∀ p, r.slot p = q.slot p) (hsub : ys ⊆ xs)
    (hlen : ys.length = f.size - 1)
    (hbottom : r.bottom.toNat = r.top.toNat + f.dropped + (f.size - 1))
    (hys : ys = window q.slot (r.top.toNat + f.dropped) r.bottom.toNat) :
    Laps capacity r ys { f with size := f.size - 1 } where
  capacity_eq := hcapacity.trans h.capacity_eq
  size_eq := hlen
  size_le := (Nat.sub_le _ _).trans h.size_le
  bottom_eq := hbottom
  entries_eq := by rw [hys, funext hslot]
  named job hjob := h.named job (hsub hjob)
  distinct p r' hp heq := h.distinct p r' (hslot p ▸ hp) (by rw [← hslot p, heq, hslot r'])

theorem Laps.pop (h : Laps capacity q xs f) (hne : f.size ≠ 0) :
    q.pop.1 = xs.getLast? ∧ Laps capacity q.pop.2 xs.dropLast (f.add capacity (.pop : Call J)) := by
  have hbottom := h.bottom_eq
  have hpred : (q.bottom - 1).toNat = q.bottom.toNat - 1 := toNat_sub_one (by omega)
  have hlast : xs.getLast? = some (q.slot (q.bottom - 1).toNat) := by
    rw [h.entries_eq, window_getLast? _ (by omega), hpred]
  have hinit : xs.dropLast = window q.slot (q.top.toNat + f.dropped) (q.bottom - 1).toNat := by
    rw [h.entries_eq, window_dropLast _ (by omega), hpred]
  have hlen : xs.dropLast.length = f.size - 1 := by rw [List.length_dropLast, h.size_eq]
  have hle : q.top.toNat ≤ (q.bottom - 1).toNat := by omega
  rcases hle.lt_or_eq with hlt | heq
  · have hpop := pop_many (UInt64.lt_iff_toNat_lt.mpr hlt)
    refine ⟨by rw [hpop, hlast], h.take ?_ (pop_slot q) (List.dropLast_subset xs) hlen ?_ ?_⟩
    · rw [hpop]
    · rw [hpop]
      dsimp only
      omega
    · rw [hpop, hinit]
  · -- the last entry of all: nothing was dropped, and the indices meet above it
    have hpop := pop_last (UInt64.toNat_inj.mp heq)
    have hsucc : (q.top + 1).toNat = q.top.toNat + 1 :=
      toNat_add_one_of_lt (UInt64.lt_iff_toNat_lt.mpr (by omega : _ < q.bottom.toNat))
    refine ⟨by rw [hpop, hlast, heq], h.take ?_ (pop_slot q) (List.dropLast_subset xs) hlen ?_ ?_⟩
    · rw [hpop]
    · rw [hpop]
      dsimp only
      omega
    · have hzero : f.dropped = 0 := by omega
      rw [hpop, hinit, ← heq, hzero]
      exact (window_self _ _).trans (window_self _ _).symm

/-- A steal takes the slot at `top_`, which is the oldest entry's if the number of dropped
entries is a multiple of the capacity. -/
theorem Laps.steal_iff (h : Laps capacity q xs f) (hne : f.size ≠ 0) :
    q.steal.1 = xs.head? ↔ capacity ∣ f.dropped := by
  have hbottom := h.bottom_eq
  have hhead : xs.head? = some (q.slot (q.top.toNat + f.dropped)) := by
    rw [h.entries_eq, window_head? _ (by omega)]
  rw [steal_some (UInt64.lt_iff_toNat_lt.mpr (by omega)), hhead, Option.some_inj]
  constructor
  · intro heq
    have hnamed := h.named _ (List.mem_of_head? hhead)
    have hmod := h.distinct _ _ (heq.symm ▸ hnamed) heq
    exact (Nat.modEq_iff_dvd' (Nat.le_add_right _ _)).mp hmod |>.trans (by simp)
  · rintro ⟨k, hk⟩
    exact slot_congr (by rw [h.capacity_eq, hk, Nat.add_mul_mod_self_left])

theorem Laps.steal (h : Laps capacity q xs f) (hne : f.size ≠ 0) :
    Laps capacity q.steal.2 xs.tail (f.add capacity (.steal : Call J)) := by
  have hbottom := h.bottom_eq
  have hlt : q.top < q.bottom := UInt64.lt_iff_toNat_lt.mpr (by omega)
  have hsucc := toNat_add_one_of_lt hlt
  have hsteal := steal_some hlt
  refine h.take ?_ (steal_slot q) (List.tail_subset xs) ?_ ?_ ?_
  · rw [hsteal]
  · rw [List.length_tail, h.size_eq]
  · rw [hsteal]
    dsimp only
    omega
  · rw [hsteal]
    dsimp only
    rw [hsucc, h.entries_eq, window_tail _ (by omega), Nat.add_right_comm]

/-- One call keeps the ring and the list together, whatever the call returns. -/
theorem Laps.step (h : Laps capacity q xs f) (hcap : 0 < capacity) {c : Call J}
    (hoffers : f.Offers c) (hroom : ∀ job, c = .push job → q.bottom.toNat + 1 < 2 ^ 64)
    (hnew : ∀ job, c = .push job → job ≠ default ∧ ∀ p, q.slot p ≠ job) :
    Laps capacity (machine q c).2 (dropping capacity xs c).2 (f.add capacity c) ∧
      (machine q c).2.bottom.toNat ≤ q.bottom.toNat + 1 := by
  cases c with
  | push job =>
    obtain ⟨hjob, hslots⟩ := hnew job rfl
    have hroom := hroom job rfl
    exact ⟨h.push hcap hroom hjob hslots, (toNat_add_one hroom).le⟩
  | pop =>
    have hpop := (h.pop hoffers).2
    refine ⟨hpop, ?_⟩
    have hbottom := h.bottom_eq
    have hsize : f.size ≠ 0 := hoffers
    exact (pop_indices (by omega)).2.1.trans (Nat.le_succ _)
  | steal =>
    have hbottom := h.bottom_eq
    refine ⟨h.steal hoffers, ?_⟩
    have hsame := (steal_indices (q := q) (by omega)).2
    exact (congrArg UInt64.toNat hsame).le.trans (Nat.le_succ _)
  | empty => cases hoffers

theorem Laps.answer_iff (h : Laps capacity q xs f) {c : Call J} (hoffers : f.Offers c) :
    (machine q c).1 = (dropping capacity xs c).1 ↔ (c = .steal → capacity ∣ f.dropped) := by
  cases c with
  | push job => exact iff_of_true rfl fun hc => by cases hc
  | pop => exact iff_of_true (congrArg Answer.taken (h.pop hoffers).1) fun hc => by cases hc
  | steal =>
    rw [← h.steal_iff hoffers]
    exact ⟨fun heq _ => Answer.taken.inj heq, fun heq => congrArg Answer.taken (heq rfl)⟩
  | empty => cases hoffers

end Steps

section Names

/-- Give a push the number `n`. -/
def number (n : ℕ) : Call J → Call (ℕ × J)
  | .push job => .push (n, job)
  | .pop => .pop
  | .steal => .steal
  | .empty => .empty

/-- The calls with their positions as names, so that two pushes of one job can be told apart. -/
def numbered (calls : List (Call J)) : List (Call (ℕ × J)) :=
  calls.mapIdx fun n c => number (n + 1) c

def pushedJobs (calls : List (Call J)) : List J :=
  calls.filterMap fun
    | .push job => some job
    | _ => none

def delivered (answers : List (Answer J)) : List J :=
  answers.filterMap fun
    | .taken job => job
    | _ => none

omit [Inhabited J]

theorem numbered_concat (calls : List (Call J)) (c : Call J) :
    numbered (calls ++ [c]) = numbered calls ++ [number (calls.length + 1) c] :=
  List.mapIdx_concat

theorem Fill.add_number (capacity : ℕ) (f : Fill) (n : ℕ) (c : Call J) :
    f.add capacity (number n c) = f.add capacity c := by
  cases c <;> rfl

theorem Fill.offers_number {f : Fill} {n : ℕ} {c : Call J} :
    f.Offers (number n c) ↔ f.Offers c := by
  cases c <;> rfl

theorem number_eq_steal {n : ℕ} {c : Call J} : number n c = .steal ↔ c = .steal := by
  cases c <;> simp [number]

theorem pushedJobs_numbered_le (calls : List (Call J)) :
    ∀ job ∈ pushedJobs (numbered calls), job.1 ≤ calls.length := by
  induction calls using List.reverseRecOn with
  | nil => exact fun _ h => absurd h List.not_mem_nil
  | append_singleton calls c ih =>
    intro job hjob
    rw [numbered_concat, pushedJobs, List.filterMap_append, List.mem_append] at hjob
    rw [List.length_append, List.length_singleton]
    rcases hjob with hjob | hjob
    · exact (ih job hjob).trans (Nat.le_succ _)
    · cases c with
      | push x =>
        rw [List.mem_singleton.mp hjob]
      | pop => cases hjob
      | steal => cases hjob
      | empty => cases hjob

theorem pushedJobs_numbered_nodup (calls : List (Call J)) :
    (pushedJobs (numbered calls)).Nodup := by
  induction calls using List.reverseRecOn with
  | nil => exact List.nodup_nil
  | append_singleton calls c ih =>
    rw [numbered_concat, pushedJobs, List.filterMap_append, ← pushedJobs]
    cases c with
    | push x =>
      refine ih.append (List.nodup_singleton _) fun job hold hnew => ?_
      have hle := pushedJobs_numbered_le calls job hold
      rw [List.mem_singleton.mp hnew] at hle
      exact absurd hle (Nat.not_succ_le_self _)
    | pop => exact (List.append_nil _).symm ▸ ih
    | steal => exact (List.append_nil _).symm ▸ ih
    | empty => exact (List.append_nil _).symm ▸ ih

/-- The list delivers its entries and what is pushed, each at most once. -/
theorem delivered_dropping_subperm (capacity : ℕ) (xs : List J) (calls : List (Call J)) :
    (delivered ((dropping capacity).results xs calls)).Subperm (xs ++ pushedJobs calls) := by
  induction calls generalizing xs with
  | nil => exact List.nil_subperm
  | cons c calls ih =>
    cases c with
    | push job =>
      have hkept : ((if xs.length < capacity then xs else xs.tail) ++ [job]).Sublist (xs ++ [job]) := by
        split
        · exact List.Sublist.refl _
        · exact (List.tail_sublist xs).append_right _
      have hall := (ih _).trans (hkept.append_right (pushedJobs calls)).subperm
      rwa [List.append_assoc] at hall
    | pop =>
      rcases List.eq_nil_or_concat xs with rfl | ⟨ys, y, rfl⟩
      · exact ih []
      · have hrest : (y :: delivered ((dropping capacity).results ys calls)).Subperm
            (y :: (ys ++ pushedJobs calls)) := (List.subperm_cons y).mpr (ih ys)
        rw [List.concat_eq_append]
        have hanswer : delivered ((dropping capacity).results (ys ++ [y]) (.pop :: calls)) =
            y :: delivered ((dropping capacity).results ys calls) := by
          simp [dropping, delivered]
        rw [hanswer, List.append_assoc]
        exact hrest.trans List.perm_middle.symm.subperm
    | steal =>
      cases xs with
      | nil => exact ih []
      | cons y ys => exact (List.subperm_cons y).mpr (ih ys)
    | empty => exact ih xs

end Names

section Runs
variable {capacity : ℕ} {calls : List (Call J)}

/-- The queue gives the bounded list's answers, and delivers no push twice. -/
structure DropsOldest (capacity : ℕ) (calls : List (Call J)) : Prop where
  results_eq : machine.results (fresh (ℕ × J) capacity) (numbered calls) =
    (dropping capacity).results [] (numbered calls)
  once : (delivered (machine.results (fresh (ℕ × J) capacity) (numbered calls))).Nodup

/-- A steal that finds `top_` at the slot of the oldest entry that is left, and a push that has
room for `bottom_`. -/
def InStep (capacity : ℕ) (pre : List (Call J)) : Call J → Prop
  | .push _ => (machine.after (fresh (ℕ × J) capacity) (numbered pre)).bottom.toNat + 1 < 2 ^ 64
  | .steal => capacity ∣ (Fill.empty.after capacity pre).dropped
  | .pop => True
  | .empty => True

/-- After the calls the ring and the list are together, and the slots hold names of pushes. -/
structure Tracks (capacity : ℕ) (pre : List (Call J)) : Prop where
  laps : Laps capacity (machine.after (fresh (ℕ × J) capacity) (numbered pre))
    ((dropping capacity).after [] (numbered pre)) (Fill.empty.after capacity pre)
  bottom_le : (machine.after (fresh (ℕ × J) capacity) (numbered pre)).bottom.toNat ≤ pre.length
  names_le : ∀ p, ((machine.after (fresh (ℕ × J) capacity) (numbered pre)).slot p).1 ≤ pre.length

theorem tracks_nil (capacity : ℕ) : Tracks capacity ([] : List (Call J)) where
  laps := laps_fresh capacity
  bottom_le := le_rfl
  names_le p := (congrArg Prod.fst (fresh_slot capacity p)).le

/-- A call puts at most its own name into the slots. -/
theorem name_le_of_call (q : FixedWorkStealingQueue (ℕ × J)) {n : ℕ} (h : ∀ p, (q.slot p).1 ≤ n)
    (c : Call J) (p : ℕ) : ((machine q (number (n + 1) c)).2.slot p).1 ≤ n + 1 := by
  cases c with
  | push job =>
    rcases push_slot q (n + 1, job) p with hslot | hslot
    · exact (congrArg Prod.fst hslot).le
    · exact (congrArg Prod.fst hslot).le.trans ((h p).trans (Nat.le_succ n))
  | pop => exact (congrArg Prod.fst (pop_slot q p)).le.trans ((h p).trans (Nat.le_succ n))
  | steal => exact (congrArg Prod.fst (steal_slot q p)).le.trans ((h p).trans (Nat.le_succ n))
  | empty => exact (h p).trans (Nat.le_succ n)

theorem Tracks.concat {pre : List (Call J)} {c : Call J} (h : Tracks capacity pre)
    (hcap : 0 < capacity) (hoffers : (Fill.empty.after capacity pre).Offers c)
    (hinStep : InStep capacity pre c ∨ pre.length + 1 < 2 ^ 64) :
    Tracks capacity (pre ++ [c]) := by
  have hbottom := h.bottom_le
  have hroom : ∀ job, number (pre.length + 1) c = .push job →
      (machine.after (fresh (ℕ × J) capacity) (numbered pre)).bottom.toNat + 1 < 2 ^ 64 := by
    intro job hjob
    rcases hinStep with hroom | hlen
    · cases c <;> cases hjob
      exact hroom
    · omega
  have hnew : ∀ job, number (pre.length + 1) c = .push job → job ≠ default ∧
      ∀ p, (machine.after (fresh (ℕ × J) capacity) (numbered pre)).slot p ≠ job := by
    rintro job hjob
    have hname : job.1 = pre.length + 1 := by
      cases c <;> cases hjob
      rfl
    refine ⟨fun hnull => ?_, fun p hold => ?_⟩
    · rw [hnull] at hname
      cases hname
    · have hle := h.names_le p
      rw [hold] at hle
      omega
  obtain ⟨hlaps, hle⟩ := h.laps.step hcap (Fill.offers_number.mpr hoffers) hroom hnew
  rw [Fill.add_number] at hlaps
  constructor
  · rw [numbered_concat, Machine.after_append, Machine.after_append, Fill.after, List.foldl_append]
    exact hlaps
  · rw [numbered_concat, Machine.after_append, List.length_append]
    exact hle.trans (Nat.succ_le_succ hbottom)
  · rw [numbered_concat, Machine.after_append, List.length_append]
    exact name_le_of_call _ h.names_le c

theorem tracks_of_inStep (hcap : 0 < capacity)
    (hoffers : ∀ pre c, pre ++ [c] <+: calls → (Fill.empty.after capacity pre).Offers c)
    (hinStep : ∀ pre c, pre ++ [c] <+: calls → InStep capacity pre c) {pre : List (Call J)}
    (hpre : pre <+: calls) : Tracks capacity pre := by
  refine prefix_induction (Q := Tracks capacity) (tracks_nil capacity) ?_ hpre
  intro pre c hc htracks
  exact htracks.concat hcap (hoffers pre c hc) (Or.inl (hinStep pre c hc))

theorem tracks_of_length (hcap : 0 < capacity)
    (hoffers : ∀ pre c, pre ++ [c] <+: calls → (Fill.empty.after capacity pre).Offers c)
    (hlen : calls.length < 2 ^ 64) {pre : List (Call J)} (hpre : pre <+: calls) :
    Tracks capacity pre := by
  refine prefix_induction (Q := Tracks capacity) (tracks_nil capacity) ?_ hpre
  intro pre c hc htracks
  have hshort := hc.length_le
  rw [List.length_append, List.length_singleton] at hshort
  exact htracks.concat hcap (hoffers pre c hc) (Or.inr (by omega))

/-- The answers are the list's as long as every steal finds a multiple of the capacity dropped. -/
theorem results_eq_iff
    (hoffers : ∀ pre c, pre ++ [c] <+: calls → (Fill.empty.after capacity pre).Offers c)
    (htracks : ∀ pre, pre <+: calls → Tracks capacity pre) {pre : List (Call J)}
    (hpre : pre <+: calls) :
    machine.results (fresh (ℕ × J) capacity) (numbered pre) =
        (dropping capacity).results [] (numbered pre) ↔
      ∀ before, before ++ [.steal] <+: pre →
        capacity ∣ (Fill.empty.after capacity before).dropped := by
  refine prefix_induction (Q := fun pre =>
    machine.results (fresh (ℕ × J) capacity) (numbered pre) =
        (dropping capacity).results [] (numbered pre) ↔
      ∀ before, before ++ [.steal] <+: pre →
        capacity ∣ (Fill.empty.after capacity before).dropped) ?_ ?_ hpre
  · exact iff_of_true rfl fun before h => by simp at h
  · intro pre c hc ih
    have hlaps := (htracks pre ((List.prefix_append pre [c]).trans hc)).laps
    have hanswer := hlaps.answer_iff (Fill.offers_number (n := pre.length + 1).mpr (hoffers pre c hc))
    rw [number_eq_steal] at hanswer
    rw [numbered_concat, Machine.results_append, Machine.results_append]
    constructor
    · intro hall before hbefore
      obtain ⟨hinit, hlast⟩ := List.append_inj' hall rfl
      rcases concat_prefix_concat_cases hbefore with hbefore | ⟨rfl, hsteal⟩
      · exact ih.mp hinit before hbefore
      · exact hanswer.mp (List.head_eq_of_cons_eq hlast) hsteal.symm
    · intro hall
      have hinit := ih.mpr fun before hbefore => hall before (hbefore.trans (List.prefix_append _ _))
      have hlast := hanswer.mpr fun hsteal => hall pre (hsteal ▸ List.prefix_rfl)
      rw [hinit, Machine.results_cons, Machine.results_cons, hlast]
      rfl

theorem dropsOldest_iff_results : DropsOldest capacity calls ↔
    machine.results (fresh (ℕ × J) capacity) (numbered calls) =
      (dropping capacity).results [] (numbered calls) := by
  refine ⟨DropsOldest.results_eq, fun hresults => ⟨hresults, ?_⟩⟩
  rw [hresults]
  obtain ⟨ys, hperm, hsub⟩ := delivered_dropping_subperm capacity [] (numbered calls)
  exact hperm.nodup_iff.mp (hsub.nodup (pushedJobs_numbered_nodup calls))

/-- Beyond its capacity the queue drops the oldest jobs, and only those, in the runs in which
every steal comes when a multiple of the capacity was dropped and no push makes `bottom_`
overflow, and, with room for the indices, in no other run. -/
theorem dropsOldest_iff (capacity : ℕ) (hcap : 0 < capacity) (calls : List (Call J))
    (hoffers : ∀ pre c, pre ++ [c] <+: calls → (Fill.empty.after capacity pre).Offers c) :
    ((∀ pre c, pre ++ [c] <+: calls → InStep capacity pre c) → DropsOldest capacity calls) ∧
      (calls.length < 2 ^ 64 → DropsOldest capacity calls →
        ∀ pre c, pre ++ [c] <+: calls → InStep capacity pre c) := by
  rw [dropsOldest_iff_results]
  constructor
  · intro hinStep
    have htracks : ∀ pre, pre <+: calls → Tracks capacity pre :=
      fun _ => tracks_of_inStep hcap hoffers hinStep
    exact (results_eq_iff hoffers htracks List.prefix_rfl).mpr fun pre hc => hinStep pre _ hc
  · intro hlen hresults pre c hc
    have htracks : ∀ pre, pre <+: calls → Tracks capacity pre :=
      fun _ => tracks_of_length hcap hoffers hlen
    have hbottom := (htracks pre ((List.prefix_append pre [c]).trans hc)).bottom_le
    have hshort := hc.length_le
    rw [List.length_append, List.length_singleton] at hshort
    cases c with
    | push job => exact lt_of_le_of_lt (Nat.succ_le_succ hbottom) (by omega)
    | steal => exact (results_eq_iff hoffers htracks List.prefix_rfl).mp hresults pre hc
    | pop => trivial
    | empty => trivial

end Runs

section Small

/-- Four pushes into two slots drop two jobs before the steal. -/
abbrev overfilledTwice : List (Call ℕ) := [.push 7, .push 8, .push 9, .push 10, .steal, .pop]

theorem dropsOldest_iff_twice : DropsOldest 2 overfilledTwice := by
  refine (dropsOldest_iff 2 (by decide) overfilledTwice fun pre c hc => ?_).1 fun pre c hc => ?_
  · obtain ⟨n, hn, rfl, rfl⟩ := concat_prefix_iff.mp hc
    have hn : n < 6 := hn
    interval_cases n <;> simp [Fill.Offers, Fill.after, Fill.add, Fill.empty]
  · obtain ⟨n, hn, rfl, hcall⟩ := concat_prefix_iff.mp hc
    have hn : n < 6 := hn
    cases c <;> interval_cases n <;> cases hcall <;> unfold InStep <;> decide

abbrev overfilledOnce : List (Call ℕ) := [.push 7, .push 8, .push 9, .pop, .steal]

/-- Three pushes into two slots leave `top_` at the slot of the newest job: after the owner has
popped that job, a thief steals it again, and the oldest job that is left stays behind. -/
theorem overfilledOnce_not_dropsOldest :
    (∀ pre c, pre ++ [c] <+: overfilledOnce → (Fill.empty.after 2 pre).Offers c) ∧
      machine.results (fresh (ℕ × ℕ) 2) (numbered overfilledOnce) =
        [.pushed, .pushed, .pushed, .taken (some (3, 9)), .taken (some (3, 9))] ∧
      (dropping 2).results [] (numbered overfilledOnce) =
        [.pushed, .pushed, .pushed, .taken (some (3, 9)), .taken (some (2, 8))] ∧
      ¬ DropsOldest 2 overfilledOnce := by
  refine ⟨fun pre c hc => ?_, by decide, by decide, fun h => ?_⟩
  · obtain ⟨n, hn, rfl, rfl⟩ := concat_prefix_iff.mp hc
    have hn : n < 5 := hn
    interval_cases n <;> simp [Fill.Offers, Fill.after, Fill.add, Fill.empty]
  · exact absurd h.once (by decide)

end Small

end Jobrocket.FixedWorkStealingQueue
