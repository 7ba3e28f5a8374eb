import Jobrocket.Scheduler
import Jobrocket.Library.Dispenser
import Jobrocket.Library.Machine
import Jobrocket.Library.Word

/-! # Registering main threads

The registered threads get the indices from `num_workers_` on, each its own and at most
`num_main_threads_` of them, as long as no registration takes the index zero: that
happens only when `next_main_` has come round, and is then one too many.
-/
namespace Jobrocket.Scheduler
open Library

variable {τ : Type*} [DecidableEq τ] {s : Scheduler τ} {t : τ}

/-- A registration that passes both checks with the index zero, which is a worker's. -/
def TakesZero (s : Scheduler τ) (t : τ) : Prop :=
  s.find t = none ∧ s.nextMain = 0 ∧ 0 < s.numWorkers + s.numMainThreads

/-- The registered threads have the indices from `num_workers_` on. The counter stands
behind them, or, when none is left, anywhere behind the last or at zero again. -/
structure Registered (s : Scheduler τ) : Prop where
  fits : s.numWorkers.toNat + s.numMainThreads.toNat < 2 ^ 32
  dispensed : Dispensed s.numWorkers.toNat (s.numWorkers.toNat + s.mainThreadMap.length) s.find
  length_le : s.mainThreadMap.length ≤ s.numMainThreads.toNat
  next_eq : s.mainThreadMap.length < s.numMainThreads.toNat →
    s.nextMain.toNat = s.numWorkers.toNat + s.mainThreadMap.length
  next_full : s.mainThreadMap.length = s.numMainThreads.toNat →
    s.numWorkers.toNat + s.numMainThreads.toNat ≤ s.nextMain.toNat ∨ s.nextMain = 0

omit [DecidableEq τ] in
theorem limit_toNat (h : s.numWorkers.toNat + s.numMainThreads.toNat < 2 ^ 32) :
    (s.numWorkers + s.numMainThreads).toNat = s.numWorkers.toNat + s.numMainThreads.toNat := by
  rw [UInt32.toNat_add]
  exact Nat.mod_eq_of_lt h

theorem registered_start (hmap : s.mainThreadMap = []) (hnext : s.nextMain = s.numWorkers)
    (hfits : s.numWorkers.toNat + s.numMainThreads.toNat < 2 ^ 32) : Registered s := by
  have hfind : s.find = fun _ => none := by
    funext t
    rw [find, hmap]
    rfl
  constructor
  case fits => exact hfits
  case dispensed =>
    rw [hfind]
    exact .empty _ _
  case length_le => simp [hmap]
  case next_eq => simp [hmap, hnext]
  case next_full =>
    rw [hmap, hnext]
    exact fun hnone => Or.inl (Nat.le_of_eq (by rw [← hnone]; rfl))

/-- A registration keeps the invariant, unless it takes the index zero. -/
theorem Registered.register (h : Registered s) (hz : ¬ TakesZero s t) :
    Registered (s.registerMainThread t).2 := by
  have hlimit := limit_toNat h.fits
  cases hfind : s.find t with
  | some i =>
    rw [registerMainThread_found hfind]
    exact h
  | none =>
    by_cases hlt : s.nextMain < s.numWorkers + s.numMainThreads
    · have hnat := UInt32.lt_iff_toNat_lt.mp hlt
      have hroom : s.mainThreadMap.length < s.numMainThreads.toNat := by
        refine lt_of_le_of_ne h.length_le fun hfull => ?_
        rcases h.next_full hfull with hge | hzero
        · omega
        · exact hz ⟨hfind, hzero, hzero ▸ hlt⟩
      have hnext := h.next_eq hroom
      have hsucc : (s.nextMain + 1).toNat = s.nextMain.toNat + 1 := by
        have := h.fits
        rw [UInt32.toNat_add, UInt32.toNat_one]
        omega
      rw [registerMainThread_ok hfind hlt]
      constructor
      case fits => exact h.fits
      case dispensed =>
        rw [hnext]
        have hgive := h.dispensed.give (Nat.le_add_right _ _) t
        have hfind' : find { s with mainThreadMap :=
            (t, s.numWorkers.toNat + s.mainThreadMap.length) :: s.mainThreadMap } =
              Function.update s.find t (some (s.numWorkers.toNat + s.mainThreadMap.length)) :=
          funext fun u => find_cons u t _ _
        exact hfind' ▸ hgive
      case length_le => exact hroom
      case next_eq =>
        intro _
        dsimp only
        rw [hsucc, hnext, List.length_cons, Nat.add_assoc]
      case next_full =>
        intro hfull
        rw [List.length_cons] at hfull
        dsimp only at hfull ⊢
        omega
    · have hge := UInt32.not_lt.mp hlt
      have hnat := UInt32.le_iff_toNat_le.mp hge
      have hfull : s.mainThreadMap.length = s.numMainThreads.toNat := by
        by_contra hne
        have hnext := h.next_eq (lt_of_le_of_ne h.length_le hne)
        have hlt := lt_of_le_of_ne h.length_le hne
        omega
      rw [registerMainThread_refused hfind hge]
      refine { h with next_eq := fun hroom => absurd hfull hroom.ne, next_full := fun _ => ?_ }
      rcases add_one_cases s.nextMain with hsucc | hzero
      · apply Or.inl
        dsimp only
        omega
      · exact Or.inr hzero

section Runs
variable {callers pre : List τ}

def registrations : Machine (Scheduler τ) τ (Except Error ℕ) := registerMainThread

/-- What a registration does not touch; the map only grows. -/
structure Frame (s s' : Scheduler τ) : Prop where
  numWorkers_eq : s'.numWorkers = s.numWorkers
  numMainThreads_eq : s'.numMainThreads = s.numMainThreads
  workers_eq : s'.workers = s.workers
  length_le : s.mainThreadMap.length ≤ s'.mainThreadMap.length

omit [DecidableEq τ] in
theorem Frame.refl (s : Scheduler τ) : Frame s s := ⟨rfl, rfl, rfl, le_rfl⟩

omit [DecidableEq τ] in
theorem Frame.trans {s s' s'' : Scheduler τ} (h : Frame s s') (h' : Frame s' s'') : Frame s s'' :=
  ⟨h'.numWorkers_eq.trans h.numWorkers_eq, h'.numMainThreads_eq.trans h.numMainThreads_eq,
    h'.workers_eq.trans h.workers_eq, h.length_le.trans h'.length_le⟩

theorem frame_register (s : Scheduler τ) (t : τ) : Frame s (s.registerMainThread t).2 := by
  cases hfind : s.find t with
  | some i =>
    rw [registerMainThread_found hfind]
    exact .refl s
  | none =>
    by_cases hlt : s.nextMain < s.numWorkers + s.numMainThreads
    · rw [registerMainThread_ok hfind hlt]
      exact ⟨rfl, rfl, rfl, Nat.le_succ _⟩
    · rw [registerMainThread_refused hfind (UInt32.not_lt.mp hlt)]
      exact ⟨rfl, rfl, rfl, le_rfl⟩

theorem frame_after (s : Scheduler τ) (callers : List τ) :
    Frame s (registrations.after s callers) := by
  induction callers generalizing s with
  | nil => exact .refl s
  | cons t callers ih => exact (frame_register s t).trans (ih _)

theorem registered_after (h : Registered s)
    (hclear : ∀ pre t, pre ++ [t] <+: callers → ¬ TakesZero (registrations.after s pre) t) :
    Registered (registrations.after s callers) :=
  Machine.invariant registrations h (fun _ _ hI (hz : ¬ TakesZero _ _) => hI.register hz) hclear
    List.prefix_rfl

/-- The one that takes it is one too many. -/
theorem Registered.takesZero_length (h : Registered s) (hpos : 0 < s.numWorkers.toNat)
    (hz : TakesZero s t) :
    s.numMainThreads.toNat < (s.registerMainThread t).2.mainThreadMap.length := by
  obtain ⟨hfind, hnext, hlt⟩ := hz
  have hfull : s.mainThreadMap.length = s.numMainThreads.toNat := by
    by_contra hne
    have hzero := h.next_eq (lt_of_le_of_ne h.length_le hne)
    rw [hnext, UInt32.toNat_zero] at hzero
    omega
  rw [registerMainThread_ok hfind (hnext ▸ hlt)]
  exact Nat.lt_succ_of_le hfull.ge

/-- Either no registration takes the index zero, or there are too many in the end. -/
theorem clear_or_over (h : Registered s) (hpos : 0 < s.numWorkers.toNat) (callers : List τ) :
    (∀ pre t, pre ++ [t] <+: callers → ¬ TakesZero (registrations.after s pre) t) ∨
      s.numMainThreads.toNat < (registrations.after s callers).mainThreadMap.length := by
  induction callers using List.reverseRecOn with
  | nil => exact Or.inl fun pre t hpre => by simp at hpre
  | append_singleton callers t ih =>
    have hframe := frame_after s callers
    rw [Machine.after_append, Machine.after_cons, Machine.after_nil]
    rcases ih with hclear | hover
    · by_cases hz : TakesZero (registrations.after s callers) t
      · right
        have hover := (registered_after h hclear).takesZero_length
          (hframe.numWorkers_eq ▸ hpos) hz
        rwa [hframe.numMainThreads_eq] at hover
      · left
        intro pre u hpre
        rcases concat_prefix_concat_cases hpre with hpre | ⟨rfl, rfl⟩
        · exact hclear pre u hpre
        · exact hz
    · exact Or.inr (hover.trans_le (frame_register _ t).length_le)

end Runs

end Jobrocket.Scheduler
