import Jobrocket.SchedulerRegistration
import Mathlib.Data.List.GetD

/-! # One owner for every worker

After the first `startup` every worker thread, every registered thread and the program's
main thread finds a worker of its own. The last worker is the main thread's, unless the
number of main threads was left at its default: then the vector is one element short and
the last worker runs a thread.
-/
namespace Jobrocket.Scheduler
open Library

variable {τ : Type*} [DecidableEq τ] {s : Scheduler τ} {t : τ}

section Locate
variable {w : ℕ}

theorem findLocalWorker_started (hw : w < s.numWorkers.toNat) (hget : s.workers.getD w none = some t)
    (hother : ∀ v, v < s.numWorkers.toNat → s.workers.getD v none = some t → v = w) :
    s.findLocalWorker t = w := by
  rw [findLocalWorker]
  split
  · next v hv =>
    have hpred := List.find?_some hv
    exact hother v (List.mem_range.mp (List.mem_of_find?_eq_some hv)) (of_decide_eq_true hpred)
  · next hnone =>
    have hpred := List.find?_eq_none.mp hnone w (List.mem_range.mpr hw)
    exact absurd (decide_eq_true hget) hpred

theorem findLocalWorker_other
    (h : ∀ w, w < s.numWorkers.toNat → s.workers.getD w none ≠ some t) :
    s.findLocalWorker t = (s.find t).getD (s.workers.length - 1) := by
  rw [findLocalWorker]
  split
  · next v hv =>
    have hpred := List.find?_some hv
    exact absurd (of_decide_eq_true hpred) (h v (List.mem_range.mp (List.mem_of_find?_eq_some hv)))
  · rfl

end Locate

/-- The threads that have a worker: those the workers run, those registered, and the
program's main thread. -/
def Known (s : Scheduler τ) (main t : τ) : Prop :=
  some t ∈ s.workers ∨ (s.find t).isSome ∨ t = main

/-- Every known thread has a worker of its own, every index in use is one of a worker, and
no more threads are registered than were announced. -/
structure OneOwner (s : Scheduler τ) (main : τ) : Prop where
  started : s.numWorkers.toNat ≤ s.workers.length
  mapped : ∀ t i, s.find t = some i → i < s.workers.length
  located : ∀ t, s.Known main t → s.findLocalWorker t < s.workers.length
  distinct : ∀ t u, s.Known main t → s.Known main u → s.findLocalWorker t = s.findLocalWorker u →
    t = u
  limit : s.mainThreadMap.length ≤ s.numMainThreads.toNat

/-- The workers that there are run the threads `ids`, up to `num_workers_`. -/
def Started (s : Scheduler τ) (ids : ℕ → τ) : Prop :=
  ∀ w, s.workers.getD w none =
    if w < s.numWorkers.toNat ∧ w < s.workers.length then some (ids w) else none

section OneOwner
variable {ids : ℕ → τ} {main : τ} {w : ℕ}

omit [DecidableEq τ] in
theorem Started.mem (h : s.Started ids) (hw : w < s.numWorkers.toNat) (hlen : w < s.workers.length) :
    some (ids w) ∈ s.workers := by
  have hget := h w
  rw [if_pos ⟨hw, hlen⟩, List.getD_eq_getElem _ _ hlen] at hget
  exact hget ▸ List.getElem_mem hlen

omit [DecidableEq τ] in
theorem Started.of_mem (h : s.Started ids) (ht : some t ∈ s.workers) :
    ∃ w, w < s.numWorkers.toNat ∧ w < s.workers.length ∧ t = ids w := by
  obtain ⟨w, hlen, hget⟩ := List.getElem_of_mem ht
  have hw := h w
  rw [List.getD_eq_getElem _ _ hlen, hget] at hw
  split at hw
  · next hlt => exact ⟨w, hlt.1, hlt.2, Option.some.inj hw⟩
  · cases hw

theorem Started.findLocalWorker_ids (h : s.Started ids)
    (hids : ∀ v w, v < s.numWorkers.toNat → w < s.numWorkers.toNat → ids v = ids w → v = w)
    (hw : w < s.numWorkers.toNat) (hlen : w < s.workers.length) :
    s.findLocalWorker (ids w) = w := by
  refine findLocalWorker_started hw ((h w).trans (if_pos ⟨hw, hlen⟩)) fun v hv hget => ?_
  rw [h v] at hget
  split at hget
  · exact hids v w hv hw (Option.some.inj hget)
  · cases hget

theorem Started.findLocalWorker_other (h : s.Started ids)
    (ht : ∀ w, w < s.numWorkers.toNat → ids w ≠ t) :
    s.findLocalWorker t = (s.find t).getD (s.workers.length - 1) := by
  refine Scheduler.findLocalWorker_other fun w hw hget => ?_
  rw [h w] at hget
  split at hget
  · exact ht w hw (Option.some.inj hget)
  · cases hget

/-- Where a known thread's worker is: among those that run a thread, among those given to
registered threads, or the last. -/
theorem Started.located (h : s.Started ids)
    (hids : ∀ v w, v < s.numWorkers.toNat → w < s.numWorkers.toNat → ids v = ids w → v = w)
    (hroom : s.numWorkers.toNat ≤ s.workers.length) (hknown : s.Known main t) :
    (s.findLocalWorker t < s.numWorkers.toNat ∧ t = ids (s.findLocalWorker t)) ∨
      s.find t = some (s.findLocalWorker t) ∨
      (t = main ∧ s.findLocalWorker t = s.workers.length - 1) := by
  by_cases hworker : ∃ w, w < s.numWorkers.toNat ∧ ids w = t
  · obtain ⟨w, hw, rfl⟩ := hworker
    rw [h.findLocalWorker_ids hids hw (hw.trans_le hroom)]
    exact Or.inl ⟨hw, rfl⟩
  · have hnot : ∀ w, w < s.numWorkers.toNat → ids w ≠ t := fun w hw heq => hworker ⟨w, hw, heq⟩
    rw [h.findLocalWorker_other hnot]
    cases hfind : s.find t with
    | some i => exact Or.inr (Or.inl rfl)
    | none =>
      rcases hknown with hmem | hsome | hmain
      · obtain ⟨w, hw, -, heq⟩ := h.of_mem hmem
        exact absurd heq.symm (hnot w hw)
      · rw [hfind] at hsome
        cases hsome
      · exact Or.inr (Or.inr ⟨hmain, rfl⟩)

theorem Registered.oneOwner (h : Registered s) (hstarted : s.Started ids)
    (hids : ∀ v w, v < s.numWorkers.toNat → w < s.numWorkers.toNat → ids v = ids w → v = w)
    (hroom : s.numWorkers.toNat + s.numMainThreads.toNat < s.workers.length) :
    OneOwner s main := by
  have hle : s.numWorkers.toNat ≤ s.workers.length := by omega
  have hmapped : ∀ t i, s.find t = some i →
      s.numWorkers.toNat ≤ i ∧ i < s.numWorkers.toNat + s.numMainThreads.toNat := fun t i hi =>
    ⟨(h.dispensed.range t i hi).1,
      (h.dispensed.range t i hi).2.trans_le (Nat.add_le_add_left h.length_le _)⟩
  constructor
  case started => exact hle
  case mapped => exact fun t i hi => (hmapped t i hi).2.trans hroom
  case located =>
    intro t ht
    rcases hstarted.located hids hle ht with ⟨hw, -⟩ | hfind | ⟨-, hlast⟩
    · omega
    · exact (hmapped _ _ hfind).2.trans hroom
    · omega
  case distinct =>
    intro t u ht hu heq
    rcases hstarted.located hids hle ht with ⟨hw, htid⟩ | hfind | ⟨htmain, hlast⟩ <;>
      rcases hstarted.located hids hle hu with ⟨hw', huid⟩ | hfind' | ⟨humain, hlast'⟩
    · rw [htid, huid, heq]
    · have := hmapped _ _ hfind'
      omega
    · omega
    · have := hmapped _ _ hfind
      omega
    · exact h.dispensed.inj t u _ hfind (heq ▸ hfind')
    · have := hmapped _ _ hfind
      omega
    · omega
    · have := hmapped _ _ hfind'
      omega
    · rw [htmain, humain]
  case limit => exact h.length_le

/-- The last worker cannot be shared with the program's main thread. -/
theorem OneOwner.numWorkers_lt (h : OneOwner s main) (hstarted : s.Started ids)
    (hids : ∀ v w, v < s.numWorkers.toNat → w < s.numWorkers.toNat → ids v = ids w → v = w)
    (hmain : ∀ w, w < s.numWorkers.toNat → ids w ≠ main) (hpos : 0 < s.numWorkers.toNat)
    (hnone : s.numMainThreads = 0) : s.numWorkers.toNat < s.workers.length := by
  refine lt_of_le_of_ne h.started fun heq => ?_
  have hmap : s.mainThreadMap = [] := by
    have hlimit := h.limit
    rw [hnone, UInt32.toNat_zero] at hlimit
    exact List.eq_nil_of_length_eq_zero (Nat.le_zero.mp hlimit)
  have hfind : s.find main = none := by
    rw [find, hmap]
    rfl
  have hlast : s.numWorkers.toNat - 1 < s.workers.length := by omega
  have hlt : s.numWorkers.toNat - 1 < s.numWorkers.toNat := by omega
  refine hmain _ hlt (h.distinct _ _ (Or.inl (hstarted.mem hlt hlast)) (Or.inr (Or.inr rfl)) ?_)
  rw [hstarted.findLocalWorker_ids hids hlt hlast, hstarted.findLocalWorker_other hmain, hfind, heq]
  rfl

end OneOwner

section Startup

def workerCount (cpu : CpuInfo) (numThreads : Int32) : ℕ :=
  if numThreads ≤ autoThreadCount then cpu.physicalCores.toNat else numThreads.toInt.toNat

/-- A scheduler that has just been started for the first time. -/
structure Fresh (s : Scheduler τ) (ids : ℕ → τ) (count : ℕ) (numMainThreads : ℤ) : Prop where
  numWorkers_eq : s.numWorkers.toNat = count
  numMainThreads_eq : (s.numMainThreads.toNat : ℤ) = max 0 numMainThreads
  nextMain_eq : s.nextMain = s.numWorkers
  mainThreadMap_eq : s.mainThreadMap = []
  length_eq : (s.workers.length : ℤ) = (count + numMainThreads + 1) % 2 ^ 32
  started : s.Started ids

variable {cpu : CpuInfo} {numThreads : Int32}

omit [DecidableEq τ] in
theorem startup_numWorkers (cpu : CpuInfo) (ids : ℕ → τ) (numThreads numMainThreads : Int32) :
    (startup ({} : Scheduler τ) (.ok cpu) ids numThreads numMainThreads).1.numWorkers.toNat =
      workerCount cpu numThreads := by
  by_cases hauto : numThreads ≤ autoThreadCount
  · rw [startup_numWorkers_auto _ _ _ _ hauto, workerCount, if_pos hauto]
  · rw [startup_numWorkers_given _ _ _ _ _ hauto, workerCount, if_neg hauto]
    have hsign := toNat_toUInt32 numThreads
    have hlt := numThreads.toInt_lt
    rw [le_autoThreadCount] at hauto
    omega

theorem workerCount_bounds (hcores : 0 < cpu.physicalCores.toNat ∧ cpu.physicalCores.toNat < 2 ^ 31)
    (hcreated : numThreads ≠ 0) : 0 < workerCount cpu numThreads ∧
      workerCount cpu numThreads < 2 ^ 31 := by
  rw [workerCount]
  split
  · exact hcores
  · next hauto =>
    have hlt := numThreads.toInt_lt
    have hne : numThreads.toInt ≠ 0 := fun hzero => hcreated (Int32.toInt_inj.mp hzero)
    rw [le_autoThreadCount] at hauto
    omega

omit [DecidableEq τ] in
theorem startup_fresh (cpu : CpuInfo) (ids : ℕ → τ) (numThreads numMainThreads : Int32) :
    Fresh (startup ({} : Scheduler τ) (.ok cpu) ids numThreads numMainThreads).1 ids
      (workerCount cpu numThreads) numMainThreads.toInt := by
  have hcount := startup_numWorkers cpu ids numThreads numMainThreads
  have hworkers := startup_workers ids ({} : Scheduler τ) (.ok cpu) numThreads numMainThreads
  have hlength : (startup ({} : Scheduler τ) (.ok cpu) ids numThreads numMainThreads).1.workers.length =
      ((startup ({} : Scheduler τ) (.ok cpu) ids numThreads numMainThreads).1.numWorkers +
        numMainThreads.toUInt32 + 1).toNat := by
    rw [hworkers, startLoop_length, List.length_replicate]
  have hsign := toNat_toUInt32 numMainThreads
  constructor
  case numWorkers_eq => exact hcount
  case numMainThreads_eq =>
    have hlt := numMainThreads.toInt_lt
    rw [startup_numMainThreads]
    by_cases hge : 0 ≤ numMainThreads.toInt
    · rw [if_pos (gt_autoThreadCount.mpr hge), max_eq_right hge]
      omega
    · rw [if_neg (mt gt_autoThreadCount.mp hge)]
      exact (max_eq_left (not_le.mp hge).le).symm
  case nextMain_eq => rfl
  case mainThreadMap_eq => exact startup_mainThreadMap ..
  case length_eq =>
    rw [hlength, UInt32.toNat_add, UInt32.toNat_add, UInt32.toNat_one, hcount]
    omega
  case started =>
    intro w
    rw [hlength, hworkers, startLoop_getD]

end Startup

/-- Every deque has one owner in a first session exactly if the number of main threads is
not negative, or is so far below zero that the sum wraps to more workers again, and no
registration takes the index zero. -/
theorem oneOwner_iff (cpu : CpuInfo)
    (hcores : 0 < cpu.physicalCores.toNat ∧ cpu.physicalCores.toNat < 2 ^ 31)
    (numThreads numMainThreads : Int32) (hcreated : numThreads ≠ 0) (ids : ℕ → τ) (main : τ)
    (hids : ∀ v w, v < workerCount cpu numThreads → w < workerCount cpu numThreads →
      ids v = ids w → v = w)
    (hmain : ∀ w, w < workerCount cpu numThreads → ids w ≠ main) (callers : List τ) :
    let s := (startup ({} : Scheduler τ) (.ok cpu) ids numThreads numMainThreads).1
    OneOwner (registrations.after s callers) main ↔
      (0 ≤ numMainThreads.toInt ∨ numMainThreads.toInt < -1 - (workerCount cpu numThreads : ℤ)) ∧
        ∀ pre t, pre ++ [t] <+: callers → ¬ TakesZero (registrations.after s pre) t := by
  intro s
  have hfresh : Fresh s ids _ _ := startup_fresh cpu ids numThreads numMainThreads
  obtain ⟨hpos, hlt⟩ := workerCount_bounds hcores hcreated
  have hframe := frame_after s callers
  have hge := numMainThreads.le_toInt
  have hlt' := numMainThreads.toInt_lt
  have hlength := hfresh.length_eq
  have hnum := hfresh.numMainThreads_eq
  have hcount := hfresh.numWorkers_eq
  have hregistered : Registered s :=
    registered_start hfresh.mainThreadMap_eq hfresh.nextMain_eq (by omega)
  have hstarted : (registrations.after s callers).Started ids := by
    rw [Started, hframe.workers_eq, hframe.numWorkers_eq]
    exact hfresh.started
  rw [← hcount, ← hframe.numWorkers_eq] at hids hmain
  constructor
  · intro howner
    refine ⟨?_, ?_⟩
    · by_contra hneg
      have hzero : s.numMainThreads = 0 := UInt32.toNat_inj.mp (by rw [UInt32.toNat_zero]; omega)
      have hroom := howner.numWorkers_lt hstarted hids hmain
        (by rw [hframe.numWorkers_eq]; omega) (hframe.numMainThreads_eq.trans hzero)
      rw [hframe.workers_eq, hframe.numWorkers_eq] at hroom
      omega
    · apply (clear_or_over hregistered (by omega) callers).resolve_right
      rw [← hframe.numMainThreads_eq]
      exact not_lt.mpr howner.limit
  · rintro ⟨hsign, hclear⟩
    apply (registered_after hregistered hclear).oneOwner hstarted hids
    rw [hframe.workers_eq, hframe.numWorkers_eq, hframe.numMainThreads_eq]
    omega

/-- Two workers and one main thread, which registers. -/
theorem oneOwner_iff_registered :
    let s := (startup ({} : Scheduler ℕ) (.ok ⟨4, 8⟩) (· + 1) 2 1).1
    OneOwner (registrations.after s [10]) 0 ↔
      (0 ≤ (1 : Int32).toInt ∨ (1 : Int32).toInt < -1 - (workerCount ⟨4, 8⟩ 2 : ℤ)) ∧
        ∀ pre t, pre ++ [t] <+: [10] → ¬ TakesZero (registrations.after s pre) t :=
  oneOwner_iff ⟨4, 8⟩ (by decide) 2 1 (by decide) (· + 1) 0 (fun v w _ _ h => Nat.succ.inj h)
    (fun w _ => Nat.succ_ne_zero w) [10]

/-- With the default arguments on four cores there are four workers, all of which run a
thread, and the main thread finds the last of them. -/
theorem default_arguments_not_oneOwner :
    let s := (startup ({} : Scheduler ℕ) (.ok ⟨4, 8⟩) (· + 1) (-1) (-1)).1
    s.workers = [some 1, some 2, some 3, some 4] ∧ s.findLocalWorker 4 = 3 ∧
      s.findLocalWorker 0 = 3 ∧ ¬ OneOwner (registrations.after s []) 0 := by
  intro s
  refine ⟨by decide, by decide, by decide, fun h => ?_⟩
  exact absurd (h.distinct 4 0 (Or.inl (by decide)) (Or.inr (Or.inr rfl)) (by decide)) (by decide)

end Jobrocket.Scheduler
