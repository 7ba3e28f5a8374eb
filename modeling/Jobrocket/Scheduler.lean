import Jobrocket.Detail.Error
import Mathlib.Tactic

/-! # The scheduler's threads

`startup` makes the workers and starts a thread on each but the last ones, which are for
main threads. A main thread that registers gets the next of these, and the very last one
is for the thread that did not register. A worker is named by its index in `workers_`.
-/
namespace Jobrocket

/-- What `cpui_get_info` fills in. -/
structure CpuInfo where
  physicalCores : UInt32 := 0
  logicalCores : UInt32 := 0

/-- The scheduler's members. Of a worker only the thread it runs matters here. -/
structure Scheduler (τ : Type*) where
  numWorkers : UInt32 := 0
  numMainThreads : UInt32 := 0
  numCores : UInt32 := 0
  numHwThreads : UInt32 := 0
  nextMain : UInt32 := 0
  workers : List (Option τ) := []
  mainThreadMap : List (τ × ℕ) := []

namespace Scheduler

def autoThreadCount : Int32 := -1

theorem le_autoThreadCount {n : Int32} : n ≤ autoThreadCount ↔ n.toInt < 0 := by
  have hauto : autoThreadCount.toInt = -1 := by decide
  rw [Int32.le_iff_toInt_le, hauto]
  omega

theorem gt_autoThreadCount {n : Int32} : n > autoThreadCount ↔ 0 ≤ n.toInt := by
  rw [gt_iff_lt, ← Int32.not_le, le_autoThreadCount, not_lt]

def noCpuInfo (e : String) : Error :=
  ⟨"Scheduler", "Could not retrieve information about the current platforms CPU hardware", some e⟩

def alreadyRegistered : Error :=
  ⟨"Scheduler", "Attempted to register a new main thread that had already been registered", none⟩

def tooManyMainThreads : Error :=
  ⟨"Scheduler", "Attempted to add more main threads than were specified at startup",
    some "Try registering all main threads at application start rather than ad-hoc"⟩

variable {τ : Type*}

/-- The count, the scheduler that has stored it, and what was printed. -/
def autoWorkerCountValue (s : Scheduler τ) (info : Except String CpuInfo) :
    UInt32 × Scheduler τ × List Error :=
  if s.numCores = 0 ∨ s.numHwThreads = 0 then
    let (result, errors) : CpuInfo × List Error := match info with
      | .ok result => (result, [])
      | .error e => ({}, [noCpuInfo e])
    let s := if s.numCores = 0 then { s with numCores := result.physicalCores } else s
    let s := if s.numHwThreads = 0 then { s with numHwThreads := result.logicalCores } else s
    (s.numCores, s, errors)
  else (s.numCores, s, [])

/-- Starts `n` workers; `ids` are the ids of their new threads. A start behind the end of
`workers_` is lost here; in the source it is undefined. -/
def startLoop (ids : ℕ → τ) (n : ℕ) (workers : List (Option τ)) : List (Option τ) :=
  (List.range n).foldl (fun workers i => workers.set i (some (ids i))) workers

def startup (s : Scheduler τ) (info : Except String CpuInfo) (ids : ℕ → τ)
    (numThreads numMainThreads : Int32) : Scheduler τ × List Error :=
  let (s, errors) :=
    if numThreads ≤ autoThreadCount then
      let (count, s, errors) := s.autoWorkerCountValue info
      ({ s with numWorkers := count }, errors)
    else ({ s with numWorkers := numThreads.toUInt32 }, [])
  let s :=
    if numMainThreads > autoThreadCount then { s with numMainThreads := numMainThreads.toUInt32 }
    else s
  -- the sum is one of unsigned words, whatever the sign of the argument
  let size := s.numWorkers + numMainThreads.toUInt32 + 1
  let workers := startLoop ids s.numWorkers.toNat (List.replicate size.toNat none)
  ({ s with workers := workers, nextMain := s.numWorkers }, errors)

def shutdown (s : Scheduler τ) : Scheduler τ := { s with workers := s.workers.map fun _ => none }

variable [DecidableEq τ]

/-- `main_thread_map_.find` -/
def find (s : Scheduler τ) (t : τ) : Option ℕ := s.mainThreadMap.lookup t

/-- The index the calling thread got, or the error that was printed. -/
def registerMainThread (s : Scheduler τ) (t : τ) : Except Error ℕ × Scheduler τ :=
  match s.find t with
  | some _ => (.error alreadyRegistered, s)
  | none =>
    let index := s.nextMain
    let s := { s with nextMain := index + 1 }
    if index ≥ s.numWorkers + s.numMainThreads then (.error tooManyMainThreads, s)
    else (.ok index.toNat, { s with mainThreadMap := (t, index.toNat) :: s.mainThreadMap })

/-- The worker of the calling thread: the one that runs it, the one it registered for, or
the last. -/
def findLocalWorker (s : Scheduler τ) (t : τ) : ℕ :=
  match (List.range s.numWorkers.toNat).find? fun w => s.workers.getD w none = some t with
  | some w => w
  | none => (s.find t).getD (s.workers.length - 1)

section Register
variable {s : Scheduler τ} {t u : τ} {i : ℕ}

theorem registerMainThread_found (h : s.find t = some i) :
    s.registerMainThread t = (.error alreadyRegistered, s) := by
  simp only [registerMainThread, h]

theorem registerMainThread_refused (h : s.find t = none)
    (hlimit : s.numWorkers + s.numMainThreads ≤ s.nextMain) :
    s.registerMainThread t =
      (.error tooManyMainThreads, { s with nextMain := s.nextMain + 1 }) := by
  simp only [registerMainThread, h, ge_iff_le, if_pos hlimit]

theorem registerMainThread_ok (h : s.find t = none)
    (hlimit : s.nextMain < s.numWorkers + s.numMainThreads) :
    s.registerMainThread t = (.ok s.nextMain.toNat,
      { s with nextMain := s.nextMain + 1,
               mainThreadMap := (t, s.nextMain.toNat) :: s.mainThreadMap }) := by
  simp only [registerMainThread, h, ge_iff_le, if_neg (UInt32.not_le.mpr hlimit)]

theorem find_cons (u t : τ) (i : ℕ) (map : List (τ × ℕ)) :
    List.lookup u ((t, i) :: map) = Function.update (fun u => List.lookup u map) t (some i) u := by
  by_cases h : u = t
  · subst h
    simp
  · rw [Function.update_of_ne h, List.lookup_cons, beq_eq_false_iff_ne.mpr h]

end Register

section Start
variable (ids : ℕ → τ)

omit [DecidableEq τ] in
theorem startLoop_length (n : ℕ) (workers : List (Option τ)) :
    (startLoop ids n workers).length = workers.length := by
  induction n with
  | zero => rfl
  | succ n ih =>
    rw [startLoop, List.range_succ, List.foldl_append]
    exact List.length_set.trans ih

omit [DecidableEq τ] in
theorem startLoop_getD (n size w : ℕ) :
    (startLoop ids n (List.replicate size none)).getD w none =
      if w < n ∧ w < size then some (ids w) else none := by
  induction n with
  | zero => simp [startLoop, List.getD_eq_getElem?_getD, List.getElem?_replicate]; split <;> rfl
  | succ n ih =>
    have hlen := startLoop_length ids n (List.replicate size none)
    rw [List.length_replicate] at hlen
    rw [startLoop, List.range_succ, List.foldl_append]
    change ((startLoop ids n (List.replicate size none)).set n (some (ids n))).getD w none = _
    rw [List.getD_eq_getElem?_getD, List.getElem?_set, hlen]
    rw [List.getD_eq_getElem?_getD] at ih
    by_cases hw : n = w
    · subst hw
      split_ifs <;> simp_all
    · have hiff : w < n + 1 ↔ w < n := by omega
      rw [if_neg hw, ih]
      simp only [hiff]

variable (s : Scheduler τ) (info : Except String CpuInfo) (numThreads numMainThreads : Int32)

omit [DecidableEq τ] in
theorem startup_workers : (s.startup info ids numThreads numMainThreads).1.workers =
    startLoop ids (s.startup info ids numThreads numMainThreads).1.numWorkers.toNat
      (List.replicate ((s.startup info ids numThreads numMainThreads).1.numWorkers +
        numMainThreads.toUInt32 + 1).toNat none) := rfl

omit [DecidableEq τ] in
theorem startup_mainThreadMap :
    (s.startup info ids numThreads numMainThreads).1.mainThreadMap = s.mainThreadMap := by
  simp only [startup, autoWorkerCountValue]
  split_ifs <;> rfl

omit [DecidableEq τ] in
theorem startup_numMainThreads : (s.startup info ids numThreads numMainThreads).1.numMainThreads =
    if numMainThreads > autoThreadCount then numMainThreads.toUInt32 else s.numMainThreads := by
  simp only [startup, autoWorkerCountValue]
  split_ifs <;> rfl

omit [DecidableEq τ] in
theorem startup_numWorkers_given (h : ¬ numThreads ≤ autoThreadCount) :
    (s.startup info ids numThreads numMainThreads).1.numWorkers = numThreads.toUInt32 := by
  simp only [startup, if_neg h]
  split_ifs <;> rfl

omit [DecidableEq τ] in
theorem startup_numWorkers_auto (cpu : CpuInfo) (h : numThreads ≤ autoThreadCount) :
    (startup ({} : Scheduler τ) (.ok cpu) ids numThreads numMainThreads).1.numWorkers =
      cpu.physicalCores := by
  simp only [startup, if_pos h, autoWorkerCountValue]
  split_ifs <;> first | rfl | contradiction

end Start

end Scheduler

end Jobrocket
