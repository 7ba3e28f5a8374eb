import Jobrocket.SchedulerRegistration
import Jobrocket.Library.Interleaving

/-! # The main-thread map from session to session

`startup` sets the counts and the counter anew and leaves the map as it is. The map is
valid in every run in which no session begins with threads of an earlier one in it, and
no registration takes the index zero.
-/
namespace Jobrocket.Scheduler
open Library

/-- A call on the scheduler; `ids` are the ids of the threads that a startup creates. -/
inductive Call (τ : Type*) where
  | startup (numThreads numMainThreads : Int32) (ids : ℕ → τ)
  | shutdown
  | register (t : τ)

inductive Event (τ : Type*) where
  | started
  | stopped
  | registered (t : τ) (index : ℕ)
  | refused (t : τ) (error : Error)
  deriving DecidableEq

variable {τ : Type*} [DecidableEq τ]

/-- One call. A startup while workers run would end the program, because it assigns to
their threads, so it follows a shutdown. -/
def step (info : Except String CpuInfo) : Stepper (Scheduler τ) (Call τ) (Event τ)
  | s, .startup numThreads numMainThreads ids =>
    if s.workers.any Option.isSome then none
    else some ((s.startup info ids numThreads numMainThreads).1, [.started])
  | s, .shutdown => some (s.shutdown, [.stopped])
  | s, .register t =>
    let (result, s) := s.registerMainThread t
    some (s, [match result with
      | .ok index => .registered t index
      | .error e => .refused t e])

def recordThread (threads : List τ) : Event τ → List τ
  | .started => []
  | .registered t _ => t :: threads
  | _ => threads

/-- The threads registered since the last startup. -/
def sessionThreads (es : List (Event τ)) : List τ := es.foldl recordThread []

/-- Different threads have different indices, all of them of the session's main threads. -/
structure MapValid (s : Scheduler τ) : Prop where
  injective : ∀ t u i, s.find t = some i → s.find u = some i → t = u
  in_range : ∀ t i, s.find t = some i →
    s.numWorkers.toNat ≤ i ∧ i < s.numWorkers.toNat + s.numMainThreads.toNat

/-- The condition on a call: a session begins with an empty map, and a registration does
not take the index zero. -/
def Clear (s : Scheduler τ) : Call τ → Prop
  | .startup _ _ _ => s.mainThreadMap = []
  | .shutdown => True
  | .register t => ¬ TakesZero s t

section Inv
variable {s s' : Scheduler τ} {es fs : List (Event τ)} {t : τ}

omit [DecidableEq τ] in
theorem sessionThreads_concat (es : List (Event τ)) (e : Event τ) :
    sessionThreads (es ++ [e]) = recordThread (sessionThreads es) e := List.foldl_append

/-- The map holds the threads that were registered in this session. -/
structure Inv (s : Scheduler τ) (es : List (Event τ)) : Prop where
  registered : Registered s
  threads : sessionThreads es = s.mainThreadMap.map Prod.fst

theorem inv_start : Inv ({} : Scheduler τ) [] :=
  ⟨registered_start rfl rfl (Nat.two_pow_pos 32), rfl⟩

theorem Inv.mapValid (h : Inv s es) : MapValid s where
  injective := h.registered.dispensed.inj
  in_range t i hi := by
    obtain ⟨hlo, hhi⟩ := h.registered.dispensed.range t i hi
    exact ⟨hlo, hhi.trans_le (Nat.add_le_add_left h.registered.length_le _)⟩

theorem find_none_of_not_mem (h : t ∉ s.mainThreadMap.map Prod.fst) : s.find t = none := by
  rw [find, List.lookup_eq_none_iff]
  intro p hp
  have hne : t ≠ p.1 := fun heq => h (by rw [heq]; exact List.mem_map_of_mem hp)
  simpa using hne

theorem Inv.admits (h : Inv s es) (ht : t ∉ sessionThreads es)
    (hroom : (sessionThreads es).length < s.numMainThreads.toNat) :
    ((s.registerMainThread t).2.find t).isSome := by
  rw [h.threads] at ht hroom
  rw [List.length_map] at hroom
  have hfind := find_none_of_not_mem ht
  have hnext := h.registered.next_eq hroom
  have hlt : s.nextMain < s.numWorkers + s.numMainThreads := by
    rw [UInt32.lt_iff_toNat_lt, limit_toNat h.registered.fits, hnext]
    omega
  rw [registerMainThread_ok hfind hlt, find, find_cons, Function.update_self]
  rfl

theorem registered_startup (s : Scheduler τ) (info : Except String CpuInfo) (ids : ℕ → τ)
    {numThreads numMainThreads : Int32} (hthreads : 0 < numThreads.toInt)
    (hmain : 0 ≤ numMainThreads.toInt) (hmap : s.mainThreadMap = []) :
    Registered (s.startup info ids numThreads numMainThreads).1 := by
  have hgiven := startup_numWorkers_given ids s info numThreads numMainThreads
    (by rw [le_autoThreadCount]; omega)
  have hnum := startup_numMainThreads ids s info numThreads numMainThreads
  rw [if_pos (gt_autoThreadCount.mpr hmain)] at hnum
  apply registered_start ((startup_mainThreadMap ..).trans hmap) rfl
  have hw := toNat_toUInt32 numThreads
  have hm := toNat_toUInt32 numMainThreads
  have hw' := numThreads.toInt_lt
  have hm' := numMainThreads.toInt_lt
  rw [hgiven, hnum]
  omega

theorem Inv.step (h : Inv s es) {info : Except String CpuInfo} {call : Call τ}
    (hargs : ∀ numThreads numMainThreads ids, call = .startup numThreads numMainThreads ids →
      0 < numThreads.toInt ∧ 0 ≤ numMainThreads.toInt)
    (hclear : Clear s call) (hstep : Scheduler.step info s call = some (s', fs)) :
    Inv s' (es ++ fs) := by
  cases call with
  | startup numThreads numMainThreads ids =>
    obtain ⟨hthreads, hmain⟩ := hargs _ _ _ rfl
    simp only [Scheduler.step] at hstep
    split at hstep
    · cases hstep
    · cases hstep
      refine ⟨registered_startup s info ids hthreads hmain hclear, ?_⟩
      rw [startup_mainThreadMap, hclear, sessionThreads_concat]
      rfl
  | shutdown =>
    cases hstep
    refine ⟨⟨h.registered.fits, h.registered.dispensed, h.registered.length_le,
      h.registered.next_eq, h.registered.next_full⟩, ?_⟩
    rw [sessionThreads_concat]
    exact h.threads
  | register t =>
    have hregistered := h.registered.register hclear
    simp only [Scheduler.step] at hstep
    cases hfind : s.find t with
    | some i =>
      rw [registerMainThread_found hfind] at hregistered hstep
      cases hstep
      exact ⟨hregistered, by rw [sessionThreads_concat]; exact h.threads⟩
    | none =>
      by_cases hlt : s.nextMain < s.numWorkers + s.numMainThreads
      · rw [registerMainThread_ok hfind hlt] at hregistered hstep
        cases hstep
        exact ⟨hregistered, by rw [sessionThreads_concat]; exact congrArg (t :: ·) h.threads⟩
      · rw [registerMainThread_refused hfind (UInt32.not_lt.mp hlt)] at hregistered hstep
        cases hstep
        exact ⟨hregistered, by rw [sessionThreads_concat]; exact h.threads⟩

end Inv

/-- Over every history of sessions that meets the condition, the map is valid at every
point, and a thread that asks for a place while there is one gets it. -/
theorem mapValid_of_exec (info : Except String CpuInfo) (calls : List (Call τ))
    (hargs : ∀ numThreads numMainThreads ids, .startup numThreads numMainThreads ids ∈ calls →
      0 < numThreads.toInt ∧ 0 ≤ numMainThreads.toInt)
    (hclear : ∀ pre call, pre ++ [call] <+: calls → ∀ s es,
      (step info).exec {} pre = some (s, es) → Clear s call)
    (s : Scheduler τ) (es : List (Event τ)) (h : (step info).exec {} calls = some (s, es)) :
    MapValid s ∧ ∀ t, t ∉ sessionThreads es →
      (sessionThreads es).length < s.numMainThreads.toNat →
        ((s.registerMainThread t).2.find t).isSome := by
  have hinv : Inv s es := by
    refine Stepper.exec_induction (I := fun _ s es => Inv s es) inv_start ?_ List.prefix_rfl h
    intro pre call s es s' fs hcall hexec hI hstep
    have hmem := hcall.subset (List.mem_append_right _ (List.mem_singleton_self call))
    exact hI.step (fun _ _ _ heq => hargs _ _ _ (heq ▸ hmem)) (hclear pre call hcall s es hexec)
      hstep
  exact ⟨hinv.mapValid, fun t => hinv.admits⟩

/-- A session without registrations, and one in which a thread registers. -/
theorem mapValid_of_exec_second :
    let calls := [.startup 1 1 (· + 1), .shutdown, .startup 2 1 (· + 1), .register 10]
    ∃ s es, (step (.ok ⟨4, 8⟩)).exec ({} : Scheduler ℕ) calls = some (s, es) ∧ MapValid s ∧
      ∀ t, t ∉ sessionThreads es → (sessionThreads es).length < s.numMainThreads.toNat →
        ((s.registerMainThread t).2.find t).isSome := by
  intro calls
  refine ⟨_, _, rfl, mapValid_of_exec (.ok ⟨4, 8⟩) calls ?_ ?_ _ _ rfl⟩
  · intro numThreads numMainThreads ids hmem
    simp only [calls, List.mem_cons, Call.startup.injEq, reduceCtorEq, List.not_mem_nil, or_false,
      false_or] at hmem
    rcases hmem with ⟨rfl, rfl, -⟩ | ⟨rfl, rfl, -⟩ <;> decide
  · intro pre call hpre s es h
    obtain ⟨n, hn, rfl, rfl⟩ := concat_prefix_iff.mp hpre
    have hn : n < 4 := hn
    interval_cases n <;> cases h
    · rfl
    · trivial
    · rfl
    · exact fun hz => absurd hz.2.1 (by decide)

/-- A thread registered in the first session still has the index one in the second, where
it is the one of a worker that runs a thread. -/
theorem stale_entry_not_mapValid :
    ∃ s es, (step (.ok ⟨4, 8⟩)).exec ({} : Scheduler ℕ) [.startup 1 1 (· + 1), .register 10,
        .shutdown, .startup 3 0 (· + 1)] = some (s, es) ∧
      s.find 10 = some 1 ∧ s.workers = [some 1, some 2, some 3, none] ∧ ¬ MapValid s := by
  refine ⟨_, _, rfl, rfl, rfl, fun h => ?_⟩
  exact absurd (h.in_range 10 1 rfl).1 (by decide)

end Jobrocket.Scheduler
