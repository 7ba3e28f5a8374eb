import Jobrocket.JobPool
import Jobrocket.Detail.AllocatorLifetimes

/-! # The allocators of one session after another

`startup` builds a new pool and assigns it to the global one. The constructor gives every
allocator its array through a temporary; the assignment takes over the new vector and
destroys the elements of the old one, which delete their arrays. In between the pool's
threads call their allocators as they like.
-/
namespace Jobrocket.PoolLifetimes
open Library FixedPoolAllocator

/-- An element of the vector of the `k`-th pool, or the temporary of the constructor's loop. -/
inductive Place where
  | element (k i : ℕ)
  | temporary
  deriving DecidableEq

/-- `allocators_.resize(num_threads_)` -/
def resizeOps (k : ℕ) : ℕ → List (Op Place)
  | 0 => []
  | n + 1 => resizeOps k n ++ [.default (.element k n)]

/-- The loop of the constructor over `allocators_`, from the `i`-th on. -/
def fillOps (k capacity : ℕ) : ℕ → List ℕ → List (Op Place)
  | _, [] => []
  | i, array :: arrays =>
    .construct .temporary Job.size capacity array :: .moveAssign (.element k i) .temporary ::
      .destroy .temporary :: fillOps k capacity (i + 1) arrays

/-- The elements of a vector are destroyed, from the `i`-th on; the order is left to the
library, and this is that of libstdc++. -/
def destroyOps (k : ℕ) : ℕ → ℕ → List (Op Place)
  | _, 0 => []
  | i, n + 1 => .destroy (.element k i) :: destroyOps k (i + 1) n

/-- A session: the capacity of its pool, the arrays that `new` returned for it, and the calls
on its allocators, each with the index of the element. -/
structure Session where
  capacity : ℕ
  arrays : List ℕ
  calls : List (ℕ × Call) := []

def callOps (k : ℕ) (calls : List (ℕ × Call)) : List (Op Place) :=
  calls.map fun call => .call (.element k call.1) call.2

/-- `job_pool = JobPool(num_threads, pool_capacity)` and the calls, in one session after
another; `n` threads had the `k`-th pool. -/
def sessionOps : ℕ → ℕ → List Session → List (Op Place)
  | _, _, [] => []
  | k, n, s :: sessions =>
    resizeOps (k + 1) s.arrays.length ++ fillOps (k + 1) s.capacity 0 s.arrays ++
      destroyOps k 0 n ++ (callOps (k + 1) s.calls ++ sessionOps (k + 1) s.arrays.length sessions)

/-- Two pools: the elements of the `k`-th and of the next. -/
def elements (k : ℕ) (old new : ℕ → Option FixedPoolAllocator) :
    Place → Option FixedPoolAllocator
  | .element j i => if j = k then old i else if j = k + 1 then new i else none
  | .temporary => none

section Elements
variable {k i : ℕ} {old new : ℕ → Option FixedPoolAllocator} {x : Option FixedPoolAllocator}

@[simp] theorem elements_old : elements k old new (.element k i) = old i := if_pos rfl

@[simp] theorem elements_new : elements k old new (.element (k + 1) i) = new i :=
  (if_neg (Nat.succ_ne_self k)).trans (if_pos rfl)

theorem update_elements_old : Function.update (elements k old new) (.element k i) x =
    elements k (Function.update old i x) new := by
  funext place
  cases place with
  | temporary => rfl
  | element j l =>
    by_cases hj : j = k
    · subst hj
      by_cases hl : l = i
      · subst hl
        rw [Function.update_self, elements_old, Function.update_self]
      · rw [Function.update_of_ne (by simpa using hl), elements_old, elements_old,
          Function.update_of_ne hl]
    · rw [Function.update_of_ne (by simp [hj])]
      simp [elements, hj]

theorem update_elements_new : Function.update (elements k old new) (.element (k + 1) i) x =
    elements k old (Function.update new i x) := by
  funext place
  cases place with
  | temporary => rfl
  | element j l =>
    by_cases hj : j = k + 1
    · subst hj
      by_cases hl : l = i
      · subst hl
        rw [Function.update_self, elements_new, Function.update_self]
      · rw [Function.update_of_ne (by simpa using hl), elements_new, elements_new,
          Function.update_of_ne hl]
    · rw [Function.update_of_ne (by simp [hj])]
      simp [elements, hj]

/-- The next pool is the one pool left. -/
theorem elements_next : elements k (fun _ => none) new = elements (k + 1) new fun _ => none := by
  funext place
  cases place with
  | temporary => rfl
  | element j l =>
    by_cases hj : j = k + 1
    · simp [elements, hj]
    · simp [elements, hj]

end Elements

section Vectors
variable {X : Type*}

theorem update_getElem?_length (xs : List X) (x : X) :
    Function.update (fun j => xs[j]?) xs.length (some x) = fun j => (xs ++ [x])[j]? := by
  funext j
  by_cases hj : j = xs.length
  · subst hj
    simp
  · rw [Function.update_of_ne hj, List.getElem?_append]
    split
    · rfl
    · rw [List.getElem?_eq_none (by omega), List.getElem?_eq_none (by simp; omega)]

theorem update_getElem?_set {xs : List X} {i : ℕ} (h : i < xs.length) (x : X) :
    Function.update (fun j => xs[j]?) i (some x) = fun j => (xs.set i x)[j]? := by
  funext j
  by_cases hj : j = i
  · subst hj
    rw [Function.update_self, List.getElem?_set_self h]
  · rw [Function.update_of_ne hj, List.getElem?_set_ne (Ne.symm hj)]

/-- The elements from the `i`-th on, the others destroyed. -/
def rest (i : ℕ) (xs : List X) (j : ℕ) : Option X := if j < i then none else xs[j - i]?

theorem rest_zero (xs : List X) : rest 0 xs = fun j => xs[j]? := rfl

theorem rest_nil (i : ℕ) : rest i ([] : List X) = fun _ => none := by
  funext j
  simp [rest]

@[simp] theorem rest_self (i : ℕ) (x : X) (xs : List X) : rest i (x :: xs) i = some x := by
  simp [rest]

theorem update_rest (i : ℕ) (x : X) (xs : List X) :
    Function.update (rest i (x :: xs)) i none = rest (i + 1) xs := by
  funext j
  by_cases hj : j = i
  · subst hj
    simp [rest]
  · rw [Function.update_of_ne hj, rest, rest]
    by_cases hlt : j < i
    · rw [if_pos hlt, if_pos (by omega)]
    · rw [if_neg hlt, if_neg (by omega), List.getElem?_cons, if_neg (by omega)]
      congr 1

end Vectors

section Runs
variable {k : ℕ} {old new : ℕ → Option FixedPoolAllocator} {m : Memory}

theorem exec_resize (old : ℕ → Option FixedPoolAllocator) (m : Memory) (n : ℕ) :
    step.exec ⟨elements k old fun _ => none, m⟩ (resizeOps (k + 1) n) =
      some (⟨elements k old fun j => (List.replicate n {})[j]?, m⟩, []) := by
  induction n with
  | zero => rfl
  | succ n ih =>
    refine Stepper.exec_concat.mpr ⟨_, [], [], ih, ?_, rfl⟩
    have hupdate := update_getElem?_length (List.replicate n ({} : FixedPoolAllocator)) {}
    rw [List.length_replicate, ← List.replicate_succ'] at hupdate
    have hnone : (List.replicate n ({} : FixedPoolAllocator))[n]? = none := by simp
    simp only [step, elements_new, hnone, update_elements_new, hupdate]

/-- One turn of the constructor's loop. -/
theorem exec_fill {i : ℕ} {b : FixedPoolAllocator} (old : ℕ → Option FixedPoolAllocator)
    (m : Memory) (capacity array : ℕ) (hb : new i = some b) (hempty : b.array? = none) :
    step.exec ⟨elements k old new, m⟩ [.construct .temporary Job.size capacity array,
      .moveAssign (.element (k + 1) i) .temporary, .destroy .temporary] =
      some (⟨elements k old (Function.update new i
          (some (FixedPoolAllocator.create array Job.size capacity m).1)),
        (FixedPoolAllocator.create array Job.size capacity m).2⟩, [.newed array]) := by
  let made := FixedPoolAllocator.create array Job.size capacity m
  let built := Function.update (elements k old new) .temporary (some made.1)
  have hconstruct : step ⟨elements k old new, m⟩ (.construct .temporary Job.size capacity array) =
      some (⟨built, made.2⟩, [.newed array]) := rfl
  have hne : Place.element (k + 1) i ≠ .temporary := nofun
  have helement : built (.element (k + 1) i) = some b :=
    (Function.update_of_ne hne ..).trans (elements_new.trans hb)
  have hmove : step ⟨built, made.2⟩ (.moveAssign (.element (k + 1) i) .temporary) =
      some (⟨Function.update (Function.update built (.element (k + 1) i) (some made.1)) .temporary
        (some b), made.2⟩, []) := by
    have htemporary : built .temporary = some made.1 := Function.update_self ..
    simp only [step, helement, htemporary, swap_eq]
  have hdestroy : step ⟨Function.update (Function.update built (.element (k + 1) i) (some made.1))
        .temporary (some b), made.2⟩ (.destroy .temporary) =
      some (⟨elements k old (Function.update new i (some made.1)), made.2⟩, []) := by
    have hback : Function.update (Function.update built (.element (k + 1) i) (some made.1))
        .temporary none =
          Function.update (elements k old new) (.element (k + 1) i) (some made.1) := by
      rw [Function.update_comm hne, Function.update_idem]
      exact congrArg (Function.update · _ _) (Function.update_eq_self Place.temporary _)
    simp only [step, Function.update_self, Function.update_idem, hback, update_elements_new, hempty]
    rfl
  rw [Stepper.exec_cons hconstruct, Stepper.exec_cons hmove, Stepper.exec_cons hdestroy]
  rfl

theorem exec_fillOps (old : ℕ → Option FixedPoolAllocator) (m : Memory) (capacity : ℕ)
    (arrays : List ℕ) (built : List FixedPoolAllocator) :
    step.exec ⟨elements k old fun j =>
        (built ++ List.replicate arrays.length ({} : FixedPoolAllocator))[j]?, m⟩
      (fillOps (k + 1) capacity built.length arrays) =
      some (⟨elements k old fun j => (built ++ (JobPool.createAllocators capacity arrays m).1)[j]?,
        (JobPool.createAllocators capacity arrays m).2⟩, arrays.map .newed) := by
  induction arrays generalizing m built with
  | nil => rfl
  | cons array arrays ih =>
    let made := FixedPoolAllocator.create array Job.size capacity m
    have hempty : (built ++ List.replicate (arrays.length + 1) ({} : FixedPoolAllocator))[
        built.length]? = some {} := by simp
    have hturn := exec_fill (k := k) old m capacity array hempty rfl
    rw [update_getElem?_set (by simp), List.replicate_succ, List.set_append_right _ _ le_rfl,
      Nat.sub_self, List.set_cons_zero] at hturn
    have hrest := ih made.2 (built ++ [made.1])
    rw [List.length_append, List.length_singleton, List.append_assoc, List.append_assoc] at hrest
    change step.exec _ ([.construct .temporary Job.size capacity array,
      .moveAssign (.element (k + 1) built.length) .temporary, .destroy .temporary] ++
        fillOps (k + 1) capacity (built.length + 1) arrays) = _
    rw [List.length_cons, List.replicate_succ, Stepper.exec_append, hturn, Option.bind_some]
    exact congrArg (Option.map fun q => (q.1, [.newed array] ++ q.2)) hrest

theorem exec_destroyOps (new : ℕ → Option FixedPoolAllocator) (m : Memory)
    (old : List FixedPoolAllocator) (i : ℕ) :
    step.exec ⟨elements k (rest i old) new, m⟩ (destroyOps k i old.length) =
      some (⟨elements k (fun _ => none) new, m⟩,
        (old.filterMap FixedPoolAllocator.array?).map .deleted) := by
  induction old generalizing i with
  | nil =>
    rw [rest_nil]
    rfl
  | cons a old ih =>
    have hdestroy : step ⟨elements k (rest i (a :: old)) new, m⟩ (.destroy (.element k i)) =
        some (⟨elements k (rest (i + 1) old) new, m⟩, a.array?.toList.map .deleted) := by
      simp only [step, elements_old, rest_self, update_elements_old, update_rest]
    rw [List.length_cons, destroyOps, Stepper.exec_cons hdestroy, ih]
    cases ha : a.array? <;> simp [ha]

/-- No call changes which array an allocator has. -/
theorem array?_machine (a : FixedPoolAllocator) (m : Memory) (c : Call) :
    (machine (a, m) c).2.1.array? = a.array? := by
  cases c with
  | allocate =>
    simp only [machine, FixedPoolAllocator.allocate]
    split <;> rfl
  | free data =>
    simp only [machine, FixedPoolAllocator.free]
    split_ifs <;> rfl
  | reset => rfl
  | write x bytes => rfl

theorem exec_callOps (calls : List (ℕ × Call)) (old : List FixedPoolAllocator) (m : Memory)
    (hcalls : ∀ call ∈ calls, call.1 < old.length) :
    ∃ (old' : List FixedPoolAllocator) (m' : Memory) (es : List (Event Place)),
      step.exec ⟨elements k (fun j => old[j]?) fun _ => none, m⟩ (callOps k calls) =
        some (⟨elements k (fun j => old'[j]?) fun _ => none, m'⟩, es) ∧
      old'.map FixedPoolAllocator.array? = old.map FixedPoolAllocator.array? ∧
      ∀ e ∈ es, ∃ place answer, e = .answered place answer := by
  induction calls generalizing old m with
  | nil => exact ⟨old, m, [], rfl, rfl, nofun⟩
  | cons call calls ih =>
    obtain ⟨i, c⟩ := call
    have hi : i < old.length := hcalls (i, c) List.mem_cons_self
    let called := machine (old[i], m) c
    have hcall : step ⟨elements k (fun j => old[j]?) fun _ => none, m⟩ (.call (.element k i) c) =
        some (⟨elements k (fun j => (old.set i called.2.1)[j]?) fun _ => none, called.2.2⟩,
          [.answered (.element k i) called.1]) := by
      simp only [step, elements_old, List.getElem?_eq_getElem hi, update_elements_old,
        update_getElem?_set hi, called]
    have hsame : (old.set i called.2.1).map FixedPoolAllocator.array? =
        old.map FixedPoolAllocator.array? := by
      have hi' : i < (old.map FixedPoolAllocator.array?).length := by rwa [List.length_map]
      have harray : called.2.1.array? = (old.map FixedPoolAllocator.array?)[i] :=
        (array?_machine _ _ _).trans (List.getElem_map _).symm
      rw [List.map_set, harray, List.set_getElem_self hi']
    obtain ⟨old', m', es, hexec, harrays, hes⟩ :=
      ih (old.set i called.2.1) called.2.2 fun call hc => by
        rw [List.length_set]
        exact hcalls call (List.mem_cons_of_mem _ hc)
    refine ⟨old', m', .answered (.element k i) called.1 :: es, ?_, harrays.trans hsame, ?_⟩
    · rw [callOps, List.map_cons, Stepper.exec_cons hcall]
      exact congrArg (Option.map fun q => (q.1, [.answered (.element k i) called.1] ++ q.2)) hexec
    · intro e he
      rcases List.mem_cons.mp he with rfl | he
      · exact ⟨_, _, rfl⟩
      · exact hes e he

end Runs

theorem createAllocators_length (capacity : ℕ) (arrays : List ℕ) (m : Memory) :
    (JobPool.createAllocators capacity arrays m).1.length = arrays.length := by
  induction arrays generalizing m with
  | nil => rfl
  | cons array arrays ih => exact congrArg (· + 1) (ih _)

theorem createAllocators_arrays (capacity : ℕ) {arrays : List ℕ} (h : nullptr ∉ arrays)
    (m : Memory) :
    (JobPool.createAllocators capacity arrays m).1.filterMap FixedPoolAllocator.array? =
      arrays := by
  induction arrays generalizing m with
  | nil => rfl
  | cons array arrays ih =>
    rw [List.mem_cons, not_or] at h
    have harray : (FixedPoolAllocator.create array Job.size capacity m).1.array? = some array :=
      if_neg (Ne.symm h.1)
    exact (List.filterMap_cons_some harray).trans (congrArg (array :: ·) (ih h.2 _))

/-- The arrays in the order in which they were deleted. -/
def deletedArrays (es : List (Event Place)) : List ℕ :=
  es.filterMap fun | .deleted array => some array | _ => none

def newedArrays (es : List (Event Place)) : List ℕ :=
  es.filterMap fun | .newed array => some array | _ => none

/-- What happens to the arrays when a pool with the arrays `before` makes place for one with
the arrays `after`. -/
def replaced (before after : List ℕ) : List (Event Place) := after.map .newed ++ before.map .deleted

section Sessions
variable {k capacity : ℕ} {arrays : List ℕ}

theorem newedArrays_replaced (before after : List ℕ) (es : List (Event Place)) :
    newedArrays (replaced before after ++ es) = after ++ newedArrays es := by
  simp [newedArrays, replaced, List.filterMap_append, List.filterMap_map]

theorem deletedArrays_replaced (before after : List ℕ) (es : List (Event Place)) :
    deletedArrays (replaced before after ++ es) = before ++ deletedArrays es := by
  simp [deletedArrays, replaced, List.filterMap_append, List.filterMap_map]

/-- A startup builds the next pool and destroys the one that was there. -/
theorem exec_startup (old : List FixedPoolAllocator) (m : Memory) :
    step.exec ⟨elements k (fun j => old[j]?) fun _ => none, m⟩
      (resizeOps (k + 1) arrays.length ++ fillOps (k + 1) capacity 0 arrays ++
        destroyOps k 0 old.length) =
      some (⟨elements (k + 1) (fun j => (JobPool.createAllocators capacity arrays m).1[j]?)
          fun _ => none,
        (JobPool.createAllocators capacity arrays m).2⟩,
        replaced (old.filterMap FixedPoolAllocator.array?) arrays) := by
  have hresize := exec_resize (k := k) (fun j => old[j]?) m arrays.length
  have hfill := exec_fillOps (k := k) (fun j => old[j]?) m capacity arrays []
  have hdestroy := exec_destroyOps (k := k)
    (fun j => (JobPool.createAllocators capacity arrays m).1[j]?)
    (JobPool.createAllocators capacity arrays m).2 old 0
  simp only [List.nil_append, List.length_nil] at hfill
  rw [rest_zero, elements_next] at hdestroy
  rw [Stepper.exec_append, Stepper.exec_append, hresize, Option.bind_some, hfill, Option.map_some,
    Option.bind_some, hdestroy]
  rfl

theorem arrays_answered {es : List (Event Place)}
    (h : ∀ e ∈ es, ∃ place answer, e = .answered place answer) :
    newedArrays es = [] ∧ deletedArrays es = [] := by
  simp only [newedArrays, deletedArrays, List.filterMap_eq_nil_iff]
  constructor
  · intro e he
    obtain ⟨place, answer, rfl⟩ := h e he
    rfl
  · intro e he
    obtain ⟨place, answer, rfl⟩ := h e he
    rfl

theorem exec_sessionOps (capacity : ℕ) (arrays : List ℕ) (sessions : List Session)
    (hnew : ∀ s ∈ sessions, nullptr ∉ s.arrays)
    (hcalls : ∀ s ∈ sessions, ∀ call ∈ s.calls, call.1 < s.arrays.length)
    (old : List FixedPoolAllocator) (m : Memory) :
    ∃ m' es, step.exec ⟨elements k (fun j => old[j]?) fun _ => none, m⟩
        (sessionOps k old.length (sessions ++ [⟨capacity, arrays, []⟩])) =
        some (⟨elements (k + sessions.length + 1)
          (fun j => (JobPool.createAllocators capacity arrays m').1[j]?) fun _ => none,
          (JobPool.createAllocators capacity arrays m').2⟩, es) ∧
      newedArrays es = sessions.flatMap Session.arrays ++ arrays ∧
      deletedArrays es =
        old.filterMap FixedPoolAllocator.array? ++ sessions.flatMap Session.arrays := by
  induction sessions generalizing k old m with
  | nil =>
    refine ⟨m, replaced (old.filterMap FixedPoolAllocator.array?) arrays ++ [], ?_, ?_, ?_⟩
    · change step.exec _ (_ ++ []) = _
      rw [List.append_nil, List.append_nil, exec_startup]
      rfl
    · exact (newedArrays_replaced _ _ []).trans (List.append_nil _)
    · exact deletedArrays_replaced _ _ []
  | cons s sessions ih =>
    let made := JobPool.createAllocators s.capacity s.arrays m
    have hlength : made.1.length = s.arrays.length := createAllocators_length s.capacity s.arrays m
    obtain ⟨used, m₁, es₁, hexec₁, hused, hes₁⟩ := exec_callOps (k := k + 1) s.calls made.1 made.2
      fun call hc => hlength.symm ▸ hcalls s List.mem_cons_self call hc
    have harrays : used.filterMap FixedPoolAllocator.array? = s.arrays := by
      have hsame := congrArg (List.filterMap id) hused
      rw [List.filterMap_map, List.filterMap_map] at hsame
      exact hsame.trans (createAllocators_arrays s.capacity (hnew s List.mem_cons_self) m)
    obtain ⟨m', es, hexec, hnewed, hdeleted⟩ := ih (k := k + 1)
      (fun s hs => hnew s (List.mem_cons_of_mem _ hs))
      (fun s hs => hcalls s (List.mem_cons_of_mem _ hs)) used m₁
    have husedLength : used.length = s.arrays.length := by
      have hsame := congrArg List.length hused
      rw [List.length_map, List.length_map] at hsame
      exact hsame.trans hlength
    rw [husedLength] at hexec
    refine ⟨m', replaced (old.filterMap FixedPoolAllocator.array?) s.arrays ++ (es₁ ++ es),
      ?_, ?_, ?_⟩
    · have hnumber : k + (sessions.length + 1) + 1 = k + 1 + sessions.length + 1 := by omega
      rw [List.cons_append, sessionOps, Stepper.exec_append, exec_startup, Option.bind_some,
        Stepper.exec_append, hexec₁, Option.bind_some, hexec, List.length_cons, hnumber]
      rfl
    · rw [newedArrays_replaced, newedArrays, List.filterMap_append]
      change s.arrays ++ (newedArrays es₁ ++ newedArrays es) = _
      rw [(arrays_answered hes₁).1, hnewed, List.nil_append, List.flatMap_cons, List.append_assoc]
    · rw [deletedArrays_replaced, deletedArrays, List.filterMap_append]
      change _ ++ (deletedArrays es₁ ++ deletedArrays es) = _
      rw [(arrays_answered hes₁).2, hdeleted, harrays, List.nil_append, List.flatMap_cons]

end Sessions

/-- Whatever the calls of earlier sessions were, the elements of the last pool are the
allocators that are left, as new, and the arrays of the pools before it are deleted, each
once and in order. -/
theorem sessions_replace (self capacity : ℕ) (arrays : List ℕ) (sessions : List Session)
    (hnew : ∀ s ∈ sessions, nullptr ∉ s.arrays)
    (hcalls : ∀ s ∈ sessions, ∀ call ∈ s.calls, call.1 < s.arrays.length) (m₀ : Memory) :
    ∃ m es, step.exec ⟨fun _ => none, m₀⟩
        (sessionOps 0 0 (sessions ++ [⟨capacity, arrays, []⟩])) =
        some (⟨elements (sessions.length + 1)
          (fun i => (JobPool.create self capacity arrays m).1.allocators[i]?) fun _ => none,
          (JobPool.create self capacity arrays m).2⟩, es) ∧
      newedArrays es = sessions.flatMap Session.arrays ++ arrays ∧
      deletedArrays es = sessions.flatMap Session.arrays := by
  have hstart : (fun _ => none : Place → Option FixedPoolAllocator) =
      elements 0 (fun j => ([] : List FixedPoolAllocator)[j]?) fun _ => none := by
    funext place
    cases place with
    | temporary => rfl
    | element k i => simp [elements]
  rw [hstart]
  obtain ⟨m, es, hexec, hnewed, hdeleted⟩ :=
    exec_sessionOps (k := 0) capacity arrays sessions hnew hcalls [] m₀
  rw [Nat.zero_add] at hexec
  exact ⟨m, es, hexec, hnewed, hdeleted⟩

/-- A session with two threads that allocate, and then one with one. -/
theorem sessions_replace_two :
    ∃ m es, step.exec ⟨fun _ => none, fun _ => 0⟩
        (sessionOps 0 0 ([⟨4, [1024, 2048], [(0, .allocate), (1, .allocate), (0, .free 1024)]⟩] ++
          [⟨4, [4096], []⟩])) =
        some (⟨elements 2 (fun i => (JobPool.create 16 4 [4096] m).1.allocators[i]?) fun _ => none,
          (JobPool.create 16 4 [4096] m).2⟩, es) ∧
      newedArrays es = [1024, 2048, 4096] ∧ deletedArrays es = [1024, 2048] :=
  sessions_replace 16 4 [4096]
    [⟨4, [1024, 2048], [(0, .allocate), (1, .allocate), (0, .free 1024)]⟩] (by decide) (by decide)
    fun _ => 0

end Jobrocket.PoolLifetimes
