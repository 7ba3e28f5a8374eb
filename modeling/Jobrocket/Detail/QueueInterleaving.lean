import Jobrocket.Detail.FixedWorkStealingQueue
import Jobrocket.Library.Interleaving

/-! # The queue's calls, one shared access at a time

The owner pushes and pops, any number of thieves steal. Between two accesses of one
call every other thread may make accesses of its own; each access to `top_`,
`bottom_` or a ring slot is one step, and all threads see the steps in one order. A
program counter holds the locals of a call that is still in progress.
-/
namespace Jobrocket.QueueInterleaving
open Library FixedWorkStealingQueue

/-- The next access of the owner's call. -/
inductive OwnerPC (J : Type*) where
  | idle
  | pushLoadBottom (job : J)
  | pushLoadTop (job : J) (b : UInt64)
  | pushWrite (job : J) (b : UInt64)
  | pushStore (job : J) (b : UInt64)
  | popDecrement
  | popLoadTop (b : UInt64)
  | popRead (b t : UInt64)
  | popExchange (t : UInt64) (target : J)
  | popStore (t : UInt64) (result : Option J)
  deriving DecidableEq

/-- The next access of a thief's call. -/
inductive ThiefPC (J : Type*) where
  | idle
  | loadTop
  | loadBottom (t : UInt64)
  | read (t : UInt64)
  | exchange (t : UInt64) (target : J)
  deriving DecidableEq

inductive Agent (τ : Type*) where
  | owner
  | thief (i : τ)
  deriving DecidableEq

/-- What the outside sees: a push takes effect, a pop or a steal wins a job, and a pop
or a steal returns. A job is won by the exchange on `top_`, or by the slot read of a
pop that needs no exchange. -/
inductive Event (J τ : Type*) where
  | pushed (job : J)
  | delivered (agent : Agent τ) (job : J)
  | returned (agent : Agent τ) (result : Option J)
  deriving DecidableEq

/-- The owner begins a call, the owner goes on, a thief begins a steal, a thief goes on. -/
inductive Label (J τ : Type*) where
  | push (job : J)
  | pop
  | owner
  | steal (i : τ)
  | thief (i : τ)
  deriving DecidableEq

structure Config (J τ : Type*) where
  queue : FixedWorkStealingQueue J
  owner : OwnerPC J
  thieves : τ → ThiefPC J

variable {J τ : Type*} [Inhabited J]

def quiescent (q : FixedWorkStealingQueue J) : Config J τ := ⟨q, .idle, fun _ => .idle⟩

def ownerStep (q : FixedWorkStealingQueue J) :
    OwnerPC J → Option (FixedWorkStealingQueue J × OwnerPC J × List (Event J τ))
  | .idle => none
  | .pushLoadBottom job => some (q, .pushLoadTop job q.bottom, [])
  -- the loaded `top_` is not used
  | .pushLoadTop job b => some (q, .pushWrite job b, [])
  | .pushWrite job b => some (q.write b job, .pushStore job b, [])
  | .pushStore job b => some ({ q with bottom := b + 1 }, .idle, [.pushed job])
  | .popDecrement =>
    let b := q.bottom - 1
    some ({ q with bottom := b }, .popLoadTop b, [])
  | .popLoadTop b =>
    let t := q.top
    some (q, if t ≤ b then .popRead b t else .popStore t none, [])
  | .popRead b t =>
    let target := q.slot b.toNat
    if t = b then some (q, .popExchange t target, [])
    else some (q, .idle, [.delivered .owner target, .returned .owner (some target)])
  | .popExchange t target =>
    let (won, t, top) := compareExchangeStrong q.top t (t + 1)
    some ({ q with top := top }, .popStore t (if won then some target else none),
      if won then [.delivered .owner target] else [])
  | .popStore t result => some ({ q with bottom := t + 1 }, .idle, [.returned .owner result])

def thiefStep (i : τ) (q : FixedWorkStealingQueue J) :
    ThiefPC J → Option (FixedWorkStealingQueue J × ThiefPC J × List (Event J τ))
  | .idle => none
  | .loadTop => some (q, .loadBottom q.top, [])
  | .loadBottom t =>
    let b := q.bottom
    if t < b then some (q, .read t, []) else some (q, .idle, [.returned (.thief i) none])
  | .read t => some (q, .exchange t (q.slot t.toNat), [])
  | .exchange t target =>
    let (won, _, top) := compareExchangeStrong q.top t (t + 1)
    some ({ q with top := top }, .idle,
      if won then [.delivered (.thief i) target, .returned (.thief i) (some target)]
      else [.returned (.thief i) none])

variable [DecidableEq τ]

/-- One step of the owner or of a thief. A call begins only where none is in progress. -/
def step : Stepper (Config J τ) (Label J τ) (Event J τ)
  | c, .push job =>
    match c.owner with
    | .idle => some ({ c with owner := .pushLoadBottom job }, [])
    | _ => none
  | c, .pop =>
    match c.owner with
    | .idle => some ({ c with owner := .popDecrement }, [])
    | _ => none
  | c, .owner =>
    (ownerStep c.queue c.owner).map fun r => ({ c with queue := r.1, owner := r.2.1 }, r.2.2)
  | c, .steal i =>
    match c.thieves i with
    | .idle => some ({ c with thieves := Function.update c.thieves i .loadTop }, [])
    | _ => none
  | c, .thief i =>
    (thiefStep i c.queue (c.thieves i)).map fun r =>
      ({ c with queue := r.1, thieves := Function.update c.thieves i r.2.1 }, r.2.2)

section Moves

/-- The moves of the owner, one for each outcome of each access. -/
inductive OwnerMove (q : FixedWorkStealingQueue J) :
    OwnerPC J → FixedWorkStealingQueue J → OwnerPC J → List (Event J τ) → Prop
  | pushLoadBottom (job : J) :
    OwnerMove q (.pushLoadBottom job) q (.pushLoadTop job q.bottom) []
  | pushLoadTop (job : J) (b : UInt64) : OwnerMove q (.pushLoadTop job b) q (.pushWrite job b) []
  | pushWrite (job : J) (b : UInt64) :
    OwnerMove q (.pushWrite job b) (q.write b job) (.pushStore job b) []
  | pushStore (job : J) (b : UInt64) :
    OwnerMove q (.pushStore job b) { q with bottom := b + 1 } .idle [.pushed job]
  | popDecrement :
    OwnerMove q .popDecrement { q with bottom := q.bottom - 1 } (.popLoadTop (q.bottom - 1)) []
  | popLoadTop (b : UInt64) (h : q.top ≤ b) : OwnerMove q (.popLoadTop b) q (.popRead b q.top) []
  | popEmpty (b : UInt64) (h : ¬ q.top ≤ b) :
    OwnerMove q (.popLoadTop b) q (.popStore q.top none) []
  | popTake (b t : UInt64) (h : t ≠ b) :
    OwnerMove q (.popRead b t) q .idle
      [.delivered .owner (q.slot b.toNat), .returned .owner (some (q.slot b.toNat))]
  | popReadLast (b : UInt64) :
    OwnerMove q (.popRead b b) q (.popExchange b (q.slot b.toNat)) []
  | popWin (target : J) :
    OwnerMove q (.popExchange q.top target) { q with top := q.top + 1 }
      (.popStore q.top (some target)) [.delivered .owner target]
  | popLose (t : UInt64) (target : J) (h : q.top ≠ t) :
    OwnerMove q (.popExchange t target) q (.popStore q.top none) []
  | popStore (t : UInt64) (result : Option J) :
    OwnerMove q (.popStore t result) { q with bottom := t + 1 } .idle [.returned .owner result]

inductive ThiefMove (i : τ) (q : FixedWorkStealingQueue J) :
    ThiefPC J → FixedWorkStealingQueue J → ThiefPC J → List (Event J τ) → Prop
  | loadTop : ThiefMove i q .loadTop q (.loadBottom q.top) []
  | loadBottom (t : UInt64) (h : t < q.bottom) : ThiefMove i q (.loadBottom t) q (.read t) []
  | empty (t : UInt64) (h : ¬ t < q.bottom) :
    ThiefMove i q (.loadBottom t) q .idle [.returned (.thief i) none]
  | read (t : UInt64) : ThiefMove i q (.read t) q (.exchange t (q.slot t.toNat)) []
  | win (target : J) :
    ThiefMove i q (.exchange q.top target) { q with top := q.top + 1 } .idle
      [.delivered (.thief i) target, .returned (.thief i) (some target)]
  | lose (t : UInt64) (target : J) (h : q.top ≠ t) :
    ThiefMove i q (.exchange t target) q .idle [.returned (.thief i) none]

omit [DecidableEq τ] in
theorem ownerMove_of_step {q q' : FixedWorkStealingQueue J} {pc pc' : OwnerPC J}
    {evs : List (Event J τ)} (h : ownerStep q pc = some (q', pc', evs)) :
    OwnerMove q pc q' pc' evs := by
  cases pc with
  | idle => cases h
  | pushLoadBottom job => cases h; exact .pushLoadBottom job
  | pushLoadTop job b => cases h; exact .pushLoadTop job b
  | pushWrite job b => cases h; exact .pushWrite job b
  | pushStore job b => cases h; exact .pushStore job b
  | popDecrement => cases h; exact .popDecrement
  | popLoadTop b =>
    by_cases hle : q.top ≤ b
    · simp only [ownerStep, if_pos hle] at h
      cases h
      exact .popLoadTop b hle
    · simp only [ownerStep, if_neg hle] at h
      cases h
      exact .popEmpty b hle
  | popRead b t =>
    by_cases heq : t = b
    · subst heq
      simp only [ownerStep, if_true] at h
      cases h
      exact .popReadLast t
    · simp only [ownerStep, if_neg heq] at h
      cases h
      exact .popTake b t heq
  | popExchange t target =>
    by_cases htop : q.top = t
    · subst htop
      simp only [ownerStep, compareExchangeStrong_self, if_true] at h
      cases h
      exact .popWin target
    · simp only [ownerStep, compareExchangeStrong_ne htop, Bool.false_eq_true, if_false] at h
      cases h
      exact .popLose t target htop
  | popStore t result => cases h; exact .popStore t result

omit [DecidableEq τ] in
theorem thiefMove_of_step {i : τ} {q q' : FixedWorkStealingQueue J} {pc pc' : ThiefPC J}
    {evs : List (Event J τ)} (h : thiefStep i q pc = some (q', pc', evs)) :
    ThiefMove i q pc q' pc' evs := by
  cases pc with
  | idle => cases h
  | loadTop => cases h; exact .loadTop
  | loadBottom t =>
    by_cases hlt : t < q.bottom
    · simp only [thiefStep, if_pos hlt] at h
      cases h
      exact .loadBottom t hlt
    · simp only [thiefStep, if_neg hlt] at h
      cases h
      exact .empty t hlt
  | read t => cases h; exact .read t
  | exchange t target =>
    by_cases htop : q.top = t
    · subst htop
      simp only [thiefStep, compareExchangeStrong_self, if_true] at h
      cases h
      exact .win target
    · simp only [thiefStep, compareExchangeStrong_ne htop, Bool.false_eq_true, if_false] at h
      cases h
      exact .lose t target htop

inductive Moved (c : Config J τ) : Label J τ → Config J τ → List (Event J τ) → Prop
  | push (job : J) (h : c.owner = .idle) :
    Moved c (.push job) { c with owner := .pushLoadBottom job } []
  | pop (h : c.owner = .idle) : Moved c .pop { c with owner := .popDecrement } []
  | owner {q : FixedWorkStealingQueue J} {pc : OwnerPC J} {evs : List (Event J τ)}
    (h : OwnerMove c.queue c.owner q pc evs) : Moved c .owner { c with queue := q, owner := pc } evs
  | steal (i : τ) (h : c.thieves i = .idle) :
    Moved c (.steal i) { c with thieves := Function.update c.thieves i .loadTop } []
  | thief (i : τ) {q : FixedWorkStealingQueue J} {pc : ThiefPC J} {evs : List (Event J τ)}
    (h : ThiefMove i c.queue (c.thieves i) q pc evs) :
    Moved c (.thief i) { c with queue := q, thieves := Function.update c.thieves i pc } evs

theorem moved_of_step {c c' : Config J τ} {l : Label J τ} {evs : List (Event J τ)}
    (h : step c l = some (c', evs)) : Moved c l c' evs := by
  cases l with
  | push job =>
    simp only [step] at h
    split at h
    · next hidle => cases h; exact .push job hidle
    · cases h
  | pop =>
    simp only [step] at h
    split at h
    · next hidle => cases h; exact .pop hidle
    · cases h
  | steal i =>
    simp only [step] at h
    split at h
    · next hidle => cases h; exact .steal i hidle
    · cases h
  | owner =>
    obtain ⟨⟨q, pc, evs'⟩, hpc, he⟩ := Option.map_eq_some_iff.mp h
    cases he
    exact .owner (ownerMove_of_step hpc)
  | thief i =>
    obtain ⟨⟨q, pc, evs'⟩, hpc, he⟩ := Option.map_eq_some_iff.mp h
    cases he
    exact .thief i (thiefMove_of_step hpc)

end Moves

section Uninterrupted

/-- A push that nothing interrupts. -/
theorem exec_push (q : FixedWorkStealingQueue J) (thieves : τ → ThiefPC J) (job : J) :
    step.exec ⟨q, .idle, thieves⟩ (.push job :: List.replicate 4 .owner) =
      some (⟨q.push job, .idle, thieves⟩, [.pushed job]) := rfl

theorem step_owner {q q' : FixedWorkStealingQueue J} {pc pc' : OwnerPC J} {evs : List (Event J τ)}
    (h : ownerStep q pc = some (q', pc', evs)) (thieves : τ → ThiefPC J) :
    step ⟨q, pc, thieves⟩ .owner = some (⟨q', pc', thieves⟩, evs) := by
  rw [step, h]
  rfl

theorem step_thief {q q' : FixedWorkStealingQueue J} {pc pc' : ThiefPC J} {evs : List (Event J τ)}
    {i : τ} (h : thiefStep i q pc = some (q', pc', evs)) (owner : OwnerPC J)
    (thieves : τ → ThiefPC J) :
    step ⟨q, owner, Function.update thieves i pc⟩ (.thief i) =
      some (⟨q', owner, Function.update thieves i pc'⟩, evs) := by
  simp only [step, Function.update_self, Function.update_idem, h, Option.map_some]

/-- A pop that nothing interrupts, in each of its three courses. -/
theorem exec_pop (q : FixedWorkStealingQueue J) (thieves : τ → ThiefPC J) :
    ∃ n, step.exec ⟨q, .idle, thieves⟩ (.pop :: List.replicate n .owner) =
      some (⟨q.pop.2, .idle, thieves⟩,
        q.pop.1.toList.map (.delivered .owner) ++ [.returned .owner q.pop.1]) := by
  let r : FixedWorkStealingQueue J := { q with bottom := q.bottom - 1 }
  have hbegin : step ⟨q, .idle, thieves⟩ .pop = some (⟨q, .popDecrement, thieves⟩, []) := rfl
  have hdecrement : step ⟨q, .popDecrement, thieves⟩ .owner =
      some (⟨r, .popLoadTop (q.bottom - 1), thieves⟩, []) := rfl
  by_cases hle : q.top ≤ q.bottom - 1
  · have hload : step ⟨r, .popLoadTop (q.bottom - 1), thieves⟩ .owner =
        some (⟨r, .popRead (q.bottom - 1) q.top, thieves⟩, []) :=
      step_owner (by simp only [ownerStep, r, if_pos hle]) thieves
    by_cases heq : q.top = q.bottom - 1
    · let target := r.slot (q.bottom - 1).toNat
      have hread : step ⟨r, .popRead (q.bottom - 1) q.top, thieves⟩ .owner =
          some (⟨r, .popExchange q.top target, thieves⟩, []) :=
        step_owner (by simp only [ownerStep, target, if_pos heq]) thieves
      have hwin : step ⟨r, .popExchange q.top target, thieves⟩ .owner =
          some (⟨{ r with top := q.top + 1 }, .popStore q.top (some target), thieves⟩,
            [.delivered .owner target]) :=
        step_owner (by simp only [ownerStep, r, compareExchangeStrong_self, if_true]) thieves
      have htarget : q.slot q.top.toNat = target := by
        rw [heq]
        rfl
      refine ⟨5, ?_⟩
      change step.exec _ [.pop, .owner, .owner, .owner, .owner, .owner] = _
      rw [pop_last heq, htarget, Stepper.exec_cons hbegin, Stepper.exec_cons hdecrement,
        Stepper.exec_cons hload, Stepper.exec_cons hread, Stepper.exec_cons hwin]
      rfl
    · let target := r.slot (q.bottom - 1).toNat
      have hread : step ⟨r, .popRead (q.bottom - 1) q.top, thieves⟩ .owner =
          some (⟨r, .idle, thieves⟩, [.delivered .owner target, .returned .owner (some target)]) :=
        step_owner (by simp only [ownerStep, target, if_neg heq]) thieves
      have hpop : q.pop = (some target, r) := by
        simp only [pop, if_pos hle, if_neg heq]
        rfl
      refine ⟨3, ?_⟩
      change step.exec _ [.pop, .owner, .owner, .owner] = _
      rw [hpop, Stepper.exec_cons hbegin, Stepper.exec_cons hdecrement, Stepper.exec_cons hload,
        Stepper.exec_cons hread]
      rfl
  · have hload : step ⟨r, .popLoadTop (q.bottom - 1), thieves⟩ .owner =
        some (⟨r, .popStore q.top none, thieves⟩, []) :=
      step_owner (by simp only [ownerStep, r, if_neg hle]) thieves
    have hpop : q.pop = (none, { q with bottom := q.top + 1 }) := by
      simp only [pop, if_neg hle]
    refine ⟨3, ?_⟩
    change step.exec _ [.pop, .owner, .owner, .owner] = _
    rw [hpop, Stepper.exec_cons hbegin, Stepper.exec_cons hdecrement, Stepper.exec_cons hload]
    rfl

/-- A steal that nothing interrupts. -/
theorem exec_steal (q : FixedWorkStealingQueue J) (pc : OwnerPC J) (thieves : τ → ThiefPC J)
    (i : τ) (hidle : thieves i = .idle) :
    ∃ n, step.exec ⟨q, pc, thieves⟩ (.steal i :: List.replicate n (.thief i)) =
      some (⟨q.steal.2, pc, thieves⟩,
        q.steal.1.toList.map (.delivered (.thief i)) ++ [.returned (.thief i) q.steal.1]) := by
  have hback : Function.update thieves i .idle = thieves := hidle ▸ Function.update_eq_self i thieves
  have hbegin : step ⟨q, pc, thieves⟩ (.steal i) =
      some (⟨q, pc, Function.update thieves i .loadTop⟩, []) := by
    simp only [step, hidle]
  have htop : step ⟨q, pc, Function.update thieves i .loadTop⟩ (.thief i) =
      some (⟨q, pc, Function.update thieves i (.loadBottom q.top)⟩, []) :=
    step_thief rfl pc thieves
  by_cases hlt : q.top < q.bottom
  · let target := q.slot q.top.toNat
    have hbottom : step ⟨q, pc, Function.update thieves i (.loadBottom q.top)⟩ (.thief i) =
        some (⟨q, pc, Function.update thieves i (.read q.top)⟩, []) :=
      step_thief (by simp only [thiefStep, if_pos hlt]) pc thieves
    have hread : step ⟨q, pc, Function.update thieves i (.read q.top)⟩ (.thief i) =
        some (⟨q, pc, Function.update thieves i (.exchange q.top target)⟩, []) :=
      step_thief rfl pc thieves
    have hwin : step ⟨q, pc, Function.update thieves i (.exchange q.top target)⟩ (.thief i) =
        some (⟨{ q with top := q.top + 1 }, pc, Function.update thieves i .idle⟩,
          [.delivered (.thief i) target, .returned (.thief i) (some target)]) :=
      step_thief (by simp only [thiefStep, compareExchangeStrong_self, if_true]) pc thieves
    rw [hback] at hwin
    refine ⟨4, ?_⟩
    change step.exec _ [.steal i, .thief i, .thief i, .thief i, .thief i] = _
    rw [steal_some hlt, Stepper.exec_cons hbegin, Stepper.exec_cons htop, Stepper.exec_cons hbottom,
      Stepper.exec_cons hread, Stepper.exec_cons hwin]
    rfl
  · have hbottom : step ⟨q, pc, Function.update thieves i (.loadBottom q.top)⟩ (.thief i) =
        some (⟨q, pc, Function.update thieves i .idle⟩, [.returned (.thief i) none]) :=
      step_thief (by simp only [thiefStep, if_neg hlt]) pc thieves
    rw [hback] at hbottom
    refine ⟨2, ?_⟩
    change step.exec _ [.steal i, .thief i, .thief i] = _
    rw [steal_none hlt, Stepper.exec_cons hbegin, Stepper.exec_cons htop, Stepper.exec_cons hbottom]
    rfl

end Uninterrupted

end Jobrocket.QueueInterleaving
