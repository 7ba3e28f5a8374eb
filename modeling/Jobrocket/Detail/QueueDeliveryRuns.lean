import Jobrocket.Detail.QueueDelivery

/-! # Delivery along whole schedules

The invariant of one step is carried along every schedule of the owner and the thieves.
What is assumed of a schedule is what the owner of a queue promises: its first call is
a push, a push finds a free slot, and the pushes fit the index words.
-/
namespace Jobrocket.QueueInterleaving
open Library FixedWorkStealingQueue
variable {J τ : Type*}

def Label.isPush : Label J τ → Bool
  | .push _ => true
  | _ => false

def pushedJobs (evs : List (Event J τ)) : List J :=
  evs.filterMap fun | .pushed job => some job | _ => none

/-- The owner's pop has won a job and has not returned it yet. -/
def OwnerPC.won : OwnerPC J → List J
  | .popStore _ result => result.toList
  | _ => []

/-- The job that a call pushes. -/
def Label.pushes : Label J τ → Option J
  | .push job => some job
  | _ => none

/-- The job of a push that has been called and has not taken effect. -/
def OwnerPC.unpushed : OwnerPC J → List J
  | .pushLoadBottom job | .pushLoadTop job _ | .pushWrite job _ | .pushStore job _ => [job]
  | _ => []

theorem OwnerPC.unpushed_length (pc : OwnerPC J) : pc.unpushed.length = pc.pushing := by
  cases pc <;> rfl

def ledger (evs : List (Event J τ)) : Ledger J := evs.foldl record .nil

@[simp] theorem ledger_append (es fs : List (Event J τ)) :
    ledger (es ++ fs) = fs.foldl record (ledger es) := List.foldl_append

theorem foldl_record_pushed (L : Ledger J) (evs : List (Event J τ)) :
    (evs.foldl record L).pushed = L.pushed ++ pushedJobs evs := by
  induction evs generalizing L with
  | nil => simp [pushedJobs]
  | cons e evs ih =>
    rw [List.foldl_cons, ih]
    cases e with
    | pushed job => simp [record, pushedJobs]
    | delivered agent job => cases agent <;> simp [record, pushedJobs]
    | returned agent result => simp [record, pushedJobs]

@[simp] theorem ledger_pushed (evs : List (Event J τ)) : (ledger evs).pushed = pushedJobs evs :=
  (foldl_record_pushed .nil evs).trans (List.nil_append _)

theorem foldl_record_taken_initial (L : Ledger J) (evs : List (Event J τ)) :
    L.taken <+: (evs.foldl record L).taken := by
  induction evs generalizing L with
  | nil => exact List.prefix_rfl
  | cons e evs ih =>
    refine List.IsPrefix.trans ?_ (ih _)
    cases e with
    | pushed job => exact List.prefix_rfl
    | delivered agent job =>
      cases agent with
      | owner => exact L.taken_prefix_takeNewest
      | thief i => exact L.taken_prefix_takeOldest
    | returned agent result => exact List.prefix_rfl

variable [Inhabited J] [DecidableEq τ]

def returnedBy (a : Agent τ) (evs : List (Event J τ)) : List J :=
  evs.filterMap fun
    | .returned b result => if b = a then result else none
    | _ => none

def deliveredBy (a : Agent τ) (evs : List (Event J τ)) : List J :=
  evs.filterMap fun
    | .delivered b job => if b = a then some job else none
    | _ => none

/-- The job an agent has won and not returned yet. -/
def Config.inFlight (c : Config J τ) : Agent τ → List J
  | .owner => c.owner.won
  | .thief _ => []

/-- The start of a run: a fresh queue and no call. -/
def start (capacity : ℕ) : Config J τ := quiescent (fresh J capacity)

/-- The owner pushes before it pops. -/
def StartsWithPush (ls : List (Label J τ)) : Prop :=
  ∀ pre, pre ++ [.pop] <+: ls → ∃ job, .push job ∈ pre

/-- Every push starts with fewer than `capacity` entries between the indices. -/
def RoomAtPushes (capacity : ℕ) (ls : List (Label J τ)) : Prop :=
  ∀ pre job, pre ++ [.push job] <+: ls →
    ∀ c es, step.exec (start capacity) pre = some (c, es) → Room c.queue

section Steps
variable {c c' : Config J τ} {l : Label J τ} {evs : List (Event J τ)}

/-- A job is pushed by the call that was made with it. -/
theorem Moved.pushed (h : Moved c l c' evs) :
    c.owner.unpushed ++ l.pushes.toList = pushedJobs evs ++ c'.owner.unpushed := by
  cases h with
  | push job hidle =>
    rw [hidle]
    rfl
  | pop hidle =>
    rw [hidle]
    rfl
  | steal i hidle => exact List.append_nil _
  | owner hmove =>
    generalize c.owner = pc at hmove ⊢
    cases hmove <;> rfl
  | thief i hmove =>
    generalize c.thieves i = pc at hmove
    cases hmove <;> exact List.append_nil _

/-- What an agent has won it returns; the moves of another leave its account alone. -/
theorem Moved.returned (h : Moved c l c' evs) (a : Agent τ) :
    c.inFlight a ++ deliveredBy a evs = returnedBy a evs ++ c'.inFlight a := by
  cases h with
  | push job hidle => cases a <;> simp only [Config.inFlight, hidle, OwnerPC.won] <;> rfl
  | pop hidle => cases a <;> simp only [Config.inFlight, hidle, OwnerPC.won] <;> rfl
  | steal i hidle => exact List.append_nil _
  | owner hmove =>
    obtain ⟨q, pc, thieves⟩ := c
    dsimp only at hmove ⊢
    cases a with
    | thief k => cases hmove <;> rfl
    | owner =>
      cases hmove with
      | popStore t result => cases result <;> rfl
      | _ => rfl
  | thief i hmove =>
    generalize c.thieves i = pc at hmove
    cases a with
    | owner => cases hmove <;> exact List.append_nil _
    | thief k =>
      cases hmove with
      | win target => by_cases hk : i = k <;> simp [Config.inFlight, deliveredBy, returnedBy, hk]
      | empty t h => simp [Config.inFlight, deliveredBy, returnedBy]
      | lose t target h => simp [Config.inFlight, deliveredBy, returnedBy]
      | _ => rfl

theorem Inv.moved {capacity : ℕ} {L : Ledger J}
    (h : Inv capacity c.queue c.owner c.thieves L) (hmoved : Moved c l c' evs)
    (hn : L.pushed.length + c.owner.pushing < 2 ^ 64)
    (hpush : ∀ job, l = .push job → Room c.queue) (hpop : l = .pop → 0 < L.pushed.length)
    (hfail : .returned .owner none ∉ evs) :
    Inv capacity c'.queue c'.owner c'.thieves (evs.foldl record L) ∧
      (evs.foldl record L).deliveries = L.deliveries ++ deliveredJobs evs := by
  have hlt : L.pushed.length < 2 ^ 64 := (Nat.le_add_right _ _).trans_lt hn
  cases hmoved with
  | push job hidle =>
    have hi := h
    rw [hidle] at hi
    exact ⟨hi.local rfl rfl (hpush job rfl), (List.append_nil _).symm⟩
  | pop hidle =>
    have hi := h
    rw [hidle] at hi
    exact ⟨hi.local rfl rfl (hi.bottom_pos (hpop rfl)), (List.append_nil _).symm⟩
  | owner hmove => exact h.ownerMove hn hmove hfail
  | steal i hidle => exact ⟨h.thief_local trivial, (List.append_nil _).symm⟩
  | thief i hmove => exact h.thiefMove hlt rfl hmove

end Steps

section Runs
variable {q : FixedWorkStealingQueue J} {ls pre : List (Label J τ)} {c : Config J τ}
variable {es : List (Event J τ)}

/-- The jobs pushed so far are those of the owner's push calls, in their order, but for the one
whose push has not taken effect. -/
theorem pushedJobs_of_exec (h : step.exec (quiescent q) pre = some (c, es)) :
    pushedJobs es ++ c.owner.unpushed = pre.filterMap Label.pushes := by
  refine Stepper.exec_induction (I := fun pre c es =>
    pushedJobs es ++ c.owner.unpushed = pre.filterMap Label.pushes) rfl ?_ List.prefix_rfl h
  intro pre l c es c' fs _ _ ih hstep
  calc
    pushedJobs (es ++ fs) ++ c'.owner.unpushed =
        pushedJobs es ++ (pushedJobs fs ++ c'.owner.unpushed) := by
      rw [pushedJobs, List.filterMap_append, List.append_assoc]
      rfl
    _ = pre.filterMap Label.pushes ++ l.pushes.toList := by
      rw [← (moved_of_step hstep).pushed, ← List.append_assoc, ih]
    _ = (pre ++ [l]).filterMap Label.pushes := by
      rw [List.filterMap_append]
      cases l <;> rfl

theorem pushed_of_exec (h : step.exec (quiescent q) pre = some (c, es)) :
    (pushedJobs es).length + c.owner.pushing = pre.countP Label.isPush := by
  have hlength := congrArg List.length (pushedJobs_of_exec h)
  have hisPush : Label.isPush (J := J) (τ := τ) = fun l => l.pushes.isSome := by
    funext l
    cases l <;> rfl
  rwa [List.length_append, OwnerPC.unpushed_length, List.length_filterMap_eq_countP, ← hisPush]
    at hlength

theorem returned_of_exec (h : step.exec (quiescent q) pre = some (c, es)) (a : Agent τ) :
    deliveredBy a es = returnedBy a es ++ c.inFlight a := by
  refine Stepper.exec_induction (I := fun _ c es =>
    deliveredBy a es = returnedBy a es ++ c.inFlight a) ?_ ?_ List.prefix_rfl h
  · cases a <;> rfl
  · intro pre l c es c' fs _ _ ih hstep
    calc
      deliveredBy a (es ++ fs) = deliveredBy a es ++ deliveredBy a fs := List.filterMap_append
      _ = returnedBy a es ++ (c.inFlight a ++ deliveredBy a fs) := by
        rw [ih, List.append_assoc]
      _ = returnedBy a es ++ (returnedBy a fs ++ c'.inFlight a) := by
        rw [(moved_of_step hstep).returned a]
      _ = returnedBy a (es ++ fs) ++ c'.inFlight a := by
        rw [← List.append_assoc]
        exact congrArg (· ++ c'.inFlight a) List.filterMap_append.symm

theorem Inv.of_exec {capacity : ℕ} {L : Ledger J} (h0 : Inv capacity q .idle (fun _ : τ => .idle) L)
    (hcount : L.pushed.length + ls.countP Label.isPush < 2 ^ 64)
    (hroom : ∀ pre job, pre ++ [.push job] <+: ls →
      ∀ c es, step.exec (quiescent q) pre = some (c, es) → Room c.queue)
    (hfirst : ∀ pre, pre ++ [.pop] <+: ls → 0 < L.pushed.length + pre.countP Label.isPush)
    (hpre : pre <+: ls) (h : step.exec (quiescent q) pre = some (c, es))
    (hfail : .returned .owner none ∉ es) :
    Inv capacity c.queue c.owner c.thieves (es.foldl record L) ∧
      (es.foldl record L).deliveries = L.deliveries ++ deliveredJobs es := by
  revert hfail
  refine Stepper.exec_induction (I := fun _ c es => .returned .owner none ∉ es →
    Inv capacity c.queue c.owner c.thieves (es.foldl record L) ∧
      (es.foldl record L).deliveries = L.deliveries ++ deliveredJobs es) ?_ ?_ hpre h
  · exact fun _ => ⟨h0, (List.append_nil _).symm⟩
  · intro pre l c es c' fs hl hexec ih hstep hfail
    rw [List.mem_append, not_or] at hfail
    obtain ⟨hinv, hdel⟩ := ih hfail.1
    have hpushed := pushed_of_exec hexec
    have hlen : (es.foldl record L).pushed.length = L.pushed.length + (pushedJobs es).length := by
      rw [foldl_record_pushed, List.length_append]
    have hle : pre.countP Label.isPush ≤ ls.countP Label.isPush :=
      ((List.prefix_append pre [l]).trans hl).sublist.countP_le
    have hmoved := moved_of_step hstep
    have hpop : l = .pop → 0 < (es.foldl record L).pushed.length := by
      rintro rfl
      have hpos := hfirst pre hl
      cases hmoved with
      | pop hidle =>
        rw [hidle] at hpushed
        simp only [OwnerPC.pushing] at hpushed
        omega
    have hpush : ∀ job, l = .push job → Room c.queue := by
      rintro job rfl
      exact hroom pre job hl c es hexec
    obtain ⟨hinv', hdel'⟩ := hinv.moved hmoved (by omega) hpush hpop hfail.2
    rw [List.foldl_append]
    refine ⟨hinv', ?_⟩
    rw [hdel', hdel, deliveredJobs, deliveredJobs, deliveredJobs, List.filterMap_append,
      List.append_assoc]

end Runs

/-- What has been delivered after the steps `pre` of a run: the jobs pushed are those of the push
calls, and `src` lists the serial numbers of the pushes delivered, in the order of delivery. -/
structure Delivers (src : List ℕ) (pre : List (Label J τ)) (c : Config J τ)
    (es : List (Event J τ)) : Prop where
  pushed : pushedJobs es ++ c.owner.unpushed = pre.filterMap Label.pushes
  delivered : (deliveredJobs es).map some =
    (src.take (deliveredJobs es).length).map fun n => (pushedJobs es)[n]?
  returned : ∀ a, deliveredBy a es = returnedBy a es ++ c.inFlight a
  live : c.owner = .idle → c.queue.entries.map some =
    ((List.range (pushedJobs es).length).filter
      (· ∉ src.take (deliveredJobs es).length)).map fun n => (pushedJobs es)[n]?

/-- Every job delivered was pushed before, no push is delivered twice, and the entries
between the indices are the jobs not delivered yet, in push order. -/
theorem delivers_of_exec (capacity : ℕ) (ls : List (Label J τ)) (c : Config J τ)
    (evs : List (Event J τ)) (h : step.exec (start capacity) ls = some (c, evs))
    (hfirst : StartsWithPush ls) (hroom : RoomAtPushes capacity ls)
    (hcount : ls.countP Label.isPush < 2 ^ 64) :
    ∃ src : List ℕ, src.Nodup ∧ ∀ pre, pre <+: ls → ∀ c es,
      step.exec (start capacity) pre = some (c, es) → .returned .owner none ∉ es →
        Delivers src pre c es := by
  refine ⟨(ledger evs).taken, (ledger evs).taken_nodup, ?_⟩
  intro pre hpre c es hexec hfail
  have hpos : ∀ pre, pre ++ [.pop] <+: ls →
      0 < ([] : List J).length + pre.countP Label.isPush := by
    intro pre hpop
    obtain ⟨job, hjob⟩ := hfirst pre hpop
    exact (List.countP_pos_iff.mpr ⟨_, hjob, rfl⟩).trans_le (Nat.le_add_left _ _)
  obtain ⟨hinv, hdel⟩ := (inv_fresh capacity).of_exec ((Nat.zero_add _).trans_lt hcount) hroom
    hpos hpre hexec hfail
  rw [Ledger.deliveries_nil, List.nil_append] at hdel
  change Inv capacity c.queue c.owner c.thieves (ledger es) at hinv
  change (ledger es).deliveries = _ at hdel
  have htaken : (ledger evs).taken.take (deliveredJobs es).length = (ledger es).taken := by
    obtain ⟨fs, rfl⟩ := Stepper.exec_events_initial h hpre hexec
    have hlen : (deliveredJobs es).length = (ledger es).taken.length := by
      rw [← hdel]
      exact List.length_map _
    rw [hlen, ledger_append]
    exact List.prefix_iff_eq_take.mp (foldl_record_taken_initial _ _) |>.symm
  constructor
  case pushed => exact pushedJobs_of_exec hexec
  case delivered =>
    rw [htaken, ← hdel, ← ledger_pushed]
    exact (ledger es).deliveries_map_some
  case returned => exact returned_of_exec hexec
  case live =>
    intro hidle
    have hlive := hinv.live
    rw [hidle] at hlive
    rw [htaken, ← ledger_pushed]
    exact (congrArg (List.map some) hlive).trans (ledger es).jobs_map_some

/-- A thief that has read both indices and the owner's pop race for the only job. -/
theorem delivers_of_exec_race :
    let ls : List (Label ℕ Unit) := [.push 7, .owner, .owner, .owner, .owner, .steal (),
      .thief (), .thief (), .pop, .thief (), .owner, .owner, .owner, .thief (), .owner]
    ∃ src : List ℕ, src.Nodup ∧ ∀ pre, pre <+: ls → ∀ c es,
      step.exec (start 1) pre = some (c, es) → .returned .owner none ∉ es →
        Delivers src pre c es := by
  intro ls
  refine delivers_of_exec 1 ls _ _ rfl ?first ?room (by decide)
  case first =>
    intro pre hpre
    obtain ⟨n, hn, rfl, hl⟩ := concat_prefix_iff.mp hpre
    cases n with
    | zero => cases hl
    | succ n => exact ⟨7, List.mem_cons_self⟩
  case room =>
    intro pre job hpre c es h
    obtain ⟨n, hn, rfl, hl⟩ := concat_prefix_iff.mp hpre
    have hn : n < 15 := hn
    interval_cases n <;> cases hl
    cases h
    exact Nat.one_pos
end Jobrocket.QueueInterleaving
