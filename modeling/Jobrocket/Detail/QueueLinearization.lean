import Jobrocket.Detail.QueueDeliveryRuns
import Jobrocket.Detail.QueueRefinement

/-! # The interleaved calls in the order in which they take effect

A push takes effect when it stores `bottom_`, a pop or a steal when it wins its job, and
one that wins no job when it returns. In this order the calls are calls on the
double-ended list, and the same calls made whole, one after another, give the same
answers. Only a steal may come away with nothing from a list that is not empty, and it
leaves the list alone.
-/
namespace Jobrocket.QueueInterleaving
open Library FixedWorkStealingQueue
variable {J τ : Type*}

/-- A call, the party that made it, and what it returned. -/
structure Entry (J τ : Type*) where
  agent : Agent τ
  call : Call J
  answer : Answer J
  deriving DecidableEq

/-- The call that takes effect with an event. -/
def Event.entry? : Event J τ → Option (Entry J τ)
  | .pushed job => some ⟨.owner, .push job, .pushed⟩
  | .delivered .owner job => some ⟨.owner, .pop, .taken (some job)⟩
  | .delivered (.thief i) job => some ⟨.thief i, .steal, .taken (some job)⟩
  | .returned .owner none => some ⟨.owner, .pop, .taken none⟩
  | .returned (.thief i) none => some ⟨.thief i, .steal, .taken none⟩
  | .returned _ (some _) => none

/-- A steal that returned false. -/
def Entry.missed (e : Entry J τ) : Bool :=
  match e.call, e.answer with
  | .steal, .taken none => true
  | _, _ => false

def history (es : List (Event J τ)) : List (Entry J τ) := es.filterMap Event.entry?

/-- The history without the steals that returned false. -/
def effects (es : List (Event J τ)) : List (Entry J τ) := (history es).filter fun e => !e.missed

def calls (es : List (Event J τ)) : List (Call J) := (effects es).map Entry.call

def answers (es : List (Event J τ)) : List (Answer J) := (effects es).map Entry.answer

/-- The call that an agent begins with a label. -/
def Label.begins [DecidableEq τ] (a : Agent τ) : Label J τ → Option (Call J)
  | .push job => if a = .owner then some (.push job) else none
  | .pop => if a = .owner then some .pop else none
  | .steal i => if a = .thief i then some .steal else none
  | _ => none

def begun [DecidableEq τ] (a : Agent τ) (ls : List (Label J τ)) : List (Call J) :=
  ls.filterMap (Label.begins a)

/-- The call of the owner that has not taken effect yet. -/
def OwnerPC.waiting : OwnerPC J → List (Call J)
  | .idle => []
  | .pushLoadBottom job => [.push job]
  | .pushLoadTop job _ => [.push job]
  | .pushWrite job _ => [.push job]
  | .pushStore job _ => [.push job]
  | .popStore _ (some _) => []
  | _ => [.pop]

def ThiefPC.waiting : ThiefPC J → List (Call J)
  | .idle => []
  | _ => [.steal]

def Config.waiting (c : Config J τ) : Agent τ → List (Call J)
  | .owner => c.owner.waiting
  | .thief i => (c.thieves i).waiting

/-- The answer that an agent gets with an event. -/
def Event.answers [DecidableEq τ] (a : Agent τ) : Event J τ → Option (Answer J)
  | .pushed _ => if a = .owner then some .pushed else none
  | .delivered _ _ => none
  | .returned b result => if a = b then some (.taken result) else none

def answered [DecidableEq τ] (a : Agent τ) (es : List (Event J τ)) : List (Answer J) :=
  es.filterMap (Event.answers a)

def historyOf [DecidableEq τ] (a : Agent τ) (es : List (Event J τ)) : List (Entry J τ) :=
  (history es).filter fun e => e.agent = a

variable [Inhabited J]

/-- The calls so far, on the list and as whole calls on a queue of their own. -/
structure Replays (capacity : ℕ) (es : List (Event J τ)) (L : Ledger J) : Prop where
  results : deque.results [] (calls es) = answers es
  after : deque.after [] (calls es) = L.jobs
  whole : machine.results (fresh J capacity) (calls es) = answers es
  represents : Represents capacity (machine.after (fresh J capacity) (calls es)) L.jobs
  bottom_le : (machine.after (fresh J capacity) (calls es)).bottom.toNat ≤ L.pushed.length
  fits : L.jobs.length ≤ capacity

section Replay
variable {capacity : ℕ} {es : List (Event J τ)} {L : Ledger J} {e : Event J τ}

omit [Inhabited J] in
theorem calls_concat (es : List (Event J τ)) (e : Event J τ) :
    calls (es ++ [e]) = calls es ++ calls [e] := by
  simp [calls, effects, history, List.filterMap_append]

omit [Inhabited J] in
theorem answers_concat (es : List (Event J τ)) (e : Event J τ) :
    answers (es ++ [e]) = answers es ++ answers [e] := by
  simp [answers, effects, history, List.filterMap_append]

theorem replays_nil (capacity : ℕ) : Replays capacity ([] : List (Event J τ)) .nil where
  results := rfl
  after := rfl
  whole := rfl
  represents := represents_fresh capacity
  bottom_le := le_rfl
  fits := Nat.zero_le _

theorem Replays.skip (h : Replays capacity es L) (hcalls : calls [e] = [])
    (hanswers : answers [e] = []) (hrecord : record L e = L) :
    Replays capacity (es ++ [e]) (record L e) := by
  have hc : calls (es ++ [e]) = calls es := by rw [calls_concat, hcalls, List.append_nil]
  have ha : answers (es ++ [e]) = answers es := by rw [answers_concat, hanswers, List.append_nil]
  constructor
  case results => rw [hc, ha, h.results]
  case after => rw [hc, hrecord, h.after]
  case whole => rw [hc, ha, h.whole]
  case represents => rw [hc, hrecord]; exact h.represents
  case bottom_le => rw [hc, hrecord]; exact h.bottom_le
  case fits => rw [hrecord]; exact h.fits

/-- An event with which a call takes effect that the queue's indices are right for. -/
theorem Replays.call (h : Replays capacity es L) (call : Call J) (hcalls : calls [e] = [call])
    (hanswers : answers [e] = [(deque L.jobs call).1])
    (hjobs : (record L e).jobs = (deque L.jobs call).2)
    (hpushed : (record L e).pushed.length = L.pushed.length + if isPush call then 1 else 0)
    (hsound : Sound (machine.after (fresh J capacity) (calls es)) call)
    (hfits : (deque L.jobs call).2.length ≤ capacity) :
    Replays capacity (es ++ [e]) (record L e) := by
  obtain ⟨hanswer, hrepresents⟩ :=
    machine_simulates_deque capacity _ _ call h.represents ⟨hsound, hfits⟩
  have hindices := sound_indices h.represents.ordered hsound
  have hbottom := h.bottom_le
  constructor
  case results =>
    rw [calls_concat, answers_concat, hcalls, hanswers, Machine.results_append, h.results, h.after]
    rfl
  case after =>
    rw [calls_concat, hcalls, Machine.after_append, h.after, hjobs]
    rfl
  case whole =>
    rw [calls_concat, answers_concat, hcalls, hanswers, Machine.results_append, h.whole, ← hanswer]
    rfl
  case represents =>
    rw [calls_concat, hcalls, Machine.after_append, hjobs]
    exact hrepresents
  case bottom_le =>
    rw [calls_concat, hcalls, Machine.after_append, hpushed]
    exact hindices.2.trans (by omega)
  case fits => rw [hjobs]; exact hfits

theorem Replays.pushed (h : Replays capacity es L) {job : J} (hroom : L.jobs.length < capacity)
    (hn : L.pushed.length + 1 < 2 ^ 64) :
    Replays capacity (es ++ [.pushed job]) (L.push job) := by
  have hbottom := h.bottom_le
  apply h.call (.push job) rfl rfl
  · exact L.jobs_push job
  · exact List.length_append
  · change (machine.after (fresh J capacity) (calls es)).bottom.toNat + 1 < 2 ^ 64
    omega
  · change (L.jobs ++ [job]).length ≤ capacity
    rw [List.length_append, List.length_singleton]
    exact hroom

theorem Replays.popped (h : Replays capacity es L) {job : J} (hlast : L.jobs.getLast? = some job) :
    Replays capacity (es ++ [.delivered .owner job]) L.takeNewest := by
  apply h.call .pop rfl
  · change [Answer.taken (some job)] = [Answer.taken L.jobs.getLast?]
    rw [hlast]
  · exact L.jobs_takeNewest
  · exact congrArg List.length L.takeNewest_pushed
  · change (machine.after (fresh J capacity) (calls es)).empty = false
    rw [h.represents.empty_eq, List.isEmpty_eq_false_iff]
    intro hnil
    rw [hnil] at hlast
    cases hlast
  · exact (List.dropLast_sublist _).length_le.trans h.fits

theorem Replays.stolen (h : Replays capacity es L) (i : τ) {job : J}
    (hhead : L.jobs.head? = some job) :
    Replays capacity (es ++ [.delivered (.thief i) job]) L.takeOldest := by
  apply h.call .steal rfl
  · change [Answer.taken (some job)] = [Answer.taken L.jobs.head?]
    rw [hhead]
  · exact L.jobs_takeOldest
  · exact congrArg List.length L.takeOldest_pushed
  · trivial
  · exact (List.tail_sublist _).length_le.trans h.fits

theorem Replays.returned (h : Replays capacity es L) (agent : Agent τ) (job : J) :
    Replays capacity (es ++ [.returned agent (some job)]) L :=
  h.skip (by cases agent <;> rfl) (by cases agent <;> rfl) rfl

theorem Replays.results_failed (h : Replays capacity es L) (hnil : L.jobs = []) :
    deque.results [] (calls (es ++ [.returned (.owner : Agent τ) none])) =
      answers (es ++ [.returned .owner none]) := by
  rw [calls_concat, answers_concat, Machine.results_append, h.results, h.after, hnil]
  rfl

end Replay

section Steps
variable [DecidableEq τ] {capacity : ℕ} {c c' : Config J τ} {l : Label J τ}
variable {es evs : List (Event J τ)} {L : Ledger J}

omit [DecidableEq τ] in
theorem Inv.jobs_length (h : Inv capacity c.queue c.owner c.thieves L) :
    L.jobs.length = c.queue.bottom.toNat + c.owner.pending - c.queue.top.toNat := by
  rw [← h.live, window_length]

theorem Replays.moved (h : Replays capacity es L)
    (hinv : Inv capacity c.queue c.owner c.thieves L) (hmoved : Moved c l c' evs)
    (hdel : (evs.foldl record L).deliveries = L.deliveries ++ deliveredJobs evs)
    (hn : L.pushed.length + c.owner.pushing < 2 ^ 64) (hfail : .returned .owner none ∉ evs) :
    Replays capacity (es ++ evs) (evs.foldl record L) := by
  have hquiet : Replays capacity (es ++ []) L := by rwa [List.append_nil]
  cases hmoved with
  | push job hidle => exact hquiet
  | pop hidle => exact hquiet
  | steal i hidle => exact hquiet
  | owner hmove =>
    have hlength := hinv.jobs_length
    have htop := hinv.top_le
    have hok := hinv.owner_ok
    generalize c.owner = pc at hmove hlength htop hok hn
    cases hmove with
    | pushStore job b =>
      have hroom : Room c.queue := hok.2.1
      refine h.pushed ?_ hn
      simp only [OwnerPC.contested, OwnerPC.pending, Nat.add_zero] at hlength htop
      rw [Room, hinv.capacity_eq] at hroom
      omega
    | popTake b t hne =>
      have hpopped := (h.popped (Ledger.getLast?_of_takeNewest hdel)).returned .owner
        (c.queue.slot b.toNat)
      rwa [List.append_assoc] at hpopped
    | popWin target => exact h.popped (Ledger.getLast?_of_takeNewest hdel)
    | popStore t result =>
      cases result with
      | none => simp at hfail
      | some job => exact h.returned .owner job
    | _ => exact hquiet
  | thief i hmove =>
    generalize c.thieves i = pc at hmove
    cases hmove with
    | win target =>
      have hstolen := (h.stolen i (Ledger.head?_of_takeOldest hdel)).returned (.thief i) target
      rwa [List.append_assoc] at hstolen
    | empty t hlt => exact h.skip rfl rfl rfl
    | lose t target hne => exact h.skip rfl rfl rfl
    | _ => exact hquiet

theorem Inv.jobs_eq_nil (hinv : Inv capacity c.queue c.owner c.thieves L)
    (hmoved : Moved c l c' evs) (hfail : .returned .owner none ∈ evs) :
    evs = [.returned .owner none] ∧ L.jobs = [] := by
  have hlength := hinv.jobs_length
  have hok := hinv.owner_ok
  cases hmoved with
  | push job hidle => cases hfail
  | pop hidle => cases hfail
  | steal i hidle => cases hfail
  | thief i hmove =>
    generalize c.thieves i = pc at hmove
    cases hmove <;> simp at hfail
  | owner hmove =>
    generalize c.owner = pc at hmove hlength hok
    cases hmove with
    | popStore t result =>
      cases result with
      | some job => simp at hfail
      | none =>
        have htop : c.queue.top.toNat = c.queue.bottom.toNat + 1 := hok.1
        refine ⟨rfl, List.eq_nil_of_length_eq_zero ?_⟩
        simp only [OwnerPC.pending] at hlength
        omega
    | _ => simp at hfail

theorem Moved.begun (h : Moved c l c' evs) (a : Agent τ) :
    c.waiting a ++ begun a [l] = (historyOf a evs).map Entry.call ++ c'.waiting a := by
  cases h with
  | push job hidle =>
    cases a <;> simp [Config.waiting, hidle, OwnerPC.waiting, QueueInterleaving.begun, Label.begins,
      historyOf, history]
  | pop hidle =>
    cases a <;> simp [Config.waiting, hidle, OwnerPC.waiting, QueueInterleaving.begun, Label.begins,
      historyOf, history]
  | steal i hidle =>
    cases a with
    | owner => exact List.append_nil _
    | thief k =>
      by_cases hk : k = i
      · subst hk
        simp [Config.waiting, hidle, ThiefPC.waiting, QueueInterleaving.begun, Label.begins,
          historyOf, history]
      · simp [Config.waiting, hk, QueueInterleaving.begun, Label.begins, historyOf, history]
  | owner hmove =>
    obtain ⟨q, pc, thieves⟩ := c
    dsimp only at hmove ⊢
    cases a with
    | thief k =>
      cases hmove with
      | popStore t result => cases result <;> exact List.append_nil _
      | _ => exact List.append_nil _
    | owner =>
      cases hmove with
      | popStore t result => cases result <;> rfl
      | _ => rfl
  | thief i hmove =>
    cases a with
    | owner =>
      generalize c.thieves i = pc at hmove
      cases hmove <;> exact List.append_nil _
    | thief k =>
      by_cases hk : k = i
      · subst hk
        simp only [Config.waiting, Function.update_self]
        generalize c.thieves k = pc at hmove ⊢
        cases hmove <;> simp [ThiefPC.waiting, QueueInterleaving.begun, Label.begins, historyOf,
          history, Event.entry?, List.filterMap_cons]
      · simp only [Config.waiting, Function.update_of_ne hk]
        generalize c.thieves i = pc at hmove
        cases hmove <;> simp [QueueInterleaving.begun, Label.begins, historyOf, history,
          Event.entry?, Ne.symm hk, List.filterMap_cons]

/-- What a call answers is what it did when it took effect. -/
theorem Moved.answered (h : Moved c l c' evs) (a : Agent τ) :
    (c.inFlight a).map (fun job => .taken (some job)) ++ (historyOf a evs).map Entry.answer =
      answered a evs ++ (c'.inFlight a).map fun job => .taken (some job) := by
  cases h with
  | push job hidle => cases a <;> simp only [Config.inFlight, hidle, OwnerPC.won] <;> rfl
  | pop hidle => cases a <;> simp only [Config.inFlight, hidle, OwnerPC.won] <;> rfl
  | steal i hidle => exact List.append_nil _
  | owner hmove =>
    obtain ⟨q, pc, thieves⟩ := c
    dsimp only at hmove ⊢
    cases a with
    | thief k =>
      cases hmove with
      | popStore t result => cases result <;> rfl
      | _ => rfl
    | owner =>
      cases hmove with
      | popStore t result => cases result <;> rfl
      | _ => rfl
  | thief i hmove =>
    generalize c.thieves i = pc at hmove
    cases a with
    | owner => cases hmove <;> exact List.append_nil _
    | thief k =>
      by_cases hk : k = i
      · subst hk
        cases hmove <;> simp [Config.inFlight, QueueInterleaving.answered, Event.answers, historyOf,
          history, Event.entry?, List.filterMap_cons]
      · cases hmove <;> simp [Config.inFlight, QueueInterleaving.answered, Event.answers, historyOf,
          history, Event.entry?, hk, Ne.symm hk, List.filterMap_cons]

end Steps

/-- What a run says about its history, whose order is the one in which the calls take
effect. -/
structure Linearizes [DecidableEq τ] (capacity : ℕ) (ls : List (Label J τ)) (c : Config J τ)
    (es : List (Event J τ)) : Prop where
  /-- The calls are calls on the list. -/
  listed : deque.results [] (calls es) = answers es
  /-- A call takes effect after it began, each party's calls in their order. -/
  begun : ∀ a, begun a ls = (historyOf a es).map Entry.call ++ c.waiting a
  /-- It takes effect no later than it returns, and returns what it did. -/
  answered : ∀ a, (historyOf a es).map Entry.answer =
    answered a es ++ (c.inFlight a).map fun job => .taken (some job)
  /-- Whole calls give the same answers and leave the same entries. -/
  whole : .returned .owner none ∉ es → machine.results (fresh J capacity) (calls es) = answers es ∧
    (c.owner = .idle → (machine.after (fresh J capacity) (calls es)).entries = c.queue.entries)

section Runs
variable [DecidableEq τ] {capacity : ℕ} {ls pre : List (Label J τ)} {c : Config J τ}
variable {es : List (Event J τ)}

theorem begun_of_exec {q : FixedWorkStealingQueue J}
    (h : step.exec (quiescent q) ls = some (c, es)) (a : Agent τ) :
    begun a ls = (historyOf a es).map Entry.call ++ c.waiting a := by
  refine Stepper.exec_induction (I := fun pre c es =>
    begun a pre = (historyOf a es).map Entry.call ++ c.waiting a) ?_ ?_ List.prefix_rfl h
  · cases a <;> rfl
  · intro pre l c es c' fs _ _ ih hstep
    calc
      begun a (pre ++ [l]) = begun a pre ++ begun a [l] := List.filterMap_append
      _ = (historyOf a es).map Entry.call ++ (c.waiting a ++ begun a [l]) := by
        rw [ih, List.append_assoc]
      _ = (historyOf a es).map Entry.call ++ ((historyOf a fs).map Entry.call ++ c'.waiting a) := by
        rw [(moved_of_step hstep).begun a]
      _ = (historyOf a (es ++ fs)).map Entry.call ++ c'.waiting a := by
        simp [historyOf, history, List.filterMap_append]

theorem answered_of_exec {q : FixedWorkStealingQueue J}
    (h : step.exec (quiescent q) ls = some (c, es)) (a : Agent τ) :
    (historyOf a es).map Entry.answer =
      answered a es ++ (c.inFlight a).map fun job => .taken (some job) := by
  refine Stepper.exec_induction (I := fun _ c es => (historyOf a es).map Entry.answer =
    answered a es ++ (c.inFlight a).map fun job => .taken (some job)) ?_ ?_ List.prefix_rfl h
  · cases a <;> rfl
  · intro pre l c es c' fs _ _ ih hstep
    calc
      (historyOf a (es ++ fs)).map Entry.answer =
          (historyOf a es).map Entry.answer ++ (historyOf a fs).map Entry.answer := by
        simp [historyOf, history, List.filterMap_append]
      _ = answered a es ++ ((c.inFlight a).map (fun job => .taken (some job)) ++
          (historyOf a fs).map Entry.answer) := by
        rw [ih, List.append_assoc]
      _ = answered a es ++ (answered a fs ++
          (c'.inFlight a).map fun job => .taken (some job)) := by
        rw [(moved_of_step hstep).answered a]
      _ = answered a (es ++ fs) ++ (c'.inFlight a).map fun job => .taken (some job) := by
        rw [← List.append_assoc]
        exact congrArg (· ++ _) List.filterMap_append.symm

variable (hfirst : StartsWithPush ls) (hroom : RoomAtPushes capacity ls)
variable (hcount : ls.countP Label.isPush < 2 ^ 64)
include hfirst hroom hcount

theorem inv_of_exec (hpre : pre <+: ls) (h : step.exec (start capacity) pre = some (c, es))
    (hfail : .returned .owner none ∉ es) :
    Inv capacity c.queue c.owner c.thieves (ledger es) ∧
      (ledger es).deliveries = deliveredJobs es := by
  have hpos : ∀ pre, pre ++ [.pop] <+: ls →
      0 < ([] : List J).length + pre.countP Label.isPush := by
    intro pre hpop
    obtain ⟨job, hjob⟩ := hfirst pre hpop
    exact (List.countP_pos_iff.mpr ⟨_, hjob, rfl⟩).trans_le (Nat.le_add_left _ _)
  exact (inv_fresh capacity).of_exec ((Nat.zero_add _).trans_lt hcount) hroom hpos hpre h hfail

theorem replays_of_exec (hpre : pre <+: ls) (h : step.exec (start capacity) pre = some (c, es))
    (hfail : .returned .owner none ∉ es) : Replays capacity es (ledger es) := by
  revert hfail
  refine Stepper.exec_induction (I := fun _ _ es => .returned .owner none ∉ es →
    Replays capacity es (ledger es)) ?_ ?_ hpre h
  · exact fun _ => replays_nil capacity
  · intro pre l c es c' fs hl hexec ih hstep hfail
    have hpre : pre <+: ls := (List.prefix_append pre [l]).trans hl
    have hexec' := Stepper.exec_concat.mpr ⟨_, _, _, hexec, hstep, rfl⟩
    have hdel' := (inv_of_exec hfirst hroom hcount hl hexec' hfail).2
    rw [List.mem_append, not_or] at hfail
    obtain ⟨hinv, hdel⟩ := inv_of_exec hfirst hroom hcount hpre hexec hfail.1
    have hpushed := pushed_of_exec hexec
    have hle : pre.countP Label.isPush ≤ ls.countP Label.isPush := hpre.sublist.countP_le
    rw [ledger_append] at hdel' ⊢
    apply (ih hfail.1).moved hinv (moved_of_step hstep) ?_ ?_ hfail.2
    · rw [hdel', hdel, deliveredJobs, deliveredJobs, deliveredJobs, List.filterMap_append]
    · rw [ledger_pushed]
      omega

theorem listed_of_exec (hpre : pre <+: ls) (h : step.exec (start capacity) pre = some (c, es))
    (hfail : .returned .owner none ∉ es.dropLast) : deque.results [] (calls es) = answers es := by
  revert hfail
  refine Stepper.exec_induction (I := fun _ _ es => .returned .owner none ∉ es.dropLast →
    deque.results [] (calls es) = answers es) ?_ ?_ hpre h
  · exact fun _ => rfl
  · intro pre l c es c' fs hl hexec ih hstep hfail
    have hpre : pre <+: ls := (List.prefix_append pre [l]).trans hl
    have hexec' := Stepper.exec_concat.mpr ⟨_, _, _, hexec, hstep, rfl⟩
    by_cases hfs : .returned .owner none ∈ fs
    · have hes : .returned .owner none ∉ es := by
        rw [List.dropLast_append_of_ne_nil (List.ne_nil_of_mem hfs), List.mem_append,
          not_or] at hfail
        exact hfail.1
      obtain ⟨hinv, -⟩ := inv_of_exec hfirst hroom hcount hpre hexec hes
      obtain ⟨rfl, hnil⟩ := hinv.jobs_eq_nil (moved_of_step hstep) hfs
      exact (replays_of_exec hfirst hroom hcount hpre hexec hes).results_failed hnil
    · by_cases hes : .returned .owner none ∈ es
      · cases fs with
        | nil =>
          rw [List.append_nil] at hfail ⊢
          exact ih hfail
        | cons f fs =>
          rw [List.dropLast_append_of_ne_nil (List.cons_ne_nil _ _)] at hfail
          exact absurd (List.mem_append_left _ hes) hfail
      · have hnone : .returned .owner none ∉ es ++ fs := by
          rw [List.mem_append, not_or]
          exact ⟨hes, hfs⟩
        exact (replays_of_exec hfirst hroom hcount hl hexec' hnone).results

end Runs

/-- Every run of pushes, pops and steals, up to the first pop that returns false and that
pop too, is one of calls on the list, in an order that keeps each call between its beginning
and its return. -/
theorem linearizable_of_exec [DecidableEq τ] (capacity : ℕ) (ls : List (Label J τ))
    (hfirst : StartsWithPush ls) (hroom : RoomAtPushes capacity ls)
    (hcount : ls.countP Label.isPush < 2 ^ 64) (pre : List (Label J τ)) (hpre : pre <+: ls)
    (c : Config J τ) (es : List (Event J τ)) (h : step.exec (start capacity) pre = some (c, es))
    (hfail : .returned .owner none ∉ es.dropLast) : Linearizes capacity pre c es := by
  constructor
  case listed => exact listed_of_exec hfirst hroom hcount hpre h hfail
  case begun => exact begun_of_exec h
  case answered => exact answered_of_exec h
  case whole =>
    intro hnone
    have hreplays := replays_of_exec hfirst hroom hcount hpre h hnone
    refine ⟨hreplays.whole, ?_⟩
    intro hidle
    have hlive := (inv_of_exec hfirst hroom hcount hpre h hnone).1.live
    rw [hidle] at hlive
    exact hreplays.represents.entries_eq.trans hlive.symm

/-- The owner pops the newer of two jobs while a thief takes the older, and then finds none. -/
theorem linearizable_of_exec_two :
    let ls : List (Label ℕ Unit) := [.push 7, .owner, .owner, .owner, .owner, .push 8, .owner,
      .owner, .owner, .owner, .steal (), .thief (), .thief (), .pop, .owner, .owner, .owner,
      .thief (), .thief (), .pop, .owner, .owner, .owner]
    ∃ c es, step.exec (start 2) ls = some (c, es) ∧ .returned .owner none ∈ es ∧
      Linearizes 2 ls c es := by
  intro ls
  refine ⟨_, _, rfl, by decide, linearizable_of_exec 2 ls ?first ?room (by decide) ls
    List.prefix_rfl _ _ rfl (by decide)⟩
  case first =>
    intro pre hpre
    obtain ⟨n, hn, rfl, hl⟩ := concat_prefix_iff.mp hpre
    cases n with
    | zero => cases hl
    | succ n => exact ⟨7, List.mem_cons_self⟩
  case room =>
    intro pre job hpre c es h
    obtain ⟨n, hn, rfl, hl⟩ := concat_prefix_iff.mp hpre
    have hn : n < 23 := hn
    interval_cases n <;> cases hl
    · cases h
      exact Nat.two_pos
    · cases h
      exact Nat.one_lt_two

section Misses
variable [DecidableEq τ] {c c' : Config J τ} {l : Label J τ} {evs : List (Event J τ)} {i : τ}

/-- The value of `top_` that a steal has loaded. -/
def ThiefPC.loaded : ThiefPC J → Option UInt64
  | .loadBottom t => some t
  | .read t => some t
  | .exchange t _ => some t
  | _ => none

theorem Moved.loaded (h : Moved c l c' evs)
    (hc : ∀ t, (c.thieves i).loaded = some t → t = c.queue.top) :
    (∀ t, (c'.thieves i).loaded = some t → t = c'.queue.top) ∨ deliveredJobs evs ≠ [] := by
  cases h with
  | push job hidle => exact Or.inl hc
  | pop hidle => exact Or.inl hc
  | owner hmove =>
    obtain ⟨q, pc, thieves⟩ := c
    dsimp only at hmove hc ⊢
    cases hmove with
    | popWin target => exact Or.inr (List.cons_ne_nil _ _)
    | _ => exact Or.inl hc
  | steal k hidle =>
    left
    by_cases hk : i = k
    · subst hk
      simp only [Function.update_self]
      exact nofun
    · simp only [Function.update_of_ne hk]
      exact hc
  | thief k hmove =>
    by_cases hk : i = k
    · subst hk
      simp only [Function.update_self]
      generalize c.thieves i = pc at hmove hc
      cases hmove with
      | win target => exact Or.inr (List.cons_ne_nil _ _)
      | loadTop => exact Or.inl fun t ht => (Option.some.inj ht).symm
      | loadBottom t hlt => exact Or.inl hc
      | read t => exact Or.inl hc
      | empty t hlt => exact Or.inl nofun
      | lose t target hne => exact Or.inl nofun
    · simp only [Function.update_of_ne hk]
      generalize c.thieves k = pc at hmove
      cases hmove with
      | win target => exact Or.inr (List.cons_ne_nil _ _)
      | _ => exact Or.inl hc

theorem loaded_of_exec {c : Config J τ} {ls : List (Label J τ)} {es : List (Event J τ)}
    (h : step.exec c ls = some (c', es)) (hidle : c.thieves i = .idle) :
    (∀ t, (c'.thieves i).loaded = some t → t = c'.queue.top) ∨ deliveredJobs es ≠ [] := by
  refine Stepper.exec_induction (I := fun _ c es =>
    (∀ t, (c.thieves i).loaded = some t → t = c.queue.top) ∨ deliveredJobs es ≠ []) ?_ ?_
    List.prefix_rfl h
  · left
    rw [hidle]
    exact nofun
  · intro pre l c es c' fs _ _ ih hstep
    rw [deliveredJobs, List.filterMap_append, ne_eq, List.append_eq_nil_iff, not_and_or]
    rcases ih with hc | hes
    · exact (moved_of_step hstep).loaded hc |>.imp_right Or.inr
    · exact Or.inr (Or.inl hes)

/-- A steal that returns false read an index that is no longer `top_`, or there was no entry
between the indices it read. -/
theorem Moved.missed (h : Moved c (.thief i) c' evs) (hmiss : .returned (.thief i) none ∈ evs) :
    ∃ t, (c.thieves i).loaded = some t ∧ (t ≠ c.queue.top ∨ c.queue.bottom ≤ t) := by
  cases h with
  | thief _ hmove =>
    generalize c.thieves i = pc at hmove ⊢
    cases hmove with
    | empty t hlt => exact ⟨t, rfl, Or.inr (UInt64.not_lt.mp hlt)⟩
    | lose t target hne => exact ⟨t, rfl, Or.inl (Ne.symm hne)⟩
    | _ => simp at hmiss

omit [DecidableEq τ] in
/-- Where the indices are together and a job waits, the owner is popping it. -/
theorem Inv.popping {capacity : ℕ} {L : Ledger J}
    (h : Inv capacity c.queue c.owner c.thieves L) (hle : c.queue.bottom ≤ c.queue.top) :
    L.jobs = [] ∨ ∃ job, L.jobs = [job] ∧ c.owner.waiting = [.pop] := by
  have hlength := h.jobs_length
  have hok := h.owner_ok
  have hnat := UInt64.le_iff_toNat_le.mp hle
  generalize c.owner = pc at hlength hok ⊢
  have hone : L.jobs.length ≤ pc.pending := by omega
  have hpop : pc.pending = 1 → pc.waiting = [.pop] →
      L.jobs = [] ∨ ∃ job, L.jobs = [job] ∧ pc.waiting = [.pop] := by
    intro hpending hwaiting
    rcases Nat.le_one_iff_eq_zero_or_eq_one.mp (hpending ▸ hone) with h0 | h1
    · exact Or.inl (List.eq_nil_of_length_eq_zero h0)
    · obtain ⟨job, hjobs⟩ := List.length_eq_one_iff.mp h1
      exact Or.inr ⟨job, hjobs, hwaiting⟩
  cases pc with
  | popLoadTop b => exact hpop rfl rfl
  | popRead b t => exact hpop rfl rfl
  | popExchange t target => exact hpop rfl rfl
  | popStore t result =>
    have htop : c.queue.top.toNat = c.queue.bottom.toNat + 1 := by cases result <;> exact hok.1
    left
    apply List.eq_nil_of_length_eq_zero
    simp only [OwnerPC.pending] at hlength
    omega
  | _ => exact Or.inl (List.eq_nil_of_length_eq_zero (Nat.le_zero.mp hone))

end Misses

/-- A steal returns false only when the list is empty, when the owner is popping its only
entry, or when another call took an entry after the steal began. -/
theorem interfered_of_missed [DecidableEq τ] (capacity : ℕ) (ls : List (Label J τ))
    (hfirst : StartsWithPush ls) (hroom : RoomAtPushes capacity ls)
    (hcount : ls.countP Label.isPush < 2 ^ 64) (pre mid : List (Label J τ)) (i : τ)
    (hpre : pre ++ mid ++ [.thief i] <+: ls) (c₀ c c' : Config J τ) (es₀ es evs : List (Event J τ))
    (h₀ : step.exec (start capacity) pre = some (c₀, es₀)) (hidle : c₀.thieves i = .idle)
    (h : step.exec c₀ mid = some (c, es)) (hstep : step c (.thief i) = some (c', evs))
    (hfail : .returned .owner none ∉ es₀ ++ es) (hmiss : .returned (.thief i) none ∈ evs) :
    deque.after [] (calls (es₀ ++ es)) = [] ∨
      (∃ job, deque.after [] (calls (es₀ ++ es)) = [job] ∧ c.owner.waiting = [.pop]) ∨
        deliveredJobs es ≠ [] := by
  have hexec : step.exec (start capacity) (pre ++ mid) = some (c, es₀ ++ es) := by
    rw [Stepper.exec_append, h₀, Option.bind_some, h]
    rfl
  have hmid : pre ++ mid <+: ls := (List.prefix_append _ _).trans hpre
  rw [(replays_of_exec hfirst hroom hcount hmid hexec hfail).after]
  obtain ⟨t, ht, hmissed⟩ := (moved_of_step hstep).missed hmiss
  rcases loaded_of_exec h hidle with hloaded | hdelivered
  · obtain rfl := hloaded t ht
    rcases hmissed with hne | hle
    · exact absurd rfl hne
    · have hinv := (inv_of_exec hfirst hroom hcount hmid hexec hfail).1
      exact (hinv.popping hle).imp_right Or.inl
  · exact Or.inr (Or.inr hdelivered)

/-- Two thieves read the same entry, and the second comes away with nothing. -/
theorem interfered_of_missed_two :
    let pre : List (Label ℕ Bool) := [.push 7, .owner, .owner, .owner, .owner]
    let mid : List (Label ℕ Bool) := [.steal true, .thief true, .thief true, .thief true,
      .steal false, .thief false, .thief false, .thief false, .thief false]
    ∃ c₀ c : Config ℕ Bool, ∃ es₀ es, step.exec (start 1) pre = some (c₀, es₀) ∧
      step.exec c₀ mid = some (c, es) ∧
        (deque.after [] (calls (es₀ ++ es)) = [] ∨
          (∃ job, deque.after [] (calls (es₀ ++ es)) = [job] ∧ c.owner.waiting = [.pop]) ∨
            deliveredJobs es ≠ []) := by
  intro pre mid
  refine ⟨_, _, _, _, rfl, rfl, interfered_of_missed 1 (pre ++ mid ++ [.thief true]) ?first ?room
    (by decide) pre mid true List.prefix_rfl _ _ _ _ _ _ rfl rfl rfl rfl (by decide) (by decide)⟩
  case first =>
    intro pre' hpre
    obtain ⟨n, hn, rfl, hl⟩ := concat_prefix_iff.mp hpre
    cases n with
    | zero => cases hl
    | succ n => exact ⟨7, List.mem_cons_self⟩
  case room =>
    intro pre' job hpre c es h
    obtain ⟨n, hn, rfl, hl⟩ := concat_prefix_iff.mp hpre
    have hn : n < 15 := hn
    interval_cases n <;> cases hl
    cases h
    exact Nat.one_pos

end Jobrocket.QueueInterleaving
