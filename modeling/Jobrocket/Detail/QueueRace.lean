import Jobrocket.Detail.QueueDeliveryRuns

/-! # The race for the last jobs

One pop runs against any number of steals, from a queue that holds a job. The pop gives
`bottom_` back as the successor of the `top_` it saw. That is right when it won the last
job itself. Once a thief has won it, the observed `top_` is already the old `bottom_`, and
the value stored is one too high.
-/
namespace Jobrocket.QueueInterleaving
open Library FixedWorkStealingQueue
variable {J τ : Type*}

def Label.isPop : Label J τ → Bool
  | .pop => true
  | _ => false

def Event.isTake : Event J τ → Bool
  | .returned _ (some _) => true
  | _ => false

def Event.isStolen : Event J τ → Bool
  | .returned (.thief _) (some _) => true
  | _ => false

def Event.isPopped : Event J τ → Bool
  | .returned .owner _ => true
  | _ => false

def takes (evs : List (Event J τ)) : ℕ := evs.countP Event.isTake

def stolen (evs : List (Event J τ)) : ℕ := evs.countP Event.isStolen

/-- One while a pop is in progress. -/
def OwnerPC.popping : OwnerPC J → ℕ
  | .popDecrement => 1
  | pc => pc.pending

/-- The owner's load of `top_` finds the position it is popping not yet stolen, and so
does its exchange. -/
def Uncontested (c : Config J τ) : Prop :=
  match c.owner with
  | .popLoadTop b => c.queue.top ≤ b
  | .popExchange t _ => c.queue.top = t
  | _ => True

/-- The pop returns false, or is about to. -/
def Failing (c : Config J τ) (es : List (Event J τ)) : Prop :=
  (∃ t, c.owner = .popStore t none) ∨ .returned .owner none ∈ es

theorem stolen_lt_takes {evs : List (Event J τ)} {job : J}
    (h : .returned .owner (some job) ∈ evs) : stolen evs < takes evs := by
  have himp : ∀ e ∈ evs, Event.isStolen e = true → Event.isTake e = true := by
    intro e _ he
    cases e with
    | pushed job => exact he
    | delivered a job => exact he
    | returned a result =>
      cases a with
      | owner => cases he
      | thief i => cases result <;> exact he
  have hle : ∀ es : List (Event J τ), es ⊆ evs → stolen es ≤ takes es := fun es hes =>
    List.countP_mono_left fun e he => himp e (hes he)
  obtain ⟨xs, ys, rfl⟩ := List.append_of_mem h
  have hxs := hle xs (List.subset_append_left _ _)
  have hys := hle ys fun e he => List.mem_append_right _ (List.mem_cons_of_mem _ he)
  simp only [stolen, takes, List.countP_append, List.countP_cons, Event.isStolen, Event.isTake,
    if_true, Bool.false_eq_true, if_false] at hxs hys ⊢
  omega

variable [Inhabited J] [DecidableEq τ]

section Steps
variable {c c' : Config J τ} {l : Label J τ} {es evs : List (Event J τ)}

theorem Moved.takes (h : Moved c l c' evs) :
    c.owner.won.length + (deliveredJobs evs).length = takes evs + c'.owner.won.length := by
  cases h with
  | push job hidle => simp [hidle, OwnerPC.won, deliveredJobs, QueueInterleaving.takes]
  | pop hidle => simp [hidle, OwnerPC.won, deliveredJobs, QueueInterleaving.takes]
  | steal i hidle => simp [deliveredJobs, QueueInterleaving.takes]
  | owner hmove =>
    generalize c.owner = pc at hmove ⊢
    cases hmove <;>
      simp [OwnerPC.won, deliveredJobs, QueueInterleaving.takes, Event.job?, Event.isTake]
    next result => cases result <;> rfl
  | thief i hmove =>
    generalize c.thieves i = pc at hmove
    cases hmove <;>
      simp [deliveredJobs, QueueInterleaving.takes, Event.job?, Event.isTake, Nat.add_comm]

theorem Moved.popped (h : Moved c l c' evs) :
    evs.countP Event.isPopped + c'.owner.popping
      = c.owner.popping + if l.isPop then 1 else 0 := by
  cases h with
  | push job hidle => simp [hidle, OwnerPC.popping, OwnerPC.pending, Label.isPop]
  | pop hidle => simp [hidle, OwnerPC.popping, OwnerPC.pending, Label.isPop]
  | steal i hidle => simp [Label.isPop]
  | owner hmove =>
    generalize c.owner = pc at hmove ⊢
    cases hmove <;> simp [OwnerPC.popping, OwnerPC.pending, Label.isPop, Event.isPopped]
  | thief i hmove =>
    generalize c.thieves i = pc at hmove
    cases hmove <;> simp [Label.isPop, Event.isPopped]

theorem Moved.failing_iff (h : Moved c l c' evs) :
    Failing c' (es ++ evs) ↔ Failing c es ∨ (l = .owner ∧ ¬ Uncontested c) := by
  simp only [Failing, List.mem_append]
  cases h with
  | push job hidle => simp [hidle]
  | pop hidle => simp [hidle]
  | steal i hidle => simp
  | owner hmove =>
    unfold Uncontested
    generalize c.owner = pc at hmove ⊢
    cases hmove <;> simp_all
    next result => cases result <;> simp [or_comm]
  | thief i hmove =>
    generalize c.thieves i = pc at hmove
    cases hmove <;> simp

end Steps

section Overshot

/-- An index read earlier that can win only if the queue is not empty now. -/
def Stale (q : FixedWorkStealingQueue J) : ThiefPC J → Prop
  | .read t => t.toNat < q.bottom.toNat ∨ t.toNat < q.top.toNat
  | .exchange t _ => t.toNat < q.bottom.toNat ∨ t.toNat < q.top.toNat
  | _ => True

/-- The queue after a failed pop: `n` calls have returned true, and the indices do not
account for the `held` jobs at the start. -/
structure Overshot (held n : ℕ) (q : FixedWorkStealingQueue J) (thieves : τ → ThiefPC J) :
    Prop where
  count : (q.bottom.toNat : ℤ) - q.top.toNat + n ≠ held
  stale : ∀ i, Stale q (thieves i)

variable {q q' : FixedWorkStealingQueue J} {thieves : τ → ThiefPC J}

omit [DecidableEq τ] in
/-- Storing the successor of the observed `top_` after the last job is gone. -/
theorem Inv.overshot {capacity : ℕ} {L : Ledger J} {t : UInt64}
    (h : Inv capacity q (.popStore t none) thieves L) :
    L.jobs = [] ∧ ∀ held, Overshot held held { q with bottom := t + 1 } thieves := by
  obtain ⟨htop, rfl⟩ := h.owner_ok
  refine ⟨?_, fun held => ⟨?_, fun i => ?_⟩⟩
  · rw [← h.live]
    change window q.slot q.top.toNat (q.bottom.toNat + 1) = []
    rw [← htop, window_self]
  · have hne : (q.top + 1).toNat ≠ q.top.toNat := by
      have hlt := q.top.toNat_lt
      rw [UInt64.toNat_add, UInt64.toNat_one]
      omega
    change ((q.top + 1).toNat : ℤ) - q.top.toNat + held ≠ held
    omega
  · have hok : ThiefOk q (q.bottom.toNat + 1) (thieves i) := h.thief_ok i
    generalize thieves i = pc at hok
    cases pc with
    | idle => trivial
    | loadTop => trivial
    | loadBottom t => trivial
    | read t => exact Or.inr (htop ▸ hok.2)
    | exchange t target => exact Or.inr (htop ▸ hok.2.1)

omit [Inhabited J] in
theorem Overshot.thief_local {held n : ℕ} (h : Overshot held n q thieves) {i : τ}
    {pc : ThiefPC J} (hpc : Stale q pc) :
    Overshot held n q (Function.update thieves i pc) := by
  refine ⟨h.count, fun k => ?_⟩
  by_cases hk : k = i
  · subst hk
    rw [Function.update_self]
    exact hpc
  · rw [Function.update_of_ne hk]
    exact h.stale k

/-- The steals that follow do not repair the count. -/
theorem Overshot.thiefMove {held n : ℕ} {i : τ} {pc pc' : ThiefPC J} {evs : List (Event J τ)}
    (h : Overshot held n q thieves) (hi : thieves i = pc) (hmove : ThiefMove i q pc q' pc' evs) :
    Overshot held (n + (deliveredJobs evs).length) q' (Function.update thieves i pc') := by
  have hstale := hi ▸ h.stale i
  cases hmove with
  | loadTop => exact h.thief_local trivial
  | loadBottom t hlt => exact h.thief_local (Or.inl (UInt64.lt_iff_toNat_lt.mp hlt))
  | empty t hlt => exact h.thief_local trivial
  | read t => exact h.thief_local hstale
  | win target =>
    have hlt : q.top.toNat < q.bottom.toNat := hstale.resolve_right (lt_irrefl _)
    have hsucc := toNat_add_one_of_lt (UInt64.lt_iff_toNat_lt.mpr hlt)
    have hcount := h.count
    have hwon : Overshot held (n + 1) { q with top := q.top + 1 } thieves := by
      refine ⟨?_, fun k => ?_⟩
      · change (q.bottom.toNat : ℤ) - (q.top + 1).toNat + (n + 1 : ℕ) ≠ held
        omega
      · have hk := h.stale k
        generalize thieves k = pc at hk
        cases pc with
        | idle => trivial
        | loadTop => trivial
        | loadBottom t => trivial
        | read t => exact hk.imp_right fun h => by dsimp only; omega
        | exchange t target => exact hk.imp_right fun h => by dsimp only; omega
    exact hwon.thief_local trivial
  | lose t target hne => exact h.thief_local trivial

end Overshot

section Runs
variable {q : FixedWorkStealingQueue J} {ls pre : List (Label J τ)} {c : Config J τ}
variable {es : List (Event J τ)}

theorem takes_of_exec (h : step.exec (quiescent q) pre = some (c, es)) :
    (deliveredJobs es).length = takes es + c.owner.won.length := by
  refine Stepper.exec_induction (I := fun _ c es =>
    (deliveredJobs es).length = takes es + c.owner.won.length) rfl ?_ List.prefix_rfl h
  intro pre l c es c' fs _ _ ih hstep
  have hmoved := (moved_of_step hstep).takes
  rw [takes, deliveredJobs, List.countP_append, List.filterMap_append, List.length_append]
  change (deliveredJobs es).length + (deliveredJobs fs).length = takes es + takes fs + _
  omega

theorem popped_of_exec (h : step.exec (quiescent q) pre = some (c, es)) :
    es.countP Event.isPopped + c.owner.popping = pre.countP Label.isPop := by
  refine Stepper.exec_induction (I := fun pre c es =>
    es.countP Event.isPopped + c.owner.popping = pre.countP Label.isPop) rfl ?_ List.prefix_rfl h
  intro pre l c es c' fs _ _ ih hstep
  have hmoved := (moved_of_step hstep).popped
  rw [List.countP_append, List.countP_append, List.countP_singleton]
  omega

def NeverContested (q : FixedWorkStealingQueue J) (ls : List (Label J τ)) : Prop :=
  ∀ pre, pre ++ [.owner] <+: ls → ∀ c es, step.exec (quiescent q) pre = some (c, es) →
    Uncontested c

theorem failing_iff_of_exec (h : step.exec (quiescent q) ls = some (c, es)) :
    Failing c es ↔ ¬ NeverContested q ls := by
  refine Stepper.exec_induction (I := fun pre c es => Failing c es ↔ ¬ NeverContested q pre)
    ?_ ?_ List.prefix_rfl h
  · simp [Failing, quiescent, NeverContested]
  · intro pre l c es c' fs _ hexec ih hstep
    rw [(moved_of_step hstep).failing_iff, ih]
    constructor
    · rintro (hbad | ⟨rfl, hbad⟩) hnever
      · exact hbad fun p hp => hnever p (hp.trans (List.prefix_append _ _))
      · exact hbad (hnever pre List.prefix_rfl c es hexec)
    · intro hbad
      by_contra hgood
      rw [not_or, not_not] at hgood
      refine hbad fun p hp d ds hd => ?_
      rcases concat_prefix_concat_cases hp with hp | ⟨rfl, rfl⟩
      · exact hgood.1 p hp d ds hd
      · rw [hexec] at hd
        cases hd
        exact not_not.mp fun hc => hgood.2 ⟨rfl, hc⟩

omit [DecidableEq τ] in
theorem resume_length (h : q.top.toNat ≤ q.bottom.toNat) :
    (Ledger.resume q.top.toNat q.entries).pushed.length = q.bottom.toNat := by
  rw [Ledger.resume_pushed, List.length_append, List.length_replicate, entries, window_length]
  omega

omit [DecidableEq τ] in
theorem inv_quiescent (h : q.top < q.bottom) :
    Inv q.capacity q .idle (fun _ : τ => .idle) (.resume q.top.toNat q.entries) := by
  have hlt := UInt64.lt_iff_toNat_lt.mp h
  constructor
  case capacity_eq => rfl
  case top_le => exact hlt.le
  case bottom_le =>
    change q.bottom.toNat ≤ _
    rw [resume_length]
    omega
  case bottom_pos => exact fun _ => (Nat.zero_le _).trans_lt hlt
  case live => exact (Ledger.jobs_resume _ _).symm
  case owner_ok => trivial
  case thief_ok => exact fun _ => trivial

/-- Up to the failure of its pop a run from a quiescent queue keeps its account. -/
theorem inv_of_race (hq : q.top < q.bottom) (hpush : ∀ job, .push job ∉ ls) (hpre : pre <+: ls)
    (h : step.exec (quiescent q) pre = some (c, es)) (hfail : .returned .owner none ∉ es) :
    ∃ L : Ledger J, Inv q.capacity c.queue c.owner c.thieves L ∧
      L.pushed.length = q.bottom.toNat ∧
      L.taken.length = q.top.toNat + (deliveredJobs es).length := by
  have hlt := UInt64.lt_iff_toNat_lt.mp hq
  have hnone : ls.countP Label.isPush = 0 := by
    refine List.countP_eq_zero.mpr fun l hl => ?_
    cases l with
    | push job => exact absurd hl (hpush job)
    | _ => exact Bool.false_ne_true
  have hlen := resume_length hlt.le
  have hbottom := q.bottom.toNat_lt
  obtain ⟨hinv, hdel⟩ := (inv_quiescent hq).of_exec (by omega)
    (fun pre job hp => absurd (hp.subset (List.mem_append_right _ (List.mem_singleton_self _)))
      (hpush job)) (by omega) hpre h hfail
  refine ⟨_, hinv, ?_, ?_⟩
  · have hpushed := pushed_of_exec h
    have hle : pre.countP Label.isPush ≤ ls.countP Label.isPush := hpre.sublist.countP_le
    rw [foldl_record_pushed, List.length_append]
    omega
  · have hcount := congrArg List.length hdel
    simpa [Ledger.deliveries] using hcount

theorem Inv.overshoots {capacity : ℕ} {L : Ledger J} {c' : Config J τ} {l : Label J τ}
    {evs : List (Event J τ)} (h : Inv capacity c.queue c.owner c.thieves L)
    (hmoved : Moved c l c' evs) (hfail : .returned .owner none ∈ evs) :
    c'.owner = .idle ∧ deliveredJobs evs = [] ∧ L.jobs = [] ∧
      ∀ held, Overshot held held c'.queue c'.thieves := by
  cases hmoved with
  | push job hfree => cases hfail
  | pop hfree => cases hfail
  | steal i hfree => cases hfail
  | thief i hmove =>
    generalize c.thieves i = pc at hmove
    cases hmove <;> simp at hfail
  | owner hmove =>
    obtain ⟨d, pc, thieves⟩ := c
    dsimp only at hmove h ⊢
    cases hmove <;> simp at hfail
    next t result =>
    subst hfail
    exact ⟨rfl, rfl, h.overshot⟩

/-- No step but the beginning of a further call of the owner changes that. -/
theorem Overshot.moved {held n : ℕ} {c' : Config J τ} {l : Label J τ} {evs : List (Event J τ)}
    (h : Overshot held n c.queue c.thieves) (hidle : c.owner = .idle) (hmoved : Moved c l c' evs)
    (hpush : ∀ job, l ≠ .push job) (hpop : l ≠ .pop) :
    c'.owner = .idle ∧ Overshot held (n + (deliveredJobs evs).length) c'.queue c'.thieves := by
  cases hmoved with
  | push job hfree => exact absurd rfl (hpush job)
  | pop hfree => exact absurd rfl hpop
  | owner hmove =>
    rw [hidle] at hmove
    cases hmove
  | steal i hfree => exact ⟨hidle, h.thief_local trivial⟩
  | thief i hmove => exact ⟨hidle, h.thiefMove rfl hmove⟩

theorem overshot_of_exec (hq : q.top < q.bottom) (hpush : ∀ job, .push job ∉ ls)
    (hpop : ls.countP Label.isPop ≤ 1) (hpre : pre <+: ls)
    (h : step.exec (quiescent q) pre = some (c, es)) (hfail : .returned .owner none ∈ es) :
    c.owner = .idle ∧ Overshot (q.bottom.toNat - q.top.toNat) (deliveredJobs es).length
      c.queue c.thieves := by
  revert hfail
  refine Stepper.exec_induction (I := fun _ c es => .returned .owner none ∈ es →
    c.owner = .idle ∧ Overshot (q.bottom.toNat - q.top.toNat) (deliveredJobs es).length
      c.queue c.thieves) ?_ ?_ hpre h
  · exact fun hmem => absurd hmem List.not_mem_nil
  · intro pre l c es c' fs hl hexec ih hstep hmem
    have hmoved := moved_of_step hstep
    have hcalled := hl.subset (List.mem_append_right _ (List.mem_singleton_self l))
    rw [deliveredJobs, List.filterMap_append, List.length_append]
    change _ ∧ Overshot _ ((deliveredJobs es).length + (deliveredJobs fs).length) _ _
    by_cases hes : .returned .owner none ∈ es
    · obtain ⟨hidle, hover⟩ := ih hes
      refine hover.moved hidle hmoved (fun job hl' => hpush job (hl' ▸ hcalled)) ?_
      -- the one pop of the run has already returned
      rintro rfl
      have hpopped := popped_of_exec hexec
      have hpos : 0 < es.countP Event.isPopped := List.countP_pos_iff.mpr ⟨_, hes, rfl⟩
      have hle : (pre ++ [Label.pop]).countP Label.isPop ≤ ls.countP Label.isPop :=
        hl.sublist.countP_le
      simp only [List.countP_append, List.countP_singleton, Label.isPop, if_true] at hle
      omega
    · have hfs := (List.mem_append.mp hmem).resolve_left hes
      obtain ⟨L, hinv, hpushed, htaken⟩ := inv_of_race hq hpush
        ((List.prefix_append pre [l]).trans hl) hexec hes
      obtain ⟨hidle, hnothing, hnone, hover⟩ := hinv.overshoots hmoved hfs
      have hall := L.waiting_length_add_taken_length
      have hzero : L.waiting.length = 0 := by simpa [Ledger.jobs] using congrArg List.length hnone
      have hheld : q.bottom.toNat - q.top.toNat = (deliveredJobs es).length := by omega
      rw [hheld, hnothing]
      exact ⟨hidle, hover _⟩

end Runs

/-- Once all calls have returned, the indices have lost one position for every call that
returned true. If the thieves took every job, each later pop, steal and `empty` finds the
queue empty. -/
structure Conserves (q : FixedWorkStealingQueue J) (c : Config J τ) (evs : List (Event J τ)) :
    Prop where
  count : (c.queue.bottom.toNat : ℤ) - c.queue.top.toNat
    = q.bottom.toNat - q.top.toNat - takes evs
  emptied : stolen evs = q.bottom.toNat - q.top.toNat → ∀ calls : List (Call J),
    (∀ job, .push job ∉ calls) → ∀ ans ∈ machine.results c.queue calls,
      ans = .taken none ∨ ans = .isEmpty true

/-- One pop and any number of steals conserve the count exactly if, where the pop loads `top_`, its
position has not been stolen, and where it goes on to the exchange, `top_` is as it loaded it. -/
theorem conserves_iff (q : FixedWorkStealingQueue J) (hq : q.top < q.bottom)
    (ls : List (Label J τ)) (hpush : ∀ job, .push job ∉ ls) (hpop : ls.countP Label.isPop = 1)
    (c : Config J τ) (evs : List (Event J τ)) (h : step.exec (quiescent q) ls = some (c, evs))
    (howner : c.owner = .idle) : Conserves q c evs ↔ NeverContested q ls := by
  have hlt := UInt64.lt_iff_toNat_lt.mp hq
  have hfailing := failing_iff_of_exec h
  have htakes := takes_of_exec h
  have hpopped := popped_of_exec h
  simp only [howner, OwnerPC.won, OwnerPC.popping, OwnerPC.pending, List.length_nil,
    Nat.add_zero] at htakes hpopped
  by_cases hfail : .returned .owner none ∈ evs
  · obtain ⟨-, hover⟩ := overshot_of_exec hq hpush hpop.le List.prefix_rfl h hfail
    refine iff_of_false (fun hc => hover.count ?_) (hfailing.mp (Or.inr hfail))
    have hcount := hc.count
    omega
  · have hnot : ¬ Failing c evs := by simp [Failing, howner, hfail]
    refine iff_of_true ?_ (not_not.mp fun hn => hnot (hfailing.mpr hn))
    obtain ⟨L, hinv, hpushed, htaken⟩ := inv_of_race hq hpush List.prefix_rfl h hfail
    have hall := L.waiting_length_add_taken_length
    have hlive := congrArg List.length hinv.live
    have htop := hinv.top_le
    simp only [howner, OwnerPC.pending, OwnerPC.contested, Nat.add_zero, window_length,
      Ledger.jobs, List.length_map] at hlive htop
    obtain ⟨e, he, hret⟩ := List.countP_pos_iff.mp (show 0 < evs.countP Event.isPopped by omega)
    -- the pop returned a job, so the thieves did not take every job
    have hown : stolen evs < takes evs := by
      cases e with
      | pushed job => cases hret
      | delivered a job => cases hret
      | returned a result =>
        cases a with
        | thief i => cases hret
        | owner =>
          cases result with
          | none => exact absurd he hfail
          | some job => exact stolen_lt_takes he
    exact ⟨by omega, fun hstolen => by omega⟩

/-- The owner's exchange comes before the thief's. -/
theorem conserves_iff_owner_first :
    let q := (fresh ℕ 1).push 7
    let ls : List (Label ℕ Unit) := [.steal (), .thief (), .thief (), .thief (), .pop, .owner,
      .owner, .owner, .owner, .thief (), .owner]
    ∃ c evs, step.exec (quiescent q) ls = some (c, evs) ∧
      (Conserves q c evs ↔ NeverContested q ls) := by
  refine ⟨_, _, rfl, ?_⟩
  exact conserves_iff _ (by decide) _ (by simp) (by decide) _ _ rfl rfl

/-- The thief's exchange comes between the owner's decrement and its load of `top_`: the
queue is left with one position too many, and a later steal returns the job again. -/
theorem thief_first_not_conserves :
    let q := (fresh ℕ 1).push 7
    let ls : List (Label ℕ Unit) := [.steal (), .thief (), .thief (), .thief (), .pop, .owner,
      .thief (), .owner, .owner]
    q.top < q.bottom ∧ q.bottom.toNat ≤ q.top.toNat + q.capacity ∧ (∀ job, .push job ∉ ls) ∧
      ls.countP Label.isPop = 1 ∧
      ∃ c evs, step.exec (quiescent q) ls = some (c, evs) ∧ c.owner = .idle ∧
        (∀ i, c.thieves i = .idle) ∧ takes evs = 1 ∧ c.queue.top = 1 ∧ c.queue.bottom = 2 ∧
        c.queue.empty = false ∧ c.queue.steal.1 = some 7 ∧ ¬ Conserves q c evs := by
  refine ⟨by decide, by decide, by simp, by decide, _, _, rfl, ?_⟩
  refine ⟨rfl, fun _ => rfl, rfl, rfl, rfl, rfl, rfl, fun h => absurd h.count ?_⟩
  decide
end Jobrocket.QueueInterleaving
