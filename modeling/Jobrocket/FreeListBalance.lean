import Jobrocket.FreeListInterleaving
import Mathlib.Data.List.GetD

/-! # The slots of a free list while calls are in progress

A slot is either filled, or claimed by a worker that has moved `next_` and not yet
written. As long as every write of `next_` finds the value its call read, every worker
finds its slot null and the owner finds its slot filled, the filled and the claimed slots
are the slots below `next_`, together with the one that the owner is emptying.
-/
namespace Jobrocket.FreeList

/-- The jobs in the slots, behind `next_` too. -/
def contents (fl : FreeList) : Multiset ℕ := (fl.elements : Multiset ℕ).filter (· ≠ nullptr)

def Filled (fl : FreeList) (p : ℕ) : Prop := fl.elements.getD p nullptr ≠ nullptr

instance (fl : FreeList) (p : ℕ) : Decidable (fl.Filled p) := inferInstanceAs (Decidable (_ ≠ _))

section Slots
variable {fl : FreeList} {n p job : ℕ}

theorem Filled.lt (h : fl.Filled p) : p < fl.elements.length := by
  by_contra hp
  exact h (List.getD_eq_default _ _ (not_lt.mp hp))

theorem filled_set_ne (h : p ≠ n) (x next : ℕ) :
    Filled { fl with next := next, elements := fl.elements.set n x } p ↔ fl.Filled p := by
  simp [Filled, List.getD_eq_getElem?_getD, List.getElem?_set_ne h.symm]

theorem filled_set_self (h : n < fl.elements.length) (x next : ℕ) :
    Filled { fl with next := next, elements := fl.elements.set n x } n ↔ x ≠ nullptr := by
  simp [Filled, List.getD_eq_getElem?_getD, h]

theorem cons_contents_set (h : n < fl.elements.length) (x : ℕ) :
    Multiset.filter (· ≠ nullptr) {fl.elements.getD n nullptr} +
        contents { fl with elements := fl.elements.set n x } =
      Multiset.filter (· ≠ nullptr) {x} + fl.contents := by
  have hold := List.getElem_cons_eraseIdx_perm h
  have hnew := (List.set_perm_cons_eraseIdx h x).cons fl.elements[n]
  have hperm : (fl.elements[n] :: fl.elements.set n x).Perm (x :: fl.elements) :=
    hnew.trans ((List.Perm.swap _ _ _).trans (hold.cons x))
  have hcoe := congrArg (Multiset.filter (· ≠ nullptr)) (Multiset.coe_eq_coe.mpr hperm)
  rw [← Multiset.cons_coe, ← Multiset.cons_coe, ← Multiset.singleton_add, ← Multiset.singleton_add,
    Multiset.filter_add, Multiset.filter_add] at hcoe
  rwa [List.getD_eq_getElem _ _ h]

theorem contents_store (h : n < fl.elements.length) (hnull : ¬ fl.Filled n) (hjob : job ≠ nullptr) :
    contents { fl with elements := fl.elements.set n job } = {job} + fl.contents := by
  have hset := cons_contents_set h job
  rw [not_not.mp hnull, Multiset.filter_singleton, Multiset.filter_singleton, if_neg (by simp),
    if_pos hjob] at hset
  simpa using hset

theorem contents_clear (h : fl.elements.getD n nullptr = job) (hjob : job ≠ nullptr) :
    {job} + contents { fl with elements := fl.elements.set n nullptr } = fl.contents := by
  have hfill : fl.Filled n := by rwa [Filled, h]
  have hset := cons_contents_set hfill.lt nullptr
  rw [h, Multiset.filter_singleton, Multiset.filter_singleton, if_pos hjob, if_neg (by simp)] at hset
  simpa using hset

/-- Of a list whose filled slots are the ones below `next_`, the entries are all jobs. -/
theorem contents_eq_entries (h : ∀ p, fl.Filled p ↔ p < fl.next) : fl.contents = fl.entries := by
  have hfront : ∀ x ∈ fl.elements.take fl.next, x ≠ nullptr := by
    intro x hx
    obtain ⟨p, hp, rfl⟩ := List.mem_take_iff_getElem.mp hx
    have hfill := (h p).mpr (lt_of_lt_of_le hp (min_le_left _ _))
    rwa [Filled, List.getD_eq_getElem _ _ (lt_of_lt_of_le hp (min_le_right _ _))] at hfill
  have hback : ∀ x ∈ fl.elements.drop fl.next, ¬ x ≠ nullptr := by
    intro x hx
    obtain ⟨p, hp, rfl⟩ := List.mem_drop_iff_getElem.mp hx
    have hfill := mt (h (fl.next + p)).mp (by omega)
    rwa [Filled, List.getD_eq_getElem _ _ (by omega)] at hfill
  have hsplit : fl.elements.filter (· ≠ nullptr) = fl.entries := by
    conv_lhs => rw [← List.take_append_drop fl.next fl.elements, List.filter_append]
    rw [List.filter_eq_self.mpr (by simpa using hfront),
      List.filter_eq_nil_iff.mpr (by simpa using hback), List.append_nil]
    rfl
  rw [contents, Multiset.filter_coe, hsplit]

/-- The slots of a list that is not in use. -/
theorem Clean.filled_iff (h : fl.Clean) (hle : fl.next ≤ fl.elements.length)
    (hnull : nullptr ∉ fl.entries) (p : ℕ) : fl.Filled p ↔ p < fl.next := by
  constructor
  · intro hfill
    by_contra hp
    exact hfill (h p (not_lt.mp hp))
  · intro hp heq
    refine hnull (heq ▸ List.mem_take_iff_getElem.mpr ⟨p, by omega, ?_⟩)
    rw [List.getD_eq_getElem _ _ (by omega)]

end Slots

end Jobrocket.FreeList

namespace Jobrocket.FreeListInterleaving
open Library Memory FreeList

def WorkerPC.held : WorkerPC → Multiset ℕ
  | .idle => 0
  | .readNext job | .writeNext job _ | .writeElement job _ => {job}

/-- The slot that a worker has claimed and not yet written. -/
def WorkerPC.slot : WorkerPC → Multiset ℕ
  | .writeElement _ n => {n}
  | _ => 0

def OwnerPC.slot : OwnerPC → Multiset ℕ
  | .readElement n | .writeNull n _ => {n}
  | _ => 0

/-- What the owner has seen is still so. -/
def OwnerPC.Ok (fl : FreeList) : OwnerPC → Prop
  | .readZero => fl.next ≠ 0
  | .writeNull n job => fl.elements.getD n nullptr = job ∧ job ≠ nullptr
  | _ => True

variable {τ : Type*}

/-- The condition on a step: a write of `next_` finds the value its call read, a worker
finds its slot null, and the owner finds its slot filled. -/
def Unraced (c : Config τ) : Label τ → Prop
  | .worker w =>
    match c.workers w with
    | .writeNext _ n => c.list.next = n
    | .writeElement _ n => c.list.elements.getD n nullptr = nullptr
    | _ => True
  | .owner =>
    match c.owner with
    | .writeNext n => c.list.next = n + 1
    | .readElement n => c.list.elements.getD n nullptr ≠ nullptr
    | _ => True
  | _ => True

def Label.job : Label τ → List ℕ
  | .free _ job => [job]
  | _ => []

/-- The jobs that a run frees, in the order in which the calls begin. -/
def freed (ls : List (Label τ)) : List ℕ := ls.flatMap Label.job

/-- Of `jobs`, each is in a slot, recycled or held by a worker, and the slots below
`next_` are filled or claimed. -/
structure Balanced (capacity : ℕ) (jobs recycled : Multiset ℕ) (fl : FreeList) (owner : OwnerPC)
    (held claimed : Multiset ℕ) : Prop where
  length_eq : fl.elements.length = capacity
  next_le : fl.next ≤ capacity
  jobs_eq : fl.contents + recycled + held = jobs
  slots : ∀ p, (if fl.Filled p then 1 else 0) + claimed.count p =
    (if p < fl.next then 1 else 0) + owner.slot.count p
  total : fl.contents.card + claimed.card = fl.next + owner.slot.card
  claimed_lt : ∀ p ∈ claimed, p < capacity
  owner_ok : owner.Ok fl

namespace Balanced
variable {capacity : ℕ} {jobs recycled held claimed : Multiset ℕ} {fl : FreeList}
variable {owner : OwnerPC} {job n : ℕ}

/-- There is a slot for every job in the hands of the workers. -/
theorem room (h : Balanced capacity jobs recycled fl owner held claimed)
    (hfits : jobs.card ≤ capacity) (hlt : claimed.card < held.card) : fl.next < capacity := by
  have htotal := h.total
  have hcard := congrArg Multiset.card h.jobs_eq
  rw [Multiset.card_add, Multiset.card_add] at hcard
  omega

theorem free (h : Balanced capacity jobs recycled fl owner held claimed) (job : ℕ) :
    Balanced capacity (jobs + {job}) recycled fl owner (held + {job}) claimed :=
  { h with jobs_eq := by rw [← h.jobs_eq, add_assoc _ held] }

theorem claim (h : Balanced capacity jobs recycled fl owner held claimed)
    (hroom : fl.next < capacity) :
    Balanced capacity jobs recycled { fl with next := fl.next + 1 } owner held
      (claimed + {fl.next}) := by
  constructor
  case length_eq => exact h.length_eq
  case next_le => exact hroom
  case jobs_eq => exact h.jobs_eq
  case slots =>
    intro p
    have hp := h.slots p
    rw [Multiset.count_add, Multiset.count_singleton, ← add_assoc]
    apply (congrArg (· + if p = fl.next then 1 else 0) hp).trans
    dsimp only
    split_ifs <;> omega
  case total =>
    have htotal := h.total
    rw [Multiset.card_add, Multiset.card_singleton, ← add_assoc]
    exact (congrArg (· + 1) htotal).trans (add_right_comm _ _ _)
  case claimed_lt =>
    intro p hp
    rcases Multiset.mem_add.mp hp with hp | hp
    · exact h.claimed_lt p hp
    · rwa [Multiset.mem_singleton.mp hp]
  case owner_ok =>
    have hok := h.owner_ok
    cases owner with
    | readZero => exact Nat.succ_ne_zero _
    | writeNull m job => exact hok
    | _ => trivial

theorem store (h : Balanced capacity jobs recycled fl owner (held + {job}) (claimed + {n}))
    (hjob : job ≠ nullptr) (hslot : ¬ fl.Filled n) :
    Balanced capacity jobs recycled { fl with elements := fl.elements.set n job } owner held
      claimed := by
  have hlt : n < fl.elements.length := h.length_eq ▸ h.claimed_lt n (by simp)
  have hcontents := contents_store hlt hslot hjob
  constructor
  case length_eq => exact List.length_set.trans h.length_eq
  case next_le => exact h.next_le
  case jobs_eq =>
    rw [← h.jobs_eq, hcontents]
    abel
  case slots =>
    intro p
    have hp := h.slots p
    rw [Multiset.count_add, Multiset.count_singleton] at hp
    by_cases hpn : p = n
    · subst hpn
      rw [if_neg hslot, if_pos rfl] at hp
      rw [if_pos ((filled_set_self hlt job _).mpr hjob), ← hp]
      omega
    · rw [if_neg hpn] at hp
      simpa only [filled_set_ne hpn, add_zero] using hp
  case total =>
    have htotal := h.total
    rw [Multiset.card_add, Multiset.card_singleton] at htotal
    rw [hcontents, Multiset.card_add, Multiset.card_singleton, ← htotal]
    omega
  case claimed_lt => exact fun p hp => h.claimed_lt p (Multiset.mem_add.mpr (Or.inl hp))
  case owner_ok =>
    have hok := h.owner_ok
    cases owner with
    | writeNull m held =>
      -- the owner has not emptied its slot yet, so no worker can have found it null
      have hne : n ≠ m := fun heq => hslot (by rw [Filled, heq, hok.1]; exact hok.2)
      refine ⟨?_, hok.2⟩
      rw [← hok.1, List.getD_eq_getElem?_getD, List.getElem?_set_ne hne, List.getD_eq_getElem?_getD]
    | readZero => exact hok
    | _ => trivial

theorem ownerTurn (h : Balanced capacity jobs recycled fl owner held claimed) {owner' : OwnerPC}
    (hslot : owner'.slot = owner.slot) (hok : owner'.Ok fl) :
    Balanced capacity jobs recycled fl owner' held claimed :=
  { h with slots := by rw [hslot]; exact h.slots, total := by rw [hslot]; exact h.total,
           owner_ok := hok }

theorem decrement (h : Balanced capacity jobs recycled fl (.writeNext n) held claimed)
    (hnext : fl.next = n + 1) :
    Balanced capacity jobs recycled { fl with next := n } (.readElement n) held claimed := by
  constructor
  case length_eq => exact h.length_eq
  case next_le => exact (Nat.le_succ n).trans (hnext.symm.le.trans h.next_le)
  case jobs_eq => exact h.jobs_eq
  case slots =>
    intro p
    apply (h.slots p).trans
    simp only [OwnerPC.slot, Multiset.count_singleton, Multiset.count_zero, hnext]
    split_ifs <;> omega
  case total => exact h.total.trans hnext
  case claimed_lt => exact h.claimed_lt
  case owner_ok => trivial

theorem recycle (h : Balanced capacity jobs recycled fl (.writeNull n job) held claimed) :
    Balanced capacity jobs (recycled + {job}) { fl with elements := fl.elements.set n nullptr }
      .readEmpty held claimed := by
  obtain ⟨hslot, hjob⟩ := h.owner_ok
  have hfill : fl.Filled n := by rwa [Filled, hslot]
  have hcontents := contents_clear hslot hjob
  constructor
  case length_eq => exact List.length_set.trans h.length_eq
  case next_le => exact h.next_le
  case jobs_eq =>
    rw [← h.jobs_eq, ← hcontents]
    abel
  case slots =>
    intro p
    have hp := h.slots p
    simp only [OwnerPC.slot, Multiset.count_singleton] at hp
    by_cases hpn : p = n
    · subst hpn
      rw [if_pos hfill, if_pos rfl] at hp
      rw [if_neg ((filled_set_self hfill.lt _ _).not_left.mpr (by simp))]
      simp only [OwnerPC.slot, Multiset.count_zero]
      omega
    · rw [if_neg hpn] at hp
      simpa only [filled_set_ne hpn, OwnerPC.slot, Multiset.count_zero] using hp
  case total =>
    have htotal := h.total
    rw [← hcontents, Multiset.card_add, Multiset.card_singleton] at htotal
    simp only [OwnerPC.slot, Multiset.card_singleton, Multiset.card_zero] at htotal ⊢
    omega
  case claimed_lt => exact h.claimed_lt
  case owner_ok => trivial

theorem start (hclean : fl.Clean) (hle : fl.next ≤ fl.elements.length)
    (hnull : nullptr ∉ fl.entries) :
    Balanced fl.elements.length fl.entries 0 fl .idle 0 0 := by
  have hfilled := hclean.filled_iff hle hnull
  have hcontents := contents_eq_entries hfilled
  constructor
  case length_eq => rfl
  case next_le => exact hle
  case jobs_eq => rw [hcontents, add_zero, add_zero]
  case slots =>
    intro p
    simp only [hfilled p, OwnerPC.slot, Multiset.count_zero]
  case total =>
    rw [hcontents, Multiset.coe_card, entries_length hle]
    rfl
  case claimed_lt => exact fun p hp => absurd hp (Multiset.notMem_zero p)
  case owner_ok => trivial

theorem filled_iff (h : Balanced capacity jobs recycled fl .idle 0 0) (p : ℕ) :
    fl.Filled p ↔ p < fl.next := by
  have hslots := h.slots p
  simp only [OwnerPC.slot, Multiset.count_zero, add_zero] at hslots
  split at hslots <;> split at hslots <;> simp_all

theorem entries_add (h : Balanced capacity jobs recycled fl .idle 0 0) :
    (fl.entries : Multiset ℕ) + recycled = jobs := by
  rw [← h.jobs_eq, add_zero, contents_eq_entries h.filled_iff]

end Balanced

section Steps
variable [Fintype τ] {capacity : ℕ} {jobs recycled : Multiset ℕ} {c c' : Config τ} {w : τ}
variable {workers : τ → WorkerPC} {pc : WorkerPC} {job n : ℕ}

def held (workers : τ → WorkerPC) : Multiset ℕ := ∑ w, (workers w).held

def claimed (workers : τ → WorkerPC) : Multiset ℕ := ∑ w, (workers w).slot

theorem mem_held_of (h : (workers w).held = {job}) : job ∈ held workers :=
  Multiset.mem_sum.mpr ⟨w, Finset.mem_univ w, by simp [h]⟩

/-- A worker that has not claimed a slot yet holds a job more than there are claims. -/
theorem claimed_lt_held (hslot : (workers w).slot = 0) (hheld : (workers w).held = {job}) :
    (claimed workers).card < (held workers).card := by
  rw [claimed, held, Multiset.card_sum, Multiset.card_sum]
  refine Finset.sum_lt_sum (fun v _ => ?_) ⟨w, Finset.mem_univ w, by simp [hslot, hheld]⟩
  cases workers v <;> simp [WorkerPC.slot, WorkerPC.held]

theorem held_of_idle (h : ∀ w, workers w = .idle) : held workers = 0 :=
  Finset.sum_eq_zero fun w _ => by rw [h w]; rfl

theorem claimed_of_idle (h : ∀ w, workers w = .idle) : claimed workers = 0 :=
  Finset.sum_eq_zero fun w _ => by rw [h w]; rfl

variable [DecidableEq τ]

theorem held_update (workers : τ → WorkerPC) (w : τ) (pc : WorkerPC) :
    held (Function.update workers w pc) + (workers w).held = held workers + pc.held :=
  sum_update_add _ _ _ _

theorem claimed_update (workers : τ → WorkerPC) (w : τ) (pc : WorkerPC) :
    claimed (Function.update workers w pc) + (workers w).slot = claimed workers + pc.slot :=
  sum_update_add _ _ _ _

theorem balanced_workerMove {fl : FreeList} {pc' : WorkerPC}
    (h : Balanced capacity jobs recycled c.list c.owner (held c.workers) (claimed c.workers))
    (hnull : nullptr ∉ jobs) (hfits : jobs.card ≤ capacity) (hw : c.workers w = pc)
    (hraced : Unraced c (.worker w)) (hmove : WorkerMove c.list pc fl pc') :
    Balanced capacity jobs recycled fl c.owner (held (Function.update c.workers w pc'))
      (claimed (Function.update c.workers w pc')) := by
  have hheld := held_update c.workers w pc'
  have hslot := claimed_update c.workers w pc'
  rw [hw] at hheld hslot
  rw [Unraced, hw] at hraced
  cases hmove with
  | readNext job =>
    rw [add_right_cancel hheld, add_right_cancel hslot]
    exact h
  | writeNext job n =>
    subst hraced
    have hnone : (c.workers w).slot = 0 := by rw [hw]; rfl
    have hjob : (c.workers w).held = {job} := by rw [hw]; rfl
    have hroom := h.room hfits (claimed_lt_held hnone hjob)
    have hclaimed : claimed (Function.update c.workers w (.writeElement job c.list.next)) =
        claimed c.workers + {c.list.next} := (add_zero _).symm.trans hslot
    rw [add_right_cancel hheld, hclaimed]
    exact h.claim hroom
  | writeElement job n =>
    have hmem : job ∈ held c.workers := mem_held_of (w := w) (by rw [hw]; rfl)
    have hjob : job ≠ nullptr := by
      rintro rfl
      exact hnull (h.jobs_eq ▸ Multiset.mem_add.mpr (Or.inr hmem))
    rw [← (hheld.trans (add_zero _)), ← (hslot.trans (add_zero _))] at h
    exact h.store hjob (not_not.mpr hraced)

omit [Fintype τ] [DecidableEq τ] in
theorem balanced_ownerMove {fl : FreeList} {pc pc' : OwnerPC} {evs : List ℕ}
    {heldJobs slots : Multiset ℕ} (h : Balanced capacity jobs recycled c.list pc heldJobs slots)
    (howner : c.owner = pc) (hraced : Unraced c .owner) (hmove : OwnerMove c.list pc fl pc' evs) :
    Balanced capacity jobs (recycled + evs) fl pc' heldJobs slots := by
  have hsame : recycled + ([] : List ℕ) = recycled := add_zero recycled
  rw [Unraced, howner] at hraced
  cases hmove with
  | empty hz =>
    rw [hsame]
    exact h.ownerTurn rfl trivial
  | notEmpty hz =>
    rw [hsame]
    exact h.ownerTurn rfl hz
  | popNull hz => exact absurd hz h.owner_ok
  | readZero hz =>
    rw [hsame]
    exact h.ownerTurn rfl trivial
  | readDecrement =>
    rw [hsame]
    exact h.ownerTurn rfl trivial
  | writeNext n =>
    rw [hsame]
    exact h.decrement hraced
  | readElement n =>
    rw [hsame]
    exact h.ownerTurn rfl ⟨rfl, hraced⟩
  | writeNull n job => exact h.recycle

theorem balanced_step {l : Label τ} {evs : List ℕ}
    (h : Balanced capacity jobs recycled c.list c.owner (held c.workers) (claimed c.workers))
    (hnull : nullptr ∉ jobs) (hfits : jobs.card ≤ capacity) (hraced : Unraced c l)
    (hmove : Moved c l c' evs) :
    Balanced capacity (jobs + l.job) (recycled + evs) c'.list c'.owner (held c'.workers)
      (claimed c'.workers) := by
  cases hmove with
  | free w job hidle =>
    have hheld := held_update c.workers w (.readNext job)
    have hslot := claimed_update c.workers w (.readNext job)
    rw [hidle] at hheld hslot
    have hjobs : held (Function.update c.workers w (.readNext job)) = held c.workers + {job} :=
      (add_zero _).symm.trans hheld
    rw [Multiset.coe_nil, add_zero, hjobs, add_right_cancel hslot]
    exact h.free job
  | worker w hmove =>
    have hworker := balanced_workerMove h hnull hfits rfl hraced hmove
    simpa [Label.job] using hworker
  | drain hidle =>
    have hslot : OwnerPC.readEmpty.slot = c.owner.slot := by rw [hidle]; rfl
    simpa [Label.job] using h.ownerTurn hslot trivial
  | owner hmove =>
    have howner := balanced_ownerMove h rfl hraced hmove
    simpa [Label.job] using howner

end Steps

end Jobrocket.FreeListInterleaving
