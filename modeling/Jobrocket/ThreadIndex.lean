import Jobrocket.Library.Dispenser
import Jobrocket.Library.Interleaving

/-! # The index a thread has in a pool

`get_index` keeps a thread's index in a variable of the thread, one for all pools and for
as long as the thread lives; the counter it is drawn from belongs to one pool and starts
again when the pool is constructed again. Threads that use only the pool they drew their
index from, since its construction, have different indices in it.
-/
namespace Jobrocket.ThreadIndex
open Library

structure PoolMembers where
  numThreads : UInt32 := 0
  nextIndex : UInt32 := 0
  deriving DecidableEq

/-- Pools of any number, the threads' variables `next`, and which threads have ended. -/
structure Program (P τ : Type*) where
  pools : P → PoolMembers
  next : τ → Option UInt32
  ended : τ → Bool

/-- A pool is built; its lists are reset; a thread makes a call that needs its index; a
thread ends. -/
inductive Label (P τ : Type*) where
  | construct (p : P) (numThreads : UInt32)
  | reset (p : P)
  | call (t : τ) (p : P)
  | exit (t : τ)
  deriving DecidableEq

/-- `drew` is the first call of a thread, which takes the index from the pool. -/
inductive Event (P τ : Type*) where
  | constructed (p : P)
  | drew (t : τ) (p : P) (index : UInt32)
  | returned (t : τ) (p : P) (index : UInt32)
  | ended (t : τ)
  deriving DecidableEq

variable {P τ : Type*} [DecidableEq P] [DecidableEq τ]

def start : Program P τ := ⟨fun _ => {}, fun _ => none, fun _ => false⟩

/-- `static thread_local uint32_t next = next_index++;` -/
def getIndex (s : Program P τ) (t : τ) (p : P) : Program P τ × List (Event P τ) :=
  match s.next t with
  | some index => (s, [.returned t p index])
  | none =>
    let index := (s.pools p).nextIndex
    ({ s with
       pools := Function.update s.pools p { s.pools p with nextIndex := index + 1 },
       next := Function.update s.next t (some index) }, [.drew t p index, .returned t p index])

def step : Stepper (Program P τ) (Label P τ) (Event P τ)
  | s, .construct p numThreads =>
    some ({ s with pools := Function.update s.pools p { numThreads := numThreads } },
      [.constructed p])
  -- `JobPool::reset` leaves `next_index` as it is
  | s, .reset _ => some (s, [])
  | s, .call t p => if s.ended t then none else some (getIndex s t p)
  | s, .exit t => some ({ s with ended := Function.update s.ended t true }, [.ended t])

/-- The account of a run: for every pool the indices drawn since its construction, and the
living threads that have called since, with the index each was given. -/
structure Ledger (P τ : Type*) where
  drawn : P → τ → Option UInt32
  users : P → List (τ × UInt32)

def Ledger.start : Ledger P τ := ⟨fun _ _ => none, fun _ => []⟩

def record (l : Ledger P τ) : Event P τ → Ledger P τ
  | .constructed p =>
    { drawn := Function.update l.drawn p fun _ => none, users := Function.update l.users p [] }
  | .drew t p index =>
    { l with drawn := Function.update l.drawn p (Function.update (l.drawn p) t (some index)) }
  | .returned t p index =>
    let others := (l.users p).filter fun u => u.1 ≠ t
    { l with users := Function.update l.users p ((t, index) :: others) }
  | .ended t => { l with users := fun p => (l.users p).filter fun u => u.1 ≠ t }

def ledger (es : List (Event P τ)) : Ledger P τ := es.foldl record .start

/-- Every pool's users have indices below its number of threads, each its own. -/
def Identified (s : Program P τ) (l : Ledger P τ) : Prop :=
  ∀ p, ∀ u ∈ l.users p, u.2 < (s.pools p).numThreads ∧
    ∀ v ∈ l.users p, u.1 ≠ v.1 → u.2 ≠ v.2

/-- No pool has more users alive than the threads it was built for. -/
def FewUsers (s : Program P τ) (l : Ledger P τ) : Prop :=
  ∀ p, (l.users p).length ≤ (s.pools p).numThreads.toNat

/-- The condition on a call: the thread has drawn its index from this pool since the pool
was constructed, or has none yet and the pool has one left. -/
def OwnIndex (s : Program P τ) (l : Ledger P τ) : Label P τ → Prop
  | .call t p => (l.drawn p t).isSome ∨
      s.next t = none ∧ (s.pools p).nextIndex < (s.pools p).numThreads
  | _ => True

/-- Indices drawn from a pool are the ones its counter gave, and every user has drawn. -/
structure Inv (s : Program P τ) (l : Ledger P τ) : Prop where
  dispensed : ∀ p, Dispensed 0 (s.pools p).nextIndex.toNat fun t => (l.drawn p t).map UInt32.toNat
  next_le : ∀ p, (s.pools p).nextIndex.toNat ≤ (s.pools p).numThreads.toNat
  cached : ∀ p t i, l.drawn p t = some i → s.next t = some i
  users : ∀ p, ∀ u ∈ l.users p, l.drawn p u.1 = some u.2

section Inv
variable {s : Program P τ} {l : Ledger P τ} {t : τ} {p : P} {index : UInt32}

omit [DecidableEq P] [DecidableEq τ] in
theorem inv_start : Inv (start : Program P τ) .start where
  dispensed _ := .empty _ _
  next_le _ := le_rfl
  cached _ _ _ h := absurd h (by simp [Ledger.start])
  users _ _ h := absurd h List.not_mem_nil

omit [DecidableEq P] [DecidableEq τ] in
theorem Inv.identified (h : Inv s l) : Identified s l := by
  intro p u hu
  have hdrawn := h.users p u hu
  constructor
  · have hlt := ((h.dispensed p).range u.1 u.2.toNat (by rw [hdrawn]; rfl)).2
    exact UInt32.lt_iff_toNat_lt.mpr (hlt.trans_le (h.next_le p))
  · intro v hv hne heq
    have hdrawn' := h.users p v hv
    refine hne ((h.dispensed p).inj u.1 v.1 u.2.toNat (by rw [hdrawn]; rfl) ?_)
    rw [hdrawn', ← heq]
    rfl

theorem Inv.construct (h : Inv s l) (p : P) (numThreads : UInt32) :
    Inv { s with pools := Function.update s.pools p { numThreads := numThreads } }
      (record l (.constructed p)) := by
  constructor
  case dispensed =>
    intro q
    by_cases hq : q = p
    · subst hq
      simpa [record] using Dispensed.empty 0 0
    · simpa [record, hq] using h.dispensed q
  case next_le =>
    intro q
    by_cases hq : q = p
    · subst hq
      simp
    · simpa [hq] using h.next_le q
  case cached =>
    intro q t i hi
    by_cases hq : q = p
    · subst hq
      simp [record] at hi
    · exact h.cached q t i (by simpa [record, hq] using hi)
  case users =>
    intro q u hu
    by_cases hq : q = p
    · subst hq
      simp [record] at hu
    · simpa [record, hq] using h.users q u (by simpa [record, hq] using hu)

theorem Inv.returned (h : Inv s l) (hdrawn : l.drawn p t = some index) :
    Inv s (record l (.returned t p index)) := by
  refine { h with users := fun q u hu => ?_ }
  by_cases hq : q = p
  · subst hq
    simp only [record, Function.update_self] at hu
    rcases List.mem_cons.mp hu with rfl | hu
    · exact hdrawn
    · exact h.users q u (List.mem_of_mem_filter hu)
  · simp only [record, Function.update_of_ne hq] at hu
    exact h.users q u hu

theorem Inv.drew (h : Inv s l) (hnone : s.next t = none)
    (hleft : (s.pools p).nextIndex < (s.pools p).numThreads)
    (hindex : (s.pools p).nextIndex = index) :
    Inv { s with
          pools := Function.update s.pools p { s.pools p with nextIndex := index + 1 },
          next := Function.update s.next t (some index) } (record l (.drew t p index)) := by
  have hlt := UInt32.lt_iff_toNat_lt.mp hleft
  rw [hindex] at hlt
  have hsucc : (index + 1).toNat = index.toNat + 1 := by
    have := (s.pools p).numThreads.toNat_lt
    rw [UInt32.toNat_add, UInt32.toNat_one]
    omega
  have hnew : ∀ q, l.drawn q t = none := fun q => by
    by_contra hsome
    obtain ⟨i, hi⟩ := Option.ne_none_iff_exists'.mp hsome
    rw [h.cached q t i hi] at hnone
    cases hnone
  constructor
  case dispensed =>
    intro q
    by_cases hq : q = p
    · subst hq
      have hgive := (hindex ▸ h.dispensed q).give (Nat.zero_le _) t
      simp only [record, Function.update_self, hsucc]
      refine (congrArg (Dispensed _ _) ?_).mp hgive
      exact (Function.comp_update (Option.map UInt32.toNat) (l.drawn q) t (some index)).symm
    · simpa [record, hq] using h.dispensed q
  case next_le =>
    intro q
    by_cases hq : q = p
    · subst hq
      simpa [hsucc] using hlt
    · simpa [hq] using h.next_le q
  case cached =>
    intro q u i hi
    by_cases hu : u = t
    · subst hu
      by_cases hq : q = p
      · subst hq
        simpa [record] using hi
      · simp [record, hq, hnew q] at hi
    · have hold : l.drawn q u = some i := by
        by_cases hq : q = p
        · subst hq
          simpa [record, hu] using hi
        · simpa [record, hq] using hi
      simpa [hu] using h.cached q u i hold
  case users =>
    intro q u hu
    have hold := h.users q u hu
    have hne : u.1 ≠ t := fun heq => by simp [heq, hnew q] at hold
    by_cases hq : q = p
    · subst hq
      simpa [record, hne] using hold
    · simpa [record, hq] using hold

theorem Inv.exit (h : Inv s l) (t : τ) :
    Inv { s with ended := Function.update s.ended t true } (record l (.ended t)) where
  dispensed := h.dispensed
  next_le := h.next_le
  cached := h.cached
  users p u hu := h.users p u (List.mem_of_mem_filter hu)

theorem Inv.step {s' : Program P τ} {label : Label P τ} {es : List (Event P τ)} (h : Inv s l)
    (hown : OwnIndex s l label) (hstep : step s label = some (s', es)) :
    Inv s' (es.foldl record l) := by
  cases label with
  | construct p numThreads =>
    cases hstep
    exact h.construct p numThreads
  | reset p =>
    cases hstep
    exact h
  | exit t =>
    cases hstep
    exact h.exit t
  | call t p =>
    simp only [ThreadIndex.step] at hstep
    split at hstep
    · cases hstep
    cases hnext : s.next t with
    | some index =>
      rw [getIndex, hnext] at hstep
      cases hstep
      rcases hown with hdrawn | ⟨hnone, -⟩
      · obtain ⟨i, hi⟩ := Option.isSome_iff_exists.mp hdrawn
        have hsame := h.cached p t i hi
        rw [hnext] at hsame
        cases hsame
        exact h.returned hi
      · rw [hnext] at hnone
        cases hnone
    | none =>
      rw [getIndex, hnext] at hstep
      cases hstep
      rcases hown with hdrawn | ⟨-, hleft⟩
      · obtain ⟨i, hi⟩ := Option.isSome_iff_exists.mp hdrawn
        have hsame := h.cached p t i hi
        rw [hnext] at hsame
        cases hsame
      · apply (h.drew hnext hleft rfl).returned
        simp [record]

end Inv

/-- Thread indices identify threads in every run in which each thread uses only the pool
it drew its index from, and no pool is asked for more indices than it has. -/
theorem identified_of_exec (ls : List (Label P τ))
    (hown : ∀ pre label, pre ++ [label] <+: ls → ∀ s es,
      step.exec start pre = some (s, es) → OwnIndex s (ledger es) label)
    (s : Program P τ) (es : List (Event P τ)) (h : step.exec start ls = some (s, es)) :
    Identified s (ledger es) := by
  refine Inv.identified (Stepper.exec_induction (I := fun _ s es => Inv s (ledger es)) inv_start ?_
    List.prefix_rfl h)
  intro pre label s es s' fs hlabel hexec hI hstep
  have hnew := hI.step (hown pre label hlabel s es hexec) hstep
  rwa [ledger, List.foldl_append]

/-- Two threads call the pool they were made for. -/
theorem identified_of_exec_two : ∃ s es,
    step.exec start [.construct () 2, .call false (), .call true (), .call false ()] = some (s, es) ∧
      Identified s (ledger es) := by
  refine ⟨_, _, rfl, identified_of_exec
    [.construct () 2, .call false (), .call true (), .call false ()] ?_ _ _ rfl⟩
  intro pre label hpre s es h
  obtain ⟨n, hn, rfl, rfl⟩ := concat_prefix_iff.mp hpre
  have hn : n < 4 := hn
  interval_cases n <;> cases h
  · trivial
  · exact Or.inr ⟨rfl, by decide⟩
  · exact Or.inr ⟨rfl, by decide⟩
  · exact Or.inl rfl

/-- The pool is built a second time while the main thread lives on. The main thread keeps
its index, and the next thread draws the same one. -/
theorem rebuilt_not_identified :
    let ls := [.construct () 2, .call false (), .reset (), .construct () 2, .call false (),
      .call true ()]
    (∀ pre, pre <+: ls → ∀ s es, step.exec start pre = some (s, es) → FewUsers s (ledger es)) ∧
      ∃ s es, step.exec start ls = some (s, es) ∧
        (ledger es).users () = [(true, 0), (false, 0)] ∧ ¬ Identified s (ledger es) := by
  intro ls
  constructor
  · intro pre hpre s es h
    have hn : pre.length ≤ 6 := hpre.length_le
    rw [List.prefix_iff_eq_take.mp hpre] at h
    generalize pre.length = n at h hn
    rintro ⟨⟩
    interval_cases n <;> cases h <;> decide
  · refine ⟨_, _, rfl, rfl, fun hall => ?_⟩
    exact absurd rfl ((hall () (true, 0) (by decide)).2 (false, 0) (by decide) (by decide))

end Jobrocket.ThreadIndex
