import Mathlib.Data.List.Basic
import Mathlib.Data.List.Nodup
import Mathlib.Tactic

/-! # Accounts of a double-ended store

A ledger keeps everything ever put into a store and the serial numbers of what was
taken out. The serial numbers taken are distinct by construction, so an account of a
store in a ledger is at once a proof that nothing is taken twice.
-/
namespace Library

/-- Everything put in, in order, and the serial numbers taken out, in order. -/
structure Ledger (J : Type*) where
  pushed : List J
  taken : List ℕ
  taken_lt : ∀ n ∈ taken, n < pushed.length
  taken_nodup : taken.Nodup

namespace Ledger
variable {J : Type*}

def nil : Ledger J := ⟨[], [], by simp, List.nodup_nil⟩

/-- The serial numbers not taken yet, oldest first. -/
def waiting (L : Ledger J) : List ℕ := (List.range L.pushed.length).filter (· ∉ L.taken)

theorem waiting_nodup (L : Ledger J) : L.waiting.Nodup := List.nodup_range.filter _

theorem lt_of_mem_waiting {L : Ledger J} {n : ℕ} (h : n ∈ L.waiting) : n < L.pushed.length :=
  List.mem_range.mp (List.mem_filter.mp h).1

def push (L : Ledger J) (job : J) : Ledger J where
  pushed := L.pushed ++ [job]
  taken := L.taken
  taken_lt n hn := by
    have := L.taken_lt n hn
    rw [List.length_append]
    omega
  taken_nodup := L.taken_nodup

def take (L : Ledger J) (n : ℕ) (hn : n ∈ L.waiting) : Ledger J where
  pushed := L.pushed
  taken := L.taken ++ [n]
  taken_lt k hk := by
    rcases List.mem_append.mp hk with hk | hk
    · exact L.taken_lt k hk
    · rw [List.mem_singleton.mp hk]
      exact lt_of_mem_waiting hn
  taken_nodup := by
    have hnew : n ∉ L.taken := by simpa using (List.mem_filter.mp hn).2
    rw [List.nodup_append]
    refine ⟨L.taken_nodup, List.nodup_singleton n, ?_⟩
    intro a ha b hb he
    exact hnew (by rwa [← List.mem_singleton.mp hb, ← he])

def takeNewest (L : Ledger J) : Ledger J :=
  if h : L.waiting = [] then L else L.take (L.waiting.getLast h) (List.getLast_mem h)

def takeOldest (L : Ledger J) : Ledger J :=
  if h : L.waiting = [] then L else L.take (L.waiting.head h) (List.head_mem h)

@[simp] theorem push_pushed (L : Ledger J) (job : J) : (L.push job).pushed = L.pushed ++ [job] := rfl
@[simp] theorem push_taken (L : Ledger J) (job : J) : (L.push job).taken = L.taken := rfl
@[simp] theorem take_pushed (L : Ledger J) (n : ℕ) (hn : n ∈ L.waiting) :
    (L.take n hn).pushed = L.pushed := rfl

@[simp] theorem takeNewest_pushed (L : Ledger J) : L.takeNewest.pushed = L.pushed := by
  unfold takeNewest
  split <;> rfl

@[simp] theorem takeOldest_pushed (L : Ledger J) : L.takeOldest.pushed = L.pushed := by
  unfold takeOldest
  split <;> rfl

theorem taken_prefix_takeNewest (L : Ledger J) : L.taken <+: L.takeNewest.taken := by
  unfold takeNewest
  split
  · exact List.prefix_rfl
  · exact List.prefix_append _ _

theorem taken_prefix_takeOldest (L : Ledger J) : L.taken <+: L.takeOldest.taken := by
  unfold takeOldest
  split
  · exact List.prefix_rfl
  · exact List.prefix_append _ _

theorem waiting_push (L : Ledger J) (job : J) :
    (L.push job).waiting = L.waiting ++ [L.pushed.length] := by
  have hnew : L.pushed.length ∉ L.taken := fun h => lt_irrefl _ (L.taken_lt _ h)
  change (List.range (L.pushed ++ [job]).length).filter (· ∉ L.taken) = _
  rw [List.length_append, List.length_singleton, List.range_succ, List.filter_append]
  simp [waiting, hnew]

theorem waiting_take (L : Ledger J) (n : ℕ) (hn : n ∈ L.waiting) :
    (L.take n hn).waiting = L.waiting.erase n := by
  rw [L.waiting_nodup.erase_eq_filter]
  simp only [waiting, take, List.filter_filter, List.mem_append, List.mem_singleton]
  congr 1
  funext k
  by_cases hk : k = n <;> by_cases ht : k ∈ L.taken <;> simp [hk, ht]

theorem waiting_takeNewest (L : Ledger J) : L.takeNewest.waiting = L.waiting.dropLast := by
  unfold takeNewest
  split
  · next h => rw [h]; rfl
  · next h =>
    have hsplit := List.dropLast_append_getLast h
    have hnot : L.waiting.getLast h ∉ L.waiting.dropLast := by
      have hnd := L.waiting_nodup
      rw [← hsplit, List.nodup_append] at hnd
      exact fun hm => hnd.2.2 _ hm _ (List.mem_singleton_self _) rfl
    calc
      _ = L.waiting.erase (L.waiting.getLast h) := waiting_take _ _ _
      _ = (L.waiting.dropLast ++ [L.waiting.getLast h]).erase (L.waiting.getLast h) := by
        rw [hsplit]
      _ = L.waiting.dropLast := by
        rw [List.erase_append_right _ hnot, List.erase_cons_head, List.append_nil]

theorem waiting_takeOldest (L : Ledger J) : L.takeOldest.waiting = L.waiting.tail := by
  unfold takeOldest
  split
  · next h => rw [h]; rfl
  · next h =>
    calc
      _ = L.waiting.erase (L.waiting.head h) := waiting_take _ _ _
      _ = (L.waiting.head h :: L.waiting.tail).erase (L.waiting.head h) := by
        rw [List.cons_head_tail h]
      _ = L.waiting.tail := List.erase_cons_head _ _

theorem waiting_length_add_taken_length (L : Ledger J) :
    L.waiting.length + L.taken.length = L.pushed.length := by
  have hperm : List.Perm ((List.range L.pushed.length).filter (· ∈ L.taken)) L.taken := by
    refine (List.perm_ext_iff_of_nodup (List.nodup_range.filter _) L.taken_nodup).mpr fun n => ?_
    simpa using L.taken_lt n
  have hsplit := (List.range L.pushed.length).length_eq_length_filter_add (· ∈ L.taken)
  rw [List.length_range, hperm.length_eq] at hsplit
  rw [hsplit, waiting, Nat.add_comm]
  simp

variable [Inhabited J]

/-- The account of a store that already lost `skipped` jobs and still holds `xs`. -/
def resume (skipped : ℕ) (xs : List J) : Ledger J where
  pushed := List.replicate skipped default ++ xs
  taken := List.range skipped
  taken_lt n hn := by
    have := List.mem_range.mp hn
    rw [List.length_append, List.length_replicate]
    omega
  taken_nodup := List.nodup_range

def job (L : Ledger J) (n : ℕ) : J := L.pushed.getD n default

def jobs (L : Ledger J) : List J := L.waiting.map L.job

def deliveries (L : Ledger J) : List J := L.taken.map L.job

theorem job_eq_getElem? (L : Ledger J) {n : ℕ} (h : n < L.pushed.length) :
    some (L.job n) = L.pushed[n]? := by
  simp [job, List.getD_eq_getElem?_getD, List.getElem?_eq_getElem h]

theorem jobs_map_some (L : Ledger J) :
    L.jobs.map some = L.waiting.map fun n => L.pushed[n]? := by
  rw [jobs, List.map_map]
  exact List.map_congr_left fun n hn => L.job_eq_getElem? (lt_of_mem_waiting hn)

theorem deliveries_map_some (L : Ledger J) :
    L.deliveries.map some = L.taken.map fun n => L.pushed[n]? := by
  rw [deliveries, List.map_map]
  exact List.map_congr_left fun n hn => L.job_eq_getElem? (L.taken_lt n hn)

theorem job_push_of_lt {L : Ledger J} {n : ℕ} (h : n < L.pushed.length) (new : J) :
    (L.push new).job n = L.job n := by
  simp [job, List.getD_eq_getElem?_getD, List.getElem?_append_left h]

@[simp] theorem jobs_nil : (nil : Ledger J).jobs = [] := rfl
@[simp] theorem deliveries_nil : (nil : Ledger J).deliveries = [] := rfl

@[simp] theorem resume_pushed (skipped : ℕ) (xs : List J) :
    (resume skipped xs).pushed = List.replicate skipped default ++ xs := rfl
@[simp] theorem resume_taken (skipped : ℕ) (xs : List J) :
    (resume skipped xs).taken = List.range skipped := rfl

theorem jobs_resume (skipped : ℕ) (xs : List J) : (resume skipped xs).jobs = xs := by
  have hold : (List.range skipped).filter (fun n => decide (skipped ≤ n)) = [] :=
    List.filter_eq_nil_iff.mpr fun n hn => by simpa using hn
  have hwaiting : (resume skipped xs).waiting = (List.range xs.length).map (skipped + ·) := by
    simp [waiting, List.range_add, List.filter_append, List.filter_map, hold, Function.comp_def]
  refine List.ext_getElem (by simp [jobs, hwaiting]) fun n hn h => ?_
  simp [jobs, hwaiting, job, h, List.getD_eq_getElem?_getD]

@[simp] theorem jobs_push (L : Ledger J) (new : J) : (L.push new).jobs = L.jobs ++ [new] := by
  rw [jobs, waiting_push, List.map_append]
  congr 1
  · exact List.map_congr_left fun n hn => job_push_of_lt (lt_of_mem_waiting hn) new
  · simp [job, List.getD_eq_getElem?_getD]

@[simp] theorem deliveries_push (L : Ledger J) (new : J) :
    (L.push new).deliveries = L.deliveries :=
  List.map_congr_left fun n hn => job_push_of_lt (L.taken_lt n hn) new

@[simp] theorem jobs_takeNewest (L : Ledger J) : L.takeNewest.jobs = L.jobs.dropLast := by
  have hjob : L.takeNewest.job = L.job := by
    funext n
    simp [job]
  rw [jobs, waiting_takeNewest, hjob, List.map_dropLast, jobs]

@[simp] theorem jobs_takeOldest (L : Ledger J) : L.takeOldest.jobs = L.jobs.tail := by
  have hjob : L.takeOldest.job = L.job := by
    funext n
    simp [job]
  rw [jobs, waiting_takeOldest, hjob, List.map_tail, jobs]

theorem deliveries_takeNewest {L : Ledger J} {xs : List J} {x : J} (h : L.jobs = xs ++ [x]) :
    L.takeNewest.deliveries = L.deliveries ++ [x] := by
  have hne : L.waiting ≠ [] := fun h0 => by simp [jobs, h0] at h
  have hlast : L.job (L.waiting.getLast hne) = x := by
    have := congrArg List.getLast? h
    simpa [jobs, List.getLast?_eq_some_getLast hne] using this
  simp only [takeNewest, dif_neg hne]
  simp only [deliveries, take, List.map_append, List.map_cons, List.map_nil]
  exact congrArg (fun y => L.taken.map L.job ++ [y]) hlast

theorem deliveries_takeOldest {L : Ledger J} {xs : List J} {x : J} (h : L.jobs = x :: xs) :
    L.takeOldest.deliveries = L.deliveries ++ [x] := by
  have hne : L.waiting ≠ [] := fun h0 => by simp [jobs, h0] at h
  have hhead : L.job (L.waiting.head hne) = x := by
    have := congrArg List.head? h
    simpa [jobs, List.head?_eq_some_head hne] using this
  simp only [takeOldest, dif_neg hne]
  simp only [deliveries, take, List.map_append, List.map_cons, List.map_nil]
  exact congrArg (fun y => L.taken.map L.job ++ [y]) hhead

theorem jobs_eq_nil_iff {L : Ledger J} : L.jobs = [] ↔ L.waiting = [] := List.map_eq_nil_iff

/-- A job delivered as the newest was the newest. -/
theorem getLast?_of_takeNewest {L : Ledger J} {x : J}
    (h : L.takeNewest.deliveries = L.deliveries ++ [x]) : L.jobs.getLast? = some x := by
  rcases List.eq_nil_or_concat L.jobs with hnil | ⟨xs, y, hjobs⟩
  · rw [takeNewest, dif_pos (jobs_eq_nil_iff.mp hnil)] at h
    simp at h
  · rw [List.concat_eq_append] at hjobs
    rw [deliveries_takeNewest hjobs] at h
    rw [hjobs, List.getLast?_concat, (List.cons.inj (List.append_cancel_left h)).1]

theorem head?_of_takeOldest {L : Ledger J} {x : J}
    (h : L.takeOldest.deliveries = L.deliveries ++ [x]) : L.jobs.head? = some x := by
  cases hjobs : L.jobs with
  | nil =>
    rw [takeOldest, dif_pos (jobs_eq_nil_iff.mp hjobs)] at h
    simp at h
  | cons y ys =>
    rw [deliveries_takeOldest hjobs] at h
    rw [List.head?_cons, (List.cons.inj (List.append_cancel_left h)).1]

end Ledger

end Library
