import Mathlib.Data.List.Perm.Basic
import Mathlib.Tactic

/-! # Counting up and down, but not below zero

Each entry of a list counts a number up or down, and counting down from zero leaves zero.
The orders of one list reach exactly the numbers between two bounds.
-/
namespace Library.SaturatingCount
variable {α : Type*} (up : α → Bool)

def tick (n : ℕ) (a : α) : ℕ := if up a then n + 1 else n - 1

def count (n : ℕ) (xs : List α) : ℕ := xs.foldl (tick up) n

def ups (xs : List α) : ℕ := xs.countP up

def downs (xs : List α) : ℕ := xs.countP fun a => !up a

/-- Up to `j` entries that count up, the ones that count down, and the rest. -/
def arrange (j : ℕ) (xs : List α) : List α :=
  (xs.filter up).take j ++ (xs.filter fun a => !up a) ++ (xs.filter up).drop j

section Counting
variable {n : ℕ} {a : α} {xs ys : List α}

@[simp] theorem count_nil : count up n [] = n := rfl

theorem count_cons : count up n (a :: xs) = count up (tick up n a) xs := rfl

theorem count_append : count up n (xs ++ ys) = count up (count up n xs) ys := List.foldl_append

variable {up}

theorem count_of_up (h : ∀ a ∈ xs, up a = true) : count up n xs = n + xs.length := by
  induction xs generalizing n with
  | nil => rfl
  | cons a xs ih =>
    obtain ⟨ha, hxs⟩ := List.forall_mem_cons.mp h
    rw [count_cons, ih hxs, tick, if_pos ha, List.length_cons]
    omega

theorem count_of_down (h : ∀ a ∈ xs, up a = false) : count up n xs = n - xs.length := by
  induction xs generalizing n with
  | nil => rfl
  | cons a xs ih =>
    obtain ⟨ha, hxs⟩ := List.forall_mem_cons.mp h
    rw [count_cons, ih hxs, tick, if_neg (Bool.not_eq_true _ ▸ ha), List.length_cons]
    omega

end Counting

section Orders
variable {up} {n m j : ℕ} {xs order : List α}

theorem arrange_perm : (arrange up j xs).Perm xs := by
  have hswap : (arrange up j xs).Perm
      ((xs.filter up).take j ++ (xs.filter up).drop j ++ xs.filter fun a => !up a) := by
    rw [arrange, List.append_assoc, List.append_assoc]
    exact List.perm_append_comm.append_left _
  rw [List.take_append_drop] at hswap
  exact hswap.trans (List.filter_append_perm up xs)

theorem count_arrange (hj : j ≤ ups up xs) :
    count up n (arrange up j xs) = n + j - downs up xs + (ups up xs - j) := by
  have hup : ∀ a ∈ xs.filter up, up a = true := fun a ha => (List.mem_filter.mp ha).2
  have hdown : ∀ a ∈ xs.filter (fun a => !up a), up a = false := fun a ha => by
    simpa using (List.mem_filter.mp ha).2
  rw [arrange, count_append, count_append, count_of_up fun a ha => hup a (List.mem_of_mem_take ha),
    count_of_down hdown, count_of_up fun a ha => hup a (List.mem_of_mem_drop ha),
    List.length_take, List.length_drop, ← List.countP_eq_length_filter,
    ← List.countP_eq_length_filter, ← ups, ← downs, min_eq_left hj]

/-- A count loses at most its downs, and gains at most its ups above the last zero. -/
theorem count_bounds (n : ℕ) (xs : List α) :
    n + ups up xs ≤ count up n xs + downs up xs ∧
      (count up n xs ≤ ups up xs ∨ count up n xs + downs up xs = n + ups up xs) := by
  induction xs using List.reverseRecOn with
  | nil => exact ⟨le_rfl, Or.inr rfl⟩
  | append_singleton xs a ih =>
    rw [count_append, count_cons, count_nil, tick]
    simp only [ups, downs, List.countP_append, List.countP_singleton] at ih ⊢
    by_cases ha : up a = true
    · simp only [ha, if_true, Bool.not_true, Bool.false_eq_true, if_false]
      omega
    · simp only [ha, if_true, Bool.not_false, Bool.false_eq_true, if_false]
      omega

/-- The numbers that the orders of a list count to. -/
theorem exists_order_iff (n m : ℕ) (xs : List α) :
    (∃ order, order.Perm xs ∧ count up n order = m) ↔
      n + ups up xs ≤ m + downs up xs ∧
        (m ≤ ups up xs ∨ m + downs up xs = n + ups up xs) := by
  constructor
  · rintro ⟨order, hperm, rfl⟩
    have hups : ups up order = ups up xs := hperm.countP_eq _
    have hdowns : downs up order = downs up xs := hperm.countP_eq _
    rw [← hups, ← hdowns]
    exact count_bounds n order
  · rintro ⟨hlow, hhigh⟩
    by_cases hexact : m + downs up xs = n + ups up xs
    · -- nothing is lost when all the ups come first
      refine ⟨arrange up (ups up xs) xs, arrange_perm, ?_⟩
      rw [count_arrange le_rfl]
      omega
    · refine ⟨arrange up (ups up xs - m) xs, arrange_perm, ?_⟩
      rw [count_arrange (by omega)]
      omega

end Orders

end Library.SaturatingCount
