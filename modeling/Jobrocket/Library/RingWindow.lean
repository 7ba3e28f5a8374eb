import Mathlib.Data.List.Basic
import Mathlib.Tactic

/-! # Windows of consecutive positions

A window is the list of the entries at consecutive positions. When the positions
are taken modulo a capacity, a window no longer than the capacity visits every
slot at most once.
-/
namespace Library
variable {J : Type*}

/-- The entries at the positions `lo, ..., hi - 1`, in order. -/
def window (f : ℕ → J) (lo hi : ℕ) : List J := (List.range' lo (hi - lo)).map f

@[simp] theorem window_length (f : ℕ → J) (lo hi : ℕ) : (window f lo hi).length = hi - lo := by
  simp [window]

@[simp] theorem window_self (f : ℕ → J) (lo : ℕ) : window f lo lo = [] := by simp [window]

theorem window_succ (f : ℕ → J) {lo hi : ℕ} (h : lo ≤ hi) :
    window f lo (hi + 1) = window f lo hi ++ [f hi] := by
  have hn : hi + 1 - lo = (hi - lo) + 1 := by omega
  simp only [window, hn, List.range'_concat, List.map_append, List.map_cons, List.map_nil]
  congr 3
  omega

theorem window_eq_cons (f : ℕ → J) {lo hi : ℕ} (h : lo < hi) :
    window f lo hi = f lo :: window f (lo + 1) hi := by
  have hn : hi - lo = (hi - (lo + 1)) + 1 := by omega
  simp only [window, hn, List.range'_succ, List.map_cons]

theorem window_eq_concat (f : ℕ → J) {lo hi : ℕ} (h : lo < hi) :
    window f lo hi = window f lo (hi - 1) ++ [f (hi - 1)] := by
  rw [← window_succ f (Nat.le_sub_one_of_lt h), Nat.sub_add_cancel (Nat.one_le_of_lt h)]

theorem window_getLast? (f : ℕ → J) {lo hi : ℕ} (h : lo < hi) :
    (window f lo hi).getLast? = some (f (hi - 1)) := by
  rw [window_eq_concat f h, List.getLast?_concat]

theorem window_dropLast (f : ℕ → J) {lo hi : ℕ} (h : lo < hi) :
    (window f lo hi).dropLast = window f lo (hi - 1) := by
  rw [window_eq_concat f h, List.dropLast_concat]

theorem window_head? (f : ℕ → J) {lo hi : ℕ} (h : lo < hi) :
    (window f lo hi).head? = some (f lo) := by
  rw [window_eq_cons f h, List.head?_cons]

theorem window_tail (f : ℕ → J) {lo hi : ℕ} (h : lo < hi) :
    (window f lo hi).tail = window f (lo + 1) hi := by
  rw [window_eq_cons f h, List.tail_cons]

theorem window_congr {f g : ℕ → J} {lo hi : ℕ} (h : ∀ p, lo ≤ p → p < hi → f p = g p) :
    window f lo hi = window g lo hi := by
  apply List.map_congr_left
  intro p hp
  obtain ⟨hlo, hhi⟩ := List.mem_range'_1.mp hp
  exact h p hlo (by omega)

/-- Two positions less than a capacity apart use different slots. -/
theorem mod_ne_mod {capacity p q : ℕ} (hpq : p < q) (hq : q < p + capacity) :
    p % capacity ≠ q % capacity := by
  intro h
  have hd : capacity ∣ q - p := (Nat.modEq_iff_dvd' hpq.le).mp h
  have := Nat.le_of_dvd (by omega) hd
  omega

end Library
