import Mathlib.Data.List.Perm.Basic
import Mathlib.Tactic

/-! # Stocks of items handed out and put back

A stock hands out the item on top of a stack and takes items back onto it. Whatever the
order of the calls, the items waiting and the items held are together the ones the stock
began with.
-/
namespace Library

structure Stock (α : Type*) where
  waiting : List α
  held : List α

namespace Stock
variable {α : Type*}

def full (items : List α) : Stock α := ⟨items, []⟩

/-- Hand out the item on top, if there is one. -/
def take (s : Stock α) : Option α × Stock α :=
  match s.waiting with
  | [] => (none, s)
  | a :: rest => (some a, ⟨rest, a :: s.held⟩)

def putBack [DecidableEq α] (s : Stock α) (a : α) : Stock α := ⟨a :: s.waiting, s.held.erase a⟩

/-- Every item waits or is held, and none does both. -/
def Of (items : List α) (s : Stock α) : Prop := (s.waiting ++ s.held).Perm items

theorem of_full (items : List α) : Of items (full items) := by
  rw [Of, full, List.append_nil]

theorem take_nil {s : Stock α} (h : s.waiting = []) : s.take = (none, s) := by
  rw [take, h]

theorem take_cons {s : Stock α} {a : α} {rest : List α} (h : s.waiting = a :: rest) :
    s.take = (some a, ⟨rest, a :: s.held⟩) := by
  rw [take, h]

variable {items : List α} {s : Stock α} {a : α}

theorem Of.take (h : Of items s) : Of items s.take.2 := by
  cases hw : s.waiting with
  | nil =>
    rw [take_nil hw]
    exact h
  | cons a rest =>
    rw [take_cons hw]
    rw [Of, hw] at h
    exact List.perm_middle.trans h

theorem Of.putBack [DecidableEq α] (h : Of items s) (ha : a ∈ s.held) :
    Of items (s.putBack a) := by
  have hback : (a :: s.held.erase a).Perm s.held := (List.perm_cons_erase ha).symm
  exact (List.perm_middle.symm.trans (hback.append_left s.waiting)).trans h

theorem Of.mem_held (h : Of items s) (ha : a ∈ s.held) : a ∈ items :=
  h.subset (List.mem_append_right _ ha)

theorem Of.mem_waiting (h : Of items s) (ha : a ∈ s.waiting) : a ∈ items :=
  h.subset (List.mem_append_left _ ha)

theorem Of.length (h : Of items s) : s.waiting.length + s.held.length = items.length := by
  rw [← List.length_append]
  exact h.length_eq

theorem Of.waiting_nil_iff (h : Of items s) : s.waiting = [] ↔ s.held.length = items.length := by
  have hlen := h.length
  rw [← List.length_eq_zero_iff]
  omega

theorem Of.held_nodup (h : Of items s) (hitems : items.Nodup) : s.held.Nodup :=
  (List.nodup_append.mp (h.nodup_iff.mpr hitems)).2.1

/-- What is held does not wait. -/
theorem Of.not_waiting (h : Of items s) (hitems : items.Nodup) (ha : a ∈ s.held) :
    a ∉ s.waiting := fun hw =>
  (List.nodup_append.mp (h.nodup_iff.mpr hitems)).2.2 a hw a ha rfl

end Stock

end Library
