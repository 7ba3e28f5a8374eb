import Mathlib.Data.List.Basic
import Mathlib.Tactic

/-! # Finite runs of deterministic machines

A machine answers every call with a result and its next state. Facts about a run
are stated at its prefixes, so that a hypothesis on the state before a call, the
call itself and the history up to it are available together.
-/
namespace Library

/-- The result of a call and the state it leaves. -/
abbrev Machine (S A B : Type*) := S → A → B × S

/-- Induction over the prefixes of one list, from the empty one to the list itself. -/
theorem prefix_induction {A : Type*} {calls : List A} {Q : List A → Prop} (nil : Q [])
    (snoc : ∀ pre a, pre ++ [a] <+: calls → Q pre → Q (pre ++ [a])) {pre : List A}
    (h : pre <+: calls) : Q pre := by
  induction pre using List.reverseRecOn with
  | nil => exact nil
  | append_singleton pre a ih =>
    have hpre : pre <+: calls := (List.prefix_append pre [a]).trans h
    exact snoc pre a h (ih hpre)

theorem concat_prefix_iff {A : Type*} {pre ls : List A} {a : A} :
    pre ++ [a] <+: ls ↔ ∃ n, ∃ h : n < ls.length, pre = ls.take n ∧ a = ls[n] := by
  constructor
  · rintro ⟨post, rfl⟩
    refine ⟨pre.length, by simp, by simp, by simp⟩
  · rintro ⟨n, h, rfl, rfl⟩
    rw [List.take_append_getElem h]
    exact List.take_prefix _ _

/-- A prefix of a list with one call more is a prefix of the list or all of it. -/
theorem prefix_concat_cases {A : Type*} {pre calls : List A} {a : A}
    (h : pre <+: calls ++ [a]) : pre <+: calls ∨ pre = calls ++ [a] :=
  (List.prefix_concat_iff.mp h).symm

theorem concat_prefix_concat_cases {A : Type*} {pre calls : List A} {a b : A}
    (h : pre ++ [b] <+: calls ++ [a]) : pre ++ [b] <+: calls ∨ (pre = calls ∧ b = a) := by
  rcases prefix_concat_cases h with h | h
  · exact Or.inl h
  · obtain ⟨hpre, hb⟩ := List.append_inj' h rfl
    exact Or.inr ⟨hpre, by simpa using hb⟩

namespace Machine
variable {S T A B : Type*}

def after (m : Machine S A B) (s : S) (calls : List A) : S := calls.foldl (fun s a => (m s a).2) s

def results (m : Machine S A B) : S → List A → List B
  | _, [] => []
  | s, a :: calls => (m s a).1 :: results m (m s a).2 calls

variable (m : Machine S A B) (n : Machine T A B)

@[simp] theorem after_nil (s : S) : m.after s [] = s := rfl
@[simp] theorem after_cons (s : S) (a : A) (calls : List A) :
    m.after s (a :: calls) = m.after (m s a).2 calls := rfl
@[simp] theorem after_append (s : S) (calls more : List A) :
    m.after s (calls ++ more) = m.after (m.after s calls) more := List.foldl_append
@[simp] theorem results_nil (s : S) : m.results s [] = [] := rfl
@[simp] theorem results_cons (s : S) (a : A) (calls : List A) :
    m.results s (a :: calls) = (m s a).1 :: m.results (m s a).2 calls := rfl

@[simp] theorem results_append (s : S) (calls more : List A) :
    m.results s (calls ++ more) = m.results s calls ++ m.results (m.after s calls) more := by
  induction calls generalizing s with
  | nil => rfl
  | cons a calls ih => simp only [List.cons_append, results_cons, after_cons, ih]

@[simp] theorem results_length (s : S) (calls : List A) :
    (m.results s calls).length = calls.length := by
  induction calls generalizing s with
  | nil => rfl
  | cons a calls ih => simp only [results_cons, List.length_cons, ih]

/-- What one call keeps while its guard holds, a run whose calls all pass the guard keeps. -/
theorem invariant {I : S → Prop} {guard : S → A → Prop} {s : S} {calls : List A} (h0 : I s)
    (hstep : ∀ t a, I t → guard t a → I (m t a).2)
    (hguard : ∀ pre a, pre ++ [a] <+: calls → guard (m.after s pre) a)
    {pre : List A} (hpre : pre <+: calls) : I (m.after s pre) := by
  refine prefix_induction (Q := fun pre => I (m.after s pre)) h0 ?_ hpre
  intro pre a ha hI
  simpa using hstep _ a hI (hguard pre a ha)

/-- One call of `m` and of `n` from related states gives the same result and related states. -/
def Simulates (R : S → T → Prop) (guard : S → T → A → Prop) : Prop :=
  ∀ s t a, R s t → guard s t a → (m s a).1 = (n t a).1 ∧ R (m s a).2 (n t a).2

variable {m n}

theorem Simulates.after {R : S → T → Prop} {guard : S → T → A → Prop}
    (h : m.Simulates n R guard) {s : S} {t : T} {calls : List A} (h0 : R s t)
    (hguard : ∀ pre a, pre ++ [a] <+: calls → guard (m.after s pre) (n.after t pre) a)
    {pre : List A} (hpre : pre <+: calls) : R (m.after s pre) (n.after t pre) := by
  refine prefix_induction (Q := fun pre => R (m.after s pre) (n.after t pre)) h0 ?_ hpre
  intro pre a ha hR
  simpa using (h _ _ a hR (hguard pre a ha)).2

/-- A simulated run gives the results of the run it simulates. -/
theorem Simulates.results {R : S → T → Prop} {guard : S → T → A → Prop}
    (h : m.Simulates n R guard) {s : S} {t : T} {calls : List A} (h0 : R s t)
    (hguard : ∀ pre a, pre ++ [a] <+: calls → guard (m.after s pre) (n.after t pre) a) :
    m.results s calls = n.results t calls := by
  have hall : ∀ pre, pre <+: calls → m.results s pre = n.results t pre := by
    intro pre hpre
    refine prefix_induction (Q := fun pre => m.results s pre = n.results t pre) rfl ?_ hpre
    intro pre a ha hres
    have hR := h.after h0 hguard ((List.prefix_append pre [a]).trans ha)
    have hstep := (h _ _ a hR (hguard pre a ha)).1
    simp only [results_append, results_cons, results_nil, hres, hstep]
  exact hall calls List.prefix_rfl

end Machine

end Library
