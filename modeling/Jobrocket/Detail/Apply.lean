import Mathlib.Data.List.Basic
import Mathlib.Tactic

/-! # Applying a function to a tuple

A sequence of indices is made by joining the sequences of two halves, the second one
shifted by the length of the first. `apply` picks the elements of a tuple in that order.
-/
namespace Jobrocket.Apply

def concatSequence (a b : List ℕ) : List ℕ := a ++ b.map fun i => a.length + i

def makeIndexSequence : ℕ → List ℕ
  | 0 => []
  | 1 => [0]
  | n + 2 =>
    concatSequence (makeIndexSequence ((n + 2) / 2)) (makeIndexSequence (n + 2 - (n + 2) / 2))

theorem concatSequence_range (a b : ℕ) :
    concatSequence (List.range a) (List.range b) = List.range (a + b) := by
  rw [concatSequence, List.length_range, List.range_add]

theorem makeIndexSequence_eq (n : ℕ) : makeIndexSequence n = List.range n := by
  induction n using makeIndexSequence.induct with
  | case1 => rw [makeIndexSequence, List.range_zero]
  | case2 => rw [makeIndexSequence, List.range_one]
  | case3 n hfirst hsecond =>
    have hsum : (n + 2) / 2 + (n + 2 - (n + 2) / 2) = n + 2 := by omega
    rw [makeIndexSequence, hfirst, hsecond, concatSequence_range, hsum]

variable {F E : Type*}

/-- `invoke` has an overload for pointers to members. -/
inductive Callable (F : Type*) where
  | memberPointer (f : F)
  | functionObject (f : F)
  deriving DecidableEq

def Callable.target : Callable F → F
  | .memberPointer f => f
  | .functionObject f => f

/-- A call of a function. -/
structure Invocation (F E : Type*) where
  function : F
  arguments : List E
  deriving DecidableEq

def invoke : Callable F → List E → Invocation F E
  | .memberPointer f, args => ⟨f, args⟩
  | .functionObject f, args => ⟨f, args⟩

/-- `std::get<Index>(tuple)...`, which has no meaning for an index that is out of range. -/
def applyImpl (function : Callable F) (tuple : List E) (indices : List ℕ) :
    Option (Invocation F E) :=
  (indices.mapM fun i => tuple[i]?).map (invoke function)

def apply (function : Callable F) (tuple : List E) : Option (Invocation F E) :=
  applyImpl function tuple (makeIndexSequence tuple.length)

theorem invoke_eq (function : Callable F) (args : List E) :
    invoke function args = ⟨function.target, args⟩ := by
  cases function <;> rfl

theorem mapM_get_range (tuple : List E) :
    ((List.range tuple.length).mapM fun i => tuple[i]?) = some tuple := by
  induction tuple with
  | nil => rfl
  | cons e tuple ih =>
    have hshift : (fun i => (e :: tuple)[i]?) ∘ Nat.succ = fun i => tuple[i]? := rfl
    rw [List.length_cons, List.range_succ_eq_map, List.mapM_cons, List.mapM_map, hshift, ih]
    rfl

/-- All elements of the tuple are passed, in order. -/
theorem apply_eq (function : Callable F) (tuple : List E) :
    apply function tuple = some ⟨function.target, tuple⟩ := by
  rw [apply, applyImpl, makeIndexSequence_eq, mapM_get_range, Option.map_some, invoke_eq]

end Jobrocket.Apply
