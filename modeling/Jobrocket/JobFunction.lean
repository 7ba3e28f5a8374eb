import Jobrocket.Detail.Apply

/-! # What a job's function is called with

The callable is passed by value. The arguments are passed on by forwarding references, and
the types deduced for them are also the types of the tuple's elements: for a variable that
is a reference, so its value is the one it has when the job is executed. Here the stored
function is a value; in the runs it is an object in its job's block.
-/
namespace Jobrocket
open Apply

section Arguments
variable {X V : Type*}

/-- A variable of the caller, or an unnamed object with its value. -/
inductive Object (X V : Type*) where
  | variable (x : X)
  | temporary (v : V)
  deriving DecidableEq

def Object.value (s : X → V) : Object X V → V
  | .variable x => s x
  | .temporary v => v

/-- What an argument expression denotes, and whether it is an lvalue. -/
structure Expression (X V : Type*) where
  object : Object X V
  isLvalue : Bool
  deriving DecidableEq

/-- An argument of `make_job`. -/
inductive Argument (X V : Type*) where
  | lvalue (x : X)
  | temporary (v : V)
  deriving DecidableEq

def Argument.expression : Argument X V → Expression X V
  | .lvalue x => ⟨.variable x, true⟩
  | .temporary v => ⟨.temporary v, false⟩

/-- What `Args` is for a parameter `Args&&`: `T&` or `T`. -/
inductive Deduced where
  | reference
  | value
  deriving DecidableEq

/-- A parameter of a function template, bound to its argument. -/
structure Parameter (X V : Type*) where
  type : Deduced
  object : Object X V
  deriving DecidableEq

def Expression.bind (e : Expression X V) : Parameter X V :=
  ⟨if e.isLvalue then .reference else .value, e.object⟩

/-- `std::forward<Args>(args)` -/
def Parameter.forward (p : Parameter X V) : Expression X V := ⟨p.object, p.type = .reference⟩

@[simp] theorem bind_forward (e : Expression X V) : e.bind.forward = e := by
  obtain ⟨object, isLvalue⟩ := e
  cases isLvalue <;> rfl

end Arguments

/-- An element of `std::tuple<Args...>`. -/
inductive Element (X V : Type*) where
  | reference (object : Object X V)
  | value (v : V)
  deriving DecidableEq

def Element.read {X V : Type*} (s : X → V) : Element X V → V
  | .reference object => object.value s
  | .value v => v

/-- The members of a `JobFunction`. -/
structure JobFunction (F X V : Type*) where
  functionPtr : Callable F
  argTuple : List (Element X V)
  deriving DecidableEq

namespace JobFunction
variable {F X V : Type*}

/-- `std::tuple<Args...>(args...)` copies an object into an element of a value type. -/
def element (s : X → V) (p : Parameter X V) : Element X V :=
  match p.type with
  | .reference => .reference p.object
  | .value => .value (p.object.value s)

/-- The constructor is given the types that `allocate_job` has deduced. -/
def construct (s : X → V) (function : Callable F) (params : List (Parameter X V)) :
    JobFunction F X V :=
  ⟨function, params.map (element s)⟩

/-- The part of `allocate_job` that makes the function. -/
def allocateJob (s : X → V) (function : Callable F) (args : List (Expression X V)) :
    JobFunction F X V :=
  construct s function (args.map Expression.bind)

def makeJob (s : X → V) (function : Callable F) (args : List (Expression X V)) :
    JobFunction F X V :=
  allocateJob s function ((args.map Expression.bind).map Parameter.forward)

/-- `JobGroup::run` -/
def run (s : X → V) (function : Callable F) (args : List (Expression X V)) : JobFunction F X V :=
  makeJob s function ((args.map Expression.bind).map Parameter.forward)

/-- The calls made by `execute`, with the values of the arguments at that time. -/
def execute (s : X → V) (j : JobFunction F X V) : List (Invocation F V) :=
  (apply j.functionPtr j.argTuple).toList.map fun c => ⟨c.function, c.arguments.map (·.read s)⟩

/-- The assignments of the caller to its variables, one after another. -/
def assign [DecidableEq X] (s : X → V) (assignments : List (X × V)) : X → V :=
  assignments.foldl (fun s a => Function.update s a.1 a.2) s

def expressions (args : List (Argument X V)) : List (Expression X V) :=
  args.map Argument.expression

section Calls
variable {s s' : X → V} {function : Callable F} {args : List (Argument X V)}

theorem map_bind_forward (args : List (Expression X V)) :
    (args.map Expression.bind).map Parameter.forward = args := by
  rw [List.map_map]
  exact (List.map_congr_left fun e _ => bind_forward e).trans (List.map_id args)

theorem run_eq_makeJob (s : X → V) (function : Callable F) (args : List (Expression X V)) :
    run s function args = makeJob s function args := by
  rw [run, map_bind_forward]

theorem read_element (arg : Argument X V) :
    (element s arg.expression.bind).read s' =
      match arg with
      | .lvalue x => s' x
      | .temporary v => v := by
  cases arg <;> rfl

theorem execute_makeJob :
    execute s' (makeJob s function (expressions args)) =
      [⟨function.target, args.map fun arg => (element s arg.expression.bind).read s'⟩] := by
  rw [makeJob, map_bind_forward, allocateJob, construct, execute, apply_eq, expressions]
  simp only [Option.toList_some, List.map_cons, List.map_nil, List.map_map, Function.comp_def]

/-- The function is called with the values that its arguments had exactly when the variables
among them have these values again. -/
theorem execute_makeJob_iff :
    execute s' (makeJob s function (expressions args)) =
        [⟨function.target, args.map (·.expression.object.value s)⟩] ↔
      ∀ x, .lvalue x ∈ args → s' x = s x := by
  rw [execute_makeJob, List.singleton_inj, Invocation.mk.injEq, eq_self_iff_true, true_and,
    List.map_inj_left]
  constructor
  · intro h x hx
    have hread := h (.lvalue x) hx
    rwa [read_element] at hread
  · intro h arg harg
    rw [read_element]
    cases arg with
    | lvalue x => exact h x harg
    | temporary v => rfl

end Calls

end JobFunction

end Jobrocket
