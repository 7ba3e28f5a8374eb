import Jobrocket.JobFunction
import Jobrocket.StoredFunctions

/-! # What the functions of a run are called with

A stored function is an object in the block of its job. It is written there when the job is
made, and `execute` reads it when the job is run, with other jobs made, run and freed in
between. If every object fits, what is read is what was written, and the call depends only
on the variables that the object refers to.
-/
namespace Jobrocket.CallStacks
open Library Memory JobFunction

variable {F X V τ : Type*}

/-- The bytes that the constructor of a `JobFunction` writes, and the object that they are. -/
structure Layout (F X V : Type*) where
  bytes : JobFunction F X V → List UInt8
  object : List UInt8 → JobFunction F X V
  object_bytes : ∀ j, object (bytes j) = j

/-- The calls made by `execute` on the object in the buffer of the job in block `p`, whose type
has `size` bytes. -/
def Layout.execute (layout : Layout F X V) (m : Memory) (p size : ℕ) (s : X → V) :
    List (Apply.Invocation F V) :=
  JobFunction.execute s (layout.object (m.loadBytes (p + 28) size))

inductive Constructs (s : X → V) (function : Apply.Callable F) (args : List (Argument X V)) :
    JobFunction F X V → Prop
  | make : Constructs s function args (makeJob s function (expressions args))
  | groupRun : Constructs s function args (run s function (expressions args))

variable {layout : Layout F X V} {m : Memory} {p : ℕ} {j : JobFunction F X V} {s s' : X → V}
variable {function : Apply.Callable F} {args : List (Argument X V)}

theorem Constructs.eq (h : Constructs s function args j) :
    j = makeJob s function (expressions args) := by
  cases h with
  | make => rfl
  | groupRun => exact run_eq_makeJob s function (expressions args)

/-- What is executed is the object that was written, if its bytes are still there. -/
theorem Layout.execute_eq (h : m.loadBytes (p + 28) (layout.bytes j).length = layout.bytes j) :
    layout.execute m p (layout.bytes j).length s' = JobFunction.execute s' j := by
  rw [Layout.execute, h, layout.object_bytes]

section Runs
variable [Fintype τ] [DecidableEq τ] [DecidableEq X] (index : τ → ℕ)

/-- In every run whose callables fit, a job calls its function once, with the values that the
arguments had when it was made, exactly when the variables among them have these values again
when it is executed. -/
theorem calledAsMade_iff (capacity : ℕ) (bases : List ℕ) (hplace : JobPool.Placement capacity bases)
    (self : ℕ) (hself : self < 2 ^ 64) (hne : self ≠ nullptr) (m₀ : Memory) (ls : List (Label τ))
    (husage : Usage index bases.length (boot τ self capacity bases m₀) ls) (hfits : Fits ls)
    (hdelivers : DeliversReady index (boot τ self capacity bases m₀) ls)
    (pre : List (Label τ)) (hpre : pre <+: ls) (c : Config τ) (es : List Event)
    (h : (step index).exec (boot τ self capacity bases m₀) pre = some (c, es))
    (layout : Layout F X V) (s : X → V) (function : Apply.Callable F) (args : List (Argument X V))
    (assignments : List (X × V)) (j : JobFunction F X V) (hj : Constructs s function args j)
    (n : ℕ) (hbegun : Begun index (boot τ self capacity bases m₀) pre n (layout.bytes j))
    (t : τ) (d : ℕ) (hframe : .tryRun d (.body n) ∈ c.frames t) :
    layout.execute c.memory (c.block n) (layout.bytes j).length (assign s assignments) =
        [⟨function.target, args.map (·.expression.object.value s)⟩] ↔
      ∀ x, .lvalue x ∈ args → assign s assignments x = s x := by
  obtain ⟨stage, group, hinv⟩ := exists_inv_of_exec hplace hself hne husage hfits hdelivers hpre h
  obtain ⟨-, hcarried⟩ := carried_of_exec hplace hself hne husage hfits hdelivers hpre h
  obtain ⟨hhas, hp⟩ := hinv.has_of_taken (Or.inr rfl) hframe
  have hbytes := (hcarried n (layout.bytes j) hbegun).stored hhas hp
  rw [layout.execute_eq hbytes, hj.eq]
  exact execute_makeJob_iff

end Runs

section Small

def elementBytes : Element Unit UInt8 → List UInt8
  | .reference (.variable ()) => [0, 0]
  | .reference (.temporary v) => [1, v]
  | .value v => [2, v]

def elements : List UInt8 → List (Element Unit UInt8)
  | 0 :: _ :: bytes => .reference (.variable ()) :: elements bytes
  | 1 :: v :: bytes => .reference (.temporary v) :: elements bytes
  | _ :: v :: bytes => .value v :: elements bytes
  | _ => []

theorem elements_elementBytes (es : List (Element Unit UInt8)) :
    elements (es.flatMap elementBytes) = es := by
  induction es with
  | nil => rfl
  | cons e es ih =>
    rw [List.flatMap_cons]
    cases e with
    | reference object => cases object <;> simp [elementBytes, elements, ih]
    | value v => simp [elementBytes, elements, ih]

/-- One function of two kinds, one variable, and values of a byte. -/
def tagged : Layout Unit Unit UInt8 where
  bytes j :=
    (match j.functionPtr with
      | .functionObject _ => 0
      | .memberPointer _ => 1) :: j.argTuple.flatMap elementBytes
  object
    | 0 :: bytes => ⟨.functionObject (), elements bytes⟩
    | _ :: bytes => ⟨.memberPointer (), elements bytes⟩
    | [] => ⟨.functionObject (), []⟩
  object_bytes j := by
    obtain ⟨function, elements⟩ := j
    cases function <;> simp [elements_elementBytes]

abbrev printed (args : List (Argument Unit UInt8)) : JobFunction Unit Unit UInt8 :=
  makeJob (fun _ => 0) (.functionObject ()) (expressions args)

/-- A job that is given the variable is made and run up to the call of its function. -/
abbrev printing : List (Label Unit) :=
  [.call () (.make (tagged.bytes (printed [.lvalue ()]))), .go ()] ++ running 0 ++
    [.call () .tryRun, .take () (some 0), .go ()]

theorem printing_calls :
    ∃ c es, (step fun _ => 0).exec (boot Unit 16 1 [1024] fun _ => 0) printing = some (c, es) ∧
      c.frames () = [.tryRun 0 (.body 0)] ∧
      Begun (fun _ => 0) (boot Unit 16 1 [1024] fun _ => 0) printing 0
        (tagged.bytes (printed [.lvalue ()])) ∧
      ∀ v, tagged.execute c.memory (c.block 0) 3 (fun _ => v) = [⟨(), [v]⟩] := by
  have hend : ((step fun _ => 0).exec (boot Unit 16 1 [1024] fun _ => 0) printing).map (fun r =>
      (r.1.frames (), r.1.memory.loadBytes (r.1.block 0 + 28) 3)) =
        some ([.tryRun 0 (.body 0)], [0, 0, 0]) := by decide +kernel
  obtain ⟨⟨c, es⟩, hrun, hc⟩ := Option.map_eq_some_iff.mp hend
  simp only [Prod.mk.injEq] at hc
  refine ⟨c, es, hrun, hc.1, ⟨printing.take 1, .go (), _, _, ⟨_, rfl⟩, rfl, rfl⟩, fun v => ?_⟩
  have hbytes : c.memory.loadBytes (c.block 0 + 28) (tagged.bytes (printed [.lvalue ()])).length =
      tagged.bytes (printed [.lvalue ()]) := hc.2
  exact (Layout.execute_eq hbytes).trans execute_makeJob

/-- The variable is counted on and set back before the job is run. -/
theorem calledAsMade_iff_printing :
    ∃ c es, (step fun _ => 0).exec (boot Unit 16 1 [1024] fun _ => 0) printing = some (c, es) ∧
      tagged.execute c.memory (c.block 0) 3 (assign (fun _ => 0) [((), 1), ((), 0)]) =
        [⟨(), [0]⟩] := by
  obtain ⟨c, es, hrun, hframes, hbegun, -⟩ := printing_calls
  have hplace : JobPool.Placement 1 [1024] := ⟨by decide, by decide, by decide, by decide⟩
  have husage : Usage (fun _ => 0) 1 (boot Unit 16 1 [1024] fun _ => 0) printing :=
    .of_check (fun _ => by decide) (by decide +kernel)
  have hdelivers : Delivers (fun _ => 0) (boot Unit 16 1 [1024] fun _ => 0) printing :=
    .of_check (by decide +kernel)
  exact ⟨c, es, hrun, (calledAsMade_iff (fun _ => 0) 1 [1024] hplace 16 (by decide) (by decide)
    (fun _ => 0) printing husage (by decide) hdelivers.ready printing List.prefix_rfl c es hrun
    tagged (fun _ => 0) (.functionObject ()) [.lvalue ()] _ _ .make 0 hbegun () 0
    (hframes ▸ List.mem_cons_self)).mpr fun () _ => by decide⟩

/-- A loop variable is counted on before the job is executed, and the function is called with
its new value. -/
theorem counted_on_not_calledAsMade :
    Fits printing ∧
      ∃ c es, (step fun _ => 0).exec (boot Unit 16 1 [1024] fun _ => 0) printing = some (c, es) ∧
        .tryRun 0 (.body 0) ∈ c.frames () ∧
        Begun (fun _ => 0) (boot Unit 16 1 [1024] fun _ => 0) printing 0
          (tagged.bytes (printed [.lvalue ()])) ∧
        tagged.execute c.memory (c.block 0) 3 (assign (fun _ => 0) [((), 1)]) = [⟨(), [1]⟩] ∧
        tagged.execute c.memory (c.block 0) 3 (assign (fun _ => 0) [((), 1)]) ≠ [⟨(), [0]⟩] := by
  obtain ⟨c, es, hrun, hframes, hbegun, hcalls⟩ := printing_calls
  have hcall : tagged.execute c.memory (c.block 0) 3 (assign (fun _ => 0) [((), 1)]) =
      [⟨(), [1]⟩] := hcalls 1
  refine ⟨by decide, c, es, hrun, hframes ▸ List.mem_cons_self, hbegun, hcall, ?_⟩
  rw [hcall]
  decide

/-- Their object takes 45 bytes. -/
abbrev many : List (Argument Unit UInt8) := List.replicate 22 (.temporary 7)

/-- Another job is made in the next block before the one with these arguments is run. -/
abbrev crowding : List (Label Unit) :=
  [.call () (.make (tagged.bytes (printed many))), .go (), .call () (.make callable), .go ()] ++
    running 0 ++ [.call () .tryRun, .take () (some 0), .go ()]

/-- An object that does not fit: its last argument is the lowest byte of the next job's source
pool when it is executed, though all arguments were temporaries. -/
theorem crowding_not_calledAsMade :
    ∃ c es, (step fun _ => 0).exec (boot Unit 16 2 [1024] fun _ => 0) crowding = some (c, es) ∧
      c.frames () = [.tryRun 0 (.body 0)] ∧ (tagged.bytes (printed many)).length = 45 ∧
      tagged.execute c.memory (c.block 0) 45 (fun _ => 0) =
        [⟨(), List.replicate 21 7 ++ [16]⟩] := by
  have hend : ((step fun _ => 0).exec (boot Unit 16 2 [1024] fun _ => 0) crowding).map (fun r =>
      (r.1.frames (), tagged.execute r.1.memory (r.1.block 0) 45 fun _ => 0)) =
        some ([.tryRun 0 (.body 0)], [⟨(), List.replicate 21 7 ++ [16]⟩]) := by decide +kernel
  obtain ⟨⟨c, es⟩, hrun, hc⟩ := Option.map_eq_some_iff.mp hend
  simp only [Prod.mk.injEq] at hc
  exact ⟨c, es, hrun, hc.1, by decide, hc.2⟩

end Small

end Jobrocket.CallStacks
