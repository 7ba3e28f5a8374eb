import Jobrocket.Stalls
import Jobrocket.WaitRecycling

/-! # Calls that can still return

From a state in which no thread is about to allocate, the threads can always finish what they
have begun without making new calls, unless waits are knotted: as long as some wait could be
left they take steps that lower a rank, and when no such step is left the waits are a knot.
-/
namespace Jobrocket.CallStacks
open Library Memory
open scoped BigOperators

variable {τ : Type*}

/-- The calls that are on their way to `allocate_job`. -/
def Frame.allocates : Frame → Bool
  | .groupIncrement _ _ | .groupMake _ _ _ | .make _ => true
  | _ => false

def Frame.waits : Frame → Bool
  | .wait _ | .waitForAll _ => true
  | _ => false

def Label.isCall : Label τ → Bool
  | .call _ _ => true
  | _ => false

/-- A run in which nobody makes a call. What is taken is an entry that the deques offer to the
thread after the steps `pre` and those of the run. -/
structure Rest [DecidableEq τ] (index : τ → ℕ) (offers : List (Label τ) → τ → ℕ → Prop)
    (pre : List (Label τ)) (c : Config τ) (ls : List (Label τ)) (c' : Config τ) (evs : List Event) :
    Prop where
  exec : (step index).exec c ls = some (c', evs)
  calls : ∀ l ∈ ls, l.isCall = false
  offered : ∀ qs t n, qs ++ [.take t (some n)] <+: ls → offers (pre ++ qs) t n
  delivers : Delivers index c ls

/-- A step of such a run. -/
structure Rests [DecidableEq τ] (index : τ → ℕ) (offers : τ → ℕ → Prop) (c : Config τ) (l : Label τ)
    (c' : Config τ) (evs : List Event) : Prop where
  step : step index c l = some (c', evs)
  call : l.isCall = false
  entry : ∀ t n, l = .take t (some n) → offers t n ∧ n ∈ c.entries

/-- The steps that a call has left, if nobody makes another call. A push adds an entry, and with
it the steps of whoever takes it. -/
def RunPC.rank : RunPC → ℕ
  | .execute _ => 8
  | .body _ => 7
  | .leaveGroup _ => 6
  | .decrementGroup _ _ => 5
  | .clampGroup _ _ => 4
  | .release _ => 3
  | .leaveActive _ => 2
  | .clampActive => 1
  | .pop => 2
  | .steal => 1

def Frame.rank : Frame → ℕ
  | .groupSet _ _ => 13
  | .schedule _ => 12
  | .push _ => 11
  | .wait _ | .waitForAll _ => 1
  | .tryRun _ pc => pc.rank
  | _ => 0

def rank [Fintype τ] (c : Config τ) : ℕ := frameTotal Frame.rank c + 10 * c.entries.length

section Rest
variable [DecidableEq τ] {index : τ → ℕ} {offers : List (Label τ) → τ → ℕ → Prop}
variable {c c₁ c' : Config τ} {l : Label τ} {pre ls : List (Label τ)} {es evs evs' : List Event}

theorem Rest.nil (c : Config τ) : Rest index offers pre c [] c [] where
  exec := rfl
  calls := by simp
  offered qs t n hqs := by simp at hqs
  delivers qs t n hqs := by simp at hqs

theorem Rests.cons (hstep : Rests index (offers pre) c l c₁ evs)
    (h : Rest index offers (pre ++ [l]) c₁ ls c' evs') :
    Rest index offers pre c (l :: ls) c' (evs ++ evs') where
  exec := by
    rw [Stepper.exec_cons hstep.step, h.exec]
    rfl
  calls := by simpa using ⟨hstep.call, h.calls⟩
  offered := by
    intro qs t n hqs
    cases qs with
    | nil =>
      rw [List.append_nil]
      exact (hstep.entry t n (List.cons.inj (List.prefix_iff_eq_append.mp hqs)).1.symm).1
    | cons k qs =>
      obtain ⟨rfl, hrest⟩ := List.cons_prefix_cons.mp hqs
      have hoffered := h.offered qs t n hrest
      rwa [List.append_assoc] at hoffered
  delivers := by
    intro qs t n hqs d es hexec
    cases qs with
    | nil =>
      cases hexec
      exact (hstep.entry t n (List.cons.inj (List.prefix_iff_eq_append.mp hqs)).1.symm).2
    | cons k qs =>
      obtain ⟨rfl, hrest⟩ := List.cons_prefix_cons.mp hqs
      rw [Stepper.exec_cons hstep.step] at hexec
      obtain ⟨⟨d', es'⟩, hexec', heq⟩ := Option.map_eq_some_iff.mp hexec
      cases heq
      exact h.delivers qs t n hrest d' es' hexec'

theorem Rest.uncons (h : Rest index offers pre c (l :: ls) c' evs) :
    ∃ c₁ evs₁ evs₂, Rests index (offers pre) c l c₁ evs₁ ∧
      Rest index offers (pre ++ [l]) c₁ ls c' evs₂ ∧ evs = evs₁ ++ evs₂ := by
  cases hstep : step index c l with
  | none =>
    have hexec := h.exec
    simp [Stepper.exec, hstep] at hexec
  | some r =>
    obtain ⟨c₁, evs₁⟩ := r
    have hexec := h.exec
    rw [Stepper.exec_cons hstep] at hexec
    obtain ⟨⟨c₂, evs₂⟩, hexec', heq⟩ := Option.map_eq_some_iff.mp hexec
    cases heq
    refine ⟨c₁, evs₁, evs₂, ⟨hstep, h.calls l List.mem_cons_self, ?_⟩, ⟨hexec', ?_, ?_, ?_⟩, rfl⟩
    · rintro t n rfl
      have hoffered := h.offered [] t n (by simp)
      rw [List.append_nil] at hoffered
      exact ⟨hoffered, h.delivers [] t n (by simp) c [] rfl⟩
    · exact fun k hk => h.calls k (List.mem_cons_of_mem l hk)
    · intro qs t n hqs
      rw [List.append_assoc]
      exact h.offered (l :: qs) t n (List.cons_prefix_cons.mpr ⟨rfl, hqs⟩)
    · intro qs t n hqs d es hexec₁
      refine h.delivers (l :: qs) t n (List.cons_prefix_cons.mpr ⟨rfl, hqs⟩) d (evs₁ ++ es) ?_
      rw [Stepper.exec_cons hstep, hexec₁]
      rfl

/-- What the steps of such a run keep. -/
theorem Rest.induction {I : Config τ → List Event → Prop}
    (hstep : ∀ pre c es l c' evs, I c es → Rests index (offers pre) c l c' evs → I c' (es ++ evs))
    (hI : I c es) (h : Rest index offers pre c ls c' evs) : I c' (es ++ evs) := by
  induction ls generalizing pre c es evs with
  | nil =>
    have hexec := h.exec
    cases hexec
    rwa [List.append_nil]
  | cons l ls ih =>
    obtain ⟨c₁, evs₁, evs₂, hfirst, hrest, rfl⟩ := h.uncons
    rw [← List.append_assoc]
    exact ih (hstep pre c es l c₁ evs₁ hI hfirst) hrest

end Rest

section Moves
variable {c c₁ : Config τ} {i n : ℕ} {f : Frame} {fs : List Frame} {evs : List Event}

/-- A call that does not allocate counts no job, and leads to no allocation. -/
theorem Move.quiet (h : Move i c f c₁ fs evs) (hf : f.allocates = false) :
    (∀ x ∈ fs, x.allocates = false) ∧ ∀ n g, .counted n g ∉ evs := by
  cases h with
  | groupIncrement g function => cases hf
  | groupMake g n function halloc => cases hf
  | made function halloc => cases hf
  | refused function halloc => cases hf
  | _ => simp [Frame.allocates]

theorem Choice.quiet {entry : Option ℕ} (h : Choice c entry f c₁ fs evs) :
    (∀ x ∈ fs, x.allocates = false) ∧ ∀ n g, .counted n g ∉ evs := by
  cases h <;> simp [Frame.allocates]

theorem Move.waits_cases (h : Move i c f c₁ fs evs) :
    (∃ gs, fs = gs ++ [f] ∧ ∀ x ∈ gs, x.waits = false) ∨ ∀ x ∈ fs, x.waits = false := by
  cases h with
  | wait n => exact Or.inl ⟨[.tryRun 0 .pop], rfl, by simp [Frame.waits]⟩
  | waitForAll g => exact Or.inl ⟨[.tryRun 0 .pop], rfl, by simp [Frame.waits]⟩
  | _ => simp [Frame.waits]

theorem Choice.waits {entry : Option ℕ} (h : Choice c entry f c₁ fs evs) :
    ∀ x ∈ fs, x.waits = false := by
  cases h <;> simp [Frame.waits]

theorem Awaits.waits {es : List Event} (h : Awaits es f n) : f.waits = true := by
  cases h <;> rfl

theorem Move.turn {d : ℕ} (h : Move i c f c₁ fs evs) (hfs : fs = [.tryRun d .pop, f]) :
    c₁ = c ∧ evs = [] ∧ f.waits = true := by
  cases h with
  | wait n => exact ⟨rfl, rfl, rfl⟩
  | waitForAll g => exact ⟨rfl, rfl, rfl⟩
  | _ => simp at hfs

/-- A step that is not another turn of a wait lowers the rank. -/
theorem Move.rank (h : Move i c f c₁ fs evs) (hf : f.allocates = false)
    (hturn : ∀ d, fs ≠ [.tryRun d .pop, f]) :
    (fs.map Frame.rank).sum + 10 * c₁.entries.length < f.rank + 10 * c.entries.length := by
  cases h with
  | groupIncrement g function => cases hf
  | groupMake g n function halloc => cases hf
  | made function halloc => cases hf
  | refused function halloc => cases hf
  | wait n => exact absurd rfl (hturn 0)
  | waitForAll g => exact absurd rfl (hturn 0)
  | leaveGroup d n =>
    rw [Config.groupExit]
    split <;> simp [Frame.rank, RunPC.rank]
  | decrementGroup d g n => split <;> simp [Frame.rank, RunPC.rank]
  | release d n =>
    obtain ⟨pool, heq⟩ := releaseJob_eq c n
    simp [heq, Frame.rank, RunPC.rank]
  | push n =>
    simp only [Frame.rank, List.map_nil, List.sum_nil, List.length_cons]
    omega
  | _ => simp [Frame.rank, RunPC.rank]

theorem Choice.rank {entry : Option ℕ} (h : Choice c entry f c₁ fs evs)
    (hentry : ∀ n, entry = some n → n ∈ c.entries) :
    (fs.map Frame.rank).sum + 10 * c₁.entries.length + (if entry.isSome then 2 else 0) <
      f.rank + 10 * c.entries.length := by
  have herase : ∀ n, entry = some n → (c.entries.erase n).length + 1 = c.entries.length := by
    intro n hn
    have hmem := hentry n hn
    have hpos := List.length_pos_of_mem hmem
    rw [List.length_erase_of_mem hmem]
    omega
  cases h with
  | ready d n pc hpc hready =>
    have hlength := herase n rfl
    rcases hpc with rfl | rfl <;> simp [Frame.rank, RunPC.rank] <;> omega
  | popDrop d n hready =>
    have hlength := herase n rfl
    simp [Frame.rank, RunPC.rank]
    omega
  | stealDrop d n hready =>
    have hlength := herase n rfl
    simp [Frame.rank, RunPC.rank]
    omega
  | popNothing d => simp [Frame.rank, RunPC.rank]
  | stealNothing d => simp [Frame.rank, RunPC.rank]

end Moves

/-- What is known along such a run: no thread is about to allocate, and a wait for a job is for
one that was passed to `run` and whose block is not another's yet. -/
structure Settling [Fintype τ] (capacity : ℕ) (bases : List ℕ) (c : Config τ) (es : List Event)
    (stage : ℕ → Stage) (group : ℕ → Option ℕ) : Prop where
  inv : Inv capacity bases c es stage group
  running : Running c
  counted : Counted c es
  bound : ∀ g, (outstanding es g).card < 2 ^ 32
  nested : Nested c
  present : Present c es
  quiet : ∀ t, ∀ f ∈ c.frames t, f.allocates = false
  waits : ∀ t n, .wait n ∈ c.frames t → .ran n ∈ es ∧ c.block n ≠ nullptr ∧ stage n ≠ .recycled

section Steps
variable [Fintype τ] [DecidableEq τ] {capacity : ℕ} {bases : List ℕ} {index : τ → ℕ}
variable {c c₁ c' : Config τ} {es evs : List Event} {stage : ℕ → Stage} {i n : ℕ}
variable {group : ℕ → Option ℕ} {l : Label τ} {t : τ} {f : Frame} {fs rest : List Frame}
variable {offers : τ → ℕ → Prop}

omit [Fintype τ] in
/-- What a step does to the frames of the threads: those of one thread change at the top, to
calls that do not allocate and no new wait. -/
theorem Rests.top (hquiet : ∀ t, ∀ f ∈ c.frames t, f.allocates = false)
    (h : Rests index offers c l c' evs) :
    takes index c l = none ∧ (∀ n g, .counted n g ∉ evs) ∧
      ∃ t f fs rest, c.frames t = f :: rest ∧ c'.frames = Function.update c.frames t (fs ++ rest) ∧
        (∀ x ∈ fs, x.allocates = false) ∧
        ((∃ gs, fs = gs ++ [f] ∧ ∀ x ∈ gs, x.waits = false) ∨ ∀ x ∈ fs, x.waits = false) := by
  cases stepped_of_step h.step with
  | call t call hat => exact absurd h.call (by simp [Label.isCall])
  | @move t f rest fs c₁ evs htop hmove =>
    have hf := hquiet t f (htop ▸ List.mem_cons_self)
    obtain ⟨hfs, hcounted⟩ := hmove.quiet hf
    refine ⟨?_, hcounted, t, f, fs, rest, htop, rfl, hfs, hmove.waits_cases⟩
    simp only [takes, htop, List.head?_cons, Option.bind_some]
    cases f <;> first | rfl | cases hf
  | @choose t entry f rest fs c₁ evs htop hchoice =>
    obtain ⟨hfs, hcounted⟩ := hchoice.quiet
    exact ⟨rfl, hcounted, t, f, fs, rest, htop, rfl, hfs, Or.inr hchoice.waits⟩

theorem Settling.wait_mem (h : Settling capacity bases c es stage group)
    (hstep : Rests index offers c l c' evs) (hmem : .wait n ∈ c'.frames t) :
    .wait n ∈ c.frames t := by
  obtain ⟨-, -, u, f, fs, rest, htop, hframes, -, hwaits⟩ := hstep.top h.quiet
  rw [hframes] at hmem
  have hrest : ∀ x ∈ rest, x ∈ c.frames u := fun x hx => htop ▸ List.mem_cons_of_mem f hx
  rcases mem_frames hrest hmem with hold | ⟨rfl, hnew⟩
  · exact hold
  · rcases hwaits with ⟨gs, rfl, hgs⟩ | hnone
    · rcases List.mem_append.mp hnew with hg | hf
      · exact absurd (hgs _ hg) (by simp [Frame.waits])
      · rw [htop, List.mem_singleton.mp hf]
        exact List.mem_cons_self
    · exact absurd (hnone _ hnew) (by simp [Frame.waits])

theorem Settling.step (h : Settling capacity bases c es stage group)
    (hplace : JobPool.Placement capacity bases) (hindex : ∀ t, index t < bases.length)
    (hstep : Rests index offers c l c' evs) :
    ∃ stage' group', Settling capacity bases c' (es ++ evs) stage' group' := by
  obtain ⟨htakes, hcounted, u, f, fs, rest, htop, hframes, hfs, hwaits⟩ := hstep.top h.quiet
  have hruns : ∀ t n, l = .call t (.run n) → .made n ∈ es ∧ .ran n ∉ es := by
    rintro t n rfl
    cases hstep.call
  have hentry : ∀ t n, l = .take t (some n) → Job.isReady c.memory (c.block n) = true →
      n ∈ c.entries := fun t n hl _ => (hstep.entry t n hl).2
  have hfits : l.Fits := by
    cases l with
    | call t call => exact absurd hstep.call (by simp [Label.isCall])
    | go t => trivial
    | take t entry => trivial
  obtain ⟨stage', group', hinv, hrecycled⟩ :=
    h.inv.step hplace hindex hstep.step hruns hfits hentry
  have hbound : ∀ g, (outstanding (es ++ evs) g).card < 2 ^ 32 := by
    intro g
    refine lt_of_le_of_lt (Finset.card_le_card fun n hn => ?_) (h.bound g)
    obtain ⟨hin, hout⟩ := mem_outstanding.mp hn
    exact mem_outstanding.mpr ⟨(List.mem_append.mp hin).resolve_right (hcounted n g),
      fun hmem => hout (List.mem_append_left _ hmem)⟩
  refine ⟨stage', group', ?_⟩
  constructor
  case inv => exact hinv
  case running => exact h.running.step h.inv hinv hplace hindex hstep.step
  case counted => exact h.counted.step h.inv hstep.step hbound
  case bound => exact hbound
  case nested => exact h.nested.step hstep.step
  case present => exact h.present.step h.inv hstep.step hruns hentry
  case quiet =>
    intro t x hx
    rw [hframes] at hx
    have hrest : ∀ x ∈ rest, x ∈ c.frames u := fun x hx => htop ▸ List.mem_cons_of_mem f hx
    rcases mem_frames hrest hx with hold | ⟨-, hnew⟩
    · exact h.quiet t x hold
    · exact hfs x hnew
  case waits =>
    intro t n hn
    obtain ⟨hran, hp, hstage⟩ := h.waits t n (h.wait_mem hstep hn)
    obtain ⟨-, hborn, hfresh⟩ := h.inv.group_of_ran hran
    refine ⟨List.mem_append_left _ hran, ?_, fun hlost => ?_⟩
    · rwa [h.inv.block_of_step hstep.step hborn hfresh]
    · rcases hrecycled n hlost with hold | ⟨-, htaken⟩
      · exact hstage hold
      · rw [htakes] at htaken
        cases htaken

theorem suffix_of_ne {α : Type*} {x : α} {xs gs rest : List α} (hgs : ∀ y ∈ gs, y ≠ x)
    (h : x :: xs <:+ gs ++ rest) : x :: xs <:+ rest := by
  induction gs with
  | nil => exact h
  | cons y gs ih =>
    rcases List.suffix_cons_iff.mp h with heq | hrest
    · exact absurd (List.cons.inj heq).1.symm (hgs y List.mem_cons_self)
    · exact ih (fun z hz => hgs z (List.mem_cons_of_mem y hz)) hrest

theorem Settling.knot_back (h : Settling capacity bases c es stage group)
    (hstep : Rests index offers c l c' evs) {ws : Set (Waiter τ)} (hknot : Knot c' (es ++ evs) ws) :
    Knot c es ws := by
  obtain ⟨-, hcounted, u, f, fs, rest, htop, hframes, -, hwaits⟩ := hstep.top h.quiet
  constructor
  case on =>
    intro w hw
    obtain ⟨n, hawaits, -⟩ := hknot.tied w hw
    have hne : ∀ gs : List Frame, (∀ x ∈ gs, x.waits = false) → ∀ x ∈ gs, x ≠ w.frame := by
      rintro gs hgs x hx rfl
      have hfalse := hgs _ hx
      rw [hawaits.waits] at hfalse
      cases hfalse
    have hon := hknot.on w hw
    rw [Waiter.On, hframes] at hon
    by_cases hu : w.thread = u
    · rw [hu, Function.update_self] at hon
      rw [Waiter.On, hu, htop]
      rcases hwaits with ⟨gs, rfl, hgs⟩ | hnone
      · rw [List.append_assoc] at hon
        exact suffix_of_ne (hne gs hgs) hon
      · exact (suffix_of_ne (hne fs hnone) hon).trans (List.suffix_cons f rest)
    · rwa [Function.update_of_ne hu] at hon
  case tied =>
    intro w hw
    obtain ⟨n, hawaits, hbody⟩ := hknot.tied w hw
    refine ⟨n, ?_, hbody⟩
    generalize w.frame = x at hawaits
    cases hawaits with
    | job n => exact .job n
    | group g n hg => exact .group g n ((List.mem_append.mp hg).resolve_right (hcounted n _))

omit [Fintype τ] in
theorem exists_go (htop : c.frames t = f :: rest) (hf : f.allocates = false)
    (hlooks : ∀ d, f ≠ .tryRun d .pop ∧ f ≠ .tryRun d .steal) :
    ∃ c₁ fs evs, advance (index t) c f = some (c₁, fs, evs) ∧
      Rests index offers c (.go t) (c₁.withTop c t fs rest) evs := by
  have hadvance : ∃ r, advance (index t) c f = some r := by
    cases f with
    | groupIncrement g function => cases hf
    | groupMake g n function => cases hf
    | make function => cases hf
    | waitForAll g =>
      rw [advance]
      split <;> exact ⟨_, rfl⟩
    | wait n =>
      rw [advance]
      split <;> exact ⟨_, rfl⟩
    | tryRun d pc =>
      cases pc with
      | pop => exact absurd rfl (hlooks d).1
      | steal => exact absurd rfl (hlooks d).2
      | _ => exact ⟨_, rfl⟩
    | _ => exact ⟨_, rfl⟩
  obtain ⟨⟨c₁, fs, evs⟩, hadvance⟩ := hadvance
  have hmove := move_of_advance hadvance
  refine ⟨c₁, fs, evs, hadvance, ?_, rfl, fun u n hl => by cases hl⟩
  simp only [step, htop, hadvance, Option.map_some, Config.setTop, hmove.frames, List.tail_cons]
  rfl

omit [Fintype τ] in
theorem exists_take {d : ℕ} {pc : RunPC} {entry : Option ℕ}
    (htop : c.frames t = .tryRun d pc :: rest) (hpc : pc = .pop ∨ pc = .steal)
    (hentry : ∀ n, entry = some n → offers t n ∧ n ∈ c.entries) :
    ∃ c₁ fs evs, Choice c entry (.tryRun d pc) c₁ fs evs ∧
      Rests index offers c (.take t entry) (c₁.withTop c t fs rest) evs := by
  have hentry' : ∀ u n, Label.take t entry = .take u (some n) → offers u n ∧ n ∈ c.entries := by
    rintro u n ⟨⟩
    exact hentry n rfl
  rcases hpc with rfl | rfl
  · have hchoice := choice_of_choose c d false entry
    refine ⟨_, _, _, hchoice, ?_, rfl, hentry'⟩
    simp only [step, htop, Config.setTop, hchoice.frames, List.tail_cons]
    rfl
  · have hchoice := choice_of_choose c d true entry
    refine ⟨_, _, _, hchoice, ?_, rfl, hentry'⟩
    simp only [step, htop, Config.setTop, hchoice.frames, List.tail_cons]
    rfl

theorem rank_top (htop : c.frames t = f :: rest) (c₁ : Config τ) (fs : List Frame) :
    rank (c₁.withTop c t fs rest) + f.rank + 10 * c.entries.length =
      rank c + (fs.map Frame.rank).sum + 10 * c₁.entries.length := by
  have hframes : (c₁.withTop c t fs rest).frames = Function.update c.frames t (fs ++ rest) := rfl
  have htotal := frameTotal_top Frame.rank htop hframes
  have hentries : (c₁.withTop c t fs rest).entries = c₁.entries := rfl
  rw [rank, rank, hentries]
  omega

omit [DecidableEq τ] in
theorem Settling.unmet (h : Settling capacity bases c es stage group)
    (htop : c.frames t = f :: rest) {d : ℕ}
    (hadvance : advance i c f = some (c₁, [.tryRun d .pop, f], evs)) : Unmet c es f := by
  obtain ⟨-, -, hwaits⟩ := (move_of_advance hadvance).turn rfl
  cases f with
  | wait n =>
    obtain ⟨hran, hp, hstage⟩ := h.waits t n (htop ▸ List.mem_cons_self)
    refine ⟨hran, fun hexecuted => ?_, hp⟩
    have hdone := h.inv.completed hexecuted hstage
    simp [advance, hdone] at hadvance
  | waitForAll g =>
    intro hzero
    simp [advance, hzero] at hadvance
  | _ => cases hwaits

/-- A thread inside the library takes a step that lowers the rank, or waits in vain. -/
theorem Settling.progress (h : Settling capacity bases c es stage group)
    (htop : c.frames t = f :: rest) :
    (∃ l c' evs, Rests index offers c l c' evs ∧ rank c' < rank c) ∨
      Unmet c es f ∧
        ∃ d, Rests index offers c (.go t) (c.withTop c t [.tryRun d .pop, f] rest) [] := by
  have hf := h.quiet t f (htop ▸ List.mem_cons_self)
  by_cases hlooks : ∀ d, f ≠ .tryRun d .pop ∧ f ≠ .tryRun d .steal
  · obtain ⟨c₁, fs, evs, hadvance, hstep⟩ :
        ∃ c₁ fs evs, advance (index t) c f = some (c₁, fs, evs) ∧
          Rests index offers c (.go t) (c₁.withTop c t fs rest) evs := exists_go htop hf hlooks
    have hmove := move_of_advance hadvance
    by_cases hturn : ∃ d, fs = [.tryRun d .pop, f]
    · right
      obtain ⟨d, rfl⟩ := hturn
      obtain ⟨rfl, rfl, -⟩ := hmove.turn rfl
      exact ⟨h.unmet htop hadvance, d, hstep⟩
    · left
      have hlt := hmove.rank hf fun d heq => hturn ⟨d, heq⟩
      have htotal := rank_top htop c₁ fs
      exact ⟨.go t, _, evs, hstep, by omega⟩
  · left
    obtain ⟨d, pc, rfl, hpc⟩ : ∃ d pc, f = .tryRun d pc ∧ (pc = .pop ∨ pc = .steal) := by
      push Not at hlooks
      obtain ⟨d, hd⟩ := hlooks
      by_cases hpop : f = .tryRun d .pop
      · exact ⟨d, .pop, hpop, Or.inl rfl⟩
      · exact ⟨d, .steal, hd hpop, Or.inr rfl⟩
    obtain ⟨c₁, fs, evs, hchoice, hstep⟩ :
        ∃ c₁ fs evs, Choice c none (.tryRun d pc) c₁ fs evs ∧
          Rests index offers c (.take t none) (c₁.withTop c t fs rest) evs :=
      exists_take htop hpc (by simp)
    have hlt := hchoice.rank (by simp)
    have htotal := rank_top htop c₁ fs
    exact ⟨.take t none, _, evs, hstep, by omega⟩

/-- A wait that finds an entry lowers the rank with two steps. -/
theorem exists_found (htop : c.frames t = f :: rest) (d : ℕ) (hoffer : offers t n)
    (hn : n ∈ c.entries) :
    ∃ c' evs,
      Rests index offers (c.withTop c t [.tryRun d .pop, f] rest) (.take t (some n)) c' evs ∧
        rank c' < rank c := by
  set c₁ := c.withTop c t [.tryRun d .pop, f] rest with hc₁
  have htop₁ : c₁.frames t = .tryRun d .pop :: f :: rest := Function.update_self ..
  have hentry : ∀ k, some n = some k → offers t k ∧ k ∈ c₁.entries := by
    rintro k ⟨⟩
    exact ⟨hoffer, hn⟩
  obtain ⟨c₂, fs, evs, hchoice, hstep⟩ :
      ∃ c₂ fs evs, Choice c₁ (some n) (.tryRun d .pop) c₂ fs evs ∧
        Rests index offers c₁ (.take t (some n)) (c₂.withTop c₁ t fs (f :: rest)) evs :=
    exists_take htop₁ (Or.inl rfl) hentry
  have hlt := hchoice.rank fun k hk => (hentry k hk).2
  have htotal := rank_top htop₁ c₂ fs
  have htotal₁ := rank_top htop c [.tryRun d .pop, f]
  refine ⟨_, evs, hstep, ?_⟩
  rw [← hc₁] at htotal₁
  simp only [Option.isSome_some, if_true, List.map_cons, List.map_nil, List.sum_cons, List.sum_nil,
    Frame.rank, RunPC.rank] at hlt htotal htotal₁
  omega

end Steps

section Runs
variable [Fintype τ] [DecidableEq τ] {capacity self : ℕ} {bases : List ℕ} {m₀ : Memory}
variable {c₀ c c' : Config τ} {es es' evs : List Event} {stage : ℕ → Stage} {group : ℕ → Option ℕ}
variable {offers : List (Label τ) → τ → ℕ → Prop} {ls pre post : List (Label τ)} {l : Label τ}
variable (index : τ → ℕ)

/-- The state the run has come to, its waits not knotted. -/
structure Loose (capacity : ℕ) (bases : List ℕ) (c₀ : Config τ) (pre : List (Label τ))
    (c : Config τ) (es : List Event) : Prop where
  exec : (step index).exec c₀ pre = some (c, es)
  settling : ∃ stage group, Settling capacity bases c es stage group
  free : ∀ ws : Set (Waiter τ), ws.Nonempty → ¬ Knot c es ws

variable {index}

theorem Loose.step (h : Loose index capacity bases c₀ pre c es)
    (hplace : JobPool.Placement capacity bases) (hindex : ∀ t, index t < bases.length)
    (hstep : Rests index (offers pre) c l c' evs) :
    Loose index capacity bases c₀ (pre ++ [l]) c' (es ++ evs) := by
  obtain ⟨stage, group, hsettling⟩ := h.settling
  constructor
  case exec => exact Stepper.exec_concat.mpr ⟨c, es, evs, h.exec, hstep.step, rfl⟩
  case settling => exact hsettling.step hplace hindex hstep
  case free => exact fun ws hws hknot => h.free ws hws (hsettling.knot_back hstep hknot)

/-- When no step lowers the rank, every thread inside the library waits in vain. -/
theorem Loose.exists_entry (h : Loose index capacity bases c₀ pre c es) {t : τ}
    (ht : c.frames t ≠ [])
    (hstuck : ¬ ∃ l c' evs, Rests index (offers pre) c l c' evs ∧ rank c' < rank c) :
    c.entries ≠ [] := by
  obtain ⟨stage, group, hsettling⟩ := h.settling
  intro hentries
  have hstalled : Stalled c es := by
    refine ⟨hentries, fun u hu => ?_⟩
    obtain ⟨f, rest, htop⟩ := List.exists_cons_of_ne_nil hu
    have hnext : (∃ l c' evs, Rests index (offers pre) c l c' evs ∧ rank c' < rank c) ∨
        Unmet c es f ∧ ∃ d, Rests index (offers pre) c (.go u)
          (c.withTop c u [.tryRun d .pop, f] rest) [] := hsettling.progress htop
    rcases hnext with hlower | ⟨hunmet, -⟩
    · exact absurd hlower hstuck
    · exact ⟨⟨u, f, rest⟩, rfl, ⟨[], htop, by simp⟩, hunmet⟩
  obtain ⟨w, -, hw⟩ := hstalled.waiting t ht
  exact h.free _ ⟨w, hw⟩
    (hstalled.knot hsettling.inv hsettling.nested hsettling.counted hsettling.present)

/-- The threads return, by induction on the steps they have left. -/
theorem Loose.released (h : Loose index capacity bases c₀ pre c es)
    (hplace : JobPool.Placement capacity bases) (hindex : ∀ t, index t < bases.length)
    (hoffers : ∀ qs d fs, (CallStacks.step index).exec c₀ qs = some (d, fs) → d.entries ≠ [] →
      ∀ t, ∃ n ∈ d.entries, offers qs t n) :
    ∃ post c' es', Rest index offers pre c post c' es' ∧ ∀ t, c'.frames t = [] := by
  induction hr : rank c using Nat.strong_induction_on generalizing pre c es with
  | h r ih =>
  subst hr
  by_cases hdone : ∀ t, c.frames t = []
  · exact ⟨[], c, [], Rest.nil c, hdone⟩
  push Not at hdone
  obtain ⟨t, ht⟩ := hdone
  by_cases hlower : ∃ l c' evs, Rests index (offers pre) c l c' evs ∧ rank c' < rank c
  · obtain ⟨l, c₁, evs, hstep, hlt⟩ := hlower
    obtain ⟨post, c', es', hrest, hend⟩ := ih _ hlt (h.step hplace hindex hstep) rfl
    exact ⟨l :: post, c', _, hstep.cons hrest, hend⟩
  · -- a turn of a wait comes first, and then the entry that the deques offer
    have hentries := h.exists_entry ht hlower
    obtain ⟨stage, group, hsettling⟩ := h.settling
    obtain ⟨f, rest, htop⟩ := List.exists_cons_of_ne_nil ht
    obtain ⟨-, d, hturn⟩ := (hsettling.progress htop).resolve_left hlower
    have hthere := h.step hplace hindex hturn
    obtain ⟨n, hn, hoffer⟩ := hoffers _ _ _ hthere.exec hentries t
    obtain ⟨c₂, evs, hfound, hlt⟩ : ∃ c₂ evs, Rests index (offers (pre ++ [.go t]))
        (c.withTop c t [.tryRun d .pop, f] rest) (.take t (some n)) c₂ evs ∧ rank c₂ < rank c :=
      exists_found htop d hoffer hn
    obtain ⟨post, c', es', hrest, hend⟩ := ih _ hlt (hthere.step hplace hindex hfound) rfl
    exact ⟨_, c', _, hturn.cons (hfound.cons hrest), hend⟩

theorem Settling.not_released (h : Settling capacity bases c es stage group)
    (hplace : JobPool.Placement capacity bases) (hindex : ∀ t, index t < bases.length)
    {ws : Set (Waiter τ)} (hws : ws.Nonempty) (hknot : Knot c es ws)
    (hrest : Rest index offers pre c post c' es') : ∃ t, c'.frames t ≠ [] := by
  have hend : (∃ stage group, Settling capacity bases c' (es ++ es') stage group) ∧
      Knot c' (es ++ es') ws := by
    refine hrest.induction (I := fun c es =>
      (∃ stage group, Settling capacity bases c es stage group) ∧ Knot c es ws) ?_
      ⟨⟨stage, group, h⟩, hknot⟩
    rintro pre c es l c' evs ⟨⟨stage, group, hsettling⟩, hknot⟩ hstep
    exact ⟨hsettling.step hplace hindex hstep,
      hknot.step hsettling.inv hsettling.running hsettling.counted hstep.step⟩
  obtain ⟨w, hw⟩ := hws
  refine ⟨w.thread, fun hnil => ?_⟩
  have hon := hend.2.on w hw
  rw [Waiter.On, hnil] at hon
  exact absurd (List.suffix_nil.mp hon) (by simp)

theorem settling_of_exec (hplace : JobPool.Placement capacity bases) (hself : self < 2 ^ 64)
    (hne : self ≠ nullptr)
    (husage : Usage index bases.length (boot τ self capacity bases m₀) ls) (hfits : Fits ls)
    (hdelivers : DeliversReady index (boot τ self capacity bases m₀) ls)
    (hbound : ∀ pre, pre <+: ls → ∀ c es,
      (step index).exec (boot τ self capacity bases m₀) pre = some (c, es) →
        ∀ g, (outstanding es g).card < 2 ^ 32)
    (h : (step index).exec (boot τ self capacity bases m₀) ls = some (c, es))
    (hquiet : ∀ t, ∀ f ∈ c.frames t, f.allocates = false)
    (hwaits : ∀ t n, .wait n ∈ c.frames t → .ran n ∈ es ∧ c.block n ≠ nullptr)
    (hkept : ∀ pre l, pre ++ [l] <+: ls → ∀ d fs,
      (step index).exec (boot τ self capacity bases m₀) pre = some (d, fs) →
        ∀ t n, .wait n ∈ c.frames t → .executed n ∈ fs → takes index d l ≠ some (d.block n)) :
    ∃ stage group, Settling capacity bases c es stage group := by
  obtain ⟨stage, group, hinv, hlost⟩ := inv_of_exec (P := fun _ n => ∀ t, .wait n ∉ c.frames t)
    hplace hself hne husage hfits hdelivers (fun _ _ _ hnone => hnone)
    (fun pre l hl d fs hexec n hn htake t hmem => hkept pre l hl d fs hexec t n hmem hn htake)
    List.prefix_rfl h
  obtain ⟨-, hrunning, hcounted⟩ :=
    counted_of_exec hplace hself hne husage hfits hdelivers hbound List.prefix_rfl h
  obtain ⟨hnested, hpresent⟩ :=
    present_of_exec hplace hself hne husage hfits hdelivers List.prefix_rfl h
  refine ⟨stage, group, hinv, hrunning, hcounted, hbound ls List.prefix_rfl c es h, hnested,
    hpresent, hquiet, fun t n hmem => ?_⟩
  obtain ⟨hran, hp⟩ := hwaits t n hmem
  exact ⟨hran, hp, fun hrecycled => hlost n hrecycled t hmem⟩

variable (index)

/-- When nobody is about to allocate, and whoever waits for a job waits for one that was passed
to `run` and whose block was not taken again, the threads can all return without another call
exactly if no waits are knotted, whatever entries the deques offer. -/
theorem released_iff (capacity : ℕ) (bases : List ℕ) (hplace : JobPool.Placement capacity bases)
    (self : ℕ) (hself : self < 2 ^ 64) (hne : self ≠ nullptr) (m₀ : Memory) (ls : List (Label τ))
    (husage : Usage index bases.length (boot τ self capacity bases m₀) ls) (hfits : Fits ls)
    (hdelivers : DeliversReady index (boot τ self capacity bases m₀) ls)
    (hbound : ∀ pre, pre <+: ls → ∀ c es,
      (step index).exec (boot τ self capacity bases m₀) pre = some (c, es) →
        ∀ g, (outstanding es g).card < 2 ^ 32)
    (offers : List (Label τ) → τ → ℕ → Prop)
    (hoffers : ∀ pre c es, (step index).exec (boot τ self capacity bases m₀) pre = some (c, es) →
      c.entries ≠ [] → ∀ t, ∃ n ∈ c.entries, offers pre t n)
    (c : Config τ) (es : List Event)
    (h : (step index).exec (boot τ self capacity bases m₀) ls = some (c, es))
    (hquiet : ∀ t, ∀ f ∈ c.frames t, f.allocates = false)
    (hwaits : ∀ t n, .wait n ∈ c.frames t → .ran n ∈ es ∧ c.block n ≠ nullptr)
    (hkept : ∀ pre l, pre ++ [l] <+: ls → ∀ d fs,
      (step index).exec (boot τ self capacity bases m₀) pre = some (d, fs) →
        ∀ t n, .wait n ∈ c.frames t → .executed n ∈ fs → takes index d l ≠ some (d.block n)) :
    (∃ post c' es', Rest index offers ls c post c' es' ∧ ∀ t, c'.frames t = []) ↔
      ¬ ∃ ws : Set (Waiter τ), ws.Nonempty ∧ Knot c es ws := by
  obtain ⟨stage, group, hsettling⟩ :=
    settling_of_exec hplace hself hne husage hfits hdelivers hbound h hquiet hwaits hkept
  constructor
  · rintro ⟨post, c', es', hrest, hend⟩ ⟨ws, hws, hknot⟩
    obtain ⟨t, ht⟩ := hsettling.not_released hplace husage.index_lt hws hknot hrest
    exact ht (hend t)
  · intro hfree
    have hloose : Loose index capacity bases (boot τ self capacity bases m₀) ls c es :=
      ⟨h, ⟨stage, group, hsettling⟩, fun ws hws hknot => hfree ⟨ws, hws, hknot⟩⟩
    exact hloose.released hplace husage.index_lt hoffers

end Runs

section Small

/-- The thread has made a job, passed it to `run`, and waits for it. -/
abbrev awaiting : List (Label Unit) :=
  [.call () (.make callable), .go ()] ++ running 0 ++ [.call () (.wait 0)]

/-- Its call of `wait` is not in a knot: no function is below it. -/
theorem released_iff_awaiting :
    ∃ c es, (step fun _ => 0).exec (boot Unit 16 1 [1024] fun _ => 0) awaiting = some (c, es) ∧
      c.frames () = [.wait 0] ∧ ∃ post c' es',
        Rest (fun _ => 0) (fun _ _ _ => True) awaiting c post c' es' ∧ ∀ t, c'.frames t = [] := by
  have hstate : ((step fun _ => 0).exec (boot Unit 16 1 [1024] fun _ => 0) awaiting).map
      (fun r => (r.1.frames (), r.2, r.1.block 0)) =
        some ([.wait 0], [.made 0, .ran 0, .scheduled 0], 1024) := by decide +kernel
  obtain ⟨⟨c, es⟩, hrun, hc⟩ := Option.map_eq_some_iff.mp hstate
  simp only [Prod.mk.injEq] at hc
  obtain ⟨hframes, rfl, hblock⟩ := hc
  have hplace : JobPool.Placement 1 [1024] := ⟨by decide, by decide, by decide, by decide⟩
  have husage : Usage (fun _ => 0) 1 (boot Unit 16 1 [1024] fun _ => 0) awaiting :=
    .of_check (fun _ => by decide) (by decide +kernel)
  have hdelivers : Delivers (fun _ => 0) (boot Unit 16 1 [1024] fun _ => 0) awaiting :=
    .of_check (by decide +kernel)
  refine ⟨c, _, hrun, hframes, (released_iff (fun _ => 0) 1 [1024] hplace 16 (by decide) (by decide)
    (fun _ => 0) awaiting husage (by decide) hdelivers.ready
    (fun _ hpre _ _ hexec => (bounded_of_exec _ hrun (by decide) hpre hexec).1) (fun _ _ _ => True)
    ?_ c _ hrun ?_ ?_ ?_).mpr ?_⟩
  · intro pre d fs _ hentries _
    obtain ⟨n, hn⟩ := List.exists_mem_of_ne_nil _ hentries
    exact ⟨n, hn, trivial⟩
  · intro t f hf
    rw [hframes, List.mem_singleton] at hf
    rw [hf]
    rfl
  · intro t n hmem
    rw [hframes, List.mem_singleton] at hmem
    cases hmem
    exact ⟨by simp, by rw [hblock]; decide⟩
  · intro pre l hl d fs hexec t n _ hexecuted
    have hpre := (List.prefix_append pre [l]).trans hl
    have hmem := (Stepper.exec_events_initial hrun hpre hexec).subset hexecuted
    simp at hmem
  · rintro ⟨ws, ⟨w, hw⟩, hknot⟩
    obtain ⟨n, -, v, hv, d, hbody⟩ := hknot.tied w hw
    have hmem := (hknot.on v hv).subset (List.mem_cons_of_mem _ hbody)
    rw [hframes] at hmem
    simp at hmem

end Small

end Jobrocket.CallStacks
