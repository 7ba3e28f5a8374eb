import Jobrocket.StoredFunctions

/-! # Who writes which byte

The threads share one memory. A step changes the state or the group counter of the job that
its call has, or it takes a block of the thread's own array, and then it changes no byte of a
block whose job somebody has. Outside the arrays of the pool nothing is ever written.
-/
namespace Jobrocket.CallStacks
open Library Memory

variable {τ : Type*} [Fintype τ]

/-- The byte lies outside the arrays of the pool. -/
def Outside (capacity : ℕ) (bases : List ℕ) (x : ℕ) : Prop :=
  ∀ b ∈ bases, x < b ∨ b + Job.size * capacity ≤ x

/-- What gives a step the right to change the byte `x`. -/
inductive Owns (capacity : ℕ) (bases : List ℕ) (index : τ → ℕ) (c : Config τ) (es : List Event)
    (x : ℕ) : Label τ → Prop
  | field (t : τ) {f : Frame} {rest : List Frame} {n : ℕ} {s : Stage}
    (htop : c.frames t = f :: rest) (hjob : f.job = some (n, s)) (hlive : s.Live) (hp : c.block n ≠ nullptr)
    (hlo : c.block n + 8 ≤ x) (hhi : x < c.block n + 24) : Owns capacity bases index c es x (.go t)
  | block (t : τ) {p b : ℕ} (htakes : takes index c (.go t) = some p)
    (hb : bases[index t]? = some b) (hlo : b ≤ x) (hhi : x < b + Job.size * capacity)
    (hfree : ∀ n, Has c es n → c.block n ≠ nullptr → x < c.block n ∨ c.block n + Job.size ≤ x) :
    Owns capacity bases index c es x (.go t)

section Steps
variable {capacity : ℕ} {bases : List ℕ} {index : τ → ℕ} {c c₁ c' : Config τ} {es evs : List Event}
variable {stage : ℕ → Stage} {group : ℕ → Option ℕ} {i n x : ℕ} {t : τ} {f : Frame}
variable {fs rest : List Frame} {l : Label τ}

/-- An allocation changes bytes of its thread's array only, and none of a block that is live. -/
theorem Inv.alloc_writes (h : Inv capacity bases c es stage group)
    (hplace : JobPool.Placement capacity bases) (hi : i < bases.length) {function : List UInt8}
    (hfits : function.length ≤ Job.functionRoom)
    {p : ℕ} {pool : JobPool} {m : Memory} {calls : List (ℕ × Option Error)}
    (halloc : c.pool.allocateJob c.memory i function = (.ok p, pool, m, calls))
    (hx : m x ≠ c.memory x) :
    c.pool.nextBlock i = some p ∧ bases[i] ≤ x ∧ x < bases[i] + Job.size * capacity ∧
      ∀ n, Has c es n → c.block n ≠ nullptr → x < c.block n ∨ c.block n + Job.size ≤ x := by
  obtain ⟨live, hinv, hiff⟩ := h.store.given
  obtain ⟨-, hnext, hp, -⟩ := hinv.allocated hplace hi hfits halloc
  have hcontained := hinv.contained hplace hi hfits halloc
  have harray : bases[i] ≤ x ∧ x < bases[i] + Job.size * capacity := by
    by_contra hout
    have hpb := blocks_bounds hp
    refine hx ((hcontained.block x (by omega)).trans (hcontained.recycling x fun e he => ?_))
    have heb := hinv.entries_bounds hi he
    unfold Job.size at *
    omega
  refine ⟨hnext, harray.1, harray.2, fun n hn hnonnull => ?_⟩
  obtain ⟨j, hj⟩ := (hiff (c.block n)).mpr ⟨hnonnull, n, h.live_of_has hn, rfl⟩
  by_contra hin
  exact hx (hcontained.jobs j _ hj x (by omega) (by omega))

omit [Fintype τ] in
theorem of_store_ne {m : Memory} {w a v : ℕ} (hx : m.store w a v x ≠ m x) : a ≤ x ∧ x < a + w := by
  by_contra hout
  have hsame : m.Same (m.store w a v) x (x + 1) := same_store (by omega)
  exact hx (hsame x le_rfl (Nat.lt_succ_self x))

theorem Inv.move_writes (h : Inv capacity bases c es stage group)
    (hplace : JobPool.Placement capacity bases) (hi : index t < bases.length)
    (htop : c.frames t = f :: rest) (hmove : Move (index t) c f c₁ fs evs)
    (hx : c₁.memory x ≠ c.memory x) : Owns capacity bases index c es x (.go t) := by
  -- the words that are written beside an allocation are those of the call's job
  have hfield : ∀ {n : ℕ} {s : Stage}, f.job = some (n, s) → s.Live → c.block n ≠ nullptr →
      c.block n + 8 ≤ x ∧ x < c.block n + 24 → Owns capacity bases index c es x (.go t) :=
    fun hjob hlive hp hin => .field t htop hjob hlive hp hin.1 hin.2
  have hfields : ∀ {n : ℕ} {s : Stage}, f.job = some (n, s) →
      s.Fields c.memory c.pool.self (c.block n) (group n) :=
    fun hjob => h.stage_eq htop hjob ▸ h.store.fields _
  have hblock : ∀ {function : List UInt8} {p : ℕ} {pool : JobPool} {m : Memory}
      {calls : List (ℕ × Option Error)},
      c.pool.allocateJob c.memory (index t) function = (.ok p, pool, m, calls) →
      function.length ≤ Job.functionRoom → m x ≠ c.memory x →
        f.takes c.pool (index t) = c.pool.nextBlock (index t) →
          Owns capacity bases index c es x (.go t) := by
    intro function p pool m calls halloc hfits hne htakes
    obtain ⟨hnext, hlo, hhi, hfree⟩ := h.alloc_writes hplace hi hfits halloc hne
    have htake : takes index c (.go t) = some p := by
      rw [takes, htop, List.head?_cons, Option.bind_some, htakes, hnext]
    exact .block t htake (List.getElem?_eq_getElem hi) hlo hhi hfree
  have hfits := h.callables t f (htop ▸ List.mem_cons_self)
  cases hmove with
  | groupMake g n function halloc => exact hblock halloc hfits hx rfl
  | made function halloc => exact hblock halloc hfits hx rfl
  | refused function halloc =>
    obtain ⟨live, hinv, -⟩ := h.store.given
    exact absurd (congrFun (hinv.refused hplace hi hfits halloc).2.2.2 x) hx
  | groupSet g n =>
    have hin := of_store_ne hx
    exact hfield rfl trivial (hfields rfl).1 (by omega)
  | execute d n =>
    have hin := of_store_ne hx
    exact hfield rfl trivial (hfields rfl).1 (by omega)
  | body d n =>
    have hin := of_store_ne hx
    exact hfield rfl trivial (hfields rfl).1 (by omega)
  | release d n =>
    obtain ⟨pool, heq⟩ := releaseJob_eq c n
    rw [heq] at hx
    exact absurd rfl hx
  | _ => exact absurd rfl hx

theorem Inv.writes [DecidableEq τ] (h : Inv capacity bases c es stage group)
    (hplace : JobPool.Placement capacity bases) (hindex : ∀ t, index t < bases.length)
    (hstep : CallStacks.step index c l = some (c', evs)) (hx : c'.memory x ≠ c.memory x) :
    Owns capacity bases index c es x l := by
  cases stepped_of_step hstep with
  | call t call hat => exact absurd rfl hx
  | choose t entry htop hchoice => exact absurd (congrFun hchoice.ground.1 x) hx
  | move t htop hmove => exact h.move_writes hplace (hindex t) htop hmove hx

theorem Owns.exists_go (h : Owns capacity bases index c es x l) : ∃ t, l = .go t := by
  cases h with
  | field t htop hjob hlive hp hlo hhi => exact ⟨t, rfl⟩
  | block t htakes hb hlo hhi hfree => exact ⟨t, rfl⟩

theorem Owns.not_outside (h : Owns capacity bases index c es x l)
    (hinv : Inv capacity bases c es stage group) : ¬ Outside capacity bases x := by
  intro hout
  cases h with
  | field t htop hjob hlive hp hlo hhi =>
    have hholds := ((hinv.stage_eq htop hjob).symm ▸ hlive).holds
    obtain ⟨i, hi, hblock⟩ := hinv.store.placed _ hholds hp
    have hbounds := blocks_bounds hblock
    have := hout _ (List.getElem_mem hi)
    unfold Job.size at *
    omega
  | block t htakes hb hlo hhi hfree =>
    have := hout _ (List.mem_of_getElem? hb)
    omega

theorem Inv.thread_unique [DecidableEq τ] (h : Inv capacity bases c es stage group) {u : τ}
    {g : Frame} {s r : Stage} (hf : f ∈ c.frames t) (hg : g ∈ c.frames u)
    (hfn : f.job = some (n, s)) (hgn : g.job = some (n, r)) : t = u := by
  by_contra hne
  have hmem : ∀ {t : τ} {f : Frame} {s : Stage}, f ∈ c.frames t → f.job = some (n, s) →
      n ∈ (jobs (c.frames t)).map Prod.fst := fun hf hjob =>
    Multiset.mem_map.mpr ⟨_, List.mem_filterMap.mpr ⟨_, hf, hjob⟩, rfl⟩
  have hle : jobs (c.frames t) + jobs (c.frames u) ≤ held c := by
    have hpair : ∑ v ∈ {t, u}, jobs (c.frames v) ≤ ∑ v, jobs (c.frames v) :=
      Finset.sum_le_sum_of_subset (Finset.subset_univ _)
    rw [Finset.sum_pair hne] at hpair
    exact hpair.trans (Multiset.le_add_right _ _)
  have hnodup := Multiset.nodup_of_le (Multiset.map_le_map hle) h.roles.nodup
  rw [Multiset.map_add] at hnodup
  exact Multiset.disjoint_left.mp (Multiset.nodup_add.mp hnodup).2.2 (hmem hf hfn) (hmem hg hgn)

/-- No byte is two threads' to change. -/
theorem Owns.thread_unique [DecidableEq τ] {u : τ} (h : Owns capacity bases index c es x (.go t))
    (h' : Owns capacity bases index c es x (.go u)) (hinv : Inv capacity bases c es stage group)
    (hplace : JobPool.Placement capacity bases) (hindex : ∀ t, index t < bases.length)
    (hinjective : Function.Injective index) : t = u := by
  have hmem : ∀ {t : τ} {f : Frame} {rest : List Frame}, c.frames t = f :: rest → f ∈ c.frames t :=
    fun htop => htop ▸ List.mem_cons_self
  cases h with
  | @field _ f rest n s htop hjob hlive hp hlo hhi =>
    cases h' with
    | @field _ g rest' k r htop' hjob' hlive' hp' hlo' hhi' =>
      have hn := (hinv.stage_eq htop hjob).symm ▸ hlive
      have hk := (hinv.stage_eq htop' hjob').symm ▸ hlive'
      have hnk : n = k := by
        by_contra hne
        have := hinv.store.blocks_apart hplace hn.holds hk.holds hp hp' hne
        unfold Job.size at this
        omega
      subst hnk
      exact hinv.thread_unique (hmem htop) (hmem htop') hjob hjob'
    | block _ htakes hb hlo' hhi' hfree =>
      have := hfree n (has_of_frame (hmem htop) hjob hlive) hp
      unfold Job.size at this
      omega
  | @block _ p b htakes hb hlo hhi hfree =>
    cases h' with
    | @field _ g rest n s htop hjob hlive hp hlo' hhi' =>
      have := hfree n (has_of_frame (hmem htop) hjob hlive) hp
      unfold Job.size at this
      omega
    | @block _ p' b' htakes' hb' hlo' hhi' hfree' =>
      refine hinjective (by_contra fun hne => ?_)
      obtain ⟨ht, rfl⟩ := List.getElem?_eq_some_iff.mp hb
      obtain ⟨hu, rfl⟩ := List.getElem?_eq_some_iff.mp hb'
      have := hplace.apart (hindex t) (hindex u) hne
      omega

end Steps

section Runs
variable [DecidableEq τ] (index : τ → ℕ)

/-- No byte outside the arrays of the pool is ever written, and whoever changes a byte has the
job whose state or group counter it belongs to, or takes a block of its own array, in which
nobody has a job. -/
theorem owns_of_exec (capacity : ℕ) (bases : List ℕ) (hplace : JobPool.Placement capacity bases)
    (self : ℕ) (hself : self < 2 ^ 64) (hne : self ≠ nullptr) (m₀ : Memory) (ls : List (Label τ))
    (husage : Usage index bases.length (boot τ self capacity bases m₀) ls) (hfits : Fits ls)
    (hdelivers : DeliversReady index (boot τ self capacity bases m₀) ls)
    (pre : List (Label τ)) (hpre : pre <+: ls) (c : Config τ) (es : List Event)
    (h : (step index).exec (boot τ self capacity bases m₀) pre = some (c, es)) :
    (∀ x, Outside capacity bases x → c.memory x = m₀ x) ∧
      ∀ l c' evs, step index c l = some (c', evs) →
        ∀ x, c'.memory x ≠ c.memory x → Owns capacity bases index c es x l := by
  have hinv : ∀ pre, pre <+: ls → ∀ c es,
      (step index).exec (boot τ self capacity bases m₀) pre = some (c, es) →
        ∃ stage group, Inv capacity bases c es stage group := by
    intro pre hpre c es h
    exact exists_inv_of_exec hplace hself hne husage hfits hdelivers hpre h
  constructor
  · intro x hout
    refine Stepper.exec_induction (I := fun _ c _ => c.memory x = m₀ x) ?_ ?_ hpre h
    · have hcreate := (JobPool.createAllocators_spec hplace m₀).2.2 x (x + 1)
        fun b hb => (hout b hb).imp_left Nat.succ_le_of_lt
      exact hcreate x le_rfl (Nat.lt_succ_self x)
    · intro qs l d fs d' evs hl hexec hsame hstep
      obtain ⟨stage, group, hd⟩ := hinv qs ((List.prefix_append qs [l]).trans hl) d fs hexec
      by_contra hne
      have howns := hd.writes hplace husage.index_lt hstep fun heq => hne (heq.trans hsame)
      exact howns.not_outside hd hout
  · intro l c' evs hstep x hx
    obtain ⟨stage, group, hc⟩ := hinv pre hpre c es h
    exact hc.writes hplace husage.index_lt hstep hx

/-- When every thread has an index of its own, no two threads are ever about to change the same
byte. -/
theorem writes_apart_of_exec (capacity : ℕ) (bases : List ℕ)
    (hplace : JobPool.Placement capacity bases) (self : ℕ) (hself : self < 2 ^ 64)
    (hne : self ≠ nullptr) (m₀ : Memory) (ls : List (Label τ))
    (husage : Usage index bases.length (boot τ self capacity bases m₀) ls) (hfits : Fits ls)
    (hdelivers : DeliversReady index (boot τ self capacity bases m₀) ls)
    (hinjective : Function.Injective index) (pre : List (Label τ)) (hpre : pre <+: ls)
    (c : Config τ) (es : List Event)
    (h : (step index).exec (boot τ self capacity bases m₀) pre = some (c, es))
    (l l' : Label τ) (d d' : Config τ) (evs evs' : List Event)
    (hstep : step index c l = some (d, evs)) (hstep' : step index c l' = some (d', evs')) (x : ℕ)
    (hx : d.memory x ≠ c.memory x) (hx' : d'.memory x ≠ c.memory x) : l = l' := by
  obtain ⟨stage, group, hinv⟩ := exists_inv_of_exec hplace hself hne husage hfits hdelivers hpre h
  have howns := hinv.writes hplace husage.index_lt hstep hx
  have howns' := hinv.writes hplace husage.index_lt hstep' hx'
  obtain ⟨t, rfl⟩ := howns.exists_go
  obtain ⟨u, rfl⟩ := howns'.exists_go
  rw [howns.thread_unique howns' hinv hplace husage.index_lt hinjective]

end Runs

section Small

/-- Two threads, each about to make a job. -/
abbrev makers : List (Label Bool) := [.call false (.make callable), .call true (.make callable)]

abbrev makersIndex (t : Bool) : ℕ := if t then 1 else 0

theorem makers_placement : JobPool.Placement 1 [1024, 2048] :=
  ⟨by decide, by decide, by decide, by decide⟩

theorem makers_usage : Usage makersIndex 2 (boot Bool 16 1 [1024, 2048] fun _ => 0) makers :=
  .of_check (by decide) (by decide)

theorem makers_delivers :
    DeliversReady makersIndex (boot Bool 16 1 [1024, 2048] fun _ => 0) makers :=
  Delivers.ready (.of_check (by decide))

theorem owns_of_exec_makers :
    ∃ c es, (step makersIndex).exec (boot Bool 16 1 [1024, 2048] fun _ => 0) makers = some (c, es) ∧
      (∀ x, Outside 1 [1024, 2048] x → c.memory x = 0) ∧
      ∀ l c' evs, step makersIndex c l = some (c', evs) →
        ∀ x, c'.memory x ≠ c.memory x → Owns 1 [1024, 2048] makersIndex c es x l :=
  ⟨_, _, rfl, owns_of_exec makersIndex 1 [1024, 2048] makers_placement 16 (by decide) (by decide)
    (fun _ => 0) makers makers_usage (by decide) makers_delivers makers List.prefix_rfl _ _ rfl⟩

/-- Both allocations write, and no byte is written by both. -/
theorem writes_apart_of_exec_makers :
    ∃ c d d' es evs evs',
      (step makersIndex).exec (boot Bool 16 1 [1024, 2048] fun _ => 0) makers = some (c, es) ∧
      step makersIndex c (.go false) = some (d, evs) ∧
      step makersIndex c (.go true) = some (d', evs') ∧ d.memory 1024 ≠ c.memory 1024 ∧
      d'.memory 2048 ≠ c.memory 2048 ∧ ∀ x, d.memory x ≠ c.memory x → d'.memory x = c.memory x := by
  have hinjective : Function.Injective makersIndex := by decide
  refine ⟨_, _, _, _, _, _, rfl, rfl, rfl, by decide +kernel, by decide +kernel, fun x hx => ?_⟩
  by_contra hx'
  have hsame := writes_apart_of_exec makersIndex 1 [1024, 2048] makers_placement 16 (by decide)
    (by decide) (fun _ => 0) makers makers_usage (by decide) makers_delivers hinjective makers List.prefix_rfl
    _ _ rfl (.go false) (.go true) _ _ _ _ rfl rfl x hx hx'
  cases hsame

end Small

end Jobrocket.CallStacks
