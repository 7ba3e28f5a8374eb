import Jobrocket.Detail.QueueInterleaving
import Jobrocket.Library.Ledger

/-! # What the interleaved queue delivers

Up to the first pop that returns false the queue is an account of a ledger: the entries
between the indices are the jobs not taken yet, the owner takes the newest and the
thieves take the oldest. The owner lowers `bottom_` before it looks at `top_`, and a
thief holds indices it read earlier; the invariant bounds what such an index can still
win by the position the owner has given up.
-/
namespace Jobrocket.QueueInterleaving
open Library FixedWorkStealingQueue
variable {J τ : Type*}

/-- One after the owner has decremented `bottom_` and before the pop is over. -/
def OwnerPC.pending : OwnerPC J → ℕ
  | .popLoadTop _ => 1
  | .popRead _ _ => 1
  | .popExchange _ _ => 1
  | .popStore _ _ => 1
  | _ => 0

/-- One while a thief may still win the position the owner is popping. -/
def OwnerPC.contested : OwnerPC J → ℕ
  | .popRead b t => if t = b then 1 else 0
  | pc => pc.pending

/-- One while a push has been called and has not taken effect. -/
def OwnerPC.pushing : OwnerPC J → ℕ
  | .pushLoadBottom _ => 1
  | .pushLoadTop _ _ => 1
  | .pushWrite _ _ => 1
  | .pushStore _ _ => 1
  | _ => 0

theorem OwnerPC.contested_le (pc : OwnerPC J) : pc.contested ≤ pc.pending := by
  cases pc <;> simp only [contested, pending, le_refl]
  split <;> omega

/-- A slot is free for the next push. -/
def Room (q : FixedWorkStealingQueue J) : Prop := q.bottom.toNat < q.top.toNat + q.capacity

/-- The account of an event: an owner's win is the newest job, a thief's the oldest. -/
def record (L : Ledger J) : Event J τ → Ledger J
  | .pushed job => L.push job
  | .delivered .owner _ => L.takeNewest
  | .delivered (.thief _) _ => L.takeOldest
  | .returned _ _ => L

def Event.job? : Event J τ → Option J
  | .delivered _ job => some job
  | _ => none

def deliveredJobs (evs : List (Event J τ)) : List J := evs.filterMap Event.job?

variable [Inhabited J]

/-- What the owner's locals say about the queue. -/
def OwnerOk (q : FixedWorkStealingQueue J) : OwnerPC J → Prop
  | .idle => True
  | .pushLoadBottom _ => Room q
  | .pushLoadTop _ b => b = q.bottom ∧ Room q
  | .pushWrite _ b => b = q.bottom ∧ Room q
  | .pushStore job b => b = q.bottom ∧ Room q ∧ q.slot b.toNat = job
  | .popDecrement => 0 < q.bottom.toNat
  | .popLoadTop b => b = q.bottom
  | .popRead b t => b = q.bottom ∧ t ≤ b ∧ t.toNat ≤ q.top.toNat
  | .popExchange t target => t = q.bottom ∧ t.toNat ≤ q.top.toNat ∧ target = q.slot t.toNat
  | .popStore t none => q.top.toNat = q.bottom.toNat + 1 ∧ t = q.top
  | .popStore t (some _) => q.top.toNat = q.bottom.toNat + 1 ∧ t = q.bottom

/-- What a thief's locals say about the queue. Its `t` is below `bound` once it has
seen a larger `bottom_`, and its slot value is current as long as `top_` is still `t`. -/
def ThiefOk (q : FixedWorkStealingQueue J) (bound : ℕ) : ThiefPC J → Prop
  | .idle => True
  | .loadTop => True
  | .loadBottom t => t.toNat ≤ q.top.toNat
  | .read t => t.toNat ≤ q.top.toNat ∧ t.toNat < bound
  | .exchange t target =>
    t.toNat ≤ q.top.toNat ∧ t.toNat < bound ∧ (t = q.top → target = q.slot t.toNat)

theorem ThiefOk.mono {q q' : FixedWorkStealingQueue J} {bound bound' : ℕ} {pc : ThiefPC J}
    (h : ThiefOk q bound pc) (htop : q.top.toNat ≤ q'.top.toNat)
    (hbound : ∀ n, n ≤ q.top.toNat → n < bound → n < bound')
    (hslot : q.top.toNat < bound → q'.slot q.top.toNat = q.slot q.top.toNat) :
    ThiefOk q' bound' pc := by
  cases pc with
  | idle => trivial
  | loadTop => trivial
  | loadBottom t => exact le_trans (show t.toNat ≤ q.top.toNat from h) htop
  | read t => exact ⟨h.1.trans htop, hbound _ h.1 h.2⟩
  | exchange t target =>
    obtain ⟨hle, hlt, hval⟩ := h
    refine ⟨hle.trans htop, hbound _ hle hlt, ?_⟩
    intro he
    have hq : t = q.top := UInt64.toNat_inj.mp (le_antisymm hle (he ▸ htop))
    subst hq
    rw [hslot hlt]
    exact hval rfl

/-- The queue, the owner and the thieves are consistent with the ledger. -/
structure Inv (capacity : ℕ) (q : FixedWorkStealingQueue J) (pc : OwnerPC J)
    (thieves : τ → ThiefPC J) (L : Ledger J) : Prop where
  capacity_eq : q.capacity = capacity
  top_le : q.top.toNat ≤ q.bottom.toNat + pc.contested
  bottom_le : q.bottom.toNat + pc.pending ≤ L.pushed.length
  bottom_pos : 0 < L.pushed.length → 0 < q.bottom.toNat + pc.pending
  live : window q.slot q.top.toNat (q.bottom.toNat + pc.pending) = L.jobs
  owner_ok : OwnerOk q pc
  thief_ok : ∀ i, ThiefOk q (q.bottom.toNat + pc.contested) (thieves i)

theorem inv_fresh (capacity : ℕ) :
    Inv capacity (fresh J capacity) .idle (fun _ : τ => .idle) .nil where
  capacity_eq := rfl
  top_le := le_rfl
  bottom_le := le_rfl
  bottom_pos h := absurd h (lt_irrefl 0)
  live := window_self _ _
  owner_ok := trivial
  thief_ok _ := trivial

section Owner
variable {capacity : ℕ} {q : FixedWorkStealingQueue J} {thieves : τ → ThiefPC J} {L : Ledger J}

theorem Inv.local {pc pc' : OwnerPC J} (h : Inv capacity q pc thieves L)
    (hp : pc'.pending = pc.pending) (hc : pc'.contested = pc.contested) (hok : OwnerOk q pc') :
    Inv capacity q pc' thieves L where
  capacity_eq := h.capacity_eq
  top_le := by rw [hc]; exact h.top_le
  bottom_le := by rw [hp]; exact h.bottom_le
  bottom_pos := by rw [hp]; exact h.bottom_pos
  live := by rw [hp]; exact h.live
  owner_ok := hok
  thief_ok := by rw [hc]; exact h.thief_ok

theorem Inv.pushWrite {job : J} {b : UInt64}
    (h : Inv capacity q (.pushWrite job b) thieves L) :
    Inv capacity (q.write b job) (.pushStore job b) thieves L := by
  obtain ⟨rfl, hroom⟩ := h.owner_ok
  have htop : q.top.toNat ≤ q.bottom.toNat := h.top_le
  have hslot : ∀ p, q.top.toNat ≤ p → p < q.bottom.toNat →
      (q.write q.bottom job).slot p = q.slot p := by
    intro p hlo hhi
    exact slot_write_of_lt hhi (lt_of_lt_of_le hroom (Nat.add_le_add_right hlo _)) job
  refine ⟨h.capacity_eq, h.top_le, h.bottom_le, h.bottom_pos, ?_, ⟨rfl, hroom, ?_⟩, ?_⟩
  · exact (window_congr hslot).trans h.live
  · exact slot_write_self (by unfold Room at hroom; omega) q.bottom job
  · intro i
    exact (h.thief_ok i).mono le_rfl (fun _ _ => id) (hslot _ le_rfl)

theorem Inv.pushStore {job : J} {b : UInt64} (h : Inv capacity q (.pushStore job b) thieves L)
    (hn : L.pushed.length + 1 < 2 ^ 64) :
    Inv capacity { q with bottom := b + 1 } .idle thieves (L.push job) := by
  obtain ⟨rfl, hroom, hjob⟩ := h.owner_ok
  have htop : q.top.toNat ≤ q.bottom.toNat := h.top_le
  have hbottom : q.bottom.toNat ≤ L.pushed.length := h.bottom_le
  have hlive : window q.slot q.top.toNat q.bottom.toNat = L.jobs := h.live
  have hsucc : (q.bottom + 1).toNat = q.bottom.toNat + 1 := toNat_add_one (by omega)
  constructor
  case capacity_eq => exact h.capacity_eq
  case top_le =>
    change q.top.toNat ≤ (q.bottom + 1).toNat
    omega
  case bottom_le =>
    change (q.bottom + 1).toNat ≤ (L.pushed ++ [job]).length
    rw [List.length_append, List.length_singleton]
    omega
  case bottom_pos =>
    intro _
    change 0 < (q.bottom + 1).toNat
    omega
  case live =>
    change window q.slot q.top.toNat (q.bottom + 1).toNat = _
    rw [hsucc, window_succ _ htop, hlive, hjob, Ledger.jobs_push]
  case owner_ok => trivial
  case thief_ok =>
    intro i
    refine (h.thief_ok i).mono le_rfl ?_ (fun _ => rfl)
    intro n _ hlt
    change n < (q.bottom + 1).toNat
    have hlt' : n < q.bottom.toNat := hlt
    omega

theorem Inv.popDecrement (h : Inv capacity q .popDecrement thieves L) :
    Inv capacity { q with bottom := q.bottom - 1 } (.popLoadTop (q.bottom - 1)) thieves L := by
  have hpred : (q.bottom - 1).toNat + 1 = q.bottom.toNat := by
    rw [toNat_sub_one h.owner_ok]
    have : 0 < q.bottom.toNat := h.owner_ok
    omega
  constructor
  case capacity_eq => exact h.capacity_eq
  case top_le => exact hpred ▸ h.top_le
  case bottom_le => exact hpred ▸ h.bottom_le
  case bottom_pos => exact hpred ▸ h.bottom_pos
  case live => exact hpred ▸ h.live
  case owner_ok => rfl
  case thief_ok => exact hpred ▸ h.thief_ok

theorem Inv.popLoadTop {b : UInt64} (h : Inv capacity q (.popLoadTop b) thieves L)
    (hle : q.top ≤ b) : Inv capacity q (.popRead b q.top) thieves L := by
  have hb : b = q.bottom := h.owner_ok
  subst hb
  by_cases heq : q.top = q.bottom
  · exact h.local rfl (by simp [OwnerPC.contested, OwnerPC.pending, heq]) ⟨rfl, hle, le_rfl⟩
  · have hlt : q.top.toNat < q.bottom.toNat :=
      lt_of_le_of_ne (UInt64.le_iff_toNat_le.mp hle) (mt UInt64.toNat_inj.mp heq)
    have hcon : (OwnerPC.popRead q.bottom q.top : OwnerPC J).contested = 0 := if_neg heq
    -- from here on the position is the owner's: every thief holds a smaller index
    refine ⟨h.capacity_eq, by omega, h.bottom_le, h.bottom_pos, h.live, ⟨rfl, hle, le_rfl⟩, ?_⟩
    intro i
    refine (h.thief_ok i).mono le_rfl ?_ (fun _ => rfl)
    intro n hn _
    omega

theorem Inv.popEmpty {b : UInt64} (h : Inv capacity q (.popLoadTop b) thieves L)
    (hgt : ¬ q.top ≤ b) : Inv capacity q (.popStore q.top none) thieves L := by
  have hb : b = q.bottom := h.owner_ok
  subst hb
  have htop : q.top.toNat ≤ q.bottom.toNat + 1 := h.top_le
  have hnat := mt UInt64.le_iff_toNat_le.mpr hgt
  exact h.local rfl rfl ⟨by omega, rfl⟩

theorem Inv.popReadLast {b : UInt64} (h : Inv capacity q (.popRead b b) thieves L) :
    Inv capacity q (.popExchange b (q.slot b.toNat)) thieves L := by
  obtain ⟨hb, -, hle⟩ := h.owner_ok
  have hcon : (OwnerPC.popRead b b : OwnerPC J).contested = 1 := if_pos rfl
  exact h.local rfl hcon.symm ⟨hb, hle, rfl⟩

theorem Inv.popTake {b t : UInt64} (h : Inv capacity q (.popRead b t) thieves L)
    (hne : t ≠ b) :
    Inv capacity q .idle thieves L.takeNewest ∧
      L.takeNewest.deliveries = L.deliveries ++ [q.slot b.toNat] := by
  obtain ⟨rfl, hle, -⟩ := h.owner_ok
  have hcon : (OwnerPC.popRead q.bottom t : OwnerPC J).contested = 0 := if_neg hne
  have htop : q.top.toNat ≤ q.bottom.toNat := by
    have := h.top_le
    omega
  have hlt : t.toNat < q.bottom.toNat :=
    lt_of_le_of_ne (UInt64.le_iff_toNat_le.mp hle) (mt UInt64.toNat_inj.mp hne)
  have hjobs : L.jobs = window q.slot q.top.toNat q.bottom.toNat ++ [q.slot q.bottom.toNat] :=
    h.live.symm.trans (window_succ _ htop)
  refine ⟨?_, Ledger.deliveries_takeNewest hjobs⟩
  constructor
  case capacity_eq => exact h.capacity_eq
  case top_le => exact htop
  case bottom_le =>
    rw [Ledger.takeNewest_pushed]
    exact (Nat.le_succ _).trans h.bottom_le
  case bottom_pos =>
    intro _
    change 0 < q.bottom.toNat
    omega
  case live =>
    rw [Ledger.jobs_takeNewest, hjobs]
    simp [OwnerPC.pending]
  case owner_ok => trivial
  case thief_ok =>
    have hthief := h.thief_ok
    rw [hcon] at hthief
    exact hthief

theorem Inv.popWin {target : J} (h : Inv capacity q (.popExchange q.top target) thieves L)
    (hn : L.pushed.length < 2 ^ 64) :
    Inv capacity { q with top := q.top + 1 } (.popStore q.top (some target)) thieves L.takeNewest ∧
      L.takeNewest.deliveries = L.deliveries ++ [target] := by
  obtain ⟨hb, -, htarget⟩ := h.owner_ok
  have hbottom : q.bottom.toNat + 1 ≤ L.pushed.length := h.bottom_le
  have hsucc : (q.top + 1).toNat = q.bottom.toNat + 1 := by
    rw [hb]
    exact toNat_add_one (by omega)
  have hlive : window q.slot q.top.toNat (q.bottom.toNat + 1) = L.jobs := h.live
  have hjobs : L.jobs = [] ++ [target] := by
    rw [← hlive, ← hb, window_succ _ le_rfl, window_self, htarget]
  refine ⟨?_, Ledger.deliveries_takeNewest hjobs⟩
  constructor
  case capacity_eq => exact h.capacity_eq
  case top_le => exact hsucc.le
  case bottom_le =>
    rw [Ledger.takeNewest_pushed]
    exact h.bottom_le
  case bottom_pos => exact fun _ => Nat.succ_pos _
  case live =>
    change window q.slot (q.top + 1).toNat (q.bottom.toNat + 1) = _
    rw [hsucc, window_self, Ledger.jobs_takeNewest, hjobs]
    rfl
  case owner_ok => exact ⟨hsucc, hb⟩
  case thief_ok =>
    intro i
    refine (h.thief_ok i).mono ?_ (fun _ _ => id) (fun _ => rfl)
    change q.top.toNat ≤ (q.top + 1).toNat
    rw [hsucc, hb]
    exact Nat.le_succ _

theorem Inv.popLose {t : UInt64} {target : J}
    (h : Inv capacity q (.popExchange t target) thieves L) (htop : q.top ≠ t) :
    Inv capacity q (.popStore q.top none) thieves L := by
  obtain ⟨rfl, hle, -⟩ := h.owner_ok
  have hne : q.top.toNat ≠ q.bottom.toNat := mt UInt64.toNat_inj.mp htop
  have htop' : q.top.toNat ≤ q.bottom.toNat + 1 := h.top_le
  exact h.local rfl rfl ⟨by omega, rfl⟩

theorem Inv.popStore {t : UInt64} {job : J}
    (h : Inv capacity q (.popStore t (some job)) thieves L) (hn : L.pushed.length < 2 ^ 64) :
    Inv capacity { q with bottom := t + 1 } .idle thieves L := by
  obtain ⟨htop, rfl⟩ := h.owner_ok
  have hbottom : q.bottom.toNat + 1 ≤ L.pushed.length := h.bottom_le
  have hsucc : (q.bottom + 1).toNat = q.bottom.toNat + 1 := toNat_add_one (by omega)
  constructor
  case capacity_eq => exact h.capacity_eq
  case top_le => exact hsucc.symm ▸ h.top_le
  case bottom_le => exact hsucc.symm ▸ h.bottom_le
  case bottom_pos => exact hsucc.symm ▸ h.bottom_pos
  case live => exact hsucc.symm ▸ h.live
  case owner_ok => trivial
  case thief_ok => exact hsucc.symm ▸ h.thief_ok

theorem Inv.ownerMove {pc pc' : OwnerPC J} {q' : FixedWorkStealingQueue J}
    {evs : List (Event J τ)} (h : Inv capacity q pc thieves L)
    (hn : L.pushed.length + pc.pushing < 2 ^ 64) (hmove : OwnerMove q pc q' pc' evs)
    (hfail : .returned .owner none ∉ evs) :
    Inv capacity q' pc' thieves (evs.foldl record L) ∧
      (evs.foldl record L).deliveries = L.deliveries ++ deliveredJobs evs := by
  cases hmove with
  | pushLoadBottom job => exact ⟨h.local rfl rfl ⟨rfl, h.owner_ok⟩, (List.append_nil _).symm⟩
  | pushLoadTop job b => exact ⟨h.local rfl rfl h.owner_ok, (List.append_nil _).symm⟩
  | pushWrite job b => exact ⟨h.pushWrite, (List.append_nil _).symm⟩
  | pushStore job b =>
    exact ⟨h.pushStore hn, (Ledger.deliveries_push L job).trans (List.append_nil _).symm⟩
  | popDecrement => exact ⟨h.popDecrement, (List.append_nil _).symm⟩
  | popLoadTop b hle => exact ⟨h.popLoadTop hle, (List.append_nil _).symm⟩
  | popEmpty b hgt => exact ⟨h.popEmpty hgt, (List.append_nil _).symm⟩
  | popTake b t hne => exact h.popTake hne
  | popReadLast b => exact ⟨h.popReadLast, (List.append_nil _).symm⟩
  | popWin target => exact h.popWin hn
  | popLose t target hne => exact ⟨h.popLose hne, (List.append_nil _).symm⟩
  | popStore t result =>
    cases result with
    | none => simp at hfail
    | some job => exact ⟨h.popStore hn, (List.append_nil _).symm⟩

end Owner

section Thief
variable [DecidableEq τ] {capacity : ℕ} {q : FixedWorkStealingQueue J} {pc : OwnerPC J}
variable {thieves : τ → ThiefPC J} {L : Ledger J} {i : τ}

theorem Inv.thief_local {tpc : ThiefPC J} (h : Inv capacity q pc thieves L)
    (hok : ThiefOk q (q.bottom.toNat + pc.contested) tpc) :
    Inv capacity q pc (Function.update thieves i tpc) L := by
  refine { h with thief_ok := ?_ }
  intro k
  by_cases hk : k = i
  · subst hk
    rw [Function.update_self]
    exact hok
  · rw [Function.update_of_ne hk]
    exact h.thief_ok k

theorem OwnerOk.steal (h : OwnerOk q pc) (hlt : q.top.toNat < q.bottom.toNat + pc.contested)
    (hsucc : (q.top + 1).toNat = q.top.toNat + 1) :
    OwnerOk { q with top := q.top + 1 } pc := by
  have hroom : Room q → Room { q with top := q.top + 1 } := by
    intro hr
    unfold Room at hr ⊢
    dsimp only
    omega
  cases pc with
  | idle => trivial
  | pushLoadBottom job => exact hroom h
  | pushLoadTop job b => exact ⟨h.1, hroom h.2⟩
  | pushWrite job b => exact ⟨h.1, hroom h.2⟩
  | pushStore job b => exact ⟨h.1, hroom h.2.1, h.2.2⟩
  | popDecrement => exact h
  | popLoadTop b => exact h
  | popRead b t => exact ⟨h.1, h.2.1, hsucc ▸ h.2.2.trans (Nat.le_succ _)⟩
  | popExchange t target => exact ⟨h.1, hsucc ▸ h.2.1.trans (Nat.le_succ _), h.2.2⟩
  | popStore t result =>
    have heq : q.top.toNat = q.bottom.toNat + 1 := by cases result <;> exact h.1
    simp only [OwnerPC.contested, OwnerPC.pending] at hlt
    omega

theorem Inv.win {target : J} (h : Inv capacity q pc thieves L) (hn : L.pushed.length < 2 ^ 64)
    (hi : thieves i = .exchange q.top target) :
    Inv capacity { q with top := q.top + 1 } pc (Function.update thieves i .idle) L.takeOldest ∧
      L.takeOldest.deliveries = L.deliveries ++ [target] := by
  obtain ⟨-, hlt, hval⟩ := hi ▸ h.thief_ok i
  have hcon := OwnerPC.contested_le pc
  have hbottom := h.bottom_le
  have hsucc : (q.top + 1).toNat = q.top.toNat + 1 := toNat_add_one (by omega)
  have hjobs : L.jobs = target :: window q.slot (q.top.toNat + 1) (q.bottom.toNat + pc.pending) := by
    rw [← h.live, window_eq_cons _ (by omega), hval rfl]
  have hstolen : Inv capacity { q with top := q.top + 1 } pc thieves L.takeOldest := by
    constructor
    case capacity_eq => exact h.capacity_eq
    case top_le =>
      change (q.top + 1).toNat ≤ q.bottom.toNat + pc.contested
      omega
    case bottom_le => exact (L.takeOldest_pushed).symm ▸ h.bottom_le
    case bottom_pos => exact (L.takeOldest_pushed).symm ▸ h.bottom_pos
    case live =>
      change window q.slot (q.top + 1).toNat (q.bottom.toNat + pc.pending) = _
      rw [hsucc, Ledger.jobs_takeOldest, hjobs]
      rfl
    case owner_ok => exact h.owner_ok.steal hlt hsucc
    case thief_ok =>
      intro k
      refine (h.thief_ok k).mono ?_ (fun _ _ => id) (fun _ => rfl)
      change q.top.toNat ≤ (q.top + 1).toNat
      omega
  exact ⟨hstolen.thief_local trivial, Ledger.deliveries_takeOldest hjobs⟩

theorem Inv.thiefMove {tpc tpc' : ThiefPC J} {q' : FixedWorkStealingQueue J}
    {evs : List (Event J τ)} (h : Inv capacity q pc thieves L) (hn : L.pushed.length < 2 ^ 64)
    (hi : thieves i = tpc) (hmove : ThiefMove i q tpc q' tpc' evs) :
    Inv capacity q' pc (Function.update thieves i tpc') (evs.foldl record L) ∧
      (evs.foldl record L).deliveries = L.deliveries ++ deliveredJobs evs := by
  have hok := hi ▸ h.thief_ok i
  cases hmove with
  | loadTop => exact ⟨h.thief_local le_rfl, (List.append_nil _).symm⟩
  | loadBottom t hlt =>
    have hnat := UInt64.lt_iff_toNat_lt.mp hlt
    exact ⟨h.thief_local ⟨hok, by omega⟩, (List.append_nil _).symm⟩
  | empty t hlt => exact ⟨h.thief_local trivial, (List.append_nil _).symm⟩
  | read t => exact ⟨h.thief_local ⟨hok.1, hok.2, fun _ => rfl⟩, (List.append_nil _).symm⟩
  | win target => exact h.win hn hi
  | lose t target hne => exact ⟨h.thief_local trivial, (List.append_nil _).symm⟩

end Thief

end Jobrocket.QueueInterleaving
