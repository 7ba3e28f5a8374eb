import Mathlib.Data.Multiset.MapFold
import Mathlib.Tactic

/-! # Names held in roles

A name that is in play is held in one place and has one role there, and the roles of all
names are kept in a function besides. The rules say how the function follows when a name
comes into play, changes its role or goes out of play.
-/
namespace Library

/-- The multiset holds every name with an active role once, in that role, and no other. -/
structure Roles {N R : Type*} (active : R → Prop) (held : Multiset (N × R)) (role : N → R) :
    Prop where
  nodup : (held.map Prod.fst).Nodup
  mem_iff : ∀ n r, (n, r) ∈ held ↔ role n = r ∧ active r

namespace Roles
variable {N R : Type*} {active : R → Prop} {held held' rest : Multiset (N × R)} {role : N → R}
variable {n k : N} {r r' : R}

theorem empty (h : ∀ n, ¬ active (role n)) : Roles active 0 role where
  nodup := by simp
  mem_iff n r := by
    simp only [Multiset.notMem_zero, false_iff, not_and]
    rintro rfl
    exact h n

theorem role_eq (h : Roles active held role) (hn : (n, r) ∈ held) : role n = r :=
  ((h.mem_iff n r).mp hn).1

theorem congr (h : Roles active held role) {role' : N → R}
    (hsame : ∀ n, active (role n) ∨ active (role' n) → role' n = role n) :
    Roles active held role' := by
  refine ⟨h.nodup, fun n r => (h.mem_iff n r).trans ?_⟩
  constructor
  · rintro ⟨rfl, hr⟩
    exact ⟨hsame n (Or.inl hr), hr⟩
  · rintro ⟨rfl, hr⟩
    exact ⟨(hsame n (Or.inr hr)).symm, hr⟩

theorem mem_rest (h : Roles active held role) (heq : held = (n, r) ::ₘ rest) (r' : R) :
    (k, r') ∈ rest ↔ k ≠ n ∧ role k = r' ∧ active r' := by
  subst heq
  have hnew : n ∉ rest.map Prod.fst := by
    have := h.nodup
    rw [Multiset.map_cons, Multiset.nodup_cons] at this
    exact this.1
  constructor
  · intro hk
    exact ⟨fun hkn => hnew (hkn ▸ Multiset.mem_map_of_mem Prod.fst hk),
      (h.mem_iff k r').mp (Multiset.mem_cons_of_mem hk)⟩
  · rintro ⟨hkn, hk⟩
    exact (Multiset.mem_cons.mp ((h.mem_iff k r').mpr hk)).resolve_left fun heq =>
      hkn (Prod.mk.inj heq).1

variable [DecidableEq N]

theorem of_rest (hnodup : (rest.map Prod.fst).Nodup) (hr : active r')
    (hrest : ∀ k s, (k, s) ∈ rest ↔ k ≠ n ∧ role k = s ∧ active s) :
    Roles active ((n, r') ::ₘ rest) (Function.update role n r') := by
  constructor
  case nodup =>
    rw [Multiset.map_cons, Multiset.nodup_cons]
    refine ⟨fun hmem => ?_, hnodup⟩
    obtain ⟨⟨k, s⟩, hk, rfl⟩ := Multiset.mem_map.mp hmem
    exact ((hrest k s).mp hk).1 rfl
  case mem_iff =>
    intro k s
    rw [Multiset.mem_cons, Prod.mk.injEq, hrest k s]
    by_cases hkn : k = n
    · subst hkn
      rw [Function.update_self]
      constructor
      · rintro (⟨-, rfl⟩ | ⟨hne, -⟩)
        · exact ⟨rfl, hr⟩
        · exact absurd rfl hne
      · rintro ⟨rfl, -⟩
        exact Or.inl ⟨rfl, rfl⟩
    · rw [Function.update_of_ne hkn]
      exact (or_iff_right fun heq => hkn heq.1).trans (and_iff_right hkn)

theorem add (h : Roles active held role) (hn : ¬ active (role n)) (hr : active r') :
    Roles active ((n, r') ::ₘ held) (Function.update role n r') := by
  refine of_rest h.nodup hr fun k s => ?_
  rw [h.mem_iff k s]
  refine (and_iff_right_of_imp ?_).symm
  rintro ⟨rfl, hs⟩ rfl
  exact hn hs

/-- A name is held in another place or another role. -/
theorem change (h : Roles active held role) (hn : (n, r) ∈ held)
    (heq : held' + {(n, r)} = held + {(n, r')}) (hr : active r') :
    Roles active held' (Function.update role n r') := by
  obtain ⟨rest, hrest⟩ := Multiset.exists_cons_of_mem hn
  have hheld' : held' = (n, r') ::ₘ rest := by
    rw [hrest, ← Multiset.singleton_add, add_comm {(n, r)}, add_right_comm] at heq
    rw [add_right_cancel heq, add_comm, Multiset.singleton_add]
  have hnodup := h.nodup
  rw [hrest, Multiset.map_cons, Multiset.nodup_cons] at hnodup
  rw [hheld']
  exact of_rest hnodup.2 hr fun k s => h.mem_rest hrest s

/-- A name goes out of play. -/
theorem remove (h : Roles active held role) (hn : (n, r) ∈ held) (heq : held' + {(n, r)} = held)
    (hr : ¬ active r') : Roles active held' (Function.update role n r') := by
  have hheld : held = (n, r) ::ₘ held' := by
    rw [← heq, add_comm, Multiset.singleton_add]
  have hnodup := h.nodup
  rw [hheld, Multiset.map_cons, Multiset.nodup_cons] at hnodup
  refine ⟨hnodup.2, fun k s => ?_⟩
  rw [h.mem_rest hheld s]
  by_cases hkn : k = n
  · subst hkn
    rw [Function.update_self]
    refine iff_of_false (fun hk => hk.1 rfl) ?_
    rintro ⟨rfl, hs⟩
    exact hr hs
  · rw [Function.update_of_ne hkn]
    exact and_iff_right hkn

/-- A name that is not in play gets another role that does not bring it into play. -/
theorem idle (h : Roles active held role) (hn : ¬ active (role n)) (hr : ¬ active r') :
    Roles active held (Function.update role n r') := by
  refine h.congr fun k hk => ?_
  by_cases hkn : k = n
  · subst hkn
    rw [Function.update_self] at hk
    exact absurd hk (not_or.mpr ⟨hn, hr⟩)
  · exact Function.update_of_ne hkn ..

end Roles

end Library
