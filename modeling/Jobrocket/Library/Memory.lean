import Mathlib.Data.List.Basic
import Mathlib.Tactic

/-! # Byte-addressed memory

Memory maps addresses to bytes, and an unsigned number of `n` bytes is kept with its
lowest byte first. A store is seen by a load of the same bytes and by no load of other
bytes.
-/
namespace Library

abbrev Memory := ℕ → UInt8

namespace Memory

/-- The number with these bytes, the lowest first. -/
def decode : List UInt8 → ℕ
  | [] => 0
  | b :: bs => b.toNat + 256 * decode bs

/-- The lowest `n` bytes of a number. -/
def encode : ℕ → ℕ → List UInt8
  | 0, _ => []
  | n + 1, v => UInt8.ofNat v :: encode n (v / 256)

def storeBytes (m : Memory) (a : ℕ) (bs : List UInt8) : Memory := fun x =>
  if a ≤ x then (bs[x - a]?).getD (m x) else m x

def loadBytes (m : Memory) (a n : ℕ) : List UInt8 := (List.range n).map fun k => m (a + k)

def store (n : ℕ) (m : Memory) (a v : ℕ) : Memory := m.storeBytes a (encode n v)

def load (n : ℕ) (m : Memory) (a : ℕ) : ℕ := decode (m.loadBytes a n)

/-- The addresses from `lo` below `hi` hold the same bytes. -/
def Same (m m' : Memory) (lo hi : ℕ) : Prop := ∀ x, lo ≤ x → x < hi → m' x = m x

@[simp] theorem encode_length (n v : ℕ) : (encode n v).length = n := by
  induction n generalizing v with
  | zero => rfl
  | succ n ih => simp [encode, ih]

theorem decode_encode {n v : ℕ} (h : v < 256 ^ n) : decode (encode n v) = v := by
  induction n generalizing v with
  | zero => simp_all [encode, decode]
  | succ n ih =>
    have hdiv : v / 256 < 256 ^ n := by
      rw [pow_succ'] at h
      exact Nat.div_lt_of_lt_mul h
    rw [encode, decode, ih hdiv, UInt8.toNat_ofNat']
    omega

theorem decode_lt (bs : List UInt8) : decode bs < 256 ^ bs.length := by
  induction bs with
  | nil => exact Nat.one_pos
  | cons b bs ih =>
    have hb := b.toNat_lt
    rw [decode, List.length_cons, pow_succ]
    omega

theorem load_lt (n : ℕ) (m : Memory) (a : ℕ) : m.load n a < 256 ^ n := by
  have h := decode_lt (m.loadBytes a n)
  rwa [loadBytes, List.length_map, List.length_range] at h

theorem storeBytes_of_lt {m : Memory} {a x : ℕ} (bs : List UInt8) (h : x < a) :
    m.storeBytes a bs x = m x := if_neg (not_le.mpr h)

theorem storeBytes_of_le {m : Memory} {a x : ℕ} {bs : List UInt8} (h : a + bs.length ≤ x) :
    m.storeBytes a bs x = m x := by
  rw [storeBytes, if_pos (by omega), List.getElem?_eq_none (by omega), Option.getD_none]

theorem loadBytes_storeBytes_self (m : Memory) (a : ℕ) (bs : List UInt8) :
    (m.storeBytes a bs).loadBytes a bs.length = bs := by
  refine List.ext_getElem (by simp [loadBytes]) fun k _ hk => ?_
  simp [loadBytes, storeBytes, hk]

theorem loadBytes_eq {m m' : Memory} {a n : ℕ} (h : m.Same m' a (a + n)) :
    m'.loadBytes a n = m.loadBytes a n := by
  refine List.map_congr_left fun k hk => h _ (by omega) ?_
  have := List.mem_range.mp hk
  omega

section Same
variable {m m' m'' : Memory} {lo hi : ℕ}

theorem Same.refl (m : Memory) (lo hi : ℕ) : m.Same m lo hi := fun _ _ _ => rfl

theorem Same.trans (h : m.Same m' lo hi) (h' : m'.Same m'' lo hi) : m.Same m'' lo hi :=
  fun x hlo hhi => (h' x hlo hhi).trans (h x hlo hhi)

theorem Same.mono {lo' hi' : ℕ} (h : m.Same m' lo hi) (hlo : lo ≤ lo') (hhi : hi' ≤ hi) :
    m.Same m' lo' hi' := fun x h1 h2 => h x (hlo.trans h1) (h2.trans_le hhi)

theorem same_storeBytes {a : ℕ} {bs : List UInt8} (h : hi ≤ a ∨ a + bs.length ≤ lo) :
    m.Same (m.storeBytes a bs) lo hi := by
  intro x hlo hhi
  rcases h with h | h
  · exact storeBytes_of_lt bs (hhi.trans_le h)
  · exact storeBytes_of_le (h.trans hlo)

theorem same_store {n a v : ℕ} (h : hi ≤ a ∨ a + n ≤ lo) : m.Same (m.store n a v) lo hi :=
  same_storeBytes (by rwa [encode_length])

/-- The same write keeps two memories alike. -/
theorem Same.storeBytes (h : m.Same m' lo hi) (a : ℕ) (bs : List UInt8) :
    (m.storeBytes a bs).Same (m'.storeBytes a bs) lo hi := by
  intro x hlo hhi
  simp only [Memory.storeBytes, h x hlo hhi]

theorem Same.store (h : m.Same m' lo hi) (n a v : ℕ) :
    (m.store n a v).Same (m'.store n a v) lo hi := h.storeBytes a _

theorem Same.load_eq {n a : ℕ} (h : m.Same m' lo hi) (hlo : lo ≤ a) (hhi : a + n ≤ hi) :
    m'.load n a = m.load n a := congrArg decode (loadBytes_eq (h.mono hlo hhi))

end Same

theorem load_store_self {n v : ℕ} (m : Memory) (a : ℕ) (h : v < 256 ^ n) :
    (m.store n a v).load n a = v := by
  have hself := loadBytes_storeBytes_self m a (encode n v)
  rw [encode_length] at hself
  rw [load, store, hself, decode_encode h]

theorem load_store_of_disjoint {n k a b v : ℕ} (m : Memory) (h : b + k ≤ a ∨ a + n ≤ b) :
    (m.store n a v).load k b = m.load k b :=
  (same_store (m := m) h).load_eq le_rfl le_rfl

end Memory

end Library
