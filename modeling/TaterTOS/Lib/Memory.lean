import Mathlib.Tactic

/-!
# Byte memory

A memory gives a byte to every address.  Words are read and written in little-endian order.

* `load`, `store`: words of `n` bytes; `load_store`: a word that fits is read back;
* `bytes`, `put`: ranges as lists; `bytes_put` reads a list back, `bytes_add` splits a range.
-/

namespace Lib

open Function List

abbrev Mem := ℕ → UInt8

variable {m m' m'' : Mem} {a b n k v : ℕ}

/-! ### Words -/

def load (m : Mem) (a : ℕ) : ℕ → ℕ
  | 0 => 0
  | n + 1 => load m a n + 256 ^ n * (m (a + n)).toNat

def store (m : Mem) (a n v : ℕ) : Mem := fun x =>
  if a ≤ x ∧ x < a + n then UInt8.ofNat (v / 256 ^ (x - a)) else m x

theorem load_congr (h : ∀ x, a ≤ x → x < a + n → m' x = m x) : load m' a n = load m a n := by
  induction n with
  | zero => rfl
  | succ n ih =>
    rw [load, load, ih fun x h1 h2 => h x h1 (by omega), h (a + n) (by omega) (by omega)]

theorem load_lt (m : Mem) (a : ℕ) : ∀ n, load m a n < 256 ^ n
  | 0 => by simp [load]
  | n + 1 => by
    have h := load_lt m a n
    have hbyte := Nat.mul_le_mul_left (256 ^ n) (Nat.le_of_lt_succ (m (a + n)).toNat_lt)
    rw [load, pow_succ]
    omega

theorem load_store_le (hk : k ≤ n) : load (store m a n v) a k = v % 256 ^ k := by
  induction k with
  | zero => simp [load, Nat.mod_one]
  | succ k ih =>
    have hin : a ≤ a + k ∧ a + k < a + n := by omega
    rw [load, ih (by omega), Nat.mod_pow_succ, store, if_pos hin, Nat.add_sub_cancel_left,
      UInt8.toNat_ofNat']

theorem load_store (hv : v < 256 ^ n) : load (store m a n v) a n = v := by
  rw [load_store_le le_rfl, Nat.mod_eq_of_lt hv]

/-! ### Ranges -/

def fill (m : Mem) (a n : ℕ) (c : UInt8) : Mem := fun x => if a ≤ x ∧ x < a + n then c else m x

def copy (m : Mem) (dst src : ℕ) : ℕ → Mem
  | 0 => m
  | n + 1 => update (copy m dst src n) (dst + n) (copy m dst src n (src + n))

def overlay (m m' : Mem) (a n : ℕ) : Mem := fun x => if a ≤ x ∧ x < a + n then m' x else m x

theorem fill_apply (m : Mem) (c : UInt8) (hk : k < n) : fill m a n c (a + k) = c :=
  if_pos ⟨by omega, by omega⟩

theorem load_byte (m : Mem) (a : ℕ) (hk : k < n) :
    load m a n / 256 ^ k % 256 = (m (a + k)).toNat := by
  induction n with
  | zero => omega
  | succ n ih =>
    rw [load]
    rcases Nat.lt_succ_iff_lt_or_eq.mp hk with hlt | rfl
    · have hpow : 256 ^ n = 256 ^ k * (256 * 256 ^ (n - k - 1)) := by
        rw [← pow_succ', ← pow_add]
        congr 1
        omega
      rw [hpow, mul_assoc, Nat.add_mul_div_left _ _ (by positivity), mul_assoc,
        Nat.add_mul_mod_self_left, ih hlt]
    · rw [Nat.add_mul_div_left _ _ (by positivity), Nat.div_eq_of_lt (load_lt m a k), zero_add]
      exact Nat.mod_eq_of_lt (m (a + k)).toNat_lt

theorem store_load (m m' : Mem) (a n : ℕ) : store m a n (load m' a n) = overlay m m' a n := by
  funext x
  unfold store overlay
  split_ifs with hx
  · rw [← UInt8.toNat_inj, UInt8.toNat_ofNat', load_byte m' a (by omega : x - a < n),
      Nat.add_sub_cancel' hx.1]
  · rfl

/-! ### Frames -/

/-- Outside the `n` bytes from `a` on, `m'` is `m`. -/
def Frame (m m' : Mem) (a n : ℕ) : Prop := ∀ x, x < a ∨ a + n ≤ x → m' x = m x

namespace Frame

theorem refl (m : Mem) (a n : ℕ) : Frame m m a n := fun _ _ => rfl

theorem trans (h : Frame m m' a n) (h' : Frame m' m'' a n) : Frame m m'' a n :=
  fun x hx => (h' x hx).trans (h x hx)

theorem mono (h : Frame m m' a n) (hb : b ≤ a) (hk : a + n ≤ b + k) : Frame m m' b k :=
  fun x hx => h x (by omega)

theorem store (m : Mem) (a n v : ℕ) : Frame m (store m a n v) a n :=
  fun x hx => if_neg (by omega)

theorem fill (m : Mem) (a n : ℕ) (c : UInt8) : Frame m (fill m a n c) a n :=
  fun x hx => if_neg (by omega)

theorem copy (m : Mem) (a src : ℕ) : ∀ n, Frame m (copy m a src n) a n
  | 0 => refl m a 0
  | n + 1 => fun x hx => by
    rw [Lib.copy, update_of_ne (by omega)]
    exact copy m a src n x (by omega)

theorem overlay (m m' : Mem) (a n : ℕ) : Frame m (overlay m m' a n) a n :=
  fun x hx => if_neg (by omega)

theorem load (h : Frame m m' a n) (hb : b + k ≤ a ∨ a + n ≤ b) : load m' b k = load m b k :=
  load_congr fun x h1 h2 => h x (by omega)

end Frame

theorem copy_apply (m : Mem) {src : ℕ} (h : a + n ≤ src ∨ src + n ≤ a) (hk : k < n) :
    copy m a src n (a + k) = m (src + k) := by
  induction n with
  | zero => omega
  | succ n ih =>
    rw [copy]
    rcases Nat.lt_succ_iff_lt_or_eq.mp hk with hlt | rfl
    · rw [update_of_ne (by omega), ih (by omega) hlt]
    · rw [update_self, Frame.copy m a src k (src + k) (by omega)]

/-! ### Ranges as lists -/

def bytes (m : Mem) (a n : ℕ) : List UInt8 := (List.range n).map fun k => m (a + k)

def put (m : Mem) (a : ℕ) (l : List UInt8) : Mem := fun x =>
  if a ≤ x ∧ x < a + l.length then l.getD (x - a) 0 else m x

@[simp] theorem bytes_length (m : Mem) (a n : ℕ) : (bytes m a n).length = n := by simp [bytes]

@[simp] theorem bytes_zero (m : Mem) (a : ℕ) : bytes m a 0 = [] := rfl

theorem bytes_add (m : Mem) (a n k : ℕ) : bytes m a (n + k) = bytes m a n ++ bytes m (a + n) k := by
  simp [bytes, range_add, add_assoc]

theorem bytes_take (m : Mem) (a : ℕ) (h : k ≤ n) : (bytes m a n).take k = bytes m a k := by
  obtain ⟨i, rfl⟩ := Nat.exists_eq_add_of_le h
  rw [bytes_add, take_left' (bytes_length m a k)]

theorem bytes_drop (m : Mem) (a n k : ℕ) : (bytes m a n).drop k = bytes m (a + k) (n - k) := by
  rcases Nat.le_total k n with h | h
  · obtain ⟨i, rfl⟩ := Nat.exists_eq_add_of_le h
    rw [bytes_add, drop_left' (bytes_length m a k), Nat.add_sub_cancel_left]
  · rw [drop_eq_nil_of_le (by simpa using h), Nat.sub_eq_zero_of_le h, bytes_zero]

theorem Frame.bytes (h : Frame m m' a n) (hb : b + k ≤ a ∨ a + n ≤ b) :
    bytes m' b k = bytes m b k := by
  refine map_congr_left fun i hi => ?_
  have hi : i < k := mem_range.mp hi
  exact h _ (by omega)

theorem Frame.put (m : Mem) (a : ℕ) (l : List UInt8) : Frame m (put m a l) a l.length :=
  fun x hx => if_neg (by omega)

theorem bytes_put (m : Mem) (a : ℕ) (l : List UInt8) : bytes (put m a l) a l.length = l := by
  refine ext_getElem (by simp) fun i h1 h2 => ?_
  have hi : i < l.length := h2
  simp [bytes, put, hi]

end Lib
