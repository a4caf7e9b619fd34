import Mathlib.Tactic

/-!
# Reflected CRCs

A register of `w` bits, least significant bit first, and the polynomial over the field of two
elements that it stands for.

* **`toPoly_register`**: a register is a remainder modulo the generator;
* **`register_burst`**: bits that differ only in a window of `w` bits have different registers.
-/

namespace Lib.Crc

open Polynomial

variable {w : ℕ} (g : BitVec w)

/-- One bit of a message enters the register. -/
def step (c : BitVec w) (b : Bool) : BitVec w :=
  if (c.getLsbD 0 ^^ b) = true then g ^^^ (c >>> 1) else c >>> 1

def register (c : BitVec w) (bits : List Bool) : BitVec w := bits.foldl (step g) c

theorem register_concat (c : BitVec w) (bits : List Bool) (b : Bool) :
    register g c (bits ++ [b]) = step g (register g c bits) b := List.foldl_append

/-! ### Bits -/

/-- The bits of a word, least significant first. -/
def bitsOf {k : ℕ} (v : BitVec k) : List Bool := (List.range k).map v.getLsbD

theorem step_xor (c v : BitVec w) :
    step g c (v.getLsbD 0) ^^^ (v >>> 1) = step g (c ^^^ v) false := by
  simp only [step, BitVec.getLsbD_xor, Bool.xor_false, BitVec.ushiftRight_xor_distrib]
  split_ifs
  · rw [BitVec.xor_assoc]
  · rfl

/-- A bit may enter the register with its turn, or be in it from the start. -/
theorem register_bits (c v : BitVec w) (k : ℕ) :
    register g c ((List.range k).map v.getLsbD) ^^^ (v >>> k) =
      (fun c => step g c false)^[k] (c ^^^ v) := by
  induction k with
  | zero => simp [register]
  | succ k ih =>
    have hbit : v.getLsbD k = (v >>> k).getLsbD 0 := by simp
    rw [Function.iterate_succ_apply', ← ih, ← step_xor, List.range_succ, List.map_append]
    exact congrArg (· ^^^ _) (register_concat g c _ _)

/-! ### Polynomials -/

def bit (b : Bool) : ZMod 2 := if b then 1 else 0

theorem bit_xor (a b : Bool) : bit (a ^^ b) = bit a + bit b := by
  cases a <;> cases b <;> decide

noncomputable def toPoly (c : BitVec w) : (ZMod 2)[X] :=
  ∑ i ∈ Finset.range w, C (bit (c.getMsbD i)) * X ^ i

noncomputable def generator : (ZMod 2)[X] := X ^ w + toPoly g

/-- The first bit of a message has the highest power. -/
noncomputable def message (bits : List Bool) : (ZMod 2)[X] :=
  bits.foldl (fun p b => X * p + C (bit b)) 0

theorem coeff_toPoly (c : BitVec w) (n : ℕ) : (toPoly c).coeff n = bit (c.getMsbD n) := by
  simp only [toPoly, finsetSum_coeff, coeff_C_mul, coeff_X_pow, mul_ite, mul_one, mul_zero,
    Finset.sum_ite_eq, Finset.mem_range]
  split_ifs with h
  · rfl
  · rw [BitVec.getMsbD_of_ge c n (not_lt.mp h)]
    rfl

theorem toPoly_xor (c d : BitVec w) : toPoly (c ^^^ d) = toPoly c + toPoly d := by
  ext n
  rw [coeff_add, coeff_toPoly, coeff_toPoly, coeff_toPoly, BitVec.getMsbD_xor, bit_xor]

theorem degree_toPoly_lt (c : BitVec w) : (toPoly c).degree < w := by
  rw [degree_lt_iff_coeff_zero]
  intro n hn
  rw [coeff_toPoly, BitVec.getMsbD_of_ge c n hn]
  rfl

theorem X_mul_toPoly (c : BitVec w) :
    X * toPoly c = toPoly (c >>> 1) + C (bit (c.getLsbD 0)) * X ^ w := by
  ext n
  rw [coeff_add, coeff_toPoly, coeff_C_mul]
  cases n with
  | zero =>
    cases w with
    | zero => simp [bit]
    | succ w => simp [bit]
  | succ n =>
    rw [coeff_X_mul, coeff_toPoly]
    rcases lt_trichotomy (n + 1) w with h | h | h
    · simp [h, h.ne]
    · subst h
      simp [bit, BitVec.getMsbD_eq_getLsbD]
    · rw [BitVec.getMsbD_of_ge c n (by omega)]
      simp [h.ne', not_lt.mpr h.le]

/-- **A step multiplies by `X`**, modulo the generator. -/
theorem toPoly_step (c : BitVec w) (b : Bool) :
    generator g ∣ toPoly (step g c b) + (X * toPoly c + C (bit b) * X ^ w) := by
  have htwo (p : (ZMod 2)[X]) : p + p = 0 := CharTwo.add_self_eq_zero p
  have hsum : toPoly (step g c b) = toPoly (c >>> 1) + C (bit (c.getLsbD 0 ^^ b)) * toPoly g := by
    unfold step
    split_ifs with h
    · rw [toPoly_xor, h]
      simp [bit, add_comm]
    · simp [h, bit]
  refine ⟨C (bit (c.getLsbD 0 ^^ b)), ?_⟩
  rw [hsum, X_mul_toPoly, bit_xor, generator, C_add]
  linear_combination htwo (toPoly (c >>> 1))

theorem message_concat (bits : List Bool) (b : Bool) :
    message (bits ++ [b]) = X * message bits + C (bit b) := List.foldl_append

theorem message_append (bits bits' : List Bool) :
    message (bits ++ bits') = X ^ bits'.length * message bits + message bits' := by
  induction bits' using List.reverseRecOn with
  | nil => simp [message]
  | append_singleton l b ih =>
    rw [← List.append_assoc, message_concat, ih, message_concat, List.length_append]
    simp only [List.length_singleton]
    ring

theorem degree_message_lt (bits : List Bool) : (message bits).degree < bits.length := by
  induction bits using List.reverseRecOn with
  | nil => simp [message]
  | append_singleton l b ih =>
    rw [degree_lt_iff_coeff_zero] at ih ⊢
    intro n hn
    rw [List.length_append] at hn
    obtain ⟨n, rfl⟩ := Nat.exists_eq_succ_of_ne_zero (Nat.ne_zero_of_lt hn)
    rw [message_concat, coeff_add, coeff_X_mul, coeff_C_succ, ih n (Nat.le_of_succ_le_succ hn),
      add_zero]

theorem message_inj {bits bits' : List Bool} (hlen : bits.length = bits'.length)
    (h : message bits = message bits') : bits = bits' := by
  induction bits using List.reverseRecOn generalizing bits' with
  | nil => exact (List.length_eq_zero_iff.mp hlen.symm).symm
  | append_singleton l b ih =>
    obtain rfl | ⟨l', b', rfl⟩ := List.eq_nil_or_concat' bits'
    · simp at hlen
    rw [message_concat, message_concat] at h
    have hb : bit b = bit b' := by simpa using congrArg (coeff · 0) h
    have hb' : b = b' := by
      revert hb
      cases b <;> cases b' <;> decide
    subst hb'
    rw [ih (by simpa using hlen) (mul_left_cancel₀ X_ne_zero (add_right_cancel h))]

/-! ### Remainders -/

theorem generator_dvd (c : BitVec w) (bits : List Bool) :
    generator g ∣ toPoly (register g c bits) +
      (X ^ bits.length * toPoly c + X ^ w * message bits) := by
  induction bits using List.reverseRecOn with
  | nil => simp [register, message, CharTwo.add_self_eq_zero]
  | append_singleton l b ih =>
    have hstep := (toPoly_step g (register g c l) b).add (ih.mul_left X)
    rw [register_concat, message_concat, List.length_append, List.length_singleton]
    convert hstep using 1
    linear_combination -CharTwo.add_self_eq_zero (X * toPoly (register g c l))

theorem generator_monic : (generator g).Monic := monic_X_pow_add (degree_toPoly_lt g)

theorem degree_generator : (generator g).degree = w := by
  rw [generator, degree_add_eq_left_of_degree_lt, degree_X_pow]
  rw [degree_X_pow]
  exact degree_toPoly_lt g

/-- **A register is a remainder** modulo the generator. -/
theorem toPoly_register (c : BitVec w) (bits : List Bool) : toPoly (register g c bits) =
    (X ^ bits.length * toPoly c + X ^ w * message bits) %ₘ generator g := by
  have hself := (modByMonic_eq_self_iff (generator_monic g)).mpr
    ((degree_toPoly_lt (register g c bits)).trans_eq (degree_generator g).symm)
  rw [← hself]
  refine modByMonic_eq_of_dvd_sub (generator_monic g) ?_
  rw [CharTwo.sub_eq_add]
  exact generator_dvd g c bits

/-- **Bursts are detected**: bits that differ only in a window of `w` bits have different registers.
-/
theorem register_burst (hg : g.getMsbD 0 = true) (c : BitVec w) {u v v' z : List Bool}
    (hlen : v.length = v'.length) (hv : v.length ≤ w)
    (h : register g c (u ++ v ++ z) = register g c (u ++ v' ++ z)) : v = v' := by
  have hcop : IsCoprime (generator g) X := by
    refine ⟨1, -(generator g).divX, ?_⟩
    have hone : (generator g).coeff 0 = 1 := by
      have hw : ¬0 = w := by
        rintro rfl
        simp at hg
      simp [generator, coeff_toPoly, hg, hw, bit]
    nth_rewrite 1 [← divX_mul_X_add (generator g)]
    rw [hone]
    simp
  have hsum : generator g ∣ X ^ (w + z.length) * (message v + message v') := by
    have hdvd := (generator_dvd g c (u ++ v ++ z)).add (generator_dvd g c (u ++ v' ++ z))
    simp only [h, message_append, List.length_append, hlen] at hdvd
    convert hdvd using 1
    linear_combination
      -CharTwo.add_self_eq_zero (toPoly (register g c (u ++ v' ++ z)) +
        X ^ (u.length + v'.length + z.length) * toPoly c +
        X ^ w * (X ^ z.length * (X ^ v'.length * message u)) + X ^ w * message z)
  have hzero := hcop.pow_right.dvd_of_dvd_mul_left hsum
  refine message_inj hlen ?_
  rw [← sub_eq_zero, CharTwo.sub_eq_add]
  have hle : (v.length : WithBot ℕ) ≤ (generator g).degree := by
    rw [degree_generator]
    exact_mod_cast hv
  exact eq_zero_of_dvd_of_degree_lt hzero ((degree_add_le _ _).trans_lt
    (max_lt ((degree_message_lt v).trans_le hle) ((degree_message_lt v').trans_le (hlen ▸ hle))))

end Lib.Crc
