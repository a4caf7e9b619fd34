import TaterTOS.Lib.Crc

/-!
# The checksum of a FRY image

* **`crc_exact`**: the table-driven checksum of `kernel/proc/elf.c` is CRC-32, a polynomial
  remainder that detects bursts.
-/

namespace TaterTOS.Elf

open Lib Polynomial

/-! ### Model -/

/-- One turn of the inner loop of `crc32_init`. -/
def crcTurn (c : BitVec 32) : BitVec 32 :=
  if c &&& 1 ≠ 0 then 0xEDB88320#32 ^^^ (c >>> 1) else c >>> 1

/-- `crc32_table` and `crc_init_done`. -/
structure CrcTable where
  table : BitVec 8 → BitVec 32
  initDone : Bool
  ready : initDone = true → table = fun i => crcTurn^[8] (i.setWidth 32)

def crc32Init : CrcTable := ⟨fun i => crcTurn^[8] (i.setWidth 32), true, fun _ => rfl⟩

def crc32Calc (s : CrcTable) (buf : List (BitVec 8)) : BitVec 32 × CrcTable :=
  let s := if !s.initDone then crc32Init else s
  let c := buf.foldl (fun c b =>
    s.table (((c ^^^ b.setWidth 32) &&& 0xFF#32).setWidth 8) ^^^ (c >>> 8)) 0xFFFFFFFF#32
  (c ^^^ 0xFFFFFFFF#32, s)

/-! ### Bit by bit -/

def crc32Poly : BitVec 32 := 0xEDB88320#32

/-- The bits of a payload in the order of transmission. -/
def payloadBits (buf : List (BitVec 8)) : List Bool := buf.flatMap Crc.bitsOf

/-- The reflected CRC-32, bit by bit. -/
def crc32Bits (bits : List Bool) : BitVec 32 :=
  Crc.register crc32Poly 0xFFFFFFFF#32 bits ^^^ 0xFFFFFFFF#32

theorem crcTurn_eq (c : BitVec 32) : crcTurn c = Crc.step crc32Poly c false := by
  unfold crcTurn Crc.step
  rw [show (1 : BitVec 32) = 1#32 from rfl, BitVec.and_one_eq_setWidth_ofBool_getLsbD,
    Bool.xor_false]
  cases c.getLsbD 0 <;> rfl

theorem register_byte (c : BitVec 32) (b : BitVec 8) :
    Crc.register crc32Poly c (Crc.bitsOf b) = crcTurn^[8] (c ^^^ b.setWidth 32) := by
  have h := Crc.register_bits crc32Poly c (b.setWidth 32) 8
  have hzero : b.setWidth 32 >>> 8 = 0#32 := by
    ext i hi
    simp
  have hbits : (List.range 8).map (b.setWidth 32).getLsbD = Crc.bitsOf b := by
    refine List.map_congr_left fun i hi => ?_
    have := List.mem_range.mp hi
    simp [BitVec.getLsbD_setWidth]
    omega
  rw [hzero, BitVec.xor_zero, hbits] at h
  rw [h, funext crcTurn_eq]

/-- The low byte decides what is added in eight turns. -/
theorem turns_eight (x : BitVec 32) : crcTurn^[8] x =
    crcTurn^[8] (((x &&& 0xFF#32).setWidth 8).setWidth 32) ^^^ (x >>> 8) := by
  have hmask : (x &&& 0xFF#32).setWidth 8 = x.setWidth 8 := by
    ext i hi
    have hone : ∀ j : Fin 8, (0xFF#8).getLsbD j = true := by decide
    simpa [BitVec.getLsbD_eq_getElem hi] using fun _ => hone ⟨i, hi⟩
  have hsplit : (x.setWidth 8).setWidth 32 ^^^ ((x >>> 8) <<< 8) = x := by
    ext i hi
    rcases lt_or_ge i 8 with h | h
    · simp [h, BitVec.getLsbD_eq_getElem hi]
    · simp [not_lt.mpr h, Nat.add_sub_cancel' h, BitVec.getLsbD_eq_getElem hi]
  have hback : ((x >>> 8) <<< 8) >>> 8 = x >>> 8 := by
    ext i hi
    simpa using BitVec.lt_of_getLsbD
  have hlow : (List.range 8).map ((x >>> 8) <<< 8).getLsbD = Crc.bitsOf 0#8 := by
    refine List.map_congr_left fun i hi => ?_
    simp [List.mem_range.mp hi]
  have h := Crc.register_bits crc32Poly ((x.setWidth 8).setWidth 32) ((x >>> 8) <<< 8) 8
  rw [hsplit, hback, hlow, ← funext crcTurn_eq, register_byte] at h
  rw [hmask, ← h]
  simp

theorem crc32Calc_eq (s : CrcTable) (buf : List (BitVec 8)) :
    (crc32Calc s buf).1 = crc32Bits (payloadBits buf) := by
  have htable : (if !s.initDone then crc32Init else s).table =
      fun i => crcTurn^[8] (i.setWidth 32) := by
    cases hdone : s.initDone with
    | false => rfl
    | true => exact s.ready hdone
  have hfold (c : BitVec 32) : Crc.register crc32Poly c (payloadBits buf) =
      buf.foldl (fun c b => crcTurn^[8]
        ((((c ^^^ b.setWidth 32) &&& 0xFF#32).setWidth 8).setWidth 32) ^^^ (c >>> 8)) c := by
    induction buf generalizing c with
    | nil => rfl
    | cons b buf ih =>
      have hshift : (c ^^^ b.setWidth 32) >>> 8 = c >>> 8 := by
        ext i hi
        simp
      rw [payloadBits, List.flatMap_cons, Crc.register, List.foldl_append, List.foldl_cons]
      refine (ih _).trans ?_
      rw [← Crc.register, register_byte, turns_eight, hshift]
  unfold crc32Calc crc32Bits
  dsimp only
  rw [htable, hfold]

theorem payloadBits_inj : ∀ {buf buf' : List (BitVec 8)}, buf.length = buf'.length →
    payloadBits buf = payloadBits buf' → buf = buf'
  | [], [], _, _ => rfl
  | b :: buf, b' :: buf', hlen, h => by
    rw [payloadBits, payloadBits, List.flatMap_cons, List.flatMap_cons] at h
    obtain ⟨hb, hbuf⟩ := List.append_inj h (by simp [Crc.bitsOf])
    have hbit : b = b' := BitVec.eq_of_getLsbD_eq fun i hi =>
      List.map_inj_left.mp hb i (List.mem_range.mpr hi)
    rw [hbit, payloadBits_inj (Nat.succ.inj hlen) hbuf]

/-- **The checksum of the loader is CRC-32**: it is the bitwise one, a remainder modulo the
generator, and two payloads of one length that differ only in a window of 32 bits have different
checksums. -/
theorem crc_exact (s s' : CrcTable) (buf : List (BitVec 8)) :
    (crc32Calc s buf).1 = crc32Bits (payloadBits buf) ∧
    Crc.toPoly ((crc32Calc s buf).1 ^^^ 0xFFFFFFFF#32) =
      (X ^ (8 * buf.length) * Crc.toPoly 0xFFFFFFFF#32 + X ^ 32 * Crc.message (payloadBits buf)) %ₘ
        Crc.generator crc32Poly ∧
    ∀ buf' : List (BitVec 8), buf.length = buf'.length → buf ≠ buf' → ∀ u v v' z : List Bool,
      payloadBits buf = u ++ v ++ z → payloadBits buf' = u ++ v' ++ z → v.length = v'.length →
      v.length ≤ 32 → (crc32Calc s buf).1 ≠ (crc32Calc s' buf').1 := by
  have hones (c : BitVec 32) : c ^^^ 0xFFFFFFFF#32 ^^^ 0xFFFFFFFF#32 = c := by
    rw [BitVec.xor_assoc, BitVec.xor_self, BitVec.xor_zero]
  have hlen : (payloadBits buf).length = 8 * buf.length := by
    simp [payloadBits, Crc.bitsOf, mul_comm]
  refine ⟨crc32Calc_eq s buf, ?_, ?_⟩
  · rw [crc32Calc_eq, crc32Bits, hones, Crc.toPoly_register, hlen]
  · intro buf' hbuf hne u v v' z hu hu' hv hle heq
    rw [crc32Calc_eq, crc32Calc_eq, crc32Bits, crc32Bits, hu, hu'] at heq
    have hreg := congrArg (· ^^^ 0xFFFFFFFF#32) heq
    simp only [hones] at hreg
    have hsame := Crc.register_burst crc32Poly (by decide) _ hv hle hreg
    exact hne (payloadBits_inj hbuf (by rw [hu, hu', hsame]))

theorem crc_exact_check : ∃ s : CrcTable,
    (crc32Calc s [0x31, 0x32, 0x33]).1 ≠ (crc32Calc s [0x31, 0x33, 0x33]).1 := by
  refine ⟨crc32Init, (crc_exact crc32Init crc32Init [0x31, 0x32, 0x33]).2.2 [0x31, 0x33, 0x33] rfl
    (by decide) (Crc.bitsOf 0x31#8) (Crc.bitsOf 0x32#8) (Crc.bitsOf 0x33#8) (Crc.bitsOf 0x33#8)
    rfl rfl rfl (by decide)⟩

end TaterTOS.Elf
