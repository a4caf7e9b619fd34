import TaterTOS.Wifi.Wpa2

/-!
# CCMP

`ccmp_encrypt` and `ccmp_decrypt` of `iwl_crypto.c`. AES under the key is a function on blocks;
`stack` is what the buffer of the AAD holds before. A loop that has not ended after `fuel` rounds
gives `none`.

* `macLoop`, `ctrLoop`: the loops over the payload, with positions of sixteen bits;
* **`ccmp_ends`**: each block is used once in the MAC and once in counter mode, up to 65520 bytes;
* **`mac_never_ends`**: beyond, the position of the MAC goes round.
-/

namespace TaterTOS.Wifi

/-! ### The model -/

def xorBytes (a b : Bytes) (n : ℕ) : Bytes := (List.range n).map fun i => a.getD i 0 ^^^ b.getD i 0

def ccmpBuildNonce (priority : UInt8) (a2 pn : Bytes) : Bytes :=
  priority :: slice a2 0 6 ++ (slice pn 0 6).reverse

def ccmpBuildB0 (nonce : Bytes) (payloadLen : ℕ) : Bytes :=
  0x59 :: slice nonce 0 13 ++ putBe16 payloadLen

def ccmpBuildCtr (nonce : Bytes) (counter : ℕ) : Bytes :=
  0x01 :: slice nonce 0 13 ++ putBe16 counter

/-- Of the QoS field only the length is counted: its bytes are not written. -/
def ccmpBuildAad (stack hdr : Bytes) : Bytes :=
  if hdr.length < 24 then []
  else
    let fc := byte hdr 0 + byte hdr 1 * 2 ^ 8
    let hasA4 := fc &&& 0x0300 = 0x0300 ∧ 30 ≤ hdr.length
    let bodyLen := (if hasA4 then 28 else 22) + (if fc &&& 0x0080 ≠ 0 then 2 else 0)
    let aad := putBe16 bodyLen ++ [hdr.getD 0 0, hdr.getD 1 0 &&& 0x07] ++ slice hdr 4 18 ++
      [hdr.getD 22 0 &&& 0x0F, 0] ++ (if hasA4 then slice hdr 24 6 else [])
    slice (aad ++ stack.drop aad.length) 0 (2 + bodyLen)

def macLoop (aes : Bytes → Bytes) (p : Bytes) (len : ℕ) : ℕ → ℕ → Bytes → Option Bytes
  | 0, _, _ => none
  | fuel + 1, pos, cbc =>
    if pos < len then
      let block := slice p pos (min (len - pos) 16)
      macLoop aes p len fuel ((pos + 16) % 2 ^ 16) (aes (xorBytes cbc block 16))
    else some cbc

def ctrLoop (aes : Bytes → Bytes) (nonce p : Bytes) (len : ℕ) : ℕ → ℕ → ℕ → Bytes → Option Bytes
  | 0, _, _, _ => none
  | fuel + 1, pos, ctrVal, out =>
    if pos < len then
      let chunk := min (len - pos) 16
      ctrLoop aes nonce p len fuel ((pos + chunk) % 2 ^ 16) ((ctrVal + 1) % 2 ^ 16)
        (out ++ xorBytes (p.drop pos) (aes (ccmpBuildCtr nonce ctrVal)) chunk)
    else some out

/-- The CBC-MAC over B0, the AAD and the payload. -/
def ccmpMac (aes : Bytes → Bytes) (fuel : ℕ) (nonce aad p : Bytes) : Option Bytes :=
  (macLoop aes aad aad.length fuel 0 (aes (ccmpBuildB0 nonce p.length))).bind
    (macLoop aes p p.length fuel 0)

def ccmpEncrypt (aes : Bytes → Bytes) (fuel : ℕ) (stack nonce hdr plaintext : Bytes) :
    Option (Option Bytes) :=
  let aad := ccmpBuildAad stack hdr
  if aad.length = 0 then some none
  else
    (ccmpMac aes fuel nonce aad plaintext).bind fun cbc =>
      (ctrLoop aes nonce plaintext plaintext.length fuel 0 1 []).map fun out =>
        some (out ++ xorBytes cbc (aes (ccmpBuildCtr nonce 0)) 8)

def ccmpDecrypt (aes : Bytes → Bytes) (fuel : ℕ) (stack nonce hdr ciphertext : Bytes) :
    Option (Option Bytes) :=
  if ciphertext.length < 8 then some none
  else
    let len := ciphertext.length - 8
    (ctrLoop aes nonce ciphertext len fuel 0 1 []).bind fun out =>
      let mic := xorBytes (ciphertext.drop len) (aes (ccmpBuildCtr nonce 0)) 8
      let aad := ccmpBuildAad stack hdr
      if aad.length = 0 then some none
      else (ccmpMac aes fuel nonce aad out).map fun cbc =>
        if slice cbc 0 8 = mic then some out else none

/-! ### What the loops compute -/

def blocks (len : ℕ) : ℕ := (len + 15) / 16

/-- Every block of sixteen bytes once, the last one filled up with zeros. -/
def macOf (aes : Bytes → Bytes) (p cbc : Bytes) : Bytes :=
  (List.range (blocks p.length)).foldl
    (fun cbc k => aes (xorBytes cbc (slice p (16 * k) (min (p.length - 16 * k) 16)) 16)) cbc

/-- Byte by byte, with the counter `k + 1` for the block `k`. -/
def ctrOf (aes : Bytes → Bytes) (nonce p : Bytes) (len : ℕ) : Bytes :=
  (List.range len).map fun i => p.getD i 0 ^^^ (aes (ccmpBuildCtr nonce (i / 16 + 1))).getD
  (i % 16) 0

variable {aes : Bytes → Bytes} {stack nonce hdr p : Bytes} {fuel : ℕ}

theorem macLoop_eq (hp : p.length ≤ 65520) :
    ∀ (n k fuel : ℕ) (cbc : Bytes), k + n = blocks p.length →
    n < fuel → macLoop aes p p.length fuel (16 * k) cbc = some ((List.range' k n).foldl
      (fun cbc k => aes (xorBytes cbc (slice p (16 * k) (min (p.length - 16 * k) 16)) 16)) cbc)
  | 0, k, fuel + 1, cbc, hk, _ => by
    unfold blocks at hk
    rw [macLoop, if_neg (by omega)]
    rfl
  | n + 1, k, fuel + 1, cbc, hk, hf => by
    unfold blocks at hk
    rw [macLoop, if_pos (by omega), show (16 * k + 16) % 2 ^ 16 = 16 * (k + 1) by omega,
      macLoop_eq hp n (k + 1) fuel _ (by unfold blocks; omega) (by omega), List.range'_succ,
      List.foldl_cons]

theorem macLoop_start (hp : p.length ≤ 65520) (hf : blocks p.length < fuel) (cbc : Bytes) :
    macLoop aes p p.length fuel 0 cbc = some (macOf aes p cbc) := by
  rw [macOf, List.range_eq_range']
  exact macLoop_eq hp _ 0 fuel cbc (zero_add _) hf

/-- The position is a multiple of sixteen below 65536, so below every longer payload. -/
theorem macLoop_none {len : ℕ} (hlen : 65520 < len) :
    ∀ (fuel : ℕ) {pos : ℕ} (cbc : Bytes), 16 ∣ pos →
    pos < 2 ^ 16 → macLoop aes p len fuel pos cbc = none
  | 0, _, _, _, _ => rfl
  | fuel + 1, pos, cbc, hd, hp => by
    rw [macLoop, if_pos (by omega)]
    exact macLoop_none hlen fuel _ (by omega) (Nat.mod_lt _ (by norm_num))

theorem ctrOf_add (k n : ℕ) (hn : n ≤ 16) : ctrOf aes nonce p (16 * k + n) =
    ctrOf aes nonce p (16 * k) ++ xorBytes (p.drop (16 * k))
    (aes (ccmpBuildCtr nonce (k + 1))) n := by
  simp only [ctrOf, List.range_add, List.map_append, List.map_map]
  congr 1
  refine List.map_congr_left fun i hi => ?_
  have hi := List.mem_range.mp hi
  simp only [Function.comp, List.getD_eq_getElem?_getD, List.getElem?_drop]
  rw [show (16 * k + i) / 16 = k by omega, show (16 * k + i) % 16 = i by omega]

theorem ctrLoop_eq {len : ℕ} (hlen : len < 2 ^ 16) : ∀ n k fuel, k + n = blocks len → n < fuel →
    ctrLoop aes nonce p len fuel (min (16 * k) len) (k + 1) (ctrOf aes nonce p (min (16 * k) len)) =
      some (ctrOf aes nonce p len)
  | 0, k, fuel + 1, hk, _ => by
    unfold blocks at hk
    rw [show min (16 * k) len = len by omega, ctrLoop, if_neg (lt_irrefl _)]
  | n + 1, k, fuel + 1, hk, hf => by
    unfold blocks at hk
    rw [show min (16 * k) len = 16 * k by omega, ctrLoop, if_pos (by omega)]
    dsimp only
    rw [← ctrOf_add k _ (min_le_right _ _),
      show 16 * k + min (len - 16 * k) 16 = min (16 * (k + 1)) len by omega,
      Nat.mod_eq_of_lt (by omega), Nat.mod_eq_of_lt (by omega)]
    exact ctrLoop_eq hlen n (k + 1) fuel (by unfold blocks; omega) (by omega)

theorem ctrLoop_start {len : ℕ} (hlen : len < 2 ^ 16) (hf : blocks len < fuel) :
    ctrLoop aes nonce p len fuel 0 1 [] = some (ctrOf aes nonce p len) := by
  simpa [ctrOf] using ctrLoop_eq hlen (blocks len) 0 fuel (zero_add _) hf

theorem ccmpBuildCtr_inj {j k : ℕ} (hj : j < 2 ^ 16) (hk : k < 2 ^ 16)
    (h : ccmpBuildCtr nonce j = ccmpBuildCtr nonce k) : j = k := by
  have h := List.append_cancel_left h
  simp only [putBe16, List.cons.injEq, and_true] at h
  have h1 := congrArg UInt8.toNat h.1
  have h2 := congrArg UInt8.toNat h.2
  simp at h1 h2
  omega

theorem length_ccmpBuildAad (h : 24 ≤ hdr.length) :
    24 ≤ (ccmpBuildAad stack hdr).length ∧ (ccmpBuildAad stack hdr).length ≤ 32 := by
  rw [ccmpBuildAad, if_neg (by omega)]
  simp only [slice, List.length_map, List.length_range]
  split_ifs <;> omega

theorem ccmpMac_eq (h : 24 ≤ hdr.length) (hp : p.length ≤ 65520)
    (hf : blocks p.length + 2 < fuel) : ccmpMac aes fuel nonce (ccmpBuildAad stack hdr) p =
      some (macOf aes p
        (macOf aes (ccmpBuildAad stack hdr) (aes (ccmpBuildB0 nonce p.length)))) := by
  have haad := @length_ccmpBuildAad stack hdr h
  have hblocks : blocks (ccmpBuildAad stack hdr).length < fuel := by
    unfold blocks at hf ⊢
    omega
  rw [ccmpMac, macLoop_start (by omega) hblocks]
  exact macLoop_start hp (by omega) _

theorem ccmpEncrypt_eq (h : 24 ≤ hdr.length) (hp : p.length ≤ 65520)
    (hf : blocks p.length + 2 < fuel) : ccmpEncrypt aes fuel stack nonce hdr p =
      some (some (ctrOf aes nonce p p.length ++ xorBytes (macOf aes p (macOf aes
        (ccmpBuildAad stack hdr) (aes (ccmpBuildB0 nonce p.length))))
          (aes (ccmpBuildCtr nonce 0)) 8)) := by
  have haad := (@length_ccmpBuildAad stack hdr h).1
  rw [ccmpEncrypt, if_neg (by omega), ccmpMac_eq h hp hf, Option.bind_some,
    ctrLoop_start (by omega) (by omega), Option.map_some]

theorem ccmpDecrypt_eq (h : 24 ≤ hdr.length) {c : Bytes} {n : ℕ} (hn : n ≤ 65520)
    (hc : c.length = n + 8) (hf : blocks n + 2 < fuel) :
    ccmpDecrypt aes fuel stack nonce hdr c =
      some (if slice (macOf aes (ctrOf aes nonce c n) (macOf aes (ccmpBuildAad stack hdr)
          (aes (ccmpBuildB0 nonce (ctrOf aes nonce c n).length)))) 0 8 =
          xorBytes (c.drop n) (aes (ccmpBuildCtr nonce 0)) 8
        then some (ctrOf aes nonce c n) else none) := by
  have haad := (@length_ccmpBuildAad stack hdr h).1
  have hlen : (ctrOf aes nonce c n).length = n := by simp [ctrOf]
  rw [ccmpDecrypt, if_neg (by omega), hc, Nat.add_sub_cancel]
  dsimp only
  rw [ctrLoop_start (by omega) (by omega), Option.bind_some, if_neg (by omega),
    ccmpMac_eq h (by omega) (by rwa [hlen]), Option.map_some]

theorem ccmpMac_none (hp : 65520 < p.length) :
    ccmpMac aes fuel nonce (ccmpBuildAad stack hdr) p = none := by
  have hmac : macLoop aes p p.length fuel 0 = fun _ => none :=
    funext fun cbc => macLoop_none hp fuel cbc (dvd_zero _) (by norm_num)
  rw [ccmpMac, hmac]
  exact Option.bind_fun_none _

theorem ccmpEncrypt_none (h : 24 ≤ hdr.length) (hp : 65520 < p.length) :
    ccmpEncrypt aes fuel stack nonce hdr p = none := by
  have haad := (@length_ccmpBuildAad stack hdr h).1
  rw [ccmpEncrypt, if_neg (by omega), ccmpMac_none hp, Option.bind_none]

theorem ccmpDecrypt_none (h : 24 ≤ hdr.length) {c : Bytes} (hc : 65528 < c.length)
    (hc' : c.length < 2 ^ 16) (hf : blocks (c.length - 8) < fuel) :
    ccmpDecrypt aes fuel stack nonce hdr c = none := by
  have haad := (@length_ccmpBuildAad stack hdr h).1
  have hlen : (ctrOf aes nonce c (c.length - 8)).length = c.length - 8 := by simp [ctrOf]
  rw [ccmpDecrypt, if_neg (by omega)]
  dsimp only
  rw [ctrLoop_start (by omega) hf, Option.bind_some, if_neg (by omega),
    ccmpMac_none (by omega), Option.map_none]

def frameMac (aes : Bytes → Bytes) (stack nonce hdr p : Bytes) : Bytes :=
  macOf aes p (macOf aes (ccmpBuildAad stack hdr) (aes (ccmpBuildB0 nonce p.length)))

/-- The counter blocks for the MIC and for `n` bytes of a frame. -/
def CountersDiffer (nonce : Bytes) (n : ℕ) : Prop :=
  ∀ j k, j ≤ blocks n → k ≤ blocks n → ccmpBuildCtr nonce j = ccmpBuildCtr nonce k → j = k

/-- The encryption ends with every block once in the MAC and once in counter mode. -/
def EncryptsOnce (aes : Bytes → Bytes) (stack nonce hdr p : Bytes) : Prop :=
  CountersDiffer nonce p.length ∧ ∃ rounds, ∀ fuel, rounds < fuel →
    ccmpEncrypt aes fuel stack nonce hdr p = some (some (ctrOf aes nonce p p.length ++
      xorBytes (frameMac aes stack nonce hdr p) (aes (ccmpBuildCtr nonce 0)) 8))

/-- The decryption ends with every block once in counter mode and once in the MAC. -/
def DecryptsOnce (aes : Bytes → Bytes) (stack nonce hdr c : Bytes) : Prop :=
  CountersDiffer nonce (c.length - 8) ∧ ∃ rounds, ∀ fuel, rounds < fuel →
    ccmpDecrypt aes fuel stack nonce hdr c =
      some (if slice (frameMac aes stack nonce hdr (ctrOf aes nonce c (c.length - 8))) 0 8 =
          xorBytes (c.drop (c.length - 8)) (aes (ccmpBuildCtr nonce 0)) 8
        then some (ctrOf aes nonce c (c.length - 8)) else none)

theorem countersDiffer {n : ℕ} (hn : n < 2 ^ 16) : CountersDiffer nonce n := by
  intro j k hj hk
  unfold blocks at hj hk
  exact ccmpBuildCtr_inj (by omega) (by omega)

/-- **CCMP ends**, each block used once in the MAC and once in counter mode with a counter of its
own, exactly if the payload has at most 65520 bytes. -/
theorem ccmp_ends (aes : Bytes → Bytes) (stack nonce hdr : Bytes) (hhdr : 24 ≤ hdr.length)
    (p c : Bytes) (hp : p.length < 2 ^ 16) (hc : 8 ≤ c.length ∧ c.length < 2 ^ 16) :
    (EncryptsOnce aes stack nonce hdr p ↔ p.length ≤ 65520) ∧
    (DecryptsOnce aes stack nonce hdr c ↔ c.length ≤ 65528) := by
  refine ⟨⟨fun h => ?_, fun h => ⟨countersDiffer hp, _, fun fuel => ccmpEncrypt_eq hhdr h⟩⟩,
    fun h => ?_, fun h => ⟨countersDiffer (by omega), _, fun fuel =>
      ccmpDecrypt_eq hhdr (by omega) (by omega)⟩⟩
  · by_contra hlong
    obtain ⟨rounds, hends⟩ := h.2
    have hout := hends (rounds + 1) (Nat.lt_succ_self _)
    rw [ccmpEncrypt_none hhdr (by omega)] at hout
    cases hout
  · by_contra hlong
    obtain ⟨rounds, hends⟩ := h.2
    have hout := hends (rounds + blocks (c.length - 8) + 1) (by omega)
    rw [ccmpDecrypt_none hhdr (by omega) hc.2 (by omega)] at hout
    cases hout

theorem ccmp_ends_oneByte :
    EncryptsOnce id [] [] (List.replicate 24 0) [7] ∧
    DecryptsOnce id [] [] (List.replicate 24 0) (List.replicate 9 0) := by
  have h :=
    ccmp_ends id [] [] (List.replicate 24 0) (by decide) [7] (List.replicate 9 0) (by decide)
    (by decide)
  exact ⟨h.1.mpr (by decide), h.2.mpr (by decide)⟩

/-- **The MAC of a longer payload never ends**: its position goes from 65520 back to 0. -/
theorem mac_never_ends : ∃ p : Bytes, p.length = 65521 ∧
    ∀ fuel, ccmpEncrypt id fuel [] [] (List.replicate 24 0) p = none :=
  ⟨List.replicate 65521 0, List.length_replicate, fun fuel =>
    ccmpEncrypt_none (by simp) (by rw [List.length_replicate]; norm_num)⟩

end TaterTOS.Wifi
