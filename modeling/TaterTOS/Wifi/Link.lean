import TaterTOS.Wifi.Ccmp
import TaterTOS.Wifi.Nonces

/-!
# Protected frames from one side to the other

`wpa2_encrypt_data` and `wpa2_decrypt_data` with the CCMP of `iwl_crypto.c`.

* `exchange`: frames sent by one context and delivered in order to another;
* **`exchange_payloads`**: a sender whose packet number is ahead of the receiver's is understood;
* **`first_frame_lost`**: right after a handshake both numbers are zero, and it is not.
-/

namespace TaterTOS.Wifi

open Lib

/-- `Crypto` with CCMP as it is computed. -/
def ccmpCrypto (cr : Crypto) (aes : Bytes → Bytes → Bytes) (fuel : ℕ) (stack : Bytes) : Crypto :=
  { cr with
    ccmpEncrypt := fun tk pn a2 hdr plaintext =>
      (ccmpEncrypt (aes tk) fuel stack (ccmpBuildNonce 0 a2 pn) hdr plaintext).join
    ccmpDecrypt := fun tk pn a2 hdr ciphertext =>
      (ccmpDecrypt (aes tk) fuel stack (ccmpBuildNonce 0 a2 pn) hdr ciphertext).join }

/-- A frame to send, with what the AAD buffers of the two sides hold before. -/
structure Sent where
  hdr : Bytes
  payload : Bytes
  txStack : Bytes
  rxStack : Bytes

def exchange (cr : Bytes → Crypto) (outMax : ℕ) : Ctx → Ctx → List Sent → List (Option Bytes)
  | _, _, [] => []
  | tx, rx, f :: fs =>
    let e := wpa2EncryptData (cr f.txStack) tx f.hdr f.payload
    let d := e.1.elim (none, rx) fun frame => wpa2DecryptData (cr f.rxStack) rx frame outMax
    d.1 :: exchange cr outMax e.2 d.2 fs

/-- The bytes of a QoS field are missing in the AAD, so the stack stands in for them. -/
structure Sent.Ok (f : Sent) (outMax : ℕ) : Prop where
  hdr : f.hdr.length = headerLen f.hdr
  fits : f.hdr.length + 8 + f.payload.length + 8 ≤ 2300
  out : f.payload.length ≤ outMax
  stack : f.hdr.length = 24 ∨ f.hdr.length = 30 ∨ f.txStack = f.rxStack

/-! ### One frame -/

variable {aes : Bytes → Bytes} {nonce hdr p a b : Bytes}

theorem ctrOf_append (m : Bytes) :
    ctrOf aes nonce (ctrOf aes nonce p p.length ++ m) p.length = p := by
  refine List.ext_getElem (by simp [ctrOf]) fun i h1 h2 => ?_
  simp [ctrOf, List.getElem?_append, h2, UInt8.xor_assoc]

theorem xorBytes_xorBytes (n : ℕ) : xorBytes (xorBytes a b n) b n = slice a 0 n := by
  refine List.map_congr_left fun i hi => ?_
  simp [xorBytes, List.mem_range.mp hi, UInt8.xor_assoc]

/-- Decryption undoes encryption when both build the same AAD. -/
theorem ccmpDecrypt_ccmpEncrypt {s t : Bytes} (hs : ccmpBuildAad s hdr = ccmpBuildAad t hdr)
    (h : 24 ≤ hdr.length) (hp : p.length ≤ 65520) {fuel : ℕ} (hf : blocks p.length + 2 < fuel) :
    ∃ c : Bytes, c.length = p.length + 8 ∧ ccmpEncrypt aes fuel s nonce hdr p = some (some c) ∧
      ccmpDecrypt aes fuel t nonce hdr c = some (some p) := by
  have hlen : (ctrOf aes nonce p p.length).length = p.length := by simp [ctrOf]
  refine ⟨_, ?_, ccmpEncrypt_eq h hp hf, ?_⟩
  · simp [hlen, xorBytes]
  · rw [ccmpDecrypt_eq h hp (by simp [hlen, xorBytes]) hf, ctrOf_append, List.drop_left' hlen,
      xorBytes_xorBytes, hs, if_pos rfl]

theorem land_of_mod {x y m : ℕ} (h : x % 2 ^ 14 = y % 2 ^ 14) (hm : m < 2 ^ 14) :
    x &&& m = y &&& m := by
  rw [← Nat.mod_eq_of_lt (Nat.and_lt_two_pow x hm), ← Nat.mod_eq_of_lt (Nat.and_lt_two_pow y hm),
    Nat.and_mod_two_pow, Nat.and_mod_two_pow, h]

/-- The Protected bit does not count for the length of the header. -/
theorem headerLen_protect (c : Bytes) : ∀ {hdr : Bytes}, 2 ≤ hdr.length →
    headerLen (protect hdr ++ c) = headerLen hdr
  | x :: y :: l, _ => by
    have hbit : (y.toNat ||| 64) % 2 ^ 6 = y.toNat % 2 ^ 6 := by
      rw [Nat.or_mod_two_pow]
      exact Nat.or_zero _
    have hfc : (x.toNat + (y.toNat ||| 64) * 2 ^ 8) % 2 ^ 14 =
        (x.toNat + y.toNat * 2 ^ 8) % 2 ^ 14 := by
      omega
    change (if (x.toNat + (y.toNat ||| 64) * 2 ^ 8) &&& _ = _ then _ else _) +
      (if (x.toNat + (y.toNat ||| 64) * 2 ^ 8) &&& _ ≠ _ then _ else _) = _
    rw [land_of_mod hfc (by norm_num), land_of_mod hfc (by norm_num)]
    rfl

theorem slice_append (i n : ℕ) : slice (a ++ b) (a.length + i) n = slice b i n :=
  List.map_congr_left fun k _ => by simp [List.getElem?_append, Nat.add_assoc]

theorem slice_append_left {i n : ℕ} (h : i + n ≤ a.length) : slice (a ++ b) i n = slice a i n :=
  List.map_congr_left fun k hk => by
    have hk := List.mem_range.mp hk
    simp [List.getElem?_append, show i + k < a.length by omega]

theorem slice_self : slice a 0 a.length = a :=
  List.ext_getElem (by simp [slice]) fun i h1 h2 => by simp [slice, h2]

/-- Without a QoS field every byte of the AAD is written. -/
theorem ccmpBuildAad_stack (h : hdr.length = headerLen hdr) (hq : hdr.length = 24 ∨ hdr.length = 30)
    (s t : Bytes) : ccmpBuildAad s hdr = ccmpBuildAad t hdr := by
  have hslice : ∀ l : ℕ, ∀ x : Bytes, l = x.length → ∀ s : Bytes, slice (x ++ s) 0 l = x :=
    fun l x hl s => by rw [slice_append_left (by omega), hl, slice_self]
  unfold headerLen at h
  rw [ccmpBuildAad, ccmpBuildAad]
  dsimp only at h ⊢
  split_ifs at h ⊢
  all_goals first
    | omega
    | rw [hslice _ _ (by simp [slice, putBe16]), hslice _ _ (by simp [slice, putBe16])]

variable {cr : Crypto} {aes : Bytes → Bytes → Bytes} {fuel outMax : ℕ} {tx rx : Ctx} {f : Sent}

/-- A frame with a new packet number arrives, and the packet numbers stay one apart. -/
theorem wpa2DecryptData_sent (htx : tx.ptkValid) (hrx : rx.ptkValid) (htk : tx.tk = rx.tk)
    (hpn : rx.rxPn < tx.txPn) (hlt : tx.txPn < 2 ^ 48) (hf : f.Ok outMax) (hfuel : 2300 ≤ fuel) :
    ∃ frame, wpa2EncryptData (ccmpCrypto cr aes fuel f.txStack) tx f.hdr f.payload =
        (some frame, { tx with txPn := tx.txPn + 1 }) ∧
      wpa2DecryptData (ccmpCrypto cr aes fuel f.rxStack) rx frame outMax =
        (some f.payload, { rx with rxPn := tx.txPn }) := by
  have hfits := hf.fits
  have hge : 24 ≤ f.hdr.length := by
    rw [hf.hdr, headerLen]
    split_ifs <;> omega
  have hlen : (protect f.hdr).length = f.hdr.length := by simp [protect]
  have hhl : ∀ c, headerLen (protect f.hdr ++ c) = (protect f.hdr).length := fun c => by
    rw [headerLen_protect c (by omega), hlen, hf.hdr]
  have haad : ccmpBuildAad f.txStack (protect f.hdr) = ccmpBuildAad f.rxStack (protect f.hdr) := by
    obtain h | h := or_assoc.mpr hf.stack
    · exact ccmpBuildAad_stack (by simpa using (hhl []).symm) (hlen ▸ h) _ _
    · rw [h]
  obtain ⟨c, hc, henc, hdec⟩ := @ccmpDecrypt_ccmpEncrypt (aes rx.tk)
    (ccmpBuildNonce 0 (slice (protect f.hdr) 10 6) (pnBytes tx.txPn)) _ f.payload _ _ haad
    (by omega) (by omega) fuel (by unfold blocks; omega)
  set out := protect f.hdr
  set frame := out ++ (ccmpHdr (pnBytes tx.txPn) ++ c) with hframe
  have hpnOf : ccmpPn frame out.length = pnBytes tx.txPn := by
    rw [ccmpPn, slice_append, ← Nat.add_zero out.length, slice_append]
    rfl
  have hlength : frame.length = out.length + (8 + (f.payload.length + 8)) := by
    rw [List.length_append, List.length_append, hc]
    rfl
  have hopen : ccmpOpen (ccmpCrypto cr aes fuel f.rxStack) rx.tk frame = some f.payload := by
    rw [ccmpOpen, hhl, hpnOf, slice_append_left (by omega), slice_append_left (by omega),
      slice_self, List.drop_length_add_append]
    exact congrArg Option.join hdec
  refine ⟨frame, ?_, ?_⟩
  · rw [wpa2EncryptData, if_neg (by simp [htx])]
    dsimp only [ccmpCrypto]
    rw [slice_append_left (show 10 + 6 ≤ out.length by omega), htk, henc, u64_of_lt (by omega),
      hframe, ← List.append_assoc]
    rfl
  · rw [wpa2DecryptData, if_neg (by simp [hrx]), hopen, framePn, plainLen, hhl, hpnOf, pnOf_pnBytes,
      Nat.mod_eq_of_lt hlt, if_neg (by omega), if_neg (by omega), hlength,
      show out.length + (8 + (f.payload.length + 8)) - out.length - 8 - 8 = f.payload.length by
        omega,
      if_neg (not_lt.mpr hf.out)]
    dsimp only
    rw [slice_self]

/-- **A sender ahead of the receiver is understood**, whatever the frames. -/
theorem exchange_payloads (cr : Crypto) (aes : Bytes → Bytes → Bytes) (fuel outMax : ℕ)
    (hfuel : 2300 ≤ fuel) (fs : List Sent) (hfs : ∀ f ∈ fs, f.Ok outMax) (tx rx : Ctx)
    (htx : tx.ptkValid) (hrx : rx.ptkValid) (htk : tx.tk = rx.tk) (hpn : rx.rxPn < tx.txPn)
    (hlt : tx.txPn + fs.length ≤ 2 ^ 48) :
    exchange (ccmpCrypto cr aes fuel) outMax tx rx fs = fs.map fun f => some f.payload := by
  induction fs generalizing tx rx with
  | nil => rfl
  | cons f fs ih =>
    rw [List.length_cons] at hlt
    obtain ⟨frame, henc, hdec⟩ := @wpa2DecryptData_sent cr aes fuel outMax _ _ _ htx hrx htk hpn
      (by omega) (hfs f (.head _)) hfuel
    rw [exchange, henc]
    dsimp only [Option.elim]
    rw [hdec]
    exact congrArg _ (ih (fun f hf => hfs f (.tail _ hf)) _ _ htx hrx htk (Nat.lt_succ_self _)
      (by dsimp only; omega))

theorem exchange_payloads_second : exchange (ccmpCrypto plainCrypto (fun _ => id) 2300) 2048
    { waiting [1] [2] with ptkValid := true, txPn := 1 } { waiting [1] [2] with ptkValid := true }
    [⟨List.replicate 24 0, [7], [], [5]⟩] = [some [7]] :=
  exchange_payloads _ _ 2300 2048 le_rfl _ (by
    intro f hf
    rw [List.mem_singleton.mp hf]
    exact ⟨rfl, by decide, by decide, .inl rfl⟩) _ _ rfl rfl rfl (by decide) (by decide)

/-- **The first frame after a handshake is refused**: its packet number zero counts as a replay. -/
theorem first_frame_lost :
    let env : Env := ⟨[3], [], []⟩
    let ctx := keyed plainCrypto [1] [2] env
    let r := ctx.message3 plainCrypto (msg3Frame (msg3Mic plainCrypto ctx.kck)) env
    r.1 = 0 ∧ exchange (ccmpCrypto plainCrypto (fun _ => id) 2300) 2048 r.2 r.2
      [⟨List.replicate 24 0, [7], [], []⟩] = [none] := by
  decide +kernel

end TaterTOS.Wifi
