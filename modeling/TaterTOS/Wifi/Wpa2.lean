import TaterTOS.Lib.Word

/-!
# The WPA2 supplicant

`iwl_wpa2.c`: the four-way handshake and the CCMP data path of one `wpa2_ctx`.  The primitives of
`iwl_crypto.c` are parameters; what a call reads that is neither in the context nor in the frame
(the random SNonce, the stack bytes an overlong frame leaves as its MIC, the memory after a frame
that announces more key data than it has) is its `Env`.
-/

namespace TaterTOS.Wifi

open Lib

/-! ### Bytes -/

abbrev Bytes := List UInt8

def byte (p : Bytes) (i : ℕ) : ℕ := (p.getD i 0).toNat

def slice (p : Bytes) (i n : ℕ) : Bytes := (List.range n).map fun k => p.getD (i + k) 0

def be16 (p : Bytes) (i : ℕ) : ℕ := byte p i * 2 ^ 8 + byte p (i + 1)

def be64 (p : Bytes) (i : ℕ) : ℕ := (List.range 8).foldl (fun v k => v * 2 ^ 8 + byte p (i + k)) 0

def putBe16 (v : ℕ) : Bytes := [UInt8.ofNat (v / 2 ^ 8), UInt8.ofNat v]

def putBe64 (v : ℕ) : Bytes := (List.range 8).map fun k => UInt8.ofNat (v / 2 ^ (8 * (7 - k)))

/-- `w_memcmp(a, b, len) < 0` for buffers of one length. -/
def memLt : Bytes → Bytes → Bool
  | a :: as, b :: bs => if a < b then true else if b < a then false else memLt as bs
  | _, _ => false

/-! ### The context -/

structure Crypto where
  /-- `prf`, with the label of the pairwise key expansion, under a PMK. -/
  prf : Bytes → Bytes → Bytes
  /-- `hmac_sha1`: key and data. -/
  hmacSha1 : Bytes → Bytes → Bytes
  /-- The rounds of `aes_key_unwrap`: key and wrapped data. -/
  keyUnwrap : Bytes → Bytes → Option Bytes
  /-- `ccmp_encrypt`: TK, PN, A2, header and plaintext. -/
  ccmpEncrypt : Bytes → Bytes → Bytes → Bytes → Bytes → Option Bytes
  /-- `ccmp_decrypt`: TK, PN, A2, header and ciphertext with its MIC. -/
  ccmpDecrypt : Bytes → Bytes → Bytes → Bytes → Bytes → Option Bytes

structure Ctx where
  pmk : Bytes
  pmkValid : Bool
  anonce : Bytes
  snonce : Bytes
  kck : Bytes
  kek : Bytes
  tk : Bytes
  ptkValid : Bool
  gtk : Bytes
  gtkIdx : ℕ
  gtkValid : Bool
  ourMac : Bytes
  apMac : Bytes
  replayCounter : ℕ
  txPn : ℕ
  rxPn : ℕ
  hsState : ℕ

/-- What a call of `wpa2_process_eapol` takes from its surroundings. -/
structure Env where
  /-- The bytes `crypto_random` yields. -/
  random : Bytes
  /-- What `computed_mic` holds before `wpa2_compute_mic` writes it. -/
  stale : Bytes
  /-- The memory after the frame. -/
  beyond : Bytes

def wpa2Init (ourMac apMac : Bytes) : Ctx where
  pmk := List.replicate 32 0
  pmkValid := false
  anonce := List.replicate 32 0
  snonce := List.replicate 32 0
  kck := List.replicate 16 0
  kek := List.replicate 16 0
  tk := List.replicate 16 0
  ptkValid := false
  gtk := List.replicate 16 0
  gtkIdx := 0
  gtkValid := false
  ourMac := ourMac
  apMac := apMac
  replayCounter := 0
  txPn := 0
  rxPn := 0
  hsState := 1

/-- `wpa2_set_pmk`; `wpa2_set_passphrase` ends the same way. -/
def Ctx.wpa2SetPmk (ctx : Ctx) (pmk : Bytes) : Ctx := { ctx with pmk := pmk, pmkValid := true }

/-! ### The handshake -/

/-- The data `wpa2_derive_ptk` expands: both addresses and both nonces, the smaller first. -/
def Ctx.ptkData (ctx : Ctx) : Bytes :=
  (if memLt ctx.apMac ctx.ourMac then ctx.apMac ++ ctx.ourMac else ctx.ourMac ++ ctx.apMac) ++
  (if memLt ctx.anonce ctx.snonce then ctx.anonce ++ ctx.snonce else ctx.snonce ++ ctx.anonce)

def Ctx.wpa2DerivePtk (cr : Crypto) (ctx : Ctx) : Ctx :=
  let ptk := cr.prf ctx.pmk ctx.ptkData
  { ctx with
    kck := slice ptk 0 16, kek := slice ptk 16 16, tk := slice ptk 32 16, ptkValid := true }

def micOffset : ℕ := 81

def keyFrameLen : ℕ := 99

def zeroMic (frame : Bytes) : Bytes :=
  frame.take micOffset ++ List.replicate 16 0 ++ frame.drop (micOffset + 16)

/-- `wpa2_compute_mic`: a frame over 512 bytes leaves the output as it was. -/
def wpa2ComputeMic (cr : Crypto) (kck frame stale : Bytes) : Bytes :=
  if 512 < frame.length then stale else slice (cr.hmacSha1 kck (zeroMic frame)) 0 16

inductive KeyInfo where
  | pairwise | install | ack | mic | secure | encKeyData

def KeyInfo.mask : KeyInfo → ℕ
  | .pairwise => 0x0008
  | .install => 0x0040
  | .ack => 0x0080
  | .mic => 0x0100
  | .secure => 0x0200
  | .encKeyData => 0x1000

def hasInfo (frame : Bytes) (k : KeyInfo) : Bool := be16 frame 5 &&& k.mask ≠ 0

/-- `aes_key_unwrap`, with its checks of the length. -/
def aesKeyUnwrap (cr : Crypto) (kek wrapped : Bytes) : Option Bytes :=
  if wrapped.length < 16 ∨ wrapped.length % 8 ≠ 0 ∨ 32 < wrapped.length / 8 - 1 then none
  else cr.keyUnwrap kek wrapped

/-- The search for the GTK among the key data: its index and the key. -/
def findGtk (unwrapped : Bytes) (len pos : ℕ) : Option (ℕ × Bytes) :=
  if pos + 2 ≤ len then
    let kdeLen := byte unwrapped (pos + 1)
    if len < pos + 2 + kdeLen then none
    else if byte unwrapped pos = 0xDD ∧ 6 + 16 ≤ kdeLen ∧ byte unwrapped (pos + 2) = 0 ∧
        byte unwrapped (pos + 3) = 0x0F ∧ byte unwrapped (pos + 4) = 0xAC ∧
        byte unwrapped (pos + 5) = 1 then
      some (byte unwrapped (pos + 6) &&& 3, slice unwrapped (pos + 8) 16)
    else findGtk unwrapped len (pos + (2 + kdeLen))
  else none
termination_by len - pos

/-- The end of message 3: unwraps the key data and takes the GTK from it, if there is one. -/
def Ctx.installGtk (cr : Crypto) (ctx : Ctx) (frame : Bytes) (env : Env) : Option Ctx :=
  let keyDataLen := be16 frame 97
  if hasInfo frame .encKeyData ∧ 24 ≤ keyDataLen then
    if 64 + 8 < keyDataLen then none
    else
      -- the announced length is not compared with the frame's
      match aesKeyUnwrap cr ctx.kek (slice (frame ++ env.beyond) keyFrameLen keyDataLen) with
      | none => none
      | some unwrapped =>
        match findGtk unwrapped (keyDataLen - 8) 0 with
        | some (idx, gtk) => some { ctx with gtkIdx := idx, gtk := gtk, gtkValid := true }
        | none => some ctx
  else some ctx

/-- Message 1: a new pair of nonces and the keys derived from it, in any state. -/
def Ctx.message1 (cr : Crypto) (ctx : Ctx) (frame : Bytes) (env : Env) : Ctx :=
  let ctx := { ctx with
    anonce := slice frame 17 32, replayCounter := be64 frame 9, snonce := slice env.random 0 32 }
  { ctx.wpa2DerivePtk cr with hsState := 2 }

/-- Message 3: checks the MIC, the replay counter and the ANonce, and restarts both packet
numbers, in any state. -/
def Ctx.message3 (cr : Crypto) (ctx : Ctx) (frame : Bytes) (env : Env) : ℤ × Ctx :=
  if wpa2ComputeMic cr ctx.kck frame env.stale ≠ slice frame micOffset 16 then (-1, ctx)
  else if be64 frame 9 < ctx.replayCounter then (-1, ctx)
  else
    let ctx := { ctx with replayCounter := be64 frame 9 }
    if ctx.anonce ≠ slice frame 17 32 then (-1, ctx)
    else
      match ctx.installGtk cr frame env with
      | none => (-1, ctx)
      | some ctx => (0, { ctx with hsState := 3, txPn := 0, rxPn := 0 })

def isMessage1 (frame : Bytes) : Bool :=
  hasInfo frame .ack && hasInfo frame .pairwise && !hasInfo frame .mic && !hasInfo frame .secure

def isMessage3 (frame : Bytes) : Bool :=
  hasInfo frame .ack && hasInfo frame .pairwise && hasInfo frame .mic && hasInfo frame .secure &&
    hasInfo frame .install

def wpa2ProcessEapol (cr : Crypto) (ctx : Ctx) (frame : Bytes) (env : Env) : ℤ × Ctx :=
  if frame.length < keyFrameLen then (-1, ctx)
  else if !ctx.pmkValid then (-1, ctx)
  else if byte frame 1 ≠ 3 ∨ byte frame 4 ≠ 2 then (-1, ctx)
  else if isMessage1 frame then (0, ctx.message1 cr frame env)
  else if isMessage3 frame then ctx.message3 cr frame env
  else (-1, ctx)

/-- A key frame of the supplicant: key information, nonce and key data, then the MIC over it. -/
def keyFrame (cr : Crypto) (ctx : Ctx) (info : ℕ) (nonce keyData : Bytes) : Bytes :=
  let head := [2, 3] ++ putBe16 (95 + keyData.length) ++ [2] ++ putBe16 info ++ putBe16 16 ++
    putBe64 ctx.replayCounter ++ nonce ++ List.replicate 32 0
  let tail := putBe16 keyData.length ++ keyData
  -- at most 121 bytes, so the MIC is always computed
  head ++ wpa2ComputeMic cr ctx.kck (head ++ List.replicate 16 0 ++ tail) [] ++ tail

def wpa2BuildRsnIe : Bytes :=
  [0x30, 20, 0x01, 0x00, 0x00, 0x0F, 0xAC, 0x04, 0x01, 0x00, 0x00, 0x0F, 0xAC, 0x04, 0x01, 0x00,
    0x00, 0x0F, 0xAC, 0x02, 0x0C, 0x00]

def wpa2BuildMsg2 (cr : Crypto) (ctx : Ctx) : Bytes :=
  keyFrame cr ctx (0x0002 ||| KeyInfo.pairwise.mask ||| KeyInfo.mic.mask) ctx.snonce
    wpa2BuildRsnIe

def wpa2BuildMsg4 (cr : Crypto) (ctx : Ctx) : Bytes :=
  keyFrame cr ctx (0x0002 ||| KeyInfo.pairwise.mask ||| KeyInfo.mic.mask ||| KeyInfo.secure.mask)
    (List.replicate 32 0) []

/-! ### The data path -/

def pnBytes (pn : ℕ) : Bytes := (List.range 6).map fun k => UInt8.ofNat (pn / 2 ^ (8 * k))

def pnOf (p : Bytes) : ℕ :=
  byte p 0 + byte p 1 * 2 ^ 8 + byte p 2 * 2 ^ 16 + byte p 3 * 2 ^ 24 + byte p 4 * 2 ^ 32 +
    byte p 5 * 2 ^ 40

/-- The CCMP header that carries a packet number. -/
def ccmpHdr (pn : Bytes) : Bytes := slice pn 0 2 ++ [0, 0x20] ++ slice pn 2 4

def ccmpPn (frame : Bytes) (i : ℕ) : Bytes := slice frame i 2 ++ slice frame (i + 4) 4

def protect (hdr : Bytes) : Bytes := hdr.set 1 (hdr.getD 1 0 ||| 0x40)

def wpa2EncryptData (cr : Crypto) (ctx : Ctx) (hdr payload : Bytes) : Option Bytes × Ctx :=
  if !ctx.ptkValid then (none, ctx)
  else
    let pn := pnBytes ctx.txPn
    let out := protect hdr
    let ctx := { ctx with txPn := u64 (ctx.txPn + 1) }
    match cr.ccmpEncrypt ctx.tk pn (slice (out ++ ccmpHdr pn) 10 6) out payload with
    | none => (none, ctx)
    | some ciphertext => (some (out ++ ccmpHdr pn ++ ciphertext), ctx)

def headerLen (frame : Bytes) : ℕ :=
  let fc := byte frame 0 + byte frame 1 * 2 ^ 8
  (if fc &&& 0x0300 = 0x0300 then 30 else 24) + (if fc &&& 0x0080 ≠ 0 then 2 else 0)

def ccmpOpen (cr : Crypto) (tk frame : Bytes) : Option Bytes :=
  cr.ccmpDecrypt tk (ccmpPn frame (headerLen frame)) (slice frame 10 6)
    (slice frame 0 (headerLen frame)) (frame.drop (headerLen frame + 8))

def framePn (frame : Bytes) : ℕ := pnOf (ccmpPn frame (headerLen frame))

def plainLen (frame : Bytes) : ℕ := frame.length - headerLen frame - 8 - 8

def wpa2DecryptData (cr : Crypto) (ctx : Ctx) (frame : Bytes) (outMax : ℕ) : Option Bytes × Ctx :=
  if !ctx.ptkValid then (none, ctx)
  else if frame.length < headerLen frame + 8 + 8 then (none, ctx)
  else if framePn frame ≤ ctx.rxPn then (none, ctx)
  else if outMax < plainLen frame then (none, ctx)
  else
    match ccmpOpen cr ctx.tk frame with
    | none => (none, ctx)
    | some plaintext =>
        (some (slice plaintext 0 (plainLen frame)), { ctx with rxPn := framePn frame })

/-! ### What the calls do to the context -/

section

variable {cr : Crypto} {ctx : Ctx} {frame : Bytes} {env : Env}

inductive Handled (cr : Crypto) (ctx : Ctx) (frame : Bytes) (env : Env) : ℤ × Ctx → Prop where
  /-- The frame is refused; a message 3 may have advanced the replay counter first. -/
  | refused (replay : ℕ) (h : isMessage3 frame ∨ replay = ctx.replayCounter) :
      Handled cr ctx frame env (-1, { ctx with replayCounter := replay })
  /-- A message 1 is taken as it is. -/
  | restarted (h : isMessage1 frame) : Handled cr ctx frame env (0, ctx.message1 cr frame env)
  /-- A message 3 whose MIC, replay counter and ANonce fit. -/
  | installed (h₀ : isMessage3 frame) (h₁ : ¬ isMessage1 frame)
      (h₂ : wpa2ComputeMic cr ctx.kck frame env.stale = slice frame micOffset 16)
      (h₃ : ctx.replayCounter ≤ be64 frame 9) (idx : ℕ) (gtk : Bytes) (valid : Bool) :
      Handled cr ctx frame env (0, { ctx with
        replayCounter := be64 frame 9, gtkIdx := idx, gtk := gtk, gtkValid := valid, hsState := 3,
        txPn := 0, rxPn := 0 })

theorem Ctx.installGtk_some {ctx' : Ctx} (h : ctx.installGtk cr frame env = some ctx') :
    ∃ idx gtk valid, ctx' = { ctx with gtkIdx := idx, gtk := gtk, gtkValid := valid } := by
  simp only [Ctx.installGtk] at h
  split_ifs at h
  · split at h
    · cases h
    · split at h <;> cases h
      · exact ⟨_, _, _, rfl⟩
      · exact ⟨ctx.gtkIdx, ctx.gtk, ctx.gtkValid, rfl⟩
  · cases h
    exact ⟨ctx.gtkIdx, ctx.gtk, ctx.gtkValid, rfl⟩

theorem Ctx.message3_cases (h1 : ¬ isMessage1 frame) (h3 : isMessage3 frame) :
    Handled cr ctx frame env (ctx.message3 cr frame env) := by
  unfold Ctx.message3
  dsimp only
  split_ifs with hmic hreplay
  · exact .refused ctx.replayCounter (.inr rfl)
  · exact .refused ctx.replayCounter (.inr rfl)
  · exact .refused (be64 frame 9) (.inl h3)
  · split
    · exact .refused (be64 frame 9) (.inl h3)
    · rename_i ctx' hgtk
      obtain ⟨idx, gtk, valid, rfl⟩ := Ctx.installGtk_some hgtk
      exact .installed h3 h1 (not_not.mp hmic) (not_lt.mp hreplay) idx gtk valid

/-- **A key frame is refused, restarts the handshake, or installs the keys.** -/
theorem wpa2ProcessEapol_cases (cr : Crypto) (ctx : Ctx) (frame : Bytes) (env : Env) :
    Handled cr ctx frame env (wpa2ProcessEapol cr ctx frame env) := by
  unfold wpa2ProcessEapol
  split_ifs with hlen hpmk htype h1 h3
  · exact .refused ctx.replayCounter (.inr rfl)
  · exact .refused ctx.replayCounter (.inr rfl)
  · exact .refused ctx.replayCounter (.inr rfl)
  · exact .restarted h1
  · exact Ctx.message3_cases h1 h3
  · exact .refused ctx.replayCounter (.inr rfl)

theorem Ctx.message1_hsState : (ctx.message1 cr frame env).hsState = 2 := rfl

theorem wpa2EncryptData_snd (hdr payload : Bytes) : (wpa2EncryptData cr ctx hdr payload).2 =
      if ctx.ptkValid then { ctx with txPn := u64 (ctx.txPn + 1) } else ctx := by
  unfold wpa2EncryptData
  cases ctx.ptkValid
  · rfl
  · simp only [ite_not_true]
    split <;> rfl

inductive Opened (cr : Crypto) (ctx : Ctx) (frame : Bytes) : Option Bytes × Ctx → Prop where
  | refused : Opened cr ctx frame (none, ctx)
  /-- A frame with a packet number not yet seen that authenticates under the key. -/
  | accepted (plaintext : Bytes) (h₁ : ctx.ptkValid) (h₂ : ctx.rxPn < framePn frame)
      (h₃ : ccmpOpen cr ctx.tk frame = some plaintext) :
      Opened cr ctx frame
        (some (slice plaintext 0 (plainLen frame)), { ctx with rxPn := framePn frame })

theorem wpa2DecryptData_cases (cr : Crypto) (ctx : Ctx) (frame : Bytes) (outMax : ℕ) :
    Opened cr ctx frame (wpa2DecryptData cr ctx frame outMax) := by
  unfold wpa2DecryptData
  split_ifs with hvalid hlen hpn hmax
  · exact .refused
  · exact .refused
  · exact .refused
  · exact .refused
  · split
    · exact .refused
    · exact .accepted _ (by simpa using hvalid) (not_le.mp hpn) ‹_›

end

/-! ### Packet numbers -/

theorem byte_pnBytes (pn : ℕ) {k : ℕ} (hk : k < 6) :
    byte (pnBytes pn) k = pn / 2 ^ (8 * k) % 2 ^ 8 := by
  simp [byte, pnBytes, hk]

theorem pnOf_pnBytes (pn : ℕ) : pnOf (pnBytes pn) = pn % 2 ^ 48 := by
  simp only [pnOf, byte_pnBytes pn (show 0 < 6 by decide), byte_pnBytes pn (show 1 < 6 by decide),
    byte_pnBytes pn (show 2 < 6 by decide), byte_pnBytes pn (show 3 < 6 by decide),
    byte_pnBytes pn (show 4 < 6 by decide), byte_pnBytes pn (show 5 < 6 by decide)]
  omega

end TaterTOS.Wifi
