import TaterTOS.Wifi.Wpa2

/-!
# Nonces and replays

A run of one context under any key frames, encryptions and decryptions.  The log keeps the temporal
keys derived, the pairs of key and packet number that went into `ccmp_encrypt`, and the frames that
`ccmp_decrypt` accepted.

* **`pairs_distinct`**: in every such run no pair of key and packet number is used twice and no
  frame is accepted twice under one key;
* **`replayed_message3`**: a message 3 that is played again makes the next two frames share a pair.
-/

namespace TaterTOS.Wifi

open Lib List

inductive Call where
  /-- `wpa2_process_eapol`. -/
  | processEapol (frame : Bytes) (env : Env)
  /-- `wpa2_encrypt_data`. -/
  | encryptData (hdr payload : Bytes)
  /-- `wpa2_decrypt_data`. -/
  | decryptData (frame : Bytes) (outMax : ℕ)
  /-- The driver has answered message 3 and sets `hs_state` to 4. -/
  | complete

structure Log where
  ctx : Ctx
  keys : List Bytes
  nonces : List (Bytes × Bytes)
  accepted : List (Bytes × Bytes)

def Log.uses (l : Log) (tk : Bytes) : ℕ := l.nonces.countP fun p => p.1 = tk

def Log.step (cr : Crypto) (l : Log) : Call → Log
  | .processEapol frame env =>
    let r := wpa2ProcessEapol cr l.ctx frame env
    { l with
      ctx := r.2
      keys := if r.1 = 0 ∧ r.2.hsState = 2 then r.2.tk :: l.keys else l.keys }
  | .encryptData hdr payload =>
    { l with
      ctx := (wpa2EncryptData cr l.ctx hdr payload).2
      nonces := if l.ctx.ptkValid then (l.ctx.tk, pnBytes l.ctx.txPn) :: l.nonces else l.nonces }
  | .decryptData frame outMax =>
    let r := wpa2DecryptData cr l.ctx frame outMax
    { l with
      ctx := r.2
      accepted := if r.1.isSome then (l.ctx.tk, frame) :: l.accepted else l.accepted }
  | .complete =>
    { l with ctx := { l.ctx with hsState := if l.ctx.hsState = 3 then 4 else l.ctx.hsState } }

/-- A frame of the length, the type and the descriptor of key frames. -/
def isKeyFrame (frame : Bytes) : Bool :=
  keyFrameLen ≤ frame.length ∧ byte frame 1 = 3 ∧ byte frame 4 = 2

/-- The temporal key of the nonces of a message 1 and of `crypto_random`. -/
def Ctx.tkOf (cr : Crypto) (ctx : Ctx) (frame random : Bytes) : Bytes :=
  slice (cr.prf ctx.pmk
    { ctx with anonce := slice frame 17 32, snonce := slice random 0 32 }.ptkData) 32 16

/-- Calls that keep to the order of the handshake, with fresh keys. -/
def Log.Ok (cr : Crypto) (l : Log) : Call → Prop
  | .processEapol frame env => isKeyFrame frame = true → l.ctx.pmkValid = true →
    (isMessage1 frame = true → l.ctx.tkOf cr frame env.random ∉ l.keys) ∧
    (isMessage3 frame = true →
      wpa2ComputeMic cr l.ctx.kck frame env.stale = slice frame micOffset 16 →
      l.ctx.replayCounter ≤ be64 frame 9 → l.ctx.hsState = 2)
  | .encryptData _ _ => l.ctx.hsState ≠ 2 ∧ l.uses l.ctx.tk < 2 ^ 48
  | .decryptData _ _ => l.ctx.hsState ≠ 2
  | .complete => True

inductive Log.Reach (cr : Crypto) : Log → Prop where
  | start (ctx : Ctx) (h : ctx.ptkValid = false) : Log.Reach cr ⟨ctx, [], [], []⟩
  | step {l : Log} (h : Log.Reach cr l) (c : Call) (hc : l.Ok cr c) : Log.Reach cr (l.step cr c)

/-! ### The invariant -/

/-- The history under the current key is what the two packet numbers say. -/
structure Log.Inv (l : Log) : Prop where
  /-- The key in use has been derived. -/
  known : l.ctx.ptkValid → l.ctx.tk ∈ l.keys
  nonce_known : ∀ p ∈ l.nonces, p.1 ∈ l.keys
  accepted_known : ∀ p ∈ l.accepted, p.1 ∈ l.keys
  /-- Before message 3 the key has not been used. -/
  unused : l.ctx.ptkValid → l.ctx.hsState = 2 →
    (∀ p ∈ l.nonces, p.1 ≠ l.ctx.tk) ∧ ∀ p ∈ l.accepted, p.1 ≠ l.ctx.tk
  counted : l.ctx.ptkValid → l.ctx.hsState ≠ 2 → l.ctx.txPn = l.uses l.ctx.tk
  below : l.ctx.ptkValid → l.ctx.hsState ≠ 2 →
    ∀ p ∈ l.nonces, p.1 = l.ctx.tk → pnOf p.2 < l.ctx.txPn
  seen : l.ctx.ptkValid → l.ctx.hsState ≠ 2 →
    ∀ p ∈ l.accepted, p.1 = l.ctx.tk → framePn p.2 ≤ l.ctx.rxPn
  nonces_nodup : l.nonces.Nodup
  accepted_nodup : l.accepted.Nodup

theorem wpa2ProcessEapol_unread {cr : Crypto} {ctx : Ctx} {frame : Bytes} {env : Env}
    (h : ¬ (isKeyFrame frame = true ∧ ctx.pmkValid = true)) :
    wpa2ProcessEapol cr ctx frame env = (-1, ctx) := by
  unfold wpa2ProcessEapol
  split_ifs with hlen hpmk htype
  all_goals first
    | rfl
    | refine absurd ⟨?_, ?_⟩ h
      · simp only [not_or, not_not] at htype
        simpa only [isKeyFrame, decide_eq_true_eq] using ⟨not_lt.mp hlen, htype⟩
      · simpa using hpmk

namespace Log.Inv

variable {cr : Crypto} {l : Log}

theorem start (ctx : Ctx) (h : ctx.ptkValid = false) : Log.Inv ⟨ctx, [], [], []⟩ := by
  constructor <;> simp [h]

section

variable (h : l.Inv)
include h

theorem congr {ctx : Ctx} (hvalid : ctx.ptkValid = l.ctx.ptkValid)
    (htk : ctx.tk = l.ctx.tk) (hhs : ctx.hsState = 2 ↔ l.ctx.hsState = 2)
    (htx : ctx.txPn = l.ctx.txPn) (hrx : ctx.rxPn = l.ctx.rxPn) :
    Log.Inv { l with ctx := ctx } where
  known := by simpa only [hvalid, htk] using h.known
  nonce_known := h.nonce_known
  accepted_known := h.accepted_known
  unused := by simpa only [hvalid, htk, hhs] using h.unused
  counted := by
    simp only [hvalid, htk, htx, ne_eq, hhs]
    exact h.counted
  below := by simpa only [hvalid, htk, htx, ne_eq, hhs] using h.below
  seen := by simpa only [hvalid, htk, hrx, ne_eq, hhs] using h.seen
  nonces_nodup := h.nonces_nodup
  accepted_nodup := h.accepted_nodup

theorem restarted {ctx : Ctx} (hhs : ctx.hsState = 2) (hfresh : ctx.tk ∉ l.keys) :
    Log.Inv { l with ctx := ctx, keys := ctx.tk :: l.keys } where
  known _ := mem_cons_self
  nonce_known p hp := mem_cons_of_mem _ (h.nonce_known p hp)
  accepted_known p hp := mem_cons_of_mem _ (h.accepted_known p hp)
  unused _ _ := by
    refine ⟨fun p hp heq => hfresh ?_, fun p hp heq => hfresh ?_⟩
    · exact heq ▸ h.nonce_known p hp
    · exact heq ▸ h.accepted_known p hp
  counted _ hne := absurd hhs hne
  below _ hne := absurd hhs hne
  seen _ hne := absurd hhs hne
  nonces_nodup := h.nonces_nodup
  accepted_nodup := h.accepted_nodup

theorem installed {ctx : Ctx} (hvalid : ctx.ptkValid = l.ctx.ptkValid)
    (htk : ctx.tk = l.ctx.tk) (htwo : l.ctx.hsState = 2) (hhs : ctx.hsState = 3)
    (htx : ctx.txPn = 0) : Log.Inv { l with ctx := ctx } where
  known := by simpa only [hvalid, htk] using h.known
  nonce_known := h.nonce_known
  accepted_known := h.accepted_known
  unused _ htwo' := by
    dsimp only at htwo'
    omega
  counted hv _ := by
    have hnone := (h.unused (hvalid ▸ hv) htwo).1
    rw [htx, htk]
    symm
    unfold Log.uses
    simpa using hnone
  below hv _ p hp heq := absurd (heq.trans htk) ((h.unused (hvalid ▸ hv) htwo).1 p hp)
  seen hv _ p hp heq := absurd (heq.trans htk) ((h.unused (hvalid ▸ hv) htwo).2 p hp)
  nonces_nodup := h.nonces_nodup
  accepted_nodup := h.accepted_nodup

theorem encrypted (hv : l.ctx.ptkValid) (hhs : l.ctx.hsState ≠ 2)
    (hfew : l.uses l.ctx.tk < 2 ^ 48) :
    Log.Inv { l with
      ctx := { l.ctx with txPn := u64 (l.ctx.txPn + 1) }
      nonces := (l.ctx.tk, pnBytes l.ctx.txPn) :: l.nonces } := by
  have hcount := h.counted hv hhs
  have hpn : pnOf (pnBytes l.ctx.txPn) = l.ctx.txPn := by
    rw [pnOf_pnBytes]
    omega
  have hnext : u64 (l.ctx.txPn + 1) = l.ctx.txPn + 1 := u64_of_lt (by omega)
  refine
    { known := h.known
      nonce_known := ?_
      accepted_known := h.accepted_known
      unused := fun _ htwo => absurd htwo hhs
      counted := fun _ _ => ?_
      below := fun _ _ => ?_
      seen := h.seen
      nonces_nodup := nodup_cons.mpr ⟨fun hmem => ?_, h.nonces_nodup⟩
      accepted_nodup := h.accepted_nodup }
  · simpa using ⟨h.known hv, fun a b hab => h.nonce_known (a, b) hab⟩
  · simp only [Log.uses, countP_cons, hnext]
    rw [hcount]
    rfl
  · simp only [hnext, mem_cons]
    rintro p (rfl | hp) heq
    · simp [hpn]
    · exact (h.below hv hhs p hp heq).trans (Nat.lt_succ_self _)
  · have hlt := h.below hv hhs _ hmem rfl
    rw [hpn] at hlt
    exact lt_irrefl _ hlt

theorem decrypted {frame : Bytes} {pn : ℕ} (hv : l.ctx.ptkValid)
    (hhs : l.ctx.hsState ≠ 2) (hframe : framePn frame = pn) (hpn : l.ctx.rxPn < pn) :
    Log.Inv { l with
      ctx := { l.ctx with rxPn := pn }
      accepted := (l.ctx.tk, frame) :: l.accepted } := by
  refine
    { known := h.known
      nonce_known := h.nonce_known
      accepted_known := ?_
      unused := fun _ htwo => absurd htwo hhs
      counted := h.counted
      below := h.below
      seen := fun _ _ => ?_
      nonces_nodup := h.nonces_nodup
      accepted_nodup := nodup_cons.mpr ⟨fun hmem => ?_, h.accepted_nodup⟩ }
  · simpa using ⟨h.known hv, fun a b hab => h.accepted_known (a, b) hab⟩
  · simp only [mem_cons]
    rintro p (rfl | hp) heq
    · exact hframe.le
    · exact (h.seen hv hhs p hp heq).trans hpn.le
  · have hle := h.seen hv hhs _ hmem rfl
    rw [hframe] at hle
    exact absurd hle (not_le.mpr hpn)

/-! ### Steps and runs -/

theorem step_processEapol (frame : Bytes) (env : Env)
    (hok : l.Ok cr (.processEapol frame env)) : (l.step cr (.processEapol frame env)).Inv := by
  simp only [Log.Ok] at hok
  simp only [Log.step]
  by_cases hread : isKeyFrame frame = true ∧ l.ctx.pmkValid = true
  swap
  · rw [wpa2ProcessEapol_unread hread]
    exact h
  have hok := hok hread.1 hread.2
  have hcases := wpa2ProcessEapol_cases cr l.ctx frame env
  generalize wpa2ProcessEapol cr l.ctx frame env = r at hok hcases ⊢
  cases hcases with
  | refused replay _ =>
    exact h.congr rfl rfl Iff.rfl rfl rfl
  | restarted h1 =>
    have hfresh := hok.1 h1
    simpa [Ctx.message1_hsState] using h.restarted Ctx.message1_hsState hfresh
  | installed h3 _ hmic hreplay idx gtk valid =>
    have htwo := hok.2 h3 hmic hreplay
    exact h.installed rfl rfl htwo rfl rfl

theorem step_encryptData (hdr payload : Bytes)
    (hok : l.Ok cr (.encryptData hdr payload)) : (l.step cr (.encryptData hdr payload)).Inv := by
  simp only [Log.step, wpa2EncryptData_snd]
  by_cases hv : l.ctx.ptkValid
  · simpa only [hv, if_true] using h.encrypted hv hok.1 hok.2
  · simpa [hv] using h

theorem step_decryptData (frame : Bytes) (outMax : ℕ)
    (hok : l.Ok cr (.decryptData frame outMax)) : (l.step cr (.decryptData frame outMax)).Inv := by
  simp only [Log.step]
  have hcases := wpa2DecryptData_cases cr l.ctx frame outMax
  generalize wpa2DecryptData cr l.ctx frame outMax = r at hcases ⊢
  cases hcases with
  | refused => exact h
  | accepted _ hv hpn _ => exact h.decrypted hv hok rfl hpn

theorem step (c : Call) (hok : l.Ok cr c) : (l.step cr c).Inv := by
  cases c with
  | processEapol frame env => exact h.step_processEapol frame env hok
  | encryptData hdr payload => exact h.step_encryptData hdr payload hok
  | decryptData frame outMax => exact h.step_decryptData frame outMax hok
  | complete =>
    refine h.congr rfl rfl ?_ rfl rfl
    dsimp only
    split_ifs with h3 <;> omega

end

theorem reach (h : l.Reach cr) : l.Inv := by
  induction h with
  | start ctx hctx => exact Log.Inv.start ctx hctx
  | step _ c hok ih => exact ih.step c hok

end Log.Inv

/-! ### Two frames of a handshake -/

def msg1Frame : Bytes := [2, 3, 0, 95, 2, 0x00, 0x8A, 0, 16] ++ List.replicate 90 0

def msg3Head : Bytes := [2, 3, 0, 95, 2, 0x03, 0xCA, 0, 16] ++ List.replicate 72 0

def msg3Frame (mic : Bytes) : Bytes := msg3Head ++ mic ++ [0, 0]

def msg3Mic (cr : Crypto) (kck : Bytes) : Bytes :=
  slice (cr.hmacSha1 kck (msg3Frame (List.replicate 16 0))) 0 16

def waiting (mac pmk : Bytes) : Ctx := (wpa2Init mac mac).wpa2SetPmk pmk

def keyed (cr : Crypto) (mac pmk : Bytes) (env : Env) : Ctx :=
  (waiting mac pmk).message1 cr msg1Frame env

def Log.keyed (cr : Crypto) (mac pmk : Bytes) (env : Env) : Log :=
  Log.step cr ⟨waiting mac pmk, [], [], []⟩ (.processEapol msg1Frame env)

/-! ### Main results -/

/-- **No pair of key and packet number is used twice, and no frame is accepted twice under one
key.** -/
theorem pairs_distinct (cr : Crypto) (l : Log) (h : l.Reach cr) :
    l.nonces.Nodup ∧ l.accepted.Nodup :=
  have hinv := Log.Inv.reach h
  ⟨hinv.nonces_nodup, hinv.accepted_nodup⟩

def plainCrypto : Crypto where
  prf _ data := data
  hmacSha1 _ _ := []
  keyUnwrap _ _ := none
  ccmpEncrypt _ _ _ _ plaintext := some plaintext
  ccmpDecrypt _ _ _ _ ciphertext := some ciphertext

instance (cr : Crypto) (l : Log) : ∀ c : Call, Decidable (l.Ok cr c)
  | .processEapol _ _ => inferInstanceAs (Decidable (_ → _ → (_ → _) ∧ (_ → _ → _ → _)))
  | .encryptData _ _ => inferInstanceAs (Decidable (_ ∧ _))
  | .decryptData _ _ => inferInstanceAs (Decidable (_ ≠ _))
  | .complete => inferInstanceAs (Decidable True)

theorem pairs_distinct_handshake :
    let l := ((Log.keyed plainCrypto [1] [2] ⟨[3], [], []⟩).step plainCrypto (.processEapol
      (msg3Frame (msg3Mic plainCrypto (Wifi.keyed plainCrypto [1] [2] ⟨[3], [], []⟩).kck))
      ⟨[3], [], []⟩)).step plainCrypto (.encryptData [] [])
    l.nonces ≠ [] ∧ l.nonces.Nodup ∧ l.accepted.Nodup := by
  refine ⟨by decide +kernel, pairs_distinct plainCrypto _
    (.step (.step (.step (.start _ rfl) _ ?_) _ ?_) _ ?_)⟩ <;> decide +kernel

/-- **A message 3 that is played again lets two frames share a pair of key and packet number.** -/
theorem replayed_message3 : ∃ mic, ¬ ([Call.processEapol msg1Frame ⟨[3], [], []⟩,
    .processEapol (msg3Frame mic) ⟨[3], [], []⟩, .encryptData [] [],
    .processEapol (msg3Frame mic) ⟨[3], [], []⟩, .encryptData [] []].foldl (Log.step plainCrypto)
      ⟨waiting [1] [2], [], [], []⟩).nonces.Nodup :=
  ⟨msg3Mic plainCrypto (keyed plainCrypto [1] [2] ⟨[3], [], []⟩).kck, by decide +kernel⟩

end TaterTOS.Wifi
