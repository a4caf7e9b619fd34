import TaterTOS.Wifi.Wpa2

/-!
# The receive path of the driver

`iwl_rx_process_one` of `wifi_9260.c`: one received packet goes to the link state, to the handshake
or, as an Ethernet frame, to the network stack.

* `Station.handlePayload`, `iwlRxProcessOne`: what happens to it;
* **`only_authenticated`**: with CCMP active, over every run of expected packets;
* **`unprotected_counts`**: a frame without protection is delivered, and a message 1 without
  protection replaces the keys.
-/

namespace TaterTOS.Wifi

open List

/-! ### The model -/

/-- The globals of the driver the receive path uses: `g_wpa2`, `g_wpa2_active` and whether
`g_wifi_rx_cb` is set. -/
structure Station where
  wpa2 : Ctx
  active : Bool
  rxCb : Bool

structure RxPacket where
  group : ℕ
  cmd : ℕ
  payload : Bytes

structure Rx where
  /-- The value returned. -/
  ret : ℤ
  station : Station
  /-- The frame handed to `g_wifi_rx_cb`. -/
  delivered : Option Bytes := none
  /-- The key frame sent to the access point. -/
  sent : Option Bytes := none

def RxPacket.frame (p : RxPacket) : Bytes := p.payload.drop 28

def frameControl (frame : Bytes) : ℕ := byte frame 0 + byte frame 1 * 2 ^ 8

def frameType (frame : Bytes) : ℕ := frameControl frame / 2 ^ 2 &&& 0x03

def frameSubtype (frame : Bytes) : ℕ := frameControl frame / 2 ^ 4 &&& 0x0F

def isProtected (frame : Bytes) : Bool := byte frame 1 &&& 0x40 ≠ 0

def isLlc (payload : Bytes) : Bool :=
  8 ≤ payload.length ∧ byte payload 0 = 0xAA ∧ byte payload 1 = 0xAA ∧ byte payload 2 = 0x03

def etherType (payload : Bytes) : ℕ := be16 payload 6

/-- The Ethernet frame for a payload: addresses by ToDS and FromDS, then at most 2034 bytes. -/
def ethFrame (frame payload : Bytes) : Bytes :=
  let toDs := frameControl frame &&& 0x0100 ≠ 0
  let fromDs := frameControl frame &&& 0x0200 ≠ 0
  (if ¬ toDs ∧ fromDs then slice frame 4 6 ++ slice frame 16 6
    else if toDs ∧ ¬ fromDs then slice frame 16 6 ++ slice frame 10 6
    else slice frame 4 6 ++ slice frame 10 6) ++
  slice payload 6 2 ++ slice payload 8 (min (payload.length - 8) (2048 - 14))

/-- The payload of a data frame: decrypted if the frame is protected and CCMP is active, and
otherwise what follows the header. -/
def Station.openData (cr : Crypto) (st : Station) (frame : Bytes) : Option Bytes × Ctx :=
  if isProtected frame ∧ st.active then
    if frame.length < headerLen frame + 16 then (none, st.wpa2)
    else wpa2DecryptData cr st.wpa2 frame 2048
  else (some (frame.drop (headerLen frame)), st.wpa2)

/-- A key frame: the handshake, then message 2 or message 4 in answer. -/
def Station.handleEapol (cr : Crypto) (st : Station) (body : Bytes) (env : Env) : Rx :=
  let r := wpa2ProcessEapol cr st.wpa2 body env
  let st := { st with wpa2 := r.2 }
  if r.1 ≠ 0 then { ret := 0, station := st }
  else if r.2.hsState = 2 then { ret := 0, station := st, sent := some (wpa2BuildMsg2 cr r.2) }
  else if r.2.hsState = 3 then
    { ret := 0
      station := { st with wpa2 := { r.2 with hsState := 4 }, active := true }
      sent := some (wpa2BuildMsg4 cr r.2) }
  else { ret := 0, station := st }

/-- The payload of a data frame: dropped, a key frame, or for the network stack. -/
def Station.handlePayload (cr : Crypto) (st : Station) (frame payload : Bytes) (env : Env) : Rx :=
  if !isLlc payload then { ret := 0, station := st }
  else if etherType payload = 0x888E then st.handleEapol cr (payload.drop 8) env
  else if st.rxCb ∧ 8 < payload.length then
    { ret := 0, station := st, delivered := some (ethFrame frame payload) }
  else { ret := 0, station := st }

def Station.handleData (cr : Crypto) (st : Station) (frame : Bytes) (env : Env) : Rx :=
  if frame.length < 24 + 8 then { ret := 0, station := st }
  else
    match st.openData cr frame with
    | (none, ctx) => { ret := 0, station := { st with wpa2 := ctx } }
    | (some payload, ctx) => { st with wpa2 := ctx }.handlePayload cr frame payload env

def isDeauth (frame : Bytes) : Bool :=
  frameType frame = 0 ∧ (frameSubtype frame = 12 ∨ frameSubtype frame = 10)

def iwlRxProcessOne (cr : Crypto) (st : Station) (p : RxPacket) (env : Env) : Rx :=
  if p.group = 0 ∧ p.cmd = 1 then { ret := 1, station := st }
  else if p.cmd = 0x0D then { ret := 1, station := st }
  else if p.payload.length < 28 + 24 then { ret := 1, station := st }
  else if frameType p.frame = 0 then
    -- `iwl_clear_link_state` also drops the protection
    { ret := 1, station := if isDeauth p.frame then { st with active := false } else st }
  else if frameType p.frame = 2 then st.handleData cr p.frame env
  else { ret := 1, station := st }

def Station.run (cr : Crypto) (st : Station) (ps : List (RxPacket × Env)) : Station :=
  ps.foldl (fun st p => (iwlRxProcessOne cr st p.1 p.2).station) st

/-! ### What counts -/

def Ctx.secrets (ctx : Ctx) : Bytes × Bytes × Bytes × Bytes × ℕ × ℕ :=
  (ctx.tk, ctx.kck, ctx.kek, ctx.gtk, ctx.txPn, ctx.rxPn)

def Opens (cr : Crypto) (ctx : Ctx) (frame : Bytes) : Prop :=
  ∃ plaintext, ccmpOpen cr ctx.tk frame = some plaintext

/-- The frame carries a key frame in the clear whose MIC is right under the KCK. -/
def MicRight (cr : Crypto) (ctx : Ctx) (frame : Bytes) : Prop :=
  let body := (frame.drop (headerLen frame)).drop 8
  slice (cr.hmacSha1 ctx.kck (zeroMic body)) 0 16 = slice body micOffset 16

structure Counted (cr : Crypto) (st : Station) (p : RxPacket) (r : Rx) : Prop where
  delivered : ∀ eth, r.delivered = some eth → ∃ plaintext,
    ccmpOpen cr st.wpa2.tk p.frame = some plaintext ∧
      eth = ethFrame p.frame (slice plaintext 0 (plainLen p.frame))
  changed : r.station.wpa2.secrets ≠ st.wpa2.secrets →
    Opens cr st.wpa2 p.frame ∨ MicRight cr st.wpa2 p.frame

/-- Packets that do not attack: no deauthentication, and an unprotected frame at most carries a key
frame of up to 512 bytes other than message 1. -/
def Expected (p : RxPacket) : Prop :=
  isDeauth p.frame = false ∧
    (isProtected p.frame = false → isLlc (p.frame.drop (headerLen p.frame)) →
      etherType (p.frame.drop (headerLen p.frame)) = 0x888E ∧
        isMessage1 ((p.frame.drop (headerLen p.frame)).drop 8) = false ∧
        ((p.frame.drop (headerLen p.frame)).drop 8).length ≤ 512)

/-! ### One packet -/

section

variable {cr : Crypto} {st : Station} {frame payload body : Bytes} {env : Env}

theorem handleEapol_delivered : (st.handleEapol cr body env).delivered = none := by
  unfold Station.handleEapol
  dsimp only
  split_ifs <;> rfl

theorem handleEapol_active (h : st.active = true) :
    (st.handleEapol cr body env).station.active = true := by
  unfold Station.handleEapol
  dsimp only
  split_ifs <;> simp [h]

theorem handleEapol_secrets : (st.handleEapol cr body env).station.wpa2.secrets =
    (wpa2ProcessEapol cr st.wpa2 body env).2.secrets := by
  unfold Station.handleEapol
  dsimp only
  split_ifs <;> rfl

theorem wpa2ProcessEapol_secrets {ctx : Ctx}
    (h : (wpa2ProcessEapol cr ctx body env).2.secrets ≠ ctx.secrets) :
    isMessage1 body ∨ wpa2ComputeMic cr ctx.kck body env.stale = slice body micOffset 16 := by
  have hcases := wpa2ProcessEapol_cases cr ctx body env
  generalize wpa2ProcessEapol cr ctx body env = r at h hcases
  cases hcases with
  | refused => exact absurd rfl h
  | restarted h1 => exact .inl h1
  | installed _ _ hmic => exact .inr hmic

theorem handlePayload_active (h : st.active = true) :
    (st.handlePayload cr frame payload env).station.active = true := by
  unfold Station.handlePayload
  split_ifs
  · exact h
  · exact handleEapol_active h
  · exact h
  · exact h

theorem handlePayload_delivered {eth : Bytes}
    (h : (st.handlePayload cr frame payload env).delivered = some eth) :
    isLlc payload ∧ etherType payload ≠ 0x888E ∧ eth = ethFrame frame payload := by
  unfold Station.handlePayload at h
  split_ifs at h with hllc htype hcb
  · rw [handleEapol_delivered] at h
    cases h
  · cases h
    exact ⟨by simpa using hllc, htype, rfl⟩

theorem handlePayload_secrets
    (h : (st.handlePayload cr frame payload env).station.wpa2.secrets ≠ st.wpa2.secrets) :
    isLlc payload ∧ (isMessage1 (payload.drop 8) ∨ wpa2ComputeMic cr st.wpa2.kck (payload.drop 8)
      env.stale = slice (payload.drop 8) micOffset 16) := by
  unfold Station.handlePayload at h
  split_ifs at h with hllc htype hcb
  · exact absurd rfl h
  · rw [handleEapol_secrets] at h
    exact ⟨by simpa using hllc, wpa2ProcessEapol_secrets h⟩
  · exact absurd rfl h
  · exact absurd rfl h

theorem handleData_cases (cr : Crypto) (frame : Bytes) (env : Env) (hact : st.active = true) :
    (st.handleData cr frame env).delivered = none ∧ (st.handleData cr frame env).station = st ∨
    (∃ plaintext, ccmpOpen cr st.wpa2.tk frame = some plaintext ∧ st.handleData cr frame env =
        { st with wpa2 := { st.wpa2 with rxPn := framePn frame } }.handlePayload cr frame
          (slice plaintext 0 (plainLen frame)) env) ∨
    isProtected frame = false ∧ st.handleData cr frame env =
      st.handlePayload cr frame (frame.drop (headerLen frame)) env := by
  unfold Station.handleData Station.openData
  split_ifs with hlen hprot hshort
  · exact .inl ⟨rfl, rfl⟩
  · exact .inl ⟨rfl, rfl⟩
  · have hcases := wpa2DecryptData_cases cr st.wpa2 frame 2048
    generalize wpa2DecryptData cr st.wpa2 frame 2048 = r at hcases
    cases hcases with
    | refused => exact .inl ⟨rfl, rfl⟩
    | accepted plaintext _ _ hopen => exact .inr (.inl ⟨plaintext, hopen, rfl⟩)
  · exact .inr (.inr ⟨by simpa [hact] using hprot, rfl⟩)

end

section

variable {cr : Crypto} {st : Station} {p : RxPacket} {env : Env}

theorem handleData_counted (hact : st.active = true) (hp : Expected p) :
    Counted cr st p (st.handleData cr p.frame env) := by
  rcases handleData_cases cr p.frame env hact with
    ⟨hnone, hst⟩ | ⟨plaintext, hopen, hr⟩ | ⟨hplain, hr⟩
  · constructor
    · intro eth heth
      rw [hnone] at heth
      cases heth
    · intro h
      rw [hst] at h
      exact absurd rfl h
  · rw [hr]
    constructor
    · intro eth heth
      exact ⟨plaintext, hopen, (handlePayload_delivered heth).2.2⟩
    · intro _
      exact .inl ⟨plaintext, hopen⟩
  · rw [hr]
    constructor
    · intro eth heth
      obtain ⟨hllc, htype, _⟩ := handlePayload_delivered heth
      exact absurd (hp.2 hplain hllc).1 htype
    · intro h
      obtain ⟨hllc, hcause⟩ := handlePayload_secrets h
      obtain ⟨_, hfirst, hlen⟩ := hp.2 hplain hllc
      rcases hcause with h1 | hmic
      · rw [hfirst] at h1
        cases h1
      · rw [wpa2ComputeMic, if_neg (by omega)] at hmic
        exact .inr hmic

theorem handleData_active (hact : st.active = true) :
    (st.handleData cr p.frame env).station.active = true := by
  rcases handleData_cases cr p.frame env hact with
    ⟨_, hst⟩ | ⟨plaintext, _, hr⟩ | ⟨_, hr⟩
  · rw [hst]
    exact hact
  · rw [hr]
    exact handlePayload_active hact
  · rw [hr]
    exact handlePayload_active hact

theorem Counted.idle (ret : ℤ) {st' : Station} (h : st'.wpa2 = st.wpa2) :
    Counted cr st p { ret := ret, station := st' } where
  delivered _ heth := by cases heth
  changed hne := absurd (congrArg Ctx.secrets h) hne

theorem iwlRxProcessOne_counted (hact : st.active = true) (hp : Expected p) :
    Counted cr st p (iwlRxProcessOne cr st p env) := by
  unfold iwlRxProcessOne
  simp only [hp.1, Bool.false_eq_true, if_false]
  split_ifs
  · exact .idle _ rfl
  · exact .idle _ rfl
  · exact .idle _ rfl
  · exact .idle _ rfl
  · exact handleData_counted hact hp
  · exact .idle _ rfl

theorem iwlRxProcessOne_active (hact : st.active = true) (hp : Expected p) :
    (iwlRxProcessOne cr st p env).station.active = true := by
  unfold iwlRxProcessOne
  simp only [hp.1, Bool.false_eq_true, if_false]
  split_ifs
  · exact hact
  · exact hact
  · exact hact
  · exact hact
  · exact handleData_active hact
  · exact hact

theorem run_active (hact : st.active = true) (ps : List (RxPacket × Env))
    (hps : ∀ q ∈ ps, Expected q.1) : (st.run cr ps).active = true := by
  induction ps generalizing st with
  | nil => exact hact
  | cons q ps ih =>
    have hq := hps q mem_cons_self
    exact ih (iwlRxProcessOne_active hact hq) fun q' hq' => hps q' (mem_cons_of_mem _ hq')

end

/-- **With CCMP active only authenticated data counts**, in every packet of a run of expected
packets. -/
theorem only_authenticated (cr : Crypto) (st : Station) (hact : st.active = true)
    (ps : List (RxPacket × Env)) (hps : ∀ q ∈ ps, Expected q.1)
    (before after : List (RxPacket × Env)) (p : RxPacket) (env : Env)
    (h : ps = before ++ (p, env) :: after) :
    Counted cr (st.run cr before) p (iwlRxProcessOne cr (st.run cr before) p env) := by
  subst h
  refine iwlRxProcessOne_counted (run_active hact before fun q hq => ?_) ?_
  · exact hps q (mem_append_left _ hq)
  · exact hps (p, env) (mem_append_right _ mem_cons_self)

def deafCrypto : Crypto where
  prf _ data := data
  hmacSha1 _ _ := [1]
  keyUnwrap _ _ := none
  ccmpEncrypt _ _ _ _ _ := none
  ccmpDecrypt _ _ _ _ _ := none

def connected : Station where
  wpa2 := { (wpa2Init [] []).wpa2SetPmk [] with ptkValid := true, hsState := 4 }
  active := true
  rxCb := true

def dataPacket (flags : UInt8) (payload : Bytes) : RxPacket where
  group := 0
  cmd := 0xC1
  payload := List.replicate 28 0 ++ ([0x08, flags] ++ List.replicate 22 0) ++ payload

def llc (hi lo : UInt8) : Bytes := [0xAA, 0xAA, 0x03, 0, 0, 0, hi, lo]

/-- Frames under this cryptography are sent in the clear, with a MIC that is not looked at. -/
def openCrypto : Crypto := { deafCrypto with ccmpDecrypt := fun _ _ _ _ c => some c.dropLast }

def protectedPacket (pn : UInt8) : RxPacket :=
  dataPacket 0x42 ([pn, 0, 0, 0x20, 0, 0, 0, 0] ++ llc 0x08 0x00 ++ [5] ++ List.replicate 8 0)

/-- The second of two protected frames is delivered. -/
theorem only_authenticated_protected :
    let st := connected.run openCrypto [(protectedPacket 1, ⟨[], [], []⟩)]
    let r := iwlRxProcessOne openCrypto st (protectedPacket 2) ⟨[], [], []⟩
    r.delivered = some (List.replicate 12 0 ++ [0x08, 0x00, 5]) ∧ r.station.wpa2.rxPn = 2 ∧
    Counted openCrypto st (protectedPacket 2) r := by
  refine ⟨by decide +kernel, by decide +kernel, only_authenticated openCrypto connected rfl
    [(protectedPacket 1, ⟨[], [], []⟩), (protectedPacket 2, ⟨[], [], []⟩)] ?_
    [(protectedPacket 1, ⟨[], [], []⟩)] [] _ _ rfl⟩
  simp only [mem_cons, not_mem_nil, or_false, forall_eq_or_imp, forall_eq]
  exact ⟨⟨by decide, fun h => absurd h (by decide)⟩, by decide, fun h => absurd h (by decide)⟩

/-- **A frame without protection is delivered after the handshake, and a message 1 without
protection replaces the keys**, though neither authenticates. -/
theorem unprotected_counts :
    (∃ p env, (iwlRxProcessOne deafCrypto connected p env).delivered ≠ none ∧
      ¬ Opens deafCrypto connected.wpa2 p.frame) ∧
    ∃ p env, (iwlRxProcessOne deafCrypto connected p env).station.wpa2.tk ≠ connected.wpa2.tk ∧
      ¬ Opens deafCrypto connected.wpa2 p.frame ∧
      ¬ MicRight deafCrypto connected.wpa2 p.frame := by
  have hdeaf (frame : Bytes) : ¬ Opens deafCrypto connected.wpa2 frame := by
    rintro ⟨plaintext, hopen⟩
    cases hopen
  refine ⟨⟨dataPacket 0x02 (llc 0x08 0x00 ++ [1]), ⟨[], [], []⟩, ?_, hdeaf _⟩,
    dataPacket 0x02 (llc 0x88 0x8E ++ ([2, 3, 0, 95, 2, 0x00, 0x8A, 0, 16] ++ List.replicate 90 7)),
    ⟨[], [], []⟩, ?_, hdeaf _, ?_⟩
  · decide
  · decide +kernel
  · unfold MicRight
    decide

end TaterTOS.Wifi
