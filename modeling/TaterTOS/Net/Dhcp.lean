import TaterTOS.Net.Checksum

/-!
# The DHCP client

`dhcp_build_packet`, `dhcp_rx` and `dhcp_discover` of `netcore.c`.

* `Dhcp.step`: a packet is delivered to the client, or a wait ends and it asks again;
* **`lease_requested`**: where one server answers with one address, that lease is configured;
* **`stray_ack_configures`**: an ACK of any server, for any address and card, is taken.
-/

namespace TaterTOS.Net

/-! ### The model -/

/-- The state of the client, and the packets it gave to `udp_send`, the latest first. -/
structure Dhcp where
  net : NetConfig
  xid : ℕ
  offeredIp : ℕ
  serverIp : ℕ
  state : ℕ
  sent : List (List UInt8)

def sixBytes (p : List UInt8) (i : ℕ) : List UInt8 := (List.range 6).map fun k => p.getD (i + k) 0

def dhcpBuildPacket (c : Dhcp) (msgType : UInt8) : List UInt8 :=
  let pkt := [1, 1, 6, 0] ++ put32 c.xid ++ [0, 0] ++ put16 0x8000 ++ List.replicate 16 0 ++
    sixBytes c.net.mac 0 ++ List.replicate 202 0 ++ put32 0x63825363 ++ [53, 1, msgType] ++
    (if msgType = 3 then [50, 4] ++ put32 c.offeredIp ++ [54, 4] ++ put32 c.serverIp else []) ++
    [55, 3, 1, 3, 6, 255]
  pkt ++ List.replicate (300 - pkt.length) 0

structure DhcpOptions where
  msgType : ℕ
  subnet : ℕ
  router : ℕ
  dns : ℕ
  serverId : ℕ

/-- `switch (opt)`, on an option whose value starts at `pos`. -/
def DhcpOptions.read (o : DhcpOptions) (data : List UInt8) (opt optLen pos : ℕ) : DhcpOptions :=
  match opt with
  | 53 => if 1 ≤ optLen then { o with msgType := (data.getD pos 0).toNat } else o
  | 1 => if 4 ≤ optLen then { o with subnet := be32 data pos } else o
  | 3 => if 4 ≤ optLen then { o with router := be32 data pos } else o
  | 6 => if 4 ≤ optLen then { o with dns := be32 data pos } else o
  | 54 => if 4 ≤ optLen then { o with serverId := be32 data pos } else o
  | _ => o

/-- The loop over the options; `pos` grows in each round, so a round for each byte is enough. -/
def dhcpOptionsFrom (data : List UInt8) : ℕ → ℕ → DhcpOptions → DhcpOptions
  | 0, _, o => o
  | rounds + 1, pos, o =>
    if pos < data.length ∧ data.getD pos 0 ≠ 255 then
      if data.getD pos 0 = 0 then dhcpOptionsFrom data rounds (pos + 1) o
      else if data.length ≤ pos + 1 then o
      else
        let optLen := (data.getD (pos + 1) 0).toNat
        if data.length < pos + 2 + optLen then o
        else dhcpOptionsFrom data rounds (pos + 2 + optLen)
          (o.read data (data.getD pos 0).toNat optLen (pos + 2))
    else o

def dhcpOptions (data : List UInt8) : DhcpOptions :=
  dhcpOptionsFrom data data.length 240 ⟨0, 0, 0, 0, 0⟩

/-- The answer to an OFFER: a REQUEST for what it offers. -/
def Dhcp.request (c : Dhcp) (yourIp serverIp : ℕ) : Dhcp :=
  let c := { c with offeredIp := yourIp, serverIp := serverIp, state := 2 }
  { c with sent := dhcpBuildPacket c 3 :: c.sent, state := 3 }

/-- What an ACK configures. -/
def Dhcp.accept (c : Dhcp) (yourIp : ℕ) (o : DhcpOptions) : Dhcp :=
  { c with
    net := { c.net with
      ip := yourIp
      netmask := if o.subnet ≠ 0 then o.subnet else 0xFFFFFF00
      gateway := o.router
      dnsServer := o.dns
      configured := true }
    state := 4 }

/-- The checks `dhcp_rx` makes on a packet. -/
def Ours (xid : ℕ) (data : List UInt8) : Prop :=
  240 ≤ data.length ∧ be32 data 236 = 0x63825363 ∧ be32 data 4 = xid

instance (xid : ℕ) (data : List UInt8) : Decidable (Ours xid data) :=
  inferInstanceAs (Decidable (_ ∧ _))

def dhcpRx (c : Dhcp) (srcIp : ℕ) (data : List UInt8) : Dhcp :=
  if Ours c.xid data then
    let o := dhcpOptions data
    let c := if o.msgType = 2 ∧ c.state = 1 then
      c.request (be32 data 16) (if o.serverId ≠ 0 then o.serverId else srcIp) else c
    if o.msgType = 5 ∧ c.state = 3 then c.accept (be32 data 16) o else c
  else c

/-- The client sends a DISCOVER. -/
def Dhcp.discover (c : Dhcp) : Dhcp :=
  { c with sent := dhcpBuildPacket c 1 :: c.sent, state := 1 }

inductive DhcpEvent
  | packet (srcIp : ℕ) (data : List UInt8)
  | retry

/-- What happens to the client while `dhcp_discover` waits. -/
def Dhcp.step (c : Dhcp) : DhcpEvent → Dhcp
  | .packet srcIp data => dhcpRx c srcIp data
  | .retry => if c.state < 4 then c.discover else c

/-! ### One server -/

/-- A BOOTREPLY of the server `server` to the card `mac`, with the address `ip`. -/
def RepliesTo (mac : List UInt8) (server ip : ℕ) (data : List UInt8) : Prop :=
  data.getD 0 0 = 2 ∧ sixBytes data 28 = sixBytes mac 0 ∧ (dhcpOptions data).serverId = server ∧
    be32 data 16 = ip

instance (mac : List UInt8) (server ip : ℕ) (data : List UInt8) :
    Decidable (RepliesTo mac server ip data) :=
  inferInstanceAs (Decidable (_ ∧ _))

/-- A packet of type `t` for the lease the client asks for. -/
structure Grants (c : Dhcp) (t : ℕ) (data : List UInt8) : Prop where
  msgType : (dhcpOptions data).msgType = t
  ours : Ours c.xid data
  replies : RepliesTo c.net.mac c.serverIp c.offeredIp data

/-- A REQUEST was sent for an OFFER that arrived. -/
def Requested (es : List DhcpEvent) (c : Dhcp) : Prop :=
  dhcpBuildPacket c 3 ∈ c.sent ∧ ∃ srcIp data, .packet srcIp data ∈ es ∧ Grants c 2 data

/-- The client `c` got its configuration from an ACK among the packets `es`, for the lease that it,
started as `c₀`, had asked for until then. -/
def Configured (c₀ : Dhcp) (es : List DhcpEvent) (c : Dhcp) : Prop :=
  ∃ before srcIp data after, es = before ++ .packet srcIp data :: after ∧
    let b := before.foldl Dhcp.step c₀
    b.net.configured = false ∧ Requested before b ∧ Grants b 5 data ∧
      c = b.accept (be32 data 16) (dhcpOptions data) ∧ c.net.ip = b.offeredIp

/-- What the client has asked for and been granted by the packets `es`. -/
structure Asks (c₀ : Dhcp) (es : List DhcpEvent) (c : Dhcp) : Prop where
  xid : c.xid = c₀.xid
  mac : c.net.mac = c₀.net.mac
  unset : c.state < 4 → c.net.configured = false
  requested : c.state = 3 → Requested es c
  configured : 4 ≤ c.state → Configured c₀ es c

section

variable {c₀ c : Dhcp} {server ip srcIp : ℕ} {es : List DhcpEvent} {data : List UInt8}

/-- A further event that changes nothing. -/
theorem Asks.later (h : Asks c₀ es c) (e : DhcpEvent) : Asks c₀ (es ++ [e]) c where
  xid := h.xid
  mac := h.mac
  unset := h.unset
  requested h3 := by
    obtain ⟨hsent, src, offer, hmem, hg⟩ := h.requested h3
    exact ⟨hsent, src, offer, List.mem_append_left _ hmem, hg⟩
  configured h4 := by
    obtain ⟨before, src, ack, after, rfl, hc⟩ := h.configured h4
    exact ⟨before, src, ack, after ++ [e], by simp, hc⟩

theorem Asks.discover (h : Asks c₀ es c) (hs : c.state < 4) : Asks c₀ es c.discover where
  xid := h.xid
  mac := h.mac
  unset _ := h.unset hs
  requested h3 := absurd h3 (by simp [Dhcp.discover])
  configured h4 := absurd h4 (by simp [Dhcp.discover])

theorem Asks.request (h : Asks c₀ es c) (hs : c.state = 1) (he : .packet srcIp data ∈ es)
    (hg : Grants (c.request ip server) 2 data) : Asks c₀ es (c.request ip server) where
  xid := h.xid
  mac := h.mac
  unset _ := h.unset (by omega)
  requested _ := ⟨List.mem_cons_self, srcIp, data, he, hg⟩
  configured h4 := absurd h4 (by simp [Dhcp.request])

theorem Asks.accept (h : Asks c₀ es (es.foldl Dhcp.step c₀))
    (hs : (es.foldl Dhcp.step c₀).state = 3) (hg : Grants (es.foldl Dhcp.step c₀) 5 data) :
    Asks c₀ (es ++ [.packet srcIp data])
      ((es.foldl Dhcp.step c₀).accept (be32 data 16) (dhcpOptions data)) where
  xid := h.xid
  mac := h.mac
  unset h4 := absurd h4 (by simp [Dhcp.accept])
  requested h3 := absurd h3 (by simp [Dhcp.accept])
  configured _ := ⟨es, srcIp, data, [], rfl, h.unset (by omega), h.requested hs, hg, rfl,
    hg.replies.2.2.2⟩

/-- The OFFERs and ACKs for the client `c₀` among `es` are BOOTREPLYs of one server to its card,
all with one address. -/
def OneLease (c₀ : Dhcp) (server ip : ℕ) (es : List DhcpEvent) : Prop :=
  ∀ srcIp data, .packet srcIp data ∈ es → Ours c₀.xid data →
    (dhcpOptions data).msgType = 2 ∨ (dhcpOptions data).msgType = 5 →
    RepliesTo c₀.net.mac server ip data

/-- The OFFER taken and a later ACK come from the one server. -/
theorem Asks.grants (h : Asks c₀ es c) (hs : c.state = 3)
    (hes : OneLease c₀ server ip (es ++ [.packet srcIp data])) (ho : Ours c.xid data)
    (h5 : (dhcpOptions data).msgType = 5) : Grants c 5 data := by
  obtain ⟨-, src, offer, hmem, h2, hours, -, -, hid, hip⟩ := h.requested hs
  obtain ⟨-, -, rfl, rfl⟩ :=
    hes src offer (List.mem_append_left _ hmem) (h.xid ▸ hours) (.inl h2)
  refine ⟨h5, ho, ?_⟩
  rw [h.mac, ← hid, ← hip]
  exact hes srcIp data (by simp) (h.xid ▸ ho) (.inr h5)

theorem Asks.packet (h : Asks c₀ es (es.foldl Dhcp.step c₀)) (hserver : server ≠ 0)
    (hes : OneLease c₀ server ip (es ++ [.packet srcIp data])) :
    Asks c₀ (es ++ [.packet srcIp data]) (dhcpRx (es.foldl Dhcp.step c₀) srcIp data) := by
  unfold dhcpRx
  split_ifs with ho
  · dsimp only
    by_cases h2 : (dhcpOptions data).msgType = 2 ∧ (es.foldl Dhcp.step c₀).state = 1
    · obtain ⟨hop, hmac, rfl, rfl⟩ := hes srcIp data (by simp) (h.xid ▸ ho) (.inl h2.1)
      rw [if_pos hserver, if_pos h2, if_neg (by simp [h2.1])]
      exact (h.later _).request h2.2 (List.mem_append_right _ (List.mem_singleton_self _))
        ⟨h2.1, ho, hop, hmac.trans (congrArg (sixBytes · 0) h.mac.symm), rfl, rfl⟩
    · rw [if_neg h2]
      split_ifs with h5
      · exact h.accept h5.2 (h.grants h5.2 hes ho h5.1)
      · exact h.later _
  · exact h.later _

theorem asks_run (hserver : server ≠ 0) (hunset : c₀.net.configured = false) (hs : c₀.state = 1)
    (hes : OneLease c₀ server ip es) : Asks c₀ es (es.foldl Dhcp.step c₀) := by
  induction es using List.reverseRecOn with
  | nil => exact ⟨rfl, rfl, fun _ => hunset, by simp [hs], by simp [hs]⟩
  | append_singleton es e ih =>
    have h := ih fun srcIp data he => hes srcIp data (List.mem_append_left _ he)
    rw [List.foldl_append]
    cases e with
    | packet srcIp data => exact h.packet hserver hes
    | retry =>
      change Asks c₀ _ (if _ then _ else _)
      split_ifs with hlt
      · exact (h.later _).discover hlt
      · exact h.later _

/-- **Where one server answers the client, with one address, it configures what it asked for**: the
address of the OFFER its REQUEST was for, by an ACK of that server to this card; and packets of
another server, to another card or of another kind change nothing. -/
theorem lease_requested (hes : OneLease c server ip es) (hserver : server ≠ 0)
    (hunset : c.net.configured = false) :
    ((es.foldl Dhcp.step c.discover).net.configured = true →
      Configured c.discover es (es.foldl Dhcp.step c.discover)) ∧
    ∀ srcIp data, .packet srcIp data ∈ es → ¬RepliesTo c.net.mac server ip data →
      ∀ b : Dhcp, b.xid = c.xid → dhcpRx b srcIp data = b := by
  constructor
  · intro hset
    have h := @asks_run c.discover server ip es hserver hunset rfl hes
    refine h.configured ?_
    by_contra h4
    simp [h.unset (by omega)] at hset
  · intro srcIp data he hr b hx
    unfold dhcpRx
    split_ifs with ho
    · have hkind := mt (hes srcIp data he (hx ▸ ho)) hr
      dsimp only
      rw [if_neg fun h5 => hkind (.inr h5.1), if_neg fun h2 => hkind (.inl h2.1)]
    · rfl

end

/-- A packet of a server: its op code, the card it is for, its address, type and server. -/
def reply (op : UInt8) (mac : List UInt8) (ip : ℕ) (msgType : UInt8) (server : ℕ) : List UInt8 :=
  [op, 1, 6, 0] ++ put32 7 ++ List.replicate 8 0 ++ put32 ip ++ List.replicate 8 0 ++ mac ++
    List.replicate 202 0 ++ put32 0x63825363 ++ [53, 1, msgType, 54, 4] ++ put32 server ++ [255]

/-- A client before its first DISCOVER. -/
def card : Dhcp := ⟨⟨[2, 0, 0, 0, 0, 1], 0, 0, 0, 0, false⟩, 7, 0, 0, 0, []⟩

/-- An OFFER of server 1, a NAK of server 2 to another card, then the ACK of server 1. -/
def granted : List DhcpEvent :=
  [.packet 1 (reply 2 card.net.mac 10 2 1), .packet 2 (reply 1 [2, 0, 0, 0, 0, 9] 66 6 2),
    .packet 1 (reply 2 card.net.mac 10 5 1)]

theorem lease_requested_granted :
    let c := granted.foldl Dhcp.step card.discover
    c.net.configured = true ∧ Configured card.discover granted c ∧
      ∀ b : Dhcp, b.xid = 7 → dhcpRx b 2 (reply 1 [2, 0, 0, 0, 0, 9] 66 6 2) = b := by
  have hes : OneLease card 1 10 granted := by
    unfold OneLease
    simp only [granted, List.mem_cons, DhcpEvent.packet.injEq, List.not_mem_nil, or_false]
    rintro _ _ (⟨-, rfl⟩ | ⟨-, rfl⟩ | ⟨-, rfl⟩)
    all_goals decide +kernel
  have h := lease_requested hes one_ne_zero rfl
  have hset : (granted.foldl Dhcp.step card.discover).net.configured = true := by decide +kernel
  exact ⟨hset, h.1 hset, h.2 2 _ (by simp [granted]) (by decide +kernel)⟩

/-- A REQUEST for address 10 of server 1 is out; what server 2 grants another card is taken. -/
theorem stray_ack_configures :
    let c := [.packet 1 (reply 2 card.net.mac 10 2 1), .packet 2 (reply 1 [2, 0, 0, 0, 0, 9] 66 5 2)
      ].foldl Dhcp.step card.discover
    c.net.configured = true ∧ c.net.ip = 66 ∧ c.offeredIp = 10 ∧ c.serverIp = 1 := by
  decide +kernel

end TaterTOS.Net
