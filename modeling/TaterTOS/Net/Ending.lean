import TaterTOS.Net.Events

/-!
# Acknowledgements and the end of the stream

* `Life`, `Life.step`, `Lives`: a connection from its opening until its slot is given back, between
  any events, with the bytes that were read and the segments that were sent for it;
* **`acks_stored`**: no acknowledgement covers a byte that was not stored, and the connection ends
  when the whole stream was stored.
-/

namespace TaterTOS.Net

open Lib List

variable {stream out : List UInt8} {irs : ℕ} {c : Conn} {g : Segment} {i : ConnId} {k : ℕ}
  {s : Sent} {c' : Conn} {sends : List Sent}

/-! ### The life of a connection -/

structure Life where
  stack : Stack
  out : List UInt8
  sent : List Sent

variable {x : Life}

def Life.step (i : ConnId) (x : Life) (e : Event) : Life where
  stack := e.run x.stack
  out := x.out ++ e.read x.stack i
  sent := x.sent ++ e.sends x.stack i

inductive Lives (i : ConnId) (fits : Conn → Segment → Prop) (x : Life) : Life → Prop
  | refl : Lives i fits x x
  | step {y : Life} (h : Lives i fits x y) (hactive : (y.stack.conns i).active = true) (e : Event)
      (hfits : ∀ srcIp data g, e = .segment srcIp data → parse srcIp data = some g →
        y.stack.lookup g = some i → fits (y.stack.conns i) g) : Lives i fits x (y.step i e)

theorem Lives.deliver {fits : Conn → Segment → Prop} {y : Life} (h : Lives i fits x y)
    (hactive : (y.stack.conns i).active = true) {srcIp : ℕ} {data : List UInt8} (g : Segment)
    (hg : parse srcIp data = some g) (hfits : fits (y.stack.conns i) g) :
    Lives i fits x (y.step i (.segment srcIp data)) := by
  refine h.step hactive _ ?_
  rintro srcIp' data' g' ⟨⟩ hg' -
  cases hg.symm.trans hg'
  exact hfits

/-! ### Segments of the peer -/

/-- The segment has bytes of the stream, the handshake has the initial sequence number, and a FIN
follows the last byte. -/
structure Peer (stream : List UInt8) (irs : ℕ) (c : Conn) (g : Segment) : Prop where
  carries : Carries stream irs g
  opens : Opens irs c g
  last : g.has tcpFin = true → position irs g.seq + g.payload.length = stream.length

instance (stream : List UInt8) (irs : ℕ) (c : Conn) (g : Segment) :
    Decidable (Peer stream irs c g) :=
  decidable_of_iff (Carries stream irs g ∧ Opens irs c g ∧
      (g.has tcpFin = true → position irs g.seq + g.payload.length = stream.length))
    ⟨fun h => ⟨h.1, h.2.1, h.2.2⟩, fun h => ⟨h.carries, h.opens, h.last⟩⟩

/-- A FIN that is believed is the next in order, and its bytes fit in the receive buffer. -/
def InOrder (c : Conn) (g : Segment) : Prop :=
  g.has tcpFin = true → match c.state with
    | .established => (g.payload = [] → g.seq = c.ackNum) ∧
        (g.seq = c.ackNum → g.payload.length ≤ tcpRxBufSize - 1 - c.rxAvailable)
    | .finWait1 | .finWait2 => g.seq = c.ackNum ∧ g.payload = []
    | _ => True

def Sent.Covers (irs : ℕ) (s : Sent) (p : ℕ) : Prop :=
  s.flags &&& tcpAck ≠ 0 ∧ p < position irs s.ack

def Acked (stream : List UInt8) (irs k : ℕ) (s : Sent) : Prop :=
  ∀ p < stream.length, s.Covers irs p → p < k

theorem Acked.mono (h : Acked stream irs k s) {k' : ℕ} (hk : k ≤ k') : Acked stream irs k' s :=
  fun p hp hc => lt_of_lt_of_le (h p hp hc) hk

theorem acked_next (hack : s.ack = u32 (irs + 1 + k)) (hk : k < 2 ^ 32) : Acked stream irs k s := by
  rintro p - ⟨-, hp⟩
  rwa [hack, position_next irs hk] at hp

theorem acked_all : Acked stream irs stream.length s := fun _ hp _ => hp

/-! ### The invariant -/

/-- What was acknowledged was stored, and the connection ends when the whole stream was stored. -/
structure Ending (stream : List UInt8) (irs : ℕ) (c : Conn) (out : List UInt8) (sent : List Sent) :
    Prop extends Delivered stream irs c out where
  closing : c.state = .finWait1 ∨ c.state = .finWait2 →
    c.ackNum = u32 (irs + 1 + (out ++ c.stored).length)
  ended : c.state = .lastAck → out ++ c.stored = stream
  acked : ∀ s ∈ sent, Acked stream irs (out ++ c.stored).length s

variable {sent : List Sent}

theorem Delivered.length_lt (h : Delivered stream irs c out) (hlen : stream.length < 2 ^ 31) :
    (out ++ c.stored).length < 2 ^ 32 := by
  have := h.initial.length_le
  omega

structure Received (stream : List UInt8) (irs : ℕ) (c c' : Conn) (out : List UInt8)
    (sends : List Sent) :
    Prop where
  grows : c.stored <+: c'.stored
  closing : c'.state = .finWait1 ∨ c'.state = .finWait2 →
    c'.ackNum = u32 (irs + 1 + (out ++ c'.stored).length)
  ended : c'.state = .lastAck → out ++ c'.stored = stream
  acked : ∀ s ∈ sends, Acked stream irs (out ++ c'.stored).length s

section

variable (h : Ending stream irs c out sent)
include h

theorem Ending.advance (hd : Delivered stream irs c' out)
    (hr : Received stream irs c c' out sends) :
    Ending stream irs c' out (sent ++ sends) := by
  refine ⟨hd, hr.closing, hr.ended, fun s hs => ?_⟩
  rcases mem_append.mp hs with hs | hs
  · refine (h.acked s hs).mono ?_
    rw [length_append, length_append]
    exact Nat.add_le_add_left hr.grows.length_le _
  · exact hr.acked s hs

theorem Ending.quiet (hring : c'.ring = c.ring)
    (hclosing : c'.state = .finWait1 ∨ c'.state = .finWait2 →
      c'.ackNum = u32 (irs + 1 + (out ++ c.stored).length))
    (hended : c'.state = .lastAck → c.state = .lastAck) : Received stream irs c c' out [] := by
  have hstored : c'.stored = c.stored := congrArg (RingBuffer.contents tcpRxBufSize) hring
  refine ⟨hstored ▸ List.prefix_rfl, ?_, ?_, nofun⟩
  · rw [hstored]
    exact hclosing
  · rw [hstored]
    exact fun hs => h.ended (hended hs)

theorem Ending.closed : Received stream irs c c.closed out [] :=
  h.quiet rfl (fun hs => by rcases hs with hs | hs <;> cases hs) nofun

theorem Ending.receiveLastFin (hlen : stream.length < 2 ^ 31)
    (hfin : g.has tcpFin = true) (hg : Peer stream irs c g)
    (hstate : c.state = .finWait1 ∨ c.state = .finWait2) (hseq : g.seq = c.ackNum)
    (hpay : g.payload = []) :
    Received stream irs c (c.receiveLastFin g).1 out (c.receiveLastFin g).2 := by
  refine ⟨List.prefix_rfl, fun hs => (by rcases hs with hs | hs <;> cases hs), nofun, fun s _ => ?_⟩
  have hlast := hg.last hfin
  rw [hseq, h.closing hstate, position_next irs (h.length_lt hlen), hpay] at hlast
  have hall : (out ++ (c.receiveLastFin g).1.stored).length = stream.length := hlast
  rw [hall]
  exact acked_all

end

theorem received_finish (c1 : Conn) {ack : ℕ} (hgrows : c.stored <+: c1.stored)
    (hall : out ++ c1.stored = stream) :
    Received stream irs c (Conn.finish { c1 with ackNum := ack }).1 out
      (Conn.finish { c1 with ackNum := ack }).2 := by
  refine ⟨hgrows, fun hs => (by rcases hs with hs | hs <;> cases hs), fun _ => hall, fun s _ => ?_⟩
  have hlength : (out ++ (Conn.finish { c1 with ackNum := ack }).1.stored).length = stream.length :=
    congrArg List.length hall
  rw [hlength]
  exact acked_all

section

variable (h : Ending stream irs c out sent)
include h

theorem Ending.store (hlen : stream.length < 2 ^ 31)
    (hest : c.state = .established) (hg : Peer stream irs c g) (hseq : g.seq = c.ackNum) :
    c.stored <+: (c.store g).stored ∧ (c.store g).state = .established ∧
      (c.store g).ackNum = u32 (irs + 1 + (out ++ (c.store g).stored).length) ∧
      (g.has tcpFin = true → g.payload.length ≤ tcpRxBufSize - 1 - c.rxAvailable →
        out ++ (c.store g).stored = stream) := by
  obtain ⟨r, -, hbuffer, hadded, hcount⟩ := Conn.buffer_spec h.valid g.payload
  have hnew : (c.buffer g.payload).2 = c.setRing r := congrArg Prod.snd hbuffer
  have hstored : (c.store g).stored = c.stored ++ g.payload.take (c.buffer g.payload).1 := by
    rw [Conn.store, hnew]
    exact hadded
  have hstore := h.toDelivered.store hlen hest hg.carries hseq
  have hstate : (c.store g).state = .established := (c.store_state g).trans hest
  refine ⟨hstored ▸ List.prefix_append _ _, hstate, hstore.next hstate, fun hfin hroom => ?_⟩
  have hall : (c.buffer g.payload).1 = g.payload.length := by
    obtain ⟨-, hwritten, -⟩ := RingBuffer.Valid.write_spec g.payload h.valid
    rw [Conn.buffer_eq _ h.valid]
    rw [hwritten]
    exact min_eq_left hroom
  have hlast := hg.last hfin
  rw [hseq, h.next hest, position_next irs (h.length_lt hlen)] at hlast
  refine hstore.initial.eq_of_length ?_
  rw [hstored, hall, take_length, ← append_assoc, length_append]
  exact hlast

theorem Ending.receive (hlen : stream.length < 2 ^ 31)
    (hg : Peer stream irs c g) (hin : InOrder c g) :
    Ending stream irs (c.receive g).1 out (sent ++ (c.receive g).2) := by
  refine h.advance (h.toDelivered.receive hlen hg.carries hg.opens) ?_
  have hstill : ∀ {c' : Conn}, c'.state = .established →
      ¬(c'.state = .finWait1 ∨ c'.state = .finWait2) ∧ c'.state ≠ .lastAck := by
    intro c' hc'
    rw [hc']
    exact ⟨by decide, nofun⟩
  have htaken := c.receive_taken g
  generalize c.receive g = r at htaken
  cases htaken with
  | ignored => exact h.quiet rfl h.closing id
  | reset | last => exact h.closed
  | accepted => exact h.quiet rfl (fun hs => absurd hs (hstill rfl).1) nofun
  | connected hstate hflags =>
    refine ⟨List.prefix_rfl, fun hs => absurd hs (hstill rfl).1, nofun, fun s hs => ?_⟩
    obtain rfl := mem_singleton.mp hs
    refine (acked_next (k := 0) ?_ (by norm_num)).mono (Nat.zero_le _)
    change u32 (g.seq + 1) = u32 (irs + 1 + 0)
    rw [hg.opens hstate hflags]
  | unexpected hest =>
    refine ⟨List.prefix_rfl, fun hs => absurd hs (hstill hest).1,
      fun hs => absurd hs (hstill hest).2, ?_⟩
    intro s hs
    obtain rfl := mem_singleton.mp hs
    exact acked_next (h.next hest) (h.length_lt hlen)
  | stored hest hseq =>
    obtain ⟨hgrows, hstate, hack, -⟩ := h.store hlen hest hg hseq
    refine ⟨hgrows, fun hs => absurd hs (hstill hstate).1,
      fun hs => absurd hs (hstill hstate).2, ?_⟩
    intro s hs
    obtain rfl := mem_singleton.mp hs
    exact acked_next hack ((h.toDelivered.store hlen hest hg.carries hseq).length_lt hlen)
  | storedFin hest hseq hfin =>
    obtain ⟨hgrows, -, -, hall⟩ := h.store hlen hest hg hseq
    have hroom := hin hfin
    rw [hest] at hroom
    exact received_finish (c.store g) hgrows (hall hfin (hroom.2 hseq))
  | fin hest hnil hfin =>
    have hseq := hin hfin
    rw [hest] at hseq
    have hlast := hg.last hfin
    rw [hseq.1 hnil, h.next hest, position_next irs (h.length_lt hlen), hnil] at hlast
    exact received_finish c List.prefix_rfl (h.initial.eq_of_length hlast)
  | lastFin hstate hfin =>
    have hnext := hin hfin
    rcases hstate with ⟨hstate, -⟩ | hstate
    · rw [hstate] at hnext
      exact h.receiveLastFin hlen hfin hg (.inl hstate) hnext.1 hnext.2
    · rw [hstate] at hnext
      exact h.receiveLastFin hlen hfin hg (.inr hstate) hnext.1 hnext.2
  | half hstate => exact h.quiet rfl (fun _ => h.closing (.inl hstate)) nofun

/-! ### Calls -/

theorem Ending.send (hlen : stream.length < 2 ^ 31)
    (hest : c.state = .established) (hring : c'.ring = c.ring) (hack : c'.ackNum = c.ackNum)
    (hstate : c'.state = .established ∨ c'.state = .finWait1)
    (hsends : ∀ s ∈ sends, s.ack = c.ackNum) : Ending stream irs c' out (sent ++ sends) := by
  have hstored : c'.stored = c.stored := congrArg (RingBuffer.contents tcpRxBufSize) hring
  have hnext : c'.ackNum = u32 (irs + 1 + (out ++ c'.stored).length) := by
    rw [hack, hstored]
    exact h.next hest
  have hopening : ¬(c'.state = .synSent ∨ c'.state = .synRecv) ∧ c'.state ≠ .lastAck := by
    rcases hstate with hs | hs <;> rw [hs] <;> exact ⟨by decide, nofun⟩
  refine h.advance ⟨?_, ?_, fun _ => hnext, fun hs => absurd hs hopening.1,
    fun hs => absurd (.inr hs) hopening.1⟩ ⟨hstored ▸ List.prefix_rfl, fun _ => hnext,
    fun hs => absurd hs hopening.2, fun s hs => ?_⟩
  · rw [Conn.RingValid, hring]
    exact h.valid
  · rw [hstored]
    exact h.initial
  · rw [hstored]
    refine acked_next ?_ (h.length_lt hlen)
    rw [hsends s hs, h.next hest]

theorem Ending.recv (maxLen : ℕ) :
    Ending stream irs (c.recv maxLen).2 (out ++ (c.recv maxLen).1) sent := by
  obtain ⟨hsame, hstate, hack⟩ := Conn.recv_keeps h.valid out maxLen
  refine ⟨h.toDelivered.recv maxLen, ?_, ?_, ?_⟩
  · rw [hsame, hstate, hack]
    exact h.closing
  · rw [hsame, hstate]
    exact h.ended
  · rw [hsame]
    exact h.acked

theorem Ending.close : Ending stream irs c.closed out sent := by
  have hover : Delivered stream irs c.closed out := h.toDelivered.over rfl nofun nofun nofun
  have := h.advance hover h.closed
  rwa [append_nil] at this

end

/-! ### Runs -/

theorem Ending.step (h : Ending stream irs (x.stack.conns i) x.out x.sent)
    (hlen : stream.length < 2 ^ 31) (hactive : (x.stack.conns i).active = true) {e : Event}
    (hfits : ∀ srcIp data g, e = .segment srcIp data → parse srcIp data = some g → x.stack.lookup
      g = some i → Peer stream irs (x.stack.conns i) g ∧ InOrder (x.stack.conns i) g) :
    Ending stream irs ((x.step i e).stack.conns i) (x.step i e).out (x.step i e).sent := by
  dsimp only [Life.step]
  have hused : x.stack.freeSlot ≠ some i := fun hfree => by
    rw [freeSlot_inactive hfree] at hactive
    exact Bool.false_ne_true hactive
  by_cases hslot : e.slot x.stack = some i
  · obtain ⟨sends, hchange, hsent⟩ := (Event.change hslot).self
    have hsends : e.sends x.stack i = sends := by
      unfold Event.sends
      rw [if_pos hslot, hsent, drop_left]
    rw [hsends]
    generalize (e.run x.stack).conns i = c' at hchange
    cases hchange with
    | receive hg hi =>
      obtain ⟨hpeer, hin⟩ := hfits _ _ _ rfl hg hi
      simp only [Event.read, append_nil]
      exact h.receive hlen hpeer hin
    | spawn _ _ _ hfree | connect hfree | listen hfree => exact absurd hfree hused
    | connected | refused =>
      simp only [Event.read, append_nil]
      exact h
    | timeout | close =>
      simp only [Event.read, append_nil]
      exact h.close
    | accept hi =>
      simp only [Event.read, append_nil]
      exact ⟨⟨h.valid, h.initial, h.next, h.opening, h.accepting⟩, h.closing, h.ended, h.acked⟩
    | @send k data hi hest =>
      obtain ⟨hack, seq, hseq⟩ := Conn.sendChunks_spec data.length (x.stack.conns i) data
      simp only [Event.read, append_nil, hseq]
      exact h.send hlen hest rfl rfl (.inl hest) fun s hs => (hack s hs).1
    | @recv k maxLen hi =>
      rw [Event.read_recv hi, append_nil]
      exact h.recv maxLen
    | fin hi hest =>
      simp only [Event.read, append_nil]
      refine h.send hlen hest rfl rfl (.inr rfl) fun s hs => ?_
      rw [mem_singleton.mp hs]
      rfl
  · have hsends : e.sends x.stack i = [] := if_neg hslot
    rw [hsends, Event.read_other hslot, append_nil, append_nil, Event.run_other hslot]
    exact h

theorem Opened.ending (h : Opened irs c) (stream : List UInt8) : Ending stream irs c [] [] := by
  have hstate : ¬(c.state = .finWait1 ∨ c.state = .finWait2) ∧ c.state ≠ .lastAck := by
    rcases h.state with hs | ⟨hs | hs, -⟩ <;> rw [hs] <;> exact ⟨by decide, nofun⟩
  exact ⟨h.delivered stream, fun hs => absurd hs hstate.1, fun hs => absurd hs hstate.2, nofun⟩

/-- **No acknowledgement covers a byte that was not stored, and the connection ends when the whole
stream was stored.** The segments of the peer arrive in any order, with loss, duplication and any
segmentation, between any other events; a FIN is believed in order only. -/
theorem acks_stored (stream : List UInt8) (irs : ℕ) (i : ConnId) (start : Stack)
    (hlen : stream.length < 2 ^ 31) (hstart : Opened irs (start.conns i)) (y : Life)
    (hlives : Lives i (fun c g => Peer stream irs c g ∧ InOrder c g) ⟨start, [], []⟩ y) :
    (∀ s ∈ y.sent, ∀ p < stream.length, s.Covers irs p →
      p < (y.out ++ (y.stack.conns i).stored).length) ∧
      y.out ++ (y.stack.conns i).stored <+: stream ∧
      ((y.stack.conns i).state = .lastAck → y.out ++ (y.stack.conns i).stored = stream) := by
  have h : Ending stream irs (y.stack.conns i) y.out y.sent := by
    induction hlives with
    | refl => exact hstart.ending stream
    | step _ hactive e hfits ih => exact ih.step hlen hactive hfits
  exact ⟨h.acked, h.initial, h.ended⟩

def clientLife : Life := Life.step 0 ⟨client, [], []⟩ (.segment 1 (fromServer 7 0x12 []))

theorem opened_client : Opened 7 (client.conns 0) :=
  ⟨by decide +kernel, by decide +kernel, .inl (by decide +kernel)⟩

theorem acks_stored_client : let y := clientLife.step 0 (.segment 1 (fromServer 8 0x11 [5, 6]))
    (∀ s ∈ y.sent, ∀ p < 2, s.Covers 7 p → p < (y.out ++ (y.stack.conns 0).stored).length) ∧
      y.out ++ (y.stack.conns 0).stored <+: [5, 6] ∧
      ((y.stack.conns 0).state = .lastAck → y.out ++ (y.stack.conns 0).stored = [5, 6]) := by
  refine acks_stored [5, 6] 7 0 client (by decide) opened_client _ ?_
  have hopen :
      Lives 0 (fun c g => Peer [5, 6] 7 c g ∧ InOrder c g) ⟨client, [], []⟩ clientLife := by
    refine Lives.refl.deliver (by decide +kernel) ⟨1, 80, 50000, 7, 0, 0x12, []⟩
      (by decide +kernel) ?_
    exact ⟨by decide +kernel, fun hfin => absurd hfin (by decide)⟩
  refine hopen.deliver (by decide +kernel) ⟨1, 80, 50000, 8, 0, 0x11, [5, 6]⟩ (by decide +kernel) ?_
  refine ⟨by decide +kernel, fun _ => ?_⟩
  rw [show (clientLife.stack.conns 0).state = .established by decide +kernel]
  exact ⟨nofun, fun _ => by decide +kernel⟩

/-- **A FIN that overtakes the bytes before it** is believed: two bytes are acknowledged that never
arrived, and the connection ends without them. -/
theorem fin_overtakes : ∃ y : Life,
    Lives 0 (Peer [5, 6] 7) ⟨client, [], []⟩ y ∧ Opened 7 (client.conns 0) ∧
      (∃ s ∈ y.sent, s.Covers 7 0 ∧ s.Covers 7 1) ∧ y.out ++ (y.stack.conns 0).stored = [] ∧
      (y.stack.conns 0).state = .lastAck := by
  refine ⟨clientLife.step 0 (.segment 1 (fromServer 10 0x11 [])), ?_, opened_client, ?_, ?_, ?_⟩
  · have hopen : Lives 0 (Peer [5, 6] 7) ⟨client, [], []⟩ clientLife :=
      Lives.refl.deliver (by decide +kernel) ⟨1, 80, 50000, 7, 0, 0x12, []⟩ (by decide +kernel)
        (by decide +kernel)
    exact hopen.deliver (by decide +kernel) ⟨1, 80, 50000, 10, 0, 0x11, []⟩ (by decide +kernel)
      (by decide +kernel)
  · refine ⟨⟨1, 80, 50000, u32 (0x12345678 + 64001), 11, 0x10, []⟩, by decide +kernel, ?_, ?_⟩
    · exact ⟨by decide, by decide⟩
    · exact ⟨by decide, by decide⟩
  · decide +kernel
  · decide +kernel

end TaterTOS.Net
