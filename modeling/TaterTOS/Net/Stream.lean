import TaterTOS.Net.Tcp

/-!
# The received stream

The peer of a connection has a byte stream, numbered from its initial sequence number. Segments with
parts of the stream arrive in any order and any number of times, between calls of `tcp_recv`.

* `Conn.ring`, `Conn.buffer_eq`, `Conn.take_eq`: the loops over the receive buffer are those of a
  ring buffer;
* `Delivered`, `Delivered.receive`, `Delivered.recv`: what was received is a beginning of the
  stream, and an established connection waits for the next byte;
* **`stream_delivered`**: the invariant at every point of a run.
-/

namespace TaterTOS.Net

open Lib List

/-! ### The receive buffer -/

def Conn.ring (c : Conn) : RingBuffer UInt8 := ⟨c.rxBuf, c.rxTail, c.rxHead⟩

def Conn.setRing (c : Conn) (r : RingBuffer UInt8) : Conn :=
  { c with rxBuf := r.buf, rxTail := r.head, rxHead := r.tail }

abbrev Conn.RingValid (c : Conn) : Prop := c.ring.Valid tcpRxBufSize

def Conn.stored (c : Conn) : List UInt8 := c.ring.contents tcpRxBufSize

variable {c : Conn} {ack srcIp : ℕ} {n : Stack} {data : List UInt8}

theorem Conn.full_iff (h : c.RingValid) :
    (c.rxHead + 1) % tcpRxBufSize = c.rxTail ↔ tcpRxBufSize - 1 - c.ring.size tcpRxBufSize = 0 := by
  have hh : c.rxTail < tcpRxBufSize := h.head_lt
  have ht : c.rxHead < tcpRxBufSize := h.tail_lt
  have hsize : c.ring.size tcpRxBufSize = if c.rxTail ≤ c.rxHead then c.rxHead - c.rxTail
    else tcpRxBufSize - c.rxTail + c.rxHead := rfl
  rw [RingBuffer.succ_mod ht]
  split_ifs at hsize ⊢ <;> omega

theorem Conn.buffer_eq (xs : List UInt8) : ∀ {c : Conn}, c.RingValid →
    c.buffer xs = ((c.ring.write tcpRxBufSize xs).1,
      c.setRing (c.ring.write tcpRxBufSize xs).2) := by
  induction xs with
  | nil => exact fun _ => rfl
  | cons x xs ih =>
    intro c h
    unfold Conn.buffer RingBuffer.write
    by_cases hfull : (c.rxHead + 1) % tcpRxBufSize = c.rxTail
    · rw [if_pos hfull, if_pos ((Conn.full_iff h).mp hfull)]
      rfl
    · have hnext := ih (c := c.setRing (c.ring.push tcpRxBufSize x)) (h.push x)
      rw [if_neg hfull, if_neg (mt (Conn.full_iff h).mpr hfull)]
      exact congrArg (fun r => (r.1 + 1, r.2)) hnext

theorem Conn.rxAvailable_eq (c : Conn) : c.rxAvailable = c.ring.size tcpRxBufSize := rfl

theorem Conn.take_eq (k : ℕ) : ∀ {c : Conn}, c.RingValid → k ≤ c.rxAvailable →
    c.take k = ((c.ring.read tcpRxBufSize k).1, c.setRing (c.ring.read tcpRxBufSize k).2) := by
  induction k with
  | zero => exact fun _ _ => rfl
  | succ k ih =>
    intro c h hk
    have hne : c.ring.head ≠ c.ring.tail := by
      rw [Ne, ← RingBuffer.size_eq_zero h, ← Conn.rxAvailable_eq]
      omega
    have hleft : k ≤ (c.ring.pop tcpRxBufSize).size tcpRxBufSize := by
      have := h.size_pop hne
      rw [Conn.rxAvailable_eq] at hk
      omega
    have hnext := ih (c := c.setRing (c.ring.pop tcpRxBufSize)) h.pop hleft
    unfold Conn.take RingBuffer.read
    rw [if_neg hne]
    exact congrArg (fun r => (c.rxBuf c.rxTail :: r.1, r.2)) hnext

theorem Conn.recv_spec (h : c.RingValid) (maxLen : ℕ) :
    ∃ r : RingBuffer UInt8, r.Valid tcpRxBufSize ∧ (c.recv maxLen).2 = c.setRing r ∧
      (c.recv maxLen).1 ++ r.contents tcpRxBufSize = c.stored := by
  unfold Conn.recv
  by_cases hzero : c.rxAvailable = 0
  · rw [if_pos hzero]
    exact ⟨c.ring, h, rfl, rfl⟩
  · obtain ⟨hvalid, htaken, hrest⟩ := RingBuffer.Valid.read_spec (min c.rxAvailable maxLen) h
    rw [if_neg hzero, Conn.take_eq _ h (min_le_left _ _)]
    refine ⟨_, hvalid, rfl, ?_⟩
    rw [htaken, hrest]
    exact take_append_drop _ _

theorem Conn.buffer_spec (h : c.RingValid) (xs : List UInt8) :
    ∃ r : RingBuffer UInt8, r.Valid tcpRxBufSize ∧ c.buffer xs = ((c.buffer xs).1, c.setRing r) ∧
      r.contents tcpRxBufSize = c.stored ++ xs.take (c.buffer xs).1 ∧
      (c.buffer xs).1 ≤ xs.length := by
  obtain ⟨hvalid, hcount, hadded⟩ := RingBuffer.Valid.write_spec xs h
  rw [Conn.buffer_eq xs h]
  refine ⟨_, hvalid, rfl, hadded, ?_⟩
  rw [hcount]
  exact min_le_left _ _

/-! ### The stream of the peer -/

/-- The position in the stream of a sequence number: the first byte follows the SYN. -/
def position (irs seq : ℕ) : ℕ := u32 (seq + 2 ^ 32 - u32 (irs + 1))

theorem position_next (irs : ℕ) {k : ℕ} (hk : k < 2 ^ 32) :
    position irs (u32 (irs + 1 + k)) = k := by
  unfold position u32
  omega

def Carries (stream : List UInt8) (irs : ℕ) (g : Segment) : Prop :=
  g.payload <+: stream.drop (position irs g.seq)

/-- What the reader took and what is stored is a beginning of the stream, and an established
connection waits for the next byte. -/
structure Delivered (stream : List UInt8) (irs : ℕ) (c : Conn) (out : List UInt8) : Prop where
  valid : c.RingValid
  initial : out ++ c.stored <+: stream
  next : c.state = .established → c.ackNum = u32 (irs + 1 + (out ++ c.stored).length)
  /-- Before the connection is established nothing was received. -/
  opening : c.state = .synSent ∨ c.state = .synRecv → out ++ c.stored = []
  accepting : c.state = .synRecv → c.ackNum = u32 (irs + 1)

instance (stream : List UInt8) (irs : ℕ) (g : Segment) : Decidable (Carries stream irs g) :=
  inferInstanceAs (Decidable (_ <+: _))

variable {stream out : List UInt8} {irs : ℕ} {g : Segment}

theorem Delivered.over (h : Delivered stream irs c out) {c' : Conn} (hring : c'.ring = c.ring)
    (hest : c'.state ≠ .established) (hsent : c'.state ≠ .synSent) (hrecv : c'.state ≠ .synRecv) :
    Delivered stream irs c' out := by
  have hstored : c'.stored = c.stored := congrArg (RingBuffer.contents tcpRxBufSize) hring
  refine ⟨?_, ?_, fun hc => absurd hc hest, fun hc => ?_, fun hc => absurd hc hrecv⟩
  · rw [Conn.RingValid, hring]
    exact h.valid
  · rw [hstored]
    exact h.initial
  · exact absurd hc (not_or.mpr ⟨hsent, hrecv⟩)

theorem Delivered.establish (h : Delivered stream irs c out)
    (hopening : c.state = .synSent ∨ c.state = .synRecv) (hack : ack = u32 (irs + 1)) :
    Delivered stream irs { c with ackNum := ack, state := .established } out := by
  have hnil : out ++ c.stored = [] := h.opening hopening
  refine ⟨h.valid, h.initial, fun _ => ?_, fun hc => ?_, fun hc => TcpState.noConfusion hc⟩
  · change ack = u32 (irs + 1 + (out ++ c.stored).length)
    rw [hnil, hack]
    rfl
  · rcases hc with hc | hc <;> exact TcpState.noConfusion hc

theorem append_next {got xs : List UInt8} (h : got <+: stream)
    (hxs : xs <+: stream.drop got.length) : got ++ xs <+: stream := by
  obtain ⟨rest, rfl⟩ := h
  rw [drop_left] at hxs
  exact (List.prefix_append_right_inj got).mpr hxs

/-- **A segment in order.** Its payload follows what was received, and as much of it as fits is
stored and acknowledged. -/
theorem Delivered.store (h : Delivered stream irs c out) (hlen : stream.length < 2 ^ 31)
    (hest : c.state = .established) (hg : Carries stream irs g) (hseq : g.seq = c.ackNum) :
    Delivered stream irs (c.store g) out := by
  obtain ⟨r, hvalid, hbuffer, hadded, hcount⟩ := Conn.buffer_spec h.valid g.payload
  have hgot : (out ++ c.stored).length < 2 ^ 32 := by
    have := h.initial.length_le
    omega
  have hpos : position irs g.seq = (out ++ c.stored).length := by
    rw [hseq, h.next hest, position_next irs hgot]
  have hinitial : out ++ c.stored ++ g.payload.take (c.buffer g.payload).1 <+: stream := by
    apply append_next h.initial
    rw [← hpos]
    exact (List.take_prefix _ _).trans hg
  have hnew : (c.buffer g.payload).2 = c.setRing r := congrArg Prod.snd hbuffer
  rw [Conn.store, hnew]
  have hstored :
      ({ c.setRing r with ackNum := u32 (g.seq + (c.buffer g.payload).1) } : Conn).stored =
      c.stored ++ g.payload.take (c.buffer g.payload).1 := hadded
  refine ⟨hvalid, ?_, fun _ => ?_, fun hc => ?_, fun hc => ?_⟩
  · rw [hstored, ← append_assoc]
    exact hinitial
  · rw [hstored, ← append_assoc, length_append, length_take]
    dsimp only
    rw [hseq, h.next hest]
    unfold u32
    omega
  · have hstate : c.state = .synSent ∨ c.state = .synRecv := hc
    rw [hest] at hstate
    rcases hstate with hc | hc <;> exact TcpState.noConfusion hc
  · have hstate : c.state = .synRecv := hc
    rw [hest] at hstate
    exact TcpState.noConfusion hstate

def Opens (irs : ℕ) (c : Conn) (g : Segment) : Prop :=
  c.state = .synSent → g.flags &&& (tcpSyn ||| tcpAck) = tcpSyn ||| tcpAck → g.seq = irs

instance (irs : ℕ) (c : Conn) (g : Segment) : Decidable (Opens irs c g) :=
  inferInstanceAs (Decidable (_ → _ → _))

theorem Delivered.receive (h : Delivered stream irs c out) (hlen : stream.length < 2 ^ 31)
    (hg : Carries stream irs g) (hopens : Opens irs c g) :
    Delivered stream irs (c.receive g).1 out := by
  have htaken := c.receive_taken g
  generalize c.receive g = r at htaken
  cases htaken with
  | ignored | unexpected => exact h
  | reset | lastFin | half | last | fin => exact h.over rfl nofun nofun nofun
  | accepted hstate => exact h.establish (.inr hstate) (h.accepting hstate)
  | connected hstate hflags =>
    apply h.establish (.inl hstate)
    rw [hopens hstate hflags]
  | stored hstate hseq => exact h.store hlen hstate hg hseq
  | storedFin hstate hseq => exact (h.store hlen hstate hg hseq).over rfl nofun nofun nofun

theorem Conn.recv_keeps (h : c.RingValid) (out : List UInt8) (maxLen : ℕ) :
    out ++ (c.recv maxLen).1 ++ (c.recv maxLen).2.stored = out ++ c.stored ∧
      (c.recv maxLen).2.state = c.state ∧ (c.recv maxLen).2.ackNum = c.ackNum := by
  obtain ⟨r, -, hnew, hmoved⟩ := Conn.recv_spec h maxLen
  rw [← hmoved, append_assoc, hnew]
  exact ⟨rfl, rfl, rfl⟩

theorem Delivered.recv (h : Delivered stream irs c out) (maxLen : ℕ) :
    Delivered stream irs (c.recv maxLen).2 (out ++ (c.recv maxLen).1) := by
  obtain ⟨r, hvalid, hnew, -⟩ := Conn.recv_spec h.valid maxLen
  obtain ⟨hsame, hstate, hack⟩ := Conn.recv_keeps h.valid out maxLen
  refine ⟨by rw [hnew]; exact hvalid, ?_, ?_, ?_, ?_⟩
  · rw [hsame]
    exact h.initial
  · rw [hsame, hstate, hack]
    exact h.next
  · rw [hsame, hstate]
    exact h.opening
  · rw [hstate, hack]
    exact h.accepting

/-! ### Runs -/

/-- A point of a run: the stack, and the bytes that `tcp_recv` returned for the connection. -/
structure Point where
  stack : Stack
  out : List UInt8

variable {i : ConnId} {x y : Point}

/-- A segment of the connection arrives, the bytes are read, or something happens elsewhere. The
segments that arrive are those with `fits`. -/
inductive Step (i : ConnId) (fits : Conn → Segment → Prop) : Point → Point → Prop
  | deliver {x : Point} {srcIp : ℕ} {data : List UInt8} {g : Segment}
      (hg : parse srcIp data = some g)
      (hi : x.stack.lookup g = some i) (hfits : fits (x.stack.conns i) g) :
      Step i fits x ⟨tcpProcess x.stack srcIp data, x.out⟩
  | recv {x : Point} {h : ℤ} (hi : connAt h = some i) (maxLen : ℕ) :
      Step i fits x ⟨(tcpRecv x.stack h maxLen).2.2, x.out ++ (tcpRecv x.stack h maxLen).2.1⟩
  | other {x : Point} {n : Stack} (hi : n.conns i = x.stack.conns i) : Step i fits x ⟨n, x.out⟩

abbrev Run (i : ConnId) (fits : Conn → Segment → Prop) : Point → Point → Prop :=
  Relation.ReflTransGen (Step i fits)

theorem Run.deliver {fits : Conn → Segment → Prop} {out : List UInt8} (hrun : Run i fits x ⟨n, out⟩)
    (g : Segment) (hg : parse srcIp data = some g) (hi : n.lookup g = some i)
    (hfits : fits (n.conns i) g) :
    Run i fits x ⟨tcpProcess n srcIp data, out⟩ :=
  hrun.tail (.deliver hg hi hfits)

theorem tcpProcess_conn (hg : parse srcIp data = some g) (hi : n.lookup g = some i) :
    (tcpProcess n srcIp data).conns i = ((n.conns i).receive g).1 := by
  simp only [tcpProcess, hg, tcpSegment, hi, Stack.send, Stack.set, Function.update_self]

def Fits (stream : List UInt8) (irs : ℕ) (c : Conn) (g : Segment) : Prop :=
  Carries stream irs g ∧ Opens irs c g

instance (stream : List UInt8) (irs : ℕ) (c : Conn) (g : Segment) :
    Decidable (Fits stream irs c g) :=
  inferInstanceAs (Decidable (_ ∧ _))

section

variable (hlen : stream.length < 2 ^ 31) (h : Delivered stream irs (x.stack.conns i) x.out)
include hlen h

theorem Delivered.step (hstep : Step i (Fits stream irs) x y) :
    Delivered stream irs (y.stack.conns i) y.out := by
  cases hstep with
  | deliver hg hi hfits =>
    rw [tcpProcess_conn hg hi]
    exact h.receive hlen hfits.1 hfits.2
  | recv hi maxLen =>
    simp only [tcpRecv, hi, Stack.set, Function.update_self]
    exact h.recv maxLen
  | other hi =>
    rw [hi]
    exact h

theorem Delivered.run (hrun : Run i (Fits stream irs) x y) :
    Delivered stream irs (y.stack.conns i) y.out := by
  induction hrun with
  | refl => exact h
  | tail _ hstep ih => exact ih.step hlen hstep

end

/-- A connection that has received nothing: it waits for the answer of the peer, or knows its
initial sequence number. -/
structure Opened (irs : ℕ) (c : Conn) : Prop where
  head_lt : c.rxHead < tcpRxBufSize
  empty : c.rxTail = c.rxHead
  state : c.state = .synSent ∨ (c.state = .synRecv ∨ c.state = .established) ∧
    c.ackNum = u32 (irs + 1)

theorem Opened.delivered (h : Opened irs c) (stream : List UInt8) : Delivered stream irs c [] := by
  have hvalid : c.RingValid := ⟨lt_of_eq_of_lt h.empty h.head_lt, h.head_lt⟩
  have hnil : [] ++ c.stored = [] := by
    rw [nil_append, ← length_eq_zero_iff, Conn.stored, RingBuffer.length_contents,
      RingBuffer.size_eq_zero hvalid]
    exact h.empty
  refine ⟨hvalid, ?_, fun hc => ?_, fun _ => hnil, fun hc => ?_⟩
  · rw [hnil]
    exact List.nil_prefix
  · rw [hnil]
    rcases h.state with hs | ⟨_, hack⟩
    · exact TcpState.noConfusion (hs.symm.trans hc)
    · exact hack
  · rcases h.state with hs | ⟨_, hack⟩
    · exact TcpState.noConfusion (hs.symm.trans hc)
    · exact hack

/-- **The reader gets a beginning of the peer's stream.** Segments of the connection with bytes of
the stream arrive in any order, with loss, duplication and any segmentation; the handshake carries
the initial sequence number. -/
theorem stream_delivered (stream : List UInt8) (irs : ℕ) (i : ConnId) (start : Stack)
    (hlen : stream.length < 2 ^ 31) (hstart : Opened irs (start.conns i)) (y : Point)
    (hrun : Run i (Fits stream irs) ⟨start, []⟩ y) :
    y.out ++ (y.stack.conns i).stored <+: stream ∧
      ((y.stack.conns i).state = .established → (y.stack.conns i).ackNum =
        (irs + 1 + (y.out ++ (y.stack.conns i).stored).length) % 2 ^ 32) := by
  have h := Delivered.run hlen (hstart.delivered stream) hrun
  exact ⟨h.initial, h.next⟩

def client : Stack := (tcpConnectBegin Stack.init 1 80).2

def fromServer (seq flags : UInt8) (payload : List UInt8) : List UInt8 :=
  [0, 80, 195, 80, 0, 0, 0, seq, 0, 0, 0, 0, 80, flags, 0, 0, 0, 0, 0, 0] ++ payload

/-- The handshake of a server with the initial sequence number 7, the second byte of its stream, and
the first two bytes. -/
def clientReads : Stack :=
  tcpProcess (tcpProcess (tcpProcess client 1 (fromServer 7 0x12 [])) 1 (fromServer 9 0x10 [6]))
    1 (fromServer 8 0x18 [5, 6])

theorem stream_delivered_clientReads : [] ++ (clientReads.conns 0).stored <+: [5, 6, 7] ∧
      ((clientReads.conns 0).state = .established → (clientReads.conns 0).ackNum =
        (7 + 1 + ([] ++ (clientReads.conns 0).stored).length) % 2 ^ 32) := by
  refine stream_delivered [5, 6, 7] 7 0 client (by decide) ⟨?_, ?_, .inl ?_⟩ ⟨clientReads, []⟩ ?_
  · decide +kernel
  · decide +kernel
  · decide +kernel
  · refine Run.deliver ?_ ⟨1, 80, 50000, 8, 0, 0x18, [5, 6]⟩ ?_ ?_ ?_
    · refine Run.deliver ?_ ⟨1, 80, 50000, 9, 0, 0x10, [6]⟩ ?_ ?_ ?_
      · refine Run.deliver .refl ⟨1, 80, 50000, 7, 0, 0x12, []⟩ ?_ ?_ ?_
        all_goals decide +kernel
      all_goals decide +kernel
    all_goals decide +kernel

/-- The answer to the SYN is believed whatever its sequence number, and the stream loses its first
byte. -/
theorem handshake_skips : ∃ y : Point, Run 0 (fun _ => Carries [5, 6] 7) ⟨client, []⟩ y ∧
      Opened 7 (client.conns 0) ∧
      (y.stack.conns 0).state = .established ∧
      y.out ++ (y.stack.conns 0).stored = [6] ∧
      (y.stack.conns 0).ackNum ≠ (7 + 1 + (y.out ++ (y.stack.conns 0).stored).length) % 2 ^ 32 := by
  refine ⟨⟨tcpProcess (tcpProcess client 1 (fromServer 8 0x12 [])) 1 (fromServer 9 0x10 [6]), []⟩,
    ?_, ⟨?_, ?_, .inl ?_⟩, ?_, ?_, ?_⟩
  · refine Run.deliver ?_ ⟨1, 80, 50000, 9, 0, 0x10, [6]⟩ ?_ ?_ ?_
    · refine Run.deliver .refl ⟨1, 80, 50000, 8, 0, 0x12, []⟩ ?_ ?_ ?_
      all_goals decide +kernel
    all_goals decide +kernel
  all_goals decide +kernel

end TaterTOS.Net
