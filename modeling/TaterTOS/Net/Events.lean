import TaterTOS.Net.Stream

/-!
# Events of the TCP code

Segments arrive from any source, between the calls of any number of callers.

* `Event`, `Event.run`: segments and calls; the wait of `tcp_connect` splits it into two events;
* `Event.slot`: the slot of the connection table that an event is about; `Event.read`,
  `Event.sends`: what an event reads from a connection and sends for it.
-/

namespace TaterTOS.Net

open Function Lib

inductive Event
  | segment (srcIp : ℕ) (data : List UInt8)
  | connect (dstIp dstPort : ℕ)
  | connected (i : ConnId)
  | listen (port : ℕ)
  | accept (h : ℤ)
  | send (h : ℤ) (data : List UInt8)
  | recv (h : ℤ) (maxLen : ℕ)
  | close (h : ℤ)

def Stack.acceptable (n : Stack) (h : ℤ) : Option ConnId :=
  match connAt h with
  | none => none
  | some l =>
    if (n.conns l).state ≠ .listen then none
    else connIds.find? fun i => let c := n.conns i
      c.active && c.listenParent == h && c.state == .established && !c.accepted

namespace Event

def run (n : Stack) : Event → Stack
  | segment srcIp data => tcpProcess n srcIp data
  | connect dstIp dstPort => (tcpConnectBegin n dstIp dstPort).2
  | connected i => (tcpConnectEnd n i).2
  | listen port => (tcpListen n port).2
  | accept h => (tcpAccept n h).2
  | send h data => (tcpSend n h data).2
  | recv h maxLen => (tcpRecv n h maxLen).2.2
  | close h => tcpClose n h

def slot (n : Stack) : Event → Option ConnId
  | segment srcIp data =>
    match parse srcIp data with
    | none => none
    | some g =>
      match n.lookup g with
      | some i => some i
      | none =>
        match n.listener g with
        | some _ => if g.has tcpSyn && !g.has tcpAck then n.freeSlot else none
        | none => none
  | connect _ _ | listen _ => n.freeSlot
  | connected i => some i
  | accept h => n.acceptable h
  | send h _ | recv h _ | close h => connAt h

end Event

/-! ### What an event reads and sends -/

def Event.read (n : Stack) (i : ConnId) : Event → List UInt8
  | .recv h maxLen => if connAt h = some i then (tcpRecv n h maxLen).2.1 else []
  | _ => []

def Event.sends (n : Stack) (i : ConnId) (e : Event) : List Sent :=
  if e.slot n = some i then (e.run n).sent.drop n.sent.length else []

structure Sent.Of (s : Sent) (c : Conn) : Prop where
  remoteIp : s.remoteIp = c.remoteIp
  remotePort : s.remotePort = c.remotePort
  localPort : s.localPort = c.localPort

/-! ### What an event can do -/

def clientConn (n : Stack) (dstIp dstPort : ℕ) : Conn :=
  { Conn.zero with
    remoteIp := dstIp, remotePort := dstPort, localPort := n.nextPort, seqNum := n.isn.1
    state := .synSent, active := true, listenParent := -1, accepted := true }

def serverConn (n : Stack) (l : ConnId) (g : Segment) : Conn :=
  { Conn.zero with
    remoteIp := g.srcIp, remotePort := g.srcPort, localPort := g.dstPort, seqNum := n.isn.1
    ackNum := u32 (g.seq + 1), state := .synRecv, active := true, listenParent := l.val }

def listenConn (port : ℕ) : Conn :=
  { Conn.zero with
    localPort := port, state := .listen, active := true, listenParent := -1, accepted := true }

inductive Change (n : Stack) (i : ConnId) : Event → Conn → List Sent → Prop
  | receive {srcIp : ℕ} {data : List UInt8} {g : Segment} (hg : parse srcIp data = some g)
      (hi : n.lookup g = some i) :
      Change n i (.segment srcIp data) ((n.conns i).receive g).1 ((n.conns i).receive g).2
  | spawn {srcIp : ℕ} {data : List UInt8} {g : Segment} {l : ConnId}
      (hg : parse srcIp data = some g)
      (hnone : n.lookup g = none) (hl : n.listener g = some l) (hfree : n.freeSlot = some i) :
      Change n i (.segment srcIp data)
        { serverConn n l g with seqNum := u32 ((serverConn n l g).seqNum + 1) }
        [(serverConn n l g).segment (tcpSyn ||| tcpAck) []]
  | connect {dstIp dstPort : ℕ} (hfree : n.freeSlot = some i) : Change n i (.connect dstIp dstPort)
        { clientConn n dstIp dstPort with seqNum := u32 ((clientConn n dstIp dstPort).seqNum + 1) }
        [(clientConn n dstIp dstPort).segment tcpSyn []]
  | connected (hest : (n.conns i).state = .established) : Change n i (.connected i) (n.conns i) []
  | timeout (hest : (n.conns i).state ≠ .established) :
      Change n i (.connected i) (n.conns i).closed []
  | listen {port : ℕ} (hfree : n.freeSlot = some i) : Change n i (.listen port) (listenConn port) []
  | accept {h : ℤ} (hi : n.acceptable h = some i) :
      Change n i (.accept h) { n.conns i with accepted := true } []
  | refused {h : ℤ} {data : List UInt8} (hi : connAt h = some i)
      (hest : (n.conns i).state ≠ .established) :
      Change n i (.send h data) (n.conns i) []
  | send {h : ℤ} {data : List UInt8} (hi : connAt h = some i)
      (hest : (n.conns i).state = .established) :
      Change n i (.send h data) ((n.conns i).sendChunks data.length data).1
        ((n.conns i).sendChunks data.length data).2
  | recv {h : ℤ} {maxLen : ℕ} (hi : connAt h = some i) :
      Change n i (.recv h maxLen) ((n.conns i).recv maxLen).2 []
  | fin {h : ℤ} (hi : connAt h = some i) (hest : (n.conns i).state = .established) :
      Change n i (.close h)
        { n.conns i with seqNum := u32 ((n.conns i).seqNum + 1), state := .finWait1 }
        [(n.conns i).segment (tcpFin ||| tcpAck) []]
  | close {h : ℤ} (hi : connAt h = some i) (hest : (n.conns i).state ≠ .established) :
      Change n i (.close h) (n.conns i).closed []

variable {n : Stack} {i : ConnId} {e : Event}

structure Changed (n : Stack) (i : ConnId) (e : Event) (n' : Stack) : Prop where
  other : ∀ j, j ≠ i → n'.conns j = n.conns j
  self : ∃ out, Change n i e (n'.conns i) out ∧ n'.sent = n.sent ++ out

theorem Changed.of_set {n0 : Stack} {c : Conn} {out : List Sent} (hconns : n0.conns = n.conns)
    (hsent : n0.sent = n.sent) (h : Change n i e c out) :
    Changed n i e ((n0.set i c).send out) where
  other j hj := by
    change update n0.conns i c j = n.conns j
    rw [update_of_ne hj, hconns]
  self := by
    refine ⟨out, ?_, ?_⟩
    · change Change n i e (update n0.conns i c i) out
      rw [update_self]
      exact h
    · change n0.sent ++ out = n.sent ++ out
      rw [hsent]

theorem Changed.of_quiet {c : Conn} (h : Change n i e c []) : Changed n i e (n.set i c) := by
  have := Changed.of_set rfl rfl h
  rwa [show (n.set i c).send [] = n.set i c by simp [Stack.send]] at this

theorem Changed.of_same (h : Change n i e (n.conns i) []) : Changed n i e n :=
  ⟨fun _ _ => rfl, [], h, (List.append_nil _).symm⟩

theorem Stack.isn_snd (n : Stack) : n.isn.2 = { n with isnCounter := n.isn.1 } := rfl

theorem Stack.isn_conns (n : Stack) : n.isn.2.conns = n.conns := by rw [Stack.isn_snd]

theorem Stack.isn_sent (n : Stack) : n.isn.2.sent = n.sent := by rw [Stack.isn_snd]

theorem Stack.refuse_spec (n : Stack) (g : Segment) :
    (n.refuse g).conns = n.conns ∧ n.sent <+: (n.refuse g).sent := by
  unfold Stack.refuse
  split_ifs
  · exact ⟨rfl, List.prefix_rfl⟩
  · exact ⟨rfl, List.prefix_append _ _⟩

inductive Outcome (n : Stack) (e : Event) : Option ConnId → Stack → Prop
  | idle {n' : Stack} (h : n'.conns = n.conns ∧ n.sent <+: n'.sent) : Outcome n e none n'
  | changed {n' : Stack} {i : ConnId} (h : Changed n i e n') : Outcome n e (some i) n'

theorem Outcome.same : Outcome n e none n := .idle ⟨rfl, List.prefix_rfl⟩

theorem Event.outcome_segment (n : Stack) (srcIp : ℕ) (data : List UInt8) :
    Outcome n (.segment srcIp data) ((Event.segment srcIp data).slot n)
    (tcpProcess n srcIp data) := by
  dsimp only [Event.slot]
  unfold tcpProcess
  cases hg : parse srcIp data with
  | none => exact .same
  | some g =>
    dsimp only
    unfold tcpSegment
    cases hi : n.lookup g with
    | some j => exact .changed (.of_set rfl rfl (.receive hg hi))
    | none =>
      cases hl : n.listener g with
      | none => exact .idle (n.refuse_spec g)
      | some l =>
        split_ifs
        · unfold Stack.acceptSyn
          cases hfree : n.freeSlot with
          | none => exact .same
          | some i => exact .changed (.of_set n.isn_conns n.isn_sent (.spawn hg hi hl hfree))
        · exact .idle (n.refuse_spec g)

theorem tcpAccept_eq (n : Stack) (k : ℤ) : tcpAccept n k = match n.acceptable k with
    | none => (-1, n)
    | some i => (i.val, n.set i { n.conns i with accepted := true }) := by
  unfold tcpAccept Stack.acceptable
  cases connAt k with
  | none => rfl
  | some l =>
    dsimp only
    split_ifs <;> rfl

theorem Event.outcome (e : Event) (n : Stack) : Outcome n e (e.slot n) (e.run n) := by
  cases e with
  | segment srcIp data => exact Event.outcome_segment n srcIp data
  | connect dstIp dstPort =>
    dsimp only [Event.slot, Event.run]
    unfold tcpConnectBegin
    cases h : n.freeSlot with
    | none => exact .same
    | some i =>
      have hconnect : Change n i (.connect dstIp dstPort) _ _ := .connect h
      obtain ⟨hother, hself⟩ := Changed.of_set n.isn_conns n.isn_sent hconnect
      exact .changed ⟨hother, hself⟩
  | connected j =>
    dsimp only [Event.run]
    unfold tcpConnectEnd
    split_ifs with hest
    · exact .changed (.of_same (.connected hest))
    · exact .changed (.of_quiet (.timeout hest))
  | listen port =>
    dsimp only [Event.slot, Event.run]
    unfold tcpListen
    cases h : n.freeSlot with
    | none => exact .same
    | some i => exact .changed (.of_quiet (.listen h))
  | accept k =>
    dsimp only [Event.slot, Event.run]
    rw [tcpAccept_eq]
    cases h : n.acceptable k with
    | none => exact .same
    | some i => exact .changed (.of_quiet (.accept h))
  | send k data =>
    dsimp only [Event.slot, Event.run]
    unfold tcpSend
    cases h : connAt k with
    | none => exact .same
    | some i =>
      dsimp only
      split_ifs with hest
      · exact .changed (.of_same (.refused h hest))
      · exact .changed (.of_set rfl rfl (.send h (not_not.mp hest)))
  | recv k maxLen =>
    dsimp only [Event.slot, Event.run]
    unfold tcpRecv
    cases h : connAt k with
    | none => exact .same
    | some i => exact .changed (.of_quiet (.recv h))
  | close k =>
    dsimp only [Event.slot, Event.run]
    unfold tcpClose
    cases h : connAt k with
    | none => exact .same
    | some i =>
      dsimp only
      split_ifs with hest
      · exact .changed (.of_set rfl rfl (.fin h hest))
      · exact .changed (.of_quiet (.close h hest))

theorem Event.run_none (h : e.slot n = none) :
    (e.run n).conns = n.conns ∧ n.sent <+: (e.run n).sent := by
  have hout := e.outcome n
  rw [h] at hout
  cases hout with
  | idle hsame => exact hsame

theorem Event.change (h : e.slot n = some i) : Changed n i e (e.run n) := by
  have hout := e.outcome n
  rw [h] at hout
  cases hout with
  | changed hchanged => exact hchanged

theorem Event.run_other (h : e.slot n ≠ some i) : (e.run n).conns i = n.conns i := by
  cases hs : e.slot n with
  | none => rw [(Event.run_none hs).1]
  | some j =>
    refine (Event.change hs).other i ?_
    rintro rfl
    exact h hs

theorem Event.read_other (h : e.slot n ≠ some i) : e.read n i = [] := by
  cases e with
  | recv k maxLen => exact if_neg h
  | _ => rfl

theorem Event.read_recv {k : ℤ} {maxLen : ℕ} (h : connAt k = some i) :
    (Event.recv k maxLen).read n i = ((n.conns i).recv maxLen).1 := by
  simp only [Event.read, tcpRecv, h, if_true]

theorem Event.sent_prefix (e : Event) (n : Stack) : n.sent <+: (e.run n).sent := by
  cases hs : e.slot n with
  | none => exact (Event.run_none hs).2
  | some i =>
    obtain ⟨out, -, hsent⟩ := (Event.change hs).self
    exact ⟨out, hsent.symm⟩

/-! ### What the loops change -/

theorem Conn.buffer_frame (xs : List UInt8) : ∀ c : Conn, ∃ buf head,
    (c.buffer xs).2 = { c with rxBuf := buf, rxHead := head } := by
  induction xs with
  | nil => exact fun c => ⟨c.rxBuf, c.rxHead, rfl⟩
  | cons x xs ih =>
    intro c
    unfold Conn.buffer
    dsimp only
    split_ifs
    · exact ⟨c.rxBuf, c.rxHead, rfl⟩
    · obtain ⟨buf, head, hb⟩ := ih { c with
        rxBuf := update c.rxBuf c.rxHead x, rxHead := (c.rxHead + 1) % tcpRxBufSize }
      exact ⟨buf, head, hb⟩

theorem Conn.store_state (c : Conn) (g : Segment) : (c.store g).state = c.state := by
  obtain ⟨buf, head, hb⟩ := Conn.buffer_frame g.payload c
  rw [Conn.store, hb]

theorem Conn.sendChunks_spec : ∀ (n : ℕ) (c : Conn) (data : List UInt8),
    (∀ s ∈ (c.sendChunks n data).2, s.ack = c.ackNum ∧ s.Of c) ∧
      ∃ seq, (c.sendChunks n data).1 = { c with seqNum := seq }
  | 0, c, _ => ⟨nofun, c.seqNum, rfl⟩
  | n + 1, c, [] => ⟨nofun, c.seqNum, rfl⟩
  | n + 1, c, x :: xs => by
    unfold Conn.sendChunks
    dsimp only
    obtain ⟨hack, seq, hseq⟩ := Conn.sendChunks_spec n
      { c with seqNum := u32 (c.seqNum + ((x :: xs).take 1400).length) } ((x :: xs).drop 1400)
    refine ⟨fun s hs => ?_, seq, hseq⟩
    rcases List.mem_cons.mp hs with rfl | hs
    · exact ⟨rfl, rfl, rfl, rfl⟩
    · exact ⟨(hack s hs).1, (hack s hs).2.remoteIp, (hack s hs).2.remotePort,
        (hack s hs).2.localPort⟩

theorem Conn.take_frame : ∀ (k : ℕ) (c : Conn), ∃ tail, (c.take k).2 = { c with rxTail := tail }
  | 0, c => ⟨c.rxTail, rfl⟩
  | k + 1, c => by
    obtain ⟨tail, htail⟩ := Conn.take_frame k { c with rxTail := (c.rxTail + 1) % tcpRxBufSize }
    exact ⟨tail, htail⟩

theorem Conn.recv_frame (c : Conn) (maxLen : ℕ) :
    ∃ tail, (c.recv maxLen).2 = { c with rxTail := tail } := by
  unfold Conn.recv
  split_ifs
  · exact ⟨c.rxTail, rfl⟩
  · exact Conn.take_frame _ c

/-! ### Reachable stacks -/

inductive Reachable : Stack → Prop
  | init : Reachable Stack.init
  | step {n : Stack} (h : Reachable n) (e : Event) : Reachable (e.run n)

theorem freeSlot_inactive (h : n.freeSlot = some i) : (n.conns i).active = false := by
  have := List.find?_some h
  simpa using this

theorem lookup_matches {g : Segment} (h : n.lookup g = some i) : (n.conns i).matches g = true := by
  have := List.find?_some h
  exact this

end TaterTOS.Net
