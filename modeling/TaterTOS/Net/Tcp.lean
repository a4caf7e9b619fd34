import TaterTOS.Lib.RingBuffer
import TaterTOS.Lib.Word

/-!
# TCP connections

A model of the TCP code of `drivers/net/netcore.c`.

Sent segments are recorded with the fields of their headers; checksums and the layers below are not
modelled.  `Taken` lists what a segment can do to its connection.
-/

namespace TaterTOS.Net

open Lib

abbrev tcpMaxConnections : ℕ := 16

def tcpRxBufSize : ℕ := 1048576

abbrev ConnId := Fin tcpMaxConnections

def tcpFin : ℕ := 0x01
def tcpSyn : ℕ := 0x02
def tcpRst : ℕ := 0x04
def tcpPsh : ℕ := 0x08
def tcpAck : ℕ := 0x10

inductive TcpState
  | closed
  | synSent
  | established
  | finWait1
  | finWait2
  | closeWait
  | lastAck
  | timeWait
  | listen
  | synRecv
  deriving DecidableEq, Repr

/-! ### Segments -/

def be16 (data : List UInt8) (i : ℕ) : ℕ :=
  (data.getD i 0).toNat * 256 + (data.getD (i + 1) 0).toNat

def be32 (data : List UInt8) (i : ℕ) : ℕ := be16 data i * 65536 + be16 data (i + 2)

structure Segment where
  srcIp : ℕ
  srcPort : ℕ
  dstPort : ℕ
  seq : ℕ
  ack : ℕ
  flags : ℕ
  payload : List UInt8
  deriving DecidableEq, Repr

def Segment.has (g : Segment) (flag : ℕ) : Bool := g.flags &&& flag != 0

def dataOff (data : List UInt8) : ℕ := (data.getD 12 0).toNat / 16 * 4

def parse (srcIp : ℕ) (data : List UInt8) : Option Segment :=
  if data.length < 20 then none
  else if data.length < dataOff data then none
  else some {
    srcIp := srcIp
    srcPort := be16 data 0
    dstPort := be16 data 2
    seq := be32 data 4
    ack := be32 data 8
    flags := (data.getD 13 0).toNat
    payload := data.drop (dataOff data) }

structure Sent where
  remoteIp : ℕ
  remotePort : ℕ
  localPort : ℕ
  seq : ℕ
  ack : ℕ
  flags : ℕ
  data : List UInt8
  deriving DecidableEq, Repr

/-! ### Connections -/

structure Conn where
  remoteIp : ℕ
  remotePort : ℕ
  localPort : ℕ
  seqNum : ℕ
  ackNum : ℕ
  state : TcpState
  active : Bool
  listenParent : ℤ
  accepted : Bool
  rxBuf : ℕ → UInt8
  rxHead : ℕ
  rxTail : ℕ

def Conn.zero : Conn where
  remoteIp := 0
  remotePort := 0
  localPort := 0
  seqNum := 0
  ackNum := 0
  state := .closed
  active := false
  listenParent := 0
  accepted := false
  rxBuf _ := 0
  rxHead := 0
  rxTail := 0

def Conn.segment (c : Conn) (flags : ℕ) (data : List UInt8) : Sent :=
  ⟨c.remoteIp, c.remotePort, c.localPort, c.seqNum, c.ackNum, flags, data⟩

def Conn.closed (c : Conn) : Conn := { c with state := .closed, active := false }

def Conn.buffer : Conn → List UInt8 → ℕ × Conn
  | c, [] => (0, c)
  | c, x :: xs =>
    let next := (c.rxHead + 1) % tcpRxBufSize
    if next = c.rxTail then (0, c)
    else
      let r := Conn.buffer { c with rxBuf := Function.update c.rxBuf c.rxHead x, rxHead := next } xs
      (r.1 + 1, r.2)

def Conn.finish (c : Conn) : Conn × List Sent :=
  ({ c with seqNum := u32 (c.seqNum + 1), state := .lastAck },
    [c.segment tcpAck [], c.segment (tcpFin ||| tcpAck) []])

/-- A segment in the state `TCP_ESTABLISHED`: the payload comes first, even with a FIN. -/
def Conn.receiveEstablished (c : Conn) (g : Segment) : Conn × List Sent :=
  if g.payload.length > 0 then
    if g.seq ≠ c.ackNum then (c, [c.segment tcpAck []])
    else
      let r := c.buffer g.payload
      let c := { r.2 with ackNum := u32 (g.seq + r.1) }
      if g.has tcpFin then Conn.finish { c with ackNum := u32 (c.ackNum + 1) }
      else (c, [c.segment tcpAck []])
  else if g.has tcpFin then Conn.finish { c with ackNum := u32 (g.seq + 1) }
  else (c, [])

def Conn.receiveLastFin (c : Conn) (g : Segment) : Conn × List Sent :=
  let c := { c with ackNum := u32 (g.seq + 1) }
  (c.closed, [c.segment tcpAck []])

def Conn.receive (c : Conn) (g : Segment) : Conn × List Sent :=
  if g.has tcpRst then (c.closed, [])
  else
    match c.state with
    | .synRecv => if g.has tcpAck then ({ c with state := .established }, []) else (c, [])
    | .synSent =>
      if g.flags &&& (tcpSyn ||| tcpAck) = tcpSyn ||| tcpAck then
        let c := { c with ackNum := u32 (g.seq + 1), state := .established }
        (c, [c.segment tcpAck []])
      else (c, [])
    | .established => c.receiveEstablished g
    | .finWait1 =>
      if g.has tcpAck then
        if g.has tcpFin then c.receiveLastFin g else ({ c with state := .finWait2 }, [])
      else (c, [])
    | .finWait2 => if g.has tcpFin then c.receiveLastFin g else (c, [])
    | .lastAck => if g.has tcpAck then (c.closed, []) else (c, [])
    | _ => (c, [])

def Conn.rxAvailable (c : Conn) : ℕ :=
  if c.rxTail ≤ c.rxHead then c.rxHead - c.rxTail else tcpRxBufSize - c.rxTail + c.rxHead

def Conn.take : ℕ → Conn → List UInt8 × Conn
  | 0, c => ([], c)
  | n + 1, c =>
    let r := Conn.take n { c with rxTail := (c.rxTail + 1) % tcpRxBufSize }
    (c.rxBuf c.rxTail :: r.1, r.2)

def Conn.recv (c : Conn) (maxLen : ℕ) : List UInt8 × Conn :=
  if c.rxAvailable = 0 then ([], c) else c.take (min c.rxAvailable maxLen)

/-! ### The connection table -/

structure Stack where
  conns : ConnId → Conn
  nextPort : ℕ
  isnCounter : ℕ
  sent : List Sent

def Stack.init : Stack := ⟨fun _ => Conn.zero, 50000, 0x12345678, []⟩

def Stack.set (n : Stack) (i : ConnId) (c : Conn) : Stack :=
  { n with conns := Function.update n.conns i c }

def Stack.send (n : Stack) (out : List Sent) : Stack := { n with sent := n.sent ++ out }

def Stack.isn (n : Stack) : ℕ × Stack :=
  let v := u32 (n.isnCounter + 64000)
  (v, { n with isnCounter := v })

def connIds : List ConnId := List.finRange tcpMaxConnections

def Stack.freeSlot (n : Stack) : Option ConnId := connIds.find? fun i => !(n.conns i).active

def Conn.matches (c : Conn) (g : Segment) : Bool :=
  c.active && c.remoteIp == g.srcIp && c.remotePort == g.srcPort && c.localPort == g.dstPort

def Stack.lookup (n : Stack) (g : Segment) : Option ConnId :=
  connIds.find? fun i => (n.conns i).matches g

def Stack.listener (n : Stack) (g : Segment) : Option ConnId :=
  connIds.find? fun i => let c := n.conns i
    c.active && c.state == .listen && c.localPort == g.dstPort

def Stack.acceptSyn (n : Stack) (l : ConnId) (g : Segment) : Stack :=
  match n.freeSlot with
  | none => n
  | some i =>
    let r := n.isn
    let c : Conn := { Conn.zero with
      remoteIp := g.srcIp, remotePort := g.srcPort, localPort := g.dstPort, seqNum := r.1
      ackNum := u32 (g.seq + 1), state := .synRecv, active := true, listenParent := l.val }
    (r.2.set i { c with seqNum := u32 (c.seqNum + 1) }).send [c.segment (tcpSyn ||| tcpAck) []]

def Stack.refuse (n : Stack) (g : Segment) : Stack :=
  if g.has tcpRst then n
  else
    let c : Conn := { Conn.zero with
      remoteIp := g.srcIp, remotePort := g.srcPort, localPort := g.dstPort, seqNum := g.ack
      ackNum := u32 (g.seq + 1) }
    n.send [c.segment (tcpRst ||| tcpAck) []]

def tcpSegment (n : Stack) (g : Segment) : Stack :=
  match n.lookup g with
  | some i =>
    let r := (n.conns i).receive g
    (n.set i r.1).send r.2
  | none =>
    match n.listener g with
    | some l => if g.has tcpSyn && !g.has tcpAck then n.acceptSyn l g else n.refuse g
    | none => n.refuse g

def tcpProcess (n : Stack) (srcIp : ℕ) (data : List UInt8) : Stack :=
  match parse srcIp data with
  | none => n
  | some g => tcpSegment n g

/-! ### Calls -/

def connAt (h : ℤ) : Option ConnId :=
  if hlt : h.toNat < tcpMaxConnections then if 0 ≤ h then some ⟨h.toNat, hlt⟩ else none else none

def tcpConnectBegin (n : Stack) (dstIp dstPort : ℕ) : Option ConnId × Stack :=
  match n.freeSlot with
  | none => (none, n)
  | some i =>
    let r := n.isn
    let c : Conn := { Conn.zero with
      remoteIp := dstIp, remotePort := dstPort, localPort := n.nextPort, seqNum := r.1
      state := .synSent, active := true, listenParent := -1, accepted := true }
    (some i, { (r.2.set i { c with seqNum := u32 (c.seqNum + 1) }).send [c.segment tcpSyn []] with
      nextPort := (n.nextPort + 1) % 65536 })

def tcpConnectEnd (n : Stack) (i : ConnId) : ℤ × Stack :=
  if (n.conns i).state = .established then (i.val, n) else (-1, n.set i (n.conns i).closed)

def tcpListen (n : Stack) (port : ℕ) : ℤ × Stack :=
  match n.freeSlot with
  | none => (-1, n)
  | some i => (i.val, n.set i { Conn.zero with
      localPort := port, state := .listen, active := true, listenParent := -1, accepted := true })

def tcpAccept (n : Stack) (h : ℤ) : ℤ × Stack :=
  match connAt h with
  | none => (-1, n)
  | some l =>
    if (n.conns l).state ≠ .listen then (-1, n)
    else
      match connIds.find? fun i => let c := n.conns i
          c.active && c.listenParent == h && c.state == .established && !c.accepted with
      | none => (-1, n)
      | some i => (i.val, n.set i { n.conns i with accepted := true })

def Conn.sendChunks : ℕ → Conn → List UInt8 → Conn × List Sent
  | 0, c, _ => (c, [])
  | _, c, [] => (c, [])
  | n + 1, c, data =>
    let chunk := data.take 1400
    let r := Conn.sendChunks n { c with seqNum := u32 (c.seqNum + chunk.length) } (data.drop 1400)
    (r.1, c.segment (tcpAck ||| tcpPsh) chunk :: r.2)

def tcpSend (n : Stack) (h : ℤ) (data : List UInt8) : ℤ × Stack :=
  match connAt h with
  | none => (-1, n)
  | some i =>
    let c := n.conns i
    if c.state ≠ .established then (-1, n)
    else
      let r := c.sendChunks data.length data
      (data.length, (n.set i r.1).send r.2)

def tcpRecv (n : Stack) (h : ℤ) (maxLen : ℕ) : ℤ × List UInt8 × Stack :=
  match connAt h with
  | none => (-1, [], n)
  | some i =>
    let r := (n.conns i).recv maxLen
    (r.1.length, r.1, n.set i r.2)

def tcpClose (n : Stack) (h : ℤ) : Stack :=
  match connAt h with
  | none => n
  | some i =>
    let c := n.conns i
    if c.state = .established then
      (n.set i { c with seqNum := u32 (c.seqNum + 1), state := .finWait1 }).send
        [c.segment (tcpFin ||| tcpAck) []]
    else n.set i c.closed

/-! ### What a segment can do -/

def Conn.store (c : Conn) (g : Segment) : Conn :=
  { (c.buffer g.payload).2 with ackNum := u32 (g.seq + (c.buffer g.payload).1) }

inductive Taken (c : Conn) (g : Segment) : Conn × List Sent → Prop
  | ignored : Taken c g (c, [])
  | reset (hrst : g.has tcpRst) : Taken c g (c.closed, [])
  | accepted (hstate : c.state = .synRecv) (hack : g.has tcpAck) :
      Taken c g ({ c with state := .established }, [])
  | connected (hstate : c.state = .synSent)
      (hflags : g.flags &&& (tcpSyn ||| tcpAck) = tcpSyn ||| tcpAck) :
      Taken c g ({ c with ackNum := u32 (g.seq + 1), state := .established },
        [{ c with ackNum := u32 (g.seq + 1), state := .established }.segment tcpAck []])
  | unexpected (hstate : c.state = .established) : Taken c g (c, [c.segment tcpAck []])
  | stored (hstate : c.state = .established) (hseq : g.seq = c.ackNum) :
      Taken c g (c.store g, [(c.store g).segment tcpAck []])
  | storedFin (hstate : c.state = .established) (hseq : g.seq = c.ackNum) (hfin : g.has tcpFin) :
      Taken c g (Conn.finish { c.store g with ackNum := u32 ((c.store g).ackNum + 1) })
  | fin (hstate : c.state = .established) (hpay : g.payload = []) (hfin : g.has tcpFin) :
      Taken c g (Conn.finish { c with ackNum := u32 (g.seq + 1) })
  | lastFin (hstate : c.state = .finWait1 ∧ g.has tcpAck ∨ c.state = .finWait2)
      (hfin : g.has tcpFin) : Taken c g (c.receiveLastFin g)
  | half (hstate : c.state = .finWait1) (hack : g.has tcpAck) :
      Taken c g ({ c with state := .finWait2 }, [])
  | last (hstate : c.state = .lastAck) (hack : g.has tcpAck) : Taken c g (c.closed, [])

theorem Conn.receive_taken (c : Conn) (g : Segment) : Taken c g (c.receive g) := by
  unfold Conn.receive
  by_cases hrst : g.has tcpRst
  · rw [if_pos hrst]
    exact .reset hrst
  rw [if_neg hrst]
  cases hstate : c.state with
  | synRecv =>
    dsimp only
    split_ifs with hack
    · exact .accepted hstate hack
    · exact .ignored
  | synSent =>
    dsimp only
    split_ifs with hflags
    · exact .connected hstate hflags
    · exact .ignored
  | established =>
    dsimp only [Conn.receiveEstablished]
    split_ifs with hpay hseq hfin hfin
    · exact .unexpected hstate
    · exact .storedFin hstate (not_not.mp hseq) hfin
    · exact .stored hstate (not_not.mp hseq)
    · exact .fin hstate (List.length_eq_zero_iff.mp (by omega)) hfin
    · exact .ignored
  | finWait1 =>
    dsimp only
    split_ifs with hack hfin
    · exact .lastFin (.inl ⟨hstate, hack⟩) hfin
    · exact .half hstate hack
    · exact .ignored
  | finWait2 =>
    dsimp only
    split_ifs with hfin
    · exact .lastFin (.inr hstate) hfin
    · exact .ignored
  | lastAck =>
    dsimp only
    split_ifs with hack
    · exact .last hstate hack
    · exact .ignored
  | closed | closeWait | timeWait | listen => exact .ignored

end TaterTOS.Net
