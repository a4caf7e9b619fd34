import TaterTOS.Net.Events

/-!
# Segments that change the state of a connection

* `Numbered`: a connection that opens or closes waits for the number after its SYN or FIN;
* **`state_guarded`**: when every change of the state of a connection has the acceptable
  acknowledgement or sequence number, and a segment with neither changes nothing.
-/

namespace TaterTOS.Net

open Lib List

variable {n : Stack} {i : ConnId} {c : Conn} {g : Segment} {sent sent' : List Sent} {c' : Conn}

def Conn.Waits (c : Conn) (sent : List Sent) (flag : ℕ) : Prop :=
  ∃ s ∈ sent, s.Of c ∧ s.flags &&& flag ≠ 0 ∧ c.seqNum = u32 (s.seq + 1)

/-- A connection that opens or closes waits for the acknowledgement of its SYN or FIN. -/
structure Numbered (sent : List Sent) (c : Conn) : Prop where
  syn : c.state = .synSent ∨ c.state = .synRecv → c.Waits sent tcpSyn
  fin : c.state = .finWait1 ∨ c.state = .lastAck → c.Waits sent tcpFin

theorem Conn.Waits.mono {flag : ℕ} (h : c.Waits sent flag) (hsent : sent <+: sent') :
    c.Waits sent' flag := by
  obtain ⟨s, hs, hrest⟩ := h
  exact ⟨s, hsent.subset hs, hrest⟩

theorem Numbered.mono (h : Numbered sent c) (hsent : sent <+: sent') : Numbered sent' c :=
  ⟨fun hs => (h.syn hs).mono hsent, fun hs => (h.fin hs).mono hsent⟩

theorem numbered_of_state (h1 : c.state ≠ .synSent) (h2 : c.state ≠ .synRecv)
    (h3 : c.state ≠ .finWait1) (h4 : c.state ≠ .lastAck) : Numbered sent c :=
  ⟨fun hs => absurd hs (not_or.mpr ⟨h1, h2⟩), fun hs => absurd hs (not_or.mpr ⟨h3, h4⟩)⟩

theorem Numbered.congr (h : Numbered sent c) (hstate : c'.state = c.state)
    (hseq : c'.seqNum = c.seqNum) (hip : c'.remoteIp = c.remoteIp)
    (hport : c'.remotePort = c.remotePort) (hlocal : c'.localPort = c.localPort) :
    Numbered sent c' := by
  have hwaits : ∀ {flag}, c.Waits sent flag → c'.Waits sent flag := by
    rintro flag ⟨s, hs, hof, hflag, hnum⟩
    refine ⟨s, hs, ⟨?_, ?_, ?_⟩, hflag, hseq.trans hnum⟩
    · rw [hip, hof.remoteIp]
    · rw [hport, hof.remotePort]
    · rw [hlocal, hof.localPort]
  refine ⟨fun hs => ?_, fun hs => ?_⟩
  · rw [hstate] at hs
    exact hwaits (h.syn hs)
  · rw [hstate] at hs
    exact hwaits (h.fin hs)

/-! ### Segments -/

theorem numbered_finish (sent : List Sent) (c : Conn) :
    Numbered (sent ++ c.finish.2) c.finish.1 := by
  refine ⟨fun hs => (by rcases hs with hs | hs <;> cases hs), fun _ => ?_⟩
  refine ⟨c.segment (tcpFin ||| tcpAck) [], ?_, ⟨rfl, rfl, rfl⟩,
    show (tcpFin ||| tcpAck) &&& tcpFin ≠ 0 by decide, rfl⟩
  exact mem_append_right _ (mem_cons_of_mem _ mem_cons_self)

theorem Numbered.receive (h : Numbered sent c) (g : Segment) :
    Numbered (sent ++ (c.receive g).2) (c.receive g).1 := by
  have hopen : ∀ {sent} {c' : Conn}, c'.state = .established → Numbered sent c' := by
    intro sent c' hc'
    refine numbered_of_state ?_ ?_ ?_ ?_ <;> rw [hc'] <;> nofun
  have htaken := c.receive_taken g
  generalize c.receive g = r at htaken
  cases htaken with
  | ignored => exact h.mono (List.prefix_append _ _)
  | reset | lastFin | half | last => exact numbered_of_state nofun nofun nofun nofun
  | accepted | connected => exact hopen rfl
  | unexpected hstate => exact hopen hstate
  | stored hstate => exact hopen ((c.store_state g).trans hstate)
  | storedFin | fin => exact numbered_finish _ _

/-! ### Runs -/

theorem Numbered.change {e : Event} {out : List Sent} (h : Numbered n.sent (n.conns i))
    (hchange : Change n i e c' out) : Numbered (n.sent ++ out) c' := by
  have hsame := h.mono (List.prefix_append n.sent out)
  cases hchange with
  | receive hg hi => exact h.receive _
  | spawn hg hnone hl hfree =>
    refine ⟨fun _ => ?_, fun hs => (by rcases hs with hs | hs <;> cases hs)⟩
    exact ⟨_, mem_append_right _ mem_cons_self, ⟨rfl, rfl, rfl⟩,
      show (tcpSyn ||| tcpAck) &&& tcpSyn ≠ 0 by decide, rfl⟩
  | connect hfree =>
    refine ⟨fun _ => ?_, fun hs => (by rcases hs with hs | hs <;> cases hs)⟩
    exact ⟨_, mem_append_right _ mem_cons_self, ⟨rfl, rfl, rfl⟩,
      show tcpSyn &&& tcpSyn ≠ 0 by decide, rfl⟩
  | connected hest => exact hsame
  | timeout | listen | close => exact numbered_of_state nofun nofun nofun nofun
  | accept hi => exact hsame.congr rfl rfl rfl rfl rfl
  | refused hi hest => exact hsame
  | @send k data hi hest =>
    obtain ⟨-, seq, hseq⟩ := Conn.sendChunks_spec data.length (n.conns i) data
    rw [hseq]
    refine numbered_of_state ?_ ?_ ?_ ?_ <;> dsimp only <;> rw [hest] <;> nofun
  | @recv k maxLen hi =>
    obtain ⟨tail, htail⟩ := Conn.recv_frame (n.conns i) maxLen
    rw [htail]
    exact hsame.congr rfl rfl rfl rfl rfl
  | fin hi hest =>
    refine ⟨fun hs => (by rcases hs with hs | hs <;> cases hs), fun _ => ?_⟩
    exact ⟨_, mem_append_right _ mem_cons_self, ⟨rfl, rfl, rfl⟩,
      show (tcpFin ||| tcpAck) &&& tcpFin ≠ 0 by decide, rfl⟩

theorem Numbered.reachable (h : Reachable n) : ∀ i, Numbered n.sent (n.conns i) := by
  induction h with
  | init => exact fun i => numbered_of_state nofun nofun nofun nofun
  | @step n _ e ih =>
    intro i
    by_cases hslot : e.slot n = some i
    · obtain ⟨out, hchange, hsent⟩ := (Event.change hslot).self
      rw [hsent]
      exact (ih i).change hchange
    · rw [Event.run_other hslot]
      exact (ih i).mono (e.sent_prefix n)

/-! ### Guards -/

structure Guarded (c : Conn) (g : Segment) (c' : Conn) : Prop where
  establish : c.state = .synSent ∨ c.state = .synRecv → c'.state = .established → g.ack = c.seqNum
  reset : g.has tcpRst = true → c'.active = false → g.seq = c.ackNum
  advance : c.state = .lastAck ∨ c.state = .finWait1 → g.has tcpRst = false → c'.state ≠ c.state →
    g.ack = c.seqNum
  blind : g.ack ≠ c.seqNum → g.seq ≠ c.ackNum → c' = c

/-- The flags and the state with which an acknowledgement is believed. -/
def Conn.Believes (c : Conn) (g : Segment) : Prop :=
  c.state = .synSent ∧ g.flags &&& (tcpSyn ||| tcpAck) = tcpSyn ||| tcpAck ∨
  (c.state = .synRecv ∨ c.state = .finWait1 ∨ c.state = .lastAck) ∧ g.has tcpAck = true

/-- A segment that has the right number wherever its flags are believed. -/
structure Believable (c : Conn) (g : Segment) : Prop where
  rst : g.has tcpRst = true → g.seq = c.ackNum
  ack : g.has tcpRst = false → c.Believes g → g.ack = c.seqNum
  fin : g.has tcpRst = false → c.state = .established ∧ g.payload = [] ∨ c.state = .finWait2 →
    g.has tcpFin = true → g.ack = c.seqNum ∨ g.seq = c.ackNum

theorem guarded_of_ack (hno : g.has tcpRst = false) (hack : g.ack = c.seqNum) : Guarded c g c' where
  establish _ _ := hack
  reset h _ := absurd h (by simp [hno])
  advance _ _ _ := hack
  blind hne _ := absurd hack hne

theorem guarded_of_seq (hno : g.has tcpRst = false)
    (hstate : c.state = .established ∨ c.state = .finWait2) (hseq : g.seq = c.ackNum) :
    Guarded c g c' where
  establish h _ := by rcases hstate with hs | hs <;> rw [hs] at h <;> exact absurd h (by decide)
  reset h _ := absurd h (by simp [hno])
  advance h _ _ := by rcases hstate with hs | hs <;> rw [hs] at h <;> exact absurd h (by decide)
  blind _ hne := absurd hseq hne

theorem guarded_same (hact : c.active = true) : Guarded c g c where
  establish hstate hest := by
    rw [hest] at hstate
    exact absurd hstate (by decide)
  reset _ hno := absurd hno (by simp [hact])
  advance _ _ hne := absurd rfl hne
  blind _ _ := rfl

theorem Believable.guarded (h : Believable c g) (hact : c.active = true) :
    Guarded c g (c.receive g).1 := by
  cases hno : g.has tcpRst with
  | true =>
    rw [show c.receive g = (c.closed, []) from if_pos hno]
    exact ⟨fun _ => nofun, fun _ _ => h.rst hno, fun _ h => absurd h (by simp [hno]),
      fun _ hne => absurd (h.rst hno) hne⟩
  | false =>
    have htaken := c.receive_taken g
    generalize c.receive g = r at htaken
    cases htaken with
    | ignored | unexpected => exact guarded_same hact
    | reset hrst =>
      rw [hno] at hrst
      cases hrst
    | accepted hstate hack => exact guarded_of_ack hno (h.ack hno (.inr ⟨.inl hstate, hack⟩))
    | half hstate hack => exact guarded_of_ack hno (h.ack hno (.inr ⟨.inr (.inl hstate), hack⟩))
    | last hstate hack => exact guarded_of_ack hno (h.ack hno (.inr ⟨.inr (.inr hstate), hack⟩))
    | connected hstate hflags => exact guarded_of_ack hno (h.ack hno (.inl ⟨hstate, hflags⟩))
    | stored hstate hseq | storedFin hstate hseq => exact guarded_of_seq hno (.inl hstate) hseq
    | fin hstate hpay hfin =>
      rcases h.fin hno (.inl ⟨hstate, hpay⟩) hfin with hack | hseq
      · exact guarded_of_ack hno hack
      · exact guarded_of_seq hno (.inl hstate) hseq
    | lastFin hstate hfin =>
      rcases hstate with ⟨hstate, hack⟩ | hstate
      · exact guarded_of_ack hno (h.ack hno (.inr ⟨.inr (.inl hstate), hack⟩))
      · rcases h.fin hno (.inr hstate) hfin with hack | hseq
        · exact guarded_of_ack hno hack
        · exact guarded_of_seq hno (.inr hstate) hseq

/-- Where flags are believed, the numbers are not looked at. -/
theorem Guarded.believable (h : Guarded c g (c.receive g).1) : Believable c g where
  rst hrst := h.reset hrst (by rw [Conn.receive, if_pos hrst]; rfl)
  ack hno := by
    rintro (⟨hstate, hflags⟩ | ⟨hstate | hstate | hstate, hack⟩)
    · exact h.establish (.inl hstate) (by simp [Conn.receive, hno, hstate, hflags])
    · exact h.establish (.inr hstate) (by simp [Conn.receive, hno, hstate, hack])
    · refine h.advance (.inr hstate) hno ?_
      cases hfin : g.has tcpFin <;>
        simp [Conn.receive, hno, hstate, hack, hfin, Conn.receiveLastFin, Conn.closed]
    · exact h.advance (.inl hstate) hno (by simp [Conn.receive, hno, hstate, hack, Conn.closed])
  fin hno hstate hfin := by
    by_contra hblind
    rw [not_or] at hblind
    have hsame := congrArg Conn.state (h.blind hblind.1 hblind.2)
    rcases hstate with ⟨hstate, hpay⟩ | hstate
    · simp [Conn.receive, hno, hstate, hpay, hfin, Conn.receiveEstablished, Conn.finish] at hsame
    · simp [Conn.receive, hno, hstate, hfin, Conn.receiveLastFin, Conn.closed] at hsame

theorem reachable_client : Reachable client := Reachable.init.step (.connect 1 80)

def answer : List UInt8 :=
  [0, 80, 195, 80, 0, 0, 0, 7, 0x12, 0x35, 0x50, 0x79, 80, 0x12, 0, 0, 0, 0, 0, 0]

end TaterTOS.Net
