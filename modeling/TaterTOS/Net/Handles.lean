import TaterTOS.Net.Events

/-!
# Handles of connections

A handle is an index of the connection table. To say which connection a handle denotes, the slots of
the table are counted: each connection in a slot has its number.

* `Table`, `Table.step`: the stack with the number of the connection in each slot, the number of the
  listener that a connection came from, and who uses the slot;
* `Event.Ok`: no segment ends a connection that is in use, the ports of a new connection are new, a
  listener is not closed before its connections are accepted, and no segment comes from the address
  0 and the port 0;
* `Inv`, `Inv.step`: the invariant of runs of such events;
* **`handles_denote`**: along such runs a handle denotes one connection until it is closed.
-/

namespace TaterTOS.Net

open List

inductive Use
  | free
  | pending
  | held
  deriving DecidableEq

structure Table where
  stack : Stack
  use : ConnId → Use
  /-- The number of the connection in the slot. -/
  gen : ConnId → ℕ
  /-- The number of the listener that the connection came from. -/
  parent : ConnId → ℕ

def Table.init : Table := ⟨Stack.init, fun _ => .free, fun _ => 0, fun _ => 0⟩

namespace Event

def assigns (n : Stack) : Event → Option ConnId
  | segment srcIp data =>
    match parse srcIp data with
    | none => none
    | some g => if n.lookup g = none then (segment srcIp data).slot n else none
  | connect _ _ | listen _ => n.freeSlot
  | _ => none

def listenerOf (n : Stack) : Event → Option ConnId
  | segment srcIp data => (parse srcIp data).bind n.listener
  | _ => none

def usage (c : Conn) : Event → Option Use
  | connect _ _ => some .pending
  | connected _ => some (if c.state = .established then .held else .free)
  | listen _ | accept _ => some .held
  | close _ => some .free
  | _ => none

end Event

def Table.step (x : Table) (e : Event) : Table where
  stack := e.run x.stack
  use i := if e.slot x.stack = some i then (e.usage (x.stack.conns i)).getD (x.use i) else x.use i
  gen i := if e.assigns x.stack = some i then x.gen i + 1 else x.gen i
  parent i := if e.assigns x.stack = some i then ((e.listenerOf x.stack).map x.gen).getD 0
    else x.parent i

/-! ### Events that keep the handles -/

def Conn.SameTuple (c c' : Conn) : Prop :=
  c.remoteIp = c'.remoteIp ∧ c.remotePort = c'.remotePort ∧ c.localPort = c'.localPort

def Conn.Talks (c : Conn) : Prop := c.active = true ∧ c.state ≠ .listen

def Conn.Listens (c : Conn) : Prop := c.active = true ∧ c.state = .listen

def Conn.WaitsAt (c : Conn) (l : ConnId) : Prop :=
  c.active = true ∧ c.accepted = false ∧ c.listenParent = l.val

/-- A segment with which the connection is over. -/
def Conn.EndsBy (c : Conn) (g : Segment) : Prop :=
  g.has tcpRst = true ∨ c.state = .finWait1 ∧ g.has tcpAck = true ∧ g.has tcpFin = true ∨
  c.state = .finWait2 ∧ g.has tcpFin = true ∨ c.state = .lastAck ∧ g.has tcpAck = true

def Event.Ok (x : Table) : Event → Prop
  | .segment srcIp data => ∀ g, parse srcIp data = some g → ¬(g.srcIp = 0 ∧ g.srcPort = 0) ∧
      ∀ i, x.stack.lookup g = some i → x.use i ≠ .free → ¬(x.stack.conns i).EndsBy g
  | .connect dstIp dstPort => ∀ i, (x.stack.conns i).Talks →
      ¬(x.stack.conns i).SameTuple (clientConn x.stack dstIp dstPort)
  | .connected i => x.use i = .pending
  | .close h => ∀ i, connAt h = some i → x.use i ≠ .pending ∧
      ((x.stack.conns i).Listens → ∀ j, ¬(x.stack.conns j).WaitsAt i)
  | _ => True

inductive Runs : Table → Prop
  | init : Runs Table.init
  | step {x : Table} (h : Runs x) (e : Event) (hok : e.Ok x) : Runs (x.step e)

/-! ### Connections that stay in their slot -/

structure Keeps (c c' : Conn) : Prop where
  tuple : c'.SameTuple c
  parent : c'.listenParent = c.listenParent
  accepted : c'.accepted = false → c.accepted = false
  active : c'.active = true → c.active = true
  listen : c'.state = .listen → c.state = .listen
  /-- A listener listens until it is closed. -/
  stays : c.state = .listen → c'.active = true → c'.state = .listen
  ring : c.RingValid → c'.RingValid

variable {c c' c'' : Conn} {n : Stack} {g : Segment}

theorem Keeps.refl (c : Conn) : Keeps c c := ⟨⟨rfl, rfl, rfl⟩, rfl, id, id, id, fun h _ => h, id⟩

theorem Keeps.trans (h : Keeps c c') (h' : Keeps c' c'') : Keeps c c'' where
  tuple := ⟨h'.tuple.1.trans h.tuple.1, h'.tuple.2.1.trans h.tuple.2.1,
    h'.tuple.2.2.trans h.tuple.2.2⟩
  parent := h'.parent.trans h.parent
  accepted hc := h.accepted (h'.accepted hc)
  active hc := h.active (h'.active hc)
  listen hc := h.listen (h'.listen hc)
  stays hc hc'' := h'.stays (h.stays hc (h'.active hc'')) hc''
  ring hc := h'.ring (h.ring hc)

theorem keeps_closed (c : Conn) : Keeps c c.closed :=
  ⟨⟨rfl, rfl, rfl⟩, rfl, id, nofun, nofun, fun _ => nofun, id⟩

theorem keeps_state {seq ack : ℕ} {st : TcpState} (hc : c.state ≠ .listen) (hst : st ≠ .listen) :
    Keeps c { c with seqNum := seq, ackNum := ack, state := st } :=
  ⟨⟨rfl, rfl, rfl⟩, rfl, id, id, fun h => absurd h hst, fun h => absurd h hc, id⟩

theorem keeps_buffer (c : Conn) (xs : List UInt8) : Keeps c (c.buffer xs).2 := by
  obtain ⟨buf, head, hb⟩ := Conn.buffer_frame xs c
  have hring : c.RingValid → (c.buffer xs).2.RingValid := by
    intro h
    obtain ⟨r, hvalid, hbuffer, -⟩ := Conn.buffer_spec h xs
    rw [hbuffer]
    exact hvalid
  rw [hb] at hring ⊢
  exact ⟨⟨rfl, rfl, rfl⟩, rfl, id, id, id, fun h _ => h, hring⟩

theorem keeps_recv (c : Conn) (maxLen : ℕ) : Keeps c (c.recv maxLen).2 := by
  obtain ⟨tail, htail⟩ := Conn.recv_frame c maxLen
  have hring : c.RingValid → (c.recv maxLen).2.RingValid := by
    intro h
    obtain ⟨r, hvalid, hnew, -⟩ := Conn.recv_spec h maxLen
    rw [hnew]
    exact hvalid
  rw [htail] at hring ⊢
  exact ⟨⟨rfl, rfl, rfl⟩, rfl, id, id, id, fun h _ => h, hring⟩

theorem keeps_store (c : Conn) (g : Segment) : Keeps c (c.store g) :=
  (keeps_buffer c g.payload).trans ⟨⟨rfl, rfl, rfl⟩, rfl, id, id, id, fun h _ => h, id⟩

theorem keeps_receive (c : Conn) (g : Segment) : Keeps c (c.receive g).1 := by
  have htaken := c.receive_taken g
  generalize c.receive g = r at htaken
  cases htaken with
  | ignored | unexpected => exact .refl c
  | reset | last | lastFin => exact ⟨⟨rfl, rfl, rfl⟩, rfl, id, nofun, nofun, fun _ => nofun, id⟩
  | accepted hstate | connected hstate | half hstate | fin hstate =>
    exact keeps_state (by rw [hstate]; nofun) nofun
  | stored => exact keeps_store c g
  | storedFin hstate =>
    exact (keeps_store c g).trans (keeps_state (by rw [c.store_state, hstate]; nofun) nofun)

theorem receive_active (hact : c.active = true) (hends : ¬c.EndsBy g) :
    (c.receive g).1.active = true := by
  have htaken := c.receive_taken g
  generalize c.receive g = r at htaken
  cases htaken with
  | reset hrst => exact absurd (.inl hrst) hends
  | last hstate hack => exact absurd (.inr (.inr (.inr ⟨hstate, hack⟩))) hends
  | lastFin hstate hfin =>
    rcases hstate with ⟨hstate, hack⟩ | hstate
    · exact absurd (.inr (.inl ⟨hstate, hack, hfin⟩)) hends
    · exact absurd (.inr (.inr (.inl ⟨hstate, hfin⟩))) hends
  | stored | storedFin =>
    obtain ⟨buf, head, hb⟩ := Conn.buffer_frame g.payload c
    have hstore : (c.store g).active = c.active := by rw [Conn.store, hb]
    exact hstore.trans hact
  | _ => exact hact

/-! ### The invariant -/

structure Inv (x : Table) : Prop where
  ring : ∀ i, (x.stack.conns i).RingValid
  active : ∀ i, x.use i ≠ .free → (x.stack.conns i).active = true
  distinct : ∀ i j, i ≠ j → (x.stack.conns i).Talks → (x.stack.conns j).Talks →
    ¬(x.stack.conns i).SameTuple (x.stack.conns j)
  /-- A listener has no remote address. -/
  quiet : ∀ i, (x.stack.conns i).Listens →
    (x.stack.conns i).remoteIp = 0 ∧ (x.stack.conns i).remotePort = 0
  pending : ∀ i, x.use i = .pending → (x.stack.conns i).state ≠ .listen
  /-- A connection that waits to be accepted came from the listener that is open now. -/
  child : ∀ j, (x.stack.conns j).active = true → (x.stack.conns j).accepted = false →
    ∃ l : ConnId, (x.stack.conns j).listenParent = l.val ∧ (x.stack.conns l).Listens ∧
      x.parent j = x.gen l

variable {x y : Table} {i : ConnId} {e : Event}

theorem Keeps.talks (h : Keeps c c') (hc' : c'.Talks) : c.Talks :=
  ⟨h.active hc'.1, fun hl => hc'.2 (h.stays hl hc'.1)⟩

theorem Conn.SameTuple.symm (h : c.SameTuple c') : c'.SameTuple c :=
  ⟨h.1.symm, h.2.1.symm, h.2.2.symm⟩

theorem Conn.SameTuple.trans (h : c.SameTuple c') (h' : c'.SameTuple c'') :
    c.SameTuple c'' := ⟨h.1.trans h'.1, h.2.1.trans h'.2.1, h.2.2.trans h'.2.2⟩

theorem Inv.keep (h : Inv x) (hkeeps : ∀ j, Keeps (x.stack.conns j) (y.stack.conns j))
    (hgen : y.gen = x.gen) (hparent : y.parent = x.parent)
    (hactive : ∀ j, y.use j ≠ .free → (y.stack.conns j).active = true)
    (hpending : ∀ j, y.use j = .pending → x.use j = .pending)
    (hlisten : ∀ l, (x.stack.conns l).Listens → (y.stack.conns l).Listens ∨
      ∀ j, ¬(x.stack.conns j).WaitsAt l) : Inv y := by
  refine ⟨fun j => (hkeeps j).ring (h.ring j), hactive, fun j k hjk hj hk hsame => ?_,
    fun j hj => ?_,
    fun j hj hl => h.pending j (hpending j hj) ((hkeeps j).listen hl), fun j hj hacc => ?_⟩
  · exact h.distinct j k hjk ((hkeeps j).talks hj) ((hkeeps k).talks hk)
      (((hkeeps j).tuple.symm.trans hsame).trans (hkeeps k).tuple)
  · rw [(hkeeps j).tuple.1, (hkeeps j).tuple.2.1]
    exact h.quiet j ⟨(hkeeps j).active hj.1, (hkeeps j).listen hj.2⟩
  · have hj := (hkeeps j).active hj
    have hacc := (hkeeps j).accepted hacc
    obtain ⟨l, hl, hlistens, hnum⟩ := h.child j hj hacc
    refine ⟨l, (hkeeps j).parent.trans hl, ?_, by rw [hparent, hgen, hnum]⟩
    exact (hlisten l hlistens).resolve_right fun hnone => hnone j ⟨hj, hacc, hl⟩

/-- What the invariant asks of a new connection. -/
structure New (x : Table) (use : Use) (parent : ℕ) (c : Conn) : Prop where
  ring : c.RingValid
  active : c.active = true
  distinct : c.Talks → ∀ j, (x.stack.conns j).Talks → ¬(x.stack.conns j).SameTuple c
  quiet : c.Listens → c.remoteIp = 0 ∧ c.remotePort = 0
  pending : use = .pending → c.state ≠ .listen
  child : c.accepted = false → ∃ l : ConnId,
    c.listenParent = l.val ∧ (x.stack.conns l).Listens ∧ parent = x.gen l

theorem Inv.assign (h : Inv x) (hfree : (x.stack.conns i).active = false)
    (hother : ∀ j, j ≠ i → y.stack.conns j = x.stack.conns j ∧ y.use j = x.use j ∧
      y.gen j = x.gen j ∧ y.parent j = x.parent j)
    (hnew : New x (y.use i) (y.parent i) (y.stack.conns i)) : Inv y := by
  -- a listener is in use, so it is in another slot
  have hlistens : ∀ l, (x.stack.conns l).Listens → (y.stack.conns l).Listens ∧
    y.gen l = x.gen l := by
    intro l hl
    obtain ⟨hconn, -, hgen, -⟩ := hother l <| by
      rintro rfl
      rw [hl.1] at hfree
      cases hfree
    exact ⟨by rwa [hconn], hgen⟩
  have hcases : ∀ j, j = i ∨ j ≠ i ∧ y.stack.conns j = x.stack.conns j ∧ y.use j = x.use j ∧
      y.parent j = x.parent j := fun j => by
    rcases eq_or_ne j i with hj | hj
    · exact .inl hj
    · exact .inr ⟨hj, (hother j hj).1, (hother j hj).2.1, (hother j hj).2.2.2⟩
  refine ⟨fun j => ?_, fun j hj => ?_, fun j k hjk hj hk hsame => ?_, fun j hj => ?_,
    fun j hj => ?_, fun j hj hacc => ?_⟩ <;> obtain rfl | ⟨hji, hconn, huse, hparent⟩ := hcases j
  · exact hnew.ring
  · rw [hconn]
    exact h.ring j
  · exact hnew.active
  · rw [hconn]
    exact h.active j (huse ▸ hj)
  · rw [(hother k (Ne.symm hjk)).1] at hk hsame
    exact hnew.distinct hj k hk hsame.symm
  · rw [hconn] at hj hsame
    obtain rfl | ⟨-, hconn, -⟩ := hcases k
    · exact hnew.distinct hk j hj hsame
    · rw [hconn] at hk hsame
      exact h.distinct j k hjk hj hk hsame
  · exact hnew.quiet hj
  · rw [hconn] at hj ⊢
    exact h.quiet j hj
  · exact hnew.pending hj
  · rw [hconn]
    exact h.pending j (huse ▸ hj)
  · obtain ⟨l, hl, hlis, hnum⟩ := hnew.child hacc
    exact ⟨l, hl, (hlistens l hlis).1, hnum.trans (hlistens l hlis).2.symm⟩
  · rw [hconn] at hj hacc ⊢
    obtain ⟨l, hl, hlis, hnum⟩ := h.child j hj hacc
    exact ⟨l, hl, (hlistens l hlis).1, by rw [hparent, hnum, (hlistens l hlis).2]⟩

/-! ### Steps -/

theorem Table.step_numbers (h : e.assigns x.stack ≠ some i) :
    (x.step e).gen i = x.gen i ∧ (x.step e).parent i = x.parent i := ⟨if_neg h, if_neg h⟩

theorem Table.step_use (h : e.slot x.stack ≠ some i) : (x.step e).use i = x.use i := if_neg h

theorem Event.assigns_slot (h : e.assigns x.stack = some i) : e.slot x.stack = some i := by
  cases e with
  | segment srcIp data =>
    dsimp only [Event.assigns] at h
    cases hg : parse srcIp data with
    | none =>
      rw [hg] at h
      cases h
    | some g =>
      rw [hg] at h
      dsimp only at h
      split_ifs at h
      exact h
  | connect | listen => exact h
  | connected | accept | send | recv | close => cases h

theorem Event.assigns_inactive (h : e.assigns x.stack = some i) :
    (x.stack.conns i).active = false := by
  obtain ⟨out, hchange, -⟩ := (Event.change (Event.assigns_slot h)).self
  generalize (e.run x.stack).conns i = c' at hchange
  cases hchange with
  | receive hg hi =>
    simp only [Event.assigns, hg, hi, reduceCtorEq, if_false] at h
  | spawn _ _ _ hfree | connect hfree | listen hfree => exact freeSlot_inactive hfree
  | connected | timeout | accept | refused | send | recv | fin | close => cases h

theorem listener_listens {l : ConnId} (h : n.listener g = some l) : (n.conns l).Listens := by
  have := List.find?_some h
  simp only [Bool.and_eq_true, beq_iff_eq] at this
  exact this.1

structure Acceptable (n : Stack) (h : ℤ) (i l : ConnId) : Prop where
  listener : connAt h = some l
  listens : (n.conns l).state = .listen
  active : (n.conns i).active = true
  parent : (n.conns i).listenParent = h
  accepted : (n.conns i).accepted = false

theorem acceptable_spec {h : ℤ} (hi : n.acceptable h = some i) : ∃ l, Acceptable n h i l := by
  unfold Stack.acceptable at hi
  cases hl : connAt h with
  | none =>
    rw [hl] at hi
    cases hi
  | some l =>
    rw [hl] at hi
    dsimp only at hi
    split_ifs at hi with hstate
    have hfound := List.find?_some hi
    simp only [Bool.and_eq_true, beq_iff_eq, Bool.not_eq_true'] at hfound
    exact ⟨l, hl, not_not.mp hstate, hfound.1.1.1, hfound.1.1.2, hfound.2⟩

theorem ringValid_zero (hh : c.rxHead = 0) (ht : c.rxTail = 0) : c.RingValid := by
  refine ⟨?_, ?_⟩
  · change c.rxTail < tcpRxBufSize
    rw [ht]
    decide
  · change c.rxHead < tcpRxBufSize
    rw [hh]
    decide

theorem Inv.not_listens (h : Inv x) (hi : x.stack.lookup g = some i)
    (hg : ¬(g.srcIp = 0 ∧ g.srcPort = 0)) : ¬(x.stack.conns i).Listens := by
  intro hl
  have hm := lookup_matches hi
  obtain ⟨hip, hport⟩ := h.quiet i hl
  simp only [Conn.matches, Bool.and_eq_true, beq_iff_eq] at hm
  exact hg ⟨hm.1.1.2.symm.trans hip, hm.1.2.symm.trans hport⟩

theorem Inv.step_keep (h : Inv x) (hslot : e.slot x.stack = some i)
    (hassign : e.assigns x.stack = none)
    (hc' : (e.run x.stack).conns i = c') (hkeeps : Keeps (x.stack.conns i) c')
    (hactive : (e.usage (x.stack.conns i)).getD (x.use i) ≠ .free → c'.active = true)
    (hpending : (e.usage (x.stack.conns i)).getD (x.use i) = .pending → x.use i = .pending)
    (hlisten : (x.stack.conns i).Listens → c'.Listens ∨ ∀ j, ¬(x.stack.conns j).WaitsAt i) :
    Inv (x.step e) := by
  subst hc'
  have hnum : ∀ j, e.assigns x.stack ≠ some j := by simp [hassign]
  have hself : (x.step e).use i = (e.usage (x.stack.conns i)).getD (x.use i) := if_pos hslot
  have hcases : ∀ j, j = i ∨ (x.step e).stack.conns j = x.stack.conns j ∧
    (x.step e).use j = x.use j := by
    intro j
    rcases eq_or_ne j i with hj | hj
    · exact .inl hj
    · exact .inr ⟨(Event.change hslot).other j hj, Table.step_use (by simp [hslot, hj.symm])⟩
  refine h.keep (fun j => ?_) (funext fun j => (Table.step_numbers (hnum j)).1)
    (funext fun j => (Table.step_numbers (hnum j)).2) (fun j hj => ?_) (fun j hj => ?_)
    (fun j hj => ?_) <;>
    obtain rfl | ⟨hconn, huse⟩ := hcases j
  · exact hkeeps
  · exact hconn ▸ .refl _
  · exact hactive (hself ▸ hj)
  · exact hconn ▸ h.active j (huse ▸ hj)
  · exact hpending (hself ▸ hj)
  · exact huse ▸ hj
  · exact hlisten hj
  · exact .inl (hconn ▸ hj)

theorem Inv.step_assign (h : Inv x) (hassign : e.assigns x.stack = some i)
    (hc' : (e.run x.stack).conns i = c')
    (hnew : New x ((x.step e).use i) ((x.step e).parent i) c') :
    Inv (x.step e) := by
  subst hc'
  have hslot := Event.assigns_slot hassign
  refine h.assign (Event.assigns_inactive hassign) (fun j hj => ?_) hnew
  have hnum := Table.step_numbers (x := x) (e := e) (i := j) (by simp [hassign, hj.symm])
  exact ⟨(Event.change hslot).other j hj, Table.step_use (by simp [hslot, hj.symm]), hnum⟩

theorem Inv.step (h : Inv x) (hok : e.Ok x) : Inv (x.step e) := by
  cases hslot : e.slot x.stack with
  | none =>
    have hassign : ∀ i, e.assigns x.stack ≠ some i := fun i hi => by
      rw [Event.assigns_slot hi] at hslot
      cases hslot
    have huse : (x.step e).use = x.use := funext fun i => Table.step_use (by simp [hslot])
    have hconns : (x.step e).stack.conns = x.stack.conns := (Event.run_none hslot).1
    refine h.keep (fun j => hconns ▸ .refl _) (funext fun j => (Table.step_numbers (hassign j)).1)
      (funext fun j => (Table.step_numbers (hassign j)).2) ?_ ?_ fun l hl => .inl (hconns ▸ hl)
    · rw [huse, hconns]
      exact h.active
    · rw [huse]
      exact fun _ => id
  | some i =>
    obtain ⟨-, out, hchange, -⟩ := Event.change hslot
    have husage : (x.step e).use i = (e.usage (x.stack.conns i)).getD (x.use i) := if_pos hslot
    generalize hc' : (e.run x.stack).conns i = c' at hchange
    cases hchange with
    | receive hg hi =>
      obtain ⟨haddr, huse⟩ := hok _ hg
      have hact := lookup_matches hi
      simp only [Conn.matches, Bool.and_eq_true] at hact
      refine h.step_keep hslot ?_ hc' (keeps_receive _ _)
        (fun hfree => receive_active hact.1.1.1 (huse i hi hfree)) id fun hl =>
        absurd hl (h.not_listens hi haddr)
      simp only [Event.assigns, hg, hi, reduceCtorEq, if_false]
    | @spawn srcIp data g l hg hnone hl hfree =>
      have hassign : (Event.segment srcIp data).assigns x.stack = some i := by
        simp only [Event.assigns, hg, hnone]
        exact hslot
      refine h.step_assign hassign hc' ⟨ringValid_zero rfl rfl, rfl, fun _ j hj hsame => ?_, nofun,
        fun _ => nofun, fun _ => ⟨l, rfl, listener_listens hl, ?_⟩⟩
      · refine List.find?_eq_none.mp hnone j (mem_finRange j) ?_
        simp only [Conn.matches, Bool.and_eq_true, beq_iff_eq]
        exact ⟨⟨⟨hj.1, hsame.1⟩, hsame.2.1⟩, hsame.2.2⟩
      · unfold Table.step
        simp only [hassign, if_true, Event.listenerOf, hg, Option.bind_some, hl, Option.map_some,
          Option.getD_some]
    | connect hfree =>
      refine h.step_assign hfree hc' ⟨ringValid_zero rfl rfl, rfl, fun _ j hj hsame => ?_, nofun,
        fun _ => nofun, nofun⟩
      exact hok j hj ⟨hsame.1, hsame.2.1, hsame.2.2⟩
    | listen hfree =>
      exact h.step_assign hfree hc' ⟨ringValid_zero rfl rfl, rfl, fun ht => absurd rfl ht.2,
        fun _ => ⟨rfl, rfl⟩, husage ▸ nofun, nofun⟩
    | connected hest =>
      refine h.step_keep hslot rfl hc' (.refl _) (fun _ => h.active i ?_) (fun _ => hok) .inl
      rw [show x.use i = .pending from hok]
      nofun
    | timeout hest =>
      refine h.step_keep hslot rfl hc' (keeps_closed _) ?_ (fun _ => hok) fun hl =>
        absurd hl.2 (h.pending i hok)
      simp [Event.usage, hest]
    | accept hi =>
      obtain ⟨l, hacc⟩ := acceptable_spec hi
      exact h.step_keep hslot rfl hc' ⟨⟨rfl, rfl, rfl⟩, rfl, nofun, id, id, fun hl _ => hl, id⟩
        (fun _ => hacc.active) nofun .inl
    | refused hi hest => exact h.step_keep hslot rfl hc' (.refl _) (h.active i) id .inl
    | @send k data hi hest =>
      obtain ⟨-, seq, hseq⟩ := Conn.sendChunks_spec data.length (x.stack.conns i) data
      rw [hseq] at hc'
      have hne : (x.stack.conns i).state ≠ .listen := by
        rw [hest]
        nofun
      exact h.step_keep hslot rfl hc' (keeps_state hne hne) (h.active i) id fun hl =>
        absurd hl.2 hne
    | @recv k maxLen hi =>
      have hkeeps := keeps_recv (x.stack.conns i) maxLen
      obtain ⟨tail, htail⟩ := Conn.recv_frame (x.stack.conns i) maxLen
      rw [htail] at hc' hkeeps
      exact h.step_keep hslot rfl hc' hkeeps (h.active i) id .inl
    | fin hi hest =>
      have hne : (x.stack.conns i).state ≠ .listen := by
        rw [hest]
        nofun
      exact h.step_keep hslot rfl hc' (keeps_state hne nofun) (fun hfree => absurd rfl hfree) nofun
        fun hl => absurd hl.2 hne
    | close hi hest =>
      exact h.step_keep hslot rfl hc' (keeps_closed _) (fun hfree => absurd rfl hfree) nofun
        fun hl => .inr ((hok i hi).2 hl)

theorem Inv.init : Inv Table.init where
  ring _ := ringValid_zero rfl rfl
  active _ h := absurd rfl h
  distinct _ _ _ h := nomatch h.1
  quiet _ h := nomatch h.1
  pending _ h := nomatch h
  child _ h := nomatch h

theorem Runs.inv (h : Runs x) : Inv x := by
  induction h with
  | init => exact Inv.init
  | step _ e hok ih => exact ih.step hok

/-! ### What a handle denotes -/

theorem receive_sends (c : Conn) (g : Segment) : ∀ s ∈ (c.receive g).2, s.Of c := by
  have hfinish : ∀ {c' : Conn}, c'.SameTuple c → ∀ s ∈ c'.finish.2, s.Of c := by
    intro c' hc s hs
    rcases mem_cons.mp hs with rfl | hs
    · exact ⟨hc.1, hc.2.1, hc.2.2⟩
    · rw [mem_singleton.mp hs]
      exact ⟨hc.1, hc.2.1, hc.2.2⟩
  have hone : ∀ {c' : Conn} {flags : ℕ}, c'.SameTuple c → ∀ s ∈ [c'.segment flags []], s.Of c := by
    intro c' flags hc s hs
    rw [mem_singleton.mp hs]
    exact ⟨hc.1, hc.2.1, hc.2.2⟩
  have hstore := (keeps_store c g).tuple
  have htaken := c.receive_taken g
  generalize c.receive g = r at htaken
  cases htaken with
  | ignored | reset | accepted | half | last => nofun
  | connected | unexpected | lastFin => exact hone ⟨rfl, rfl, rfl⟩
  | stored => exact hone hstore
  | storedFin => exact hfinish hstore
  | fin => exact hfinish ⟨rfl, rfl, rfl⟩

theorem receive_stored (h : c.RingValid) (g : Segment) :
    ∃ k, (c.receive g).1.stored = c.stored ++ g.payload.take k := by
  have hsame : ∃ k, c.stored = c.stored ++ g.payload.take k := ⟨0, by rw [take_zero, append_nil]⟩
  obtain ⟨r, -, hbuffer, hadded, -⟩ := Conn.buffer_spec h g.payload
  have hmore : ∃ k, (c.buffer g.payload).2.stored = c.stored ++ g.payload.take k := by
    refine ⟨(c.buffer g.payload).1, ?_⟩
    rw [show (c.buffer g.payload).2 = c.setRing r from congrArg Prod.snd hbuffer]
    exact hadded
  have htaken := c.receive_taken g
  generalize c.receive g = r at htaken
  cases htaken with
  | stored | storedFin => exact hmore
  | _ => exact hsame

/-- **The handle of the slot `i` denotes the same connection after the event**: its addresses stay,
bytes come from its peer or are returned, and segments go to its peer. -/
structure Denotes (x : Table) (e : Event) (i : ConnId) : Prop where
  gen : (x.step e).gen i = x.gen i
  held : (x.step e).use i = .held
  active : ((x.step e).stack.conns i).active = true
  tuple : ((x.step e).stack.conns i).SameTuple (x.stack.conns i)
  bytes : (∃ srcIp data g k, e = .segment srcIp data ∧ parse srcIp data = some g ∧
      (x.stack.conns i).matches g = true ∧
      ((x.step e).stack.conns i).stored = (x.stack.conns i).stored ++ g.payload.take k) ∨
    e.read x.stack i ++ ((x.step e).stack.conns i).stored = (x.stack.conns i).stored
  sends : ∀ s ∈ e.sends x.stack i, s.Of (x.stack.conns i)

theorem Inv.denotes (h : Inv x) (hok : e.Ok x) (hheld : x.use i = .held)
    (hclose : ∀ k, e = .close k → connAt k ≠ some i) : Denotes x e i := by
  have hactive := h.active i (by rw [hheld]; nofun)
  have hassign : e.assigns x.stack ≠ some i := fun ha => by
    rw [Event.assigns_inactive ha] at hactive
    cases hactive
  have hgen := (Table.step_numbers hassign).1
  have hused : x.stack.freeSlot ≠ some i := fun hfree => by
    rw [freeSlot_inactive hfree] at hactive
    cases hactive
  have hpending : x.use i ≠ .pending := by
    rw [hheld]
    nofun
  have hnext := h.step hok
  have hmk (huse : (x.step e).use i = .held) :=
    @Denotes.mk x e i hgen huse (hnext.active i (by rw [huse]; nofun))
  by_cases hslot : e.slot x.stack = some i
  · obtain ⟨-, out, hchange, hsent⟩ := Event.change hslot
    have husage : (x.step e).use i = (e.usage (x.stack.conns i)).getD (x.use i) := if_pos hslot
    have hsends : e.sends x.stack i = out := by
      unfold Event.sends
      rw [if_pos hslot, hsent, drop_left]
    generalize hc' : (e.run x.stack).conns i = c' at hchange
    change (x.step e).stack.conns i = c' at hc'
    rw [husage, hsends, hc'] at hmk
    cases hchange with
    | @receive srcIp data g hg hi =>
      obtain ⟨k, hk⟩ := receive_stored (h.ring i) g
      exact hmk hheld (keeps_receive _ _).tuple
        (.inl ⟨srcIp, data, g, k, rfl, hg, lookup_matches hi, hk⟩) (receive_sends _ _)
    | spawn _ _ _ hfree | connect hfree | listen hfree => exact absurd hfree hused
    | connected | timeout => exact absurd hok hpending
    | accept hi => exact hmk rfl ⟨rfl, rfl, rfl⟩ (.inr rfl) nofun
    | refused hi hest => exact hmk hheld ⟨rfl, rfl, rfl⟩ (.inr rfl) nofun
    | @send k data hi hest =>
      obtain ⟨hout, seq, hseq⟩ := Conn.sendChunks_spec data.length (x.stack.conns i) data
      rw [hseq] at hmk
      exact hmk hheld ⟨rfl, rfl, rfl⟩ (.inr rfl) fun s hs => (hout s hs).2
    | @recv k maxLen hi =>
      obtain ⟨r, -, hnew, hmoved⟩ := Conn.recv_spec (h.ring i) maxLen
      refine hmk hheld (keeps_recv _ _).tuple (.inr ?_) nofun
      rw [Event.read_recv hi, hnew]
      exact hmoved
    | fin hi | close hi => exact absurd hi (hclose _ rfl)
  · have hsame : (x.step e).stack.conns i = x.stack.conns i := Event.run_other hslot
    have hsends : e.sends x.stack i = [] := if_neg hslot
    rw [hsame, Event.read_other hslot, hsends, Table.step_use hslot] at hmk
    exact hmk hheld ⟨rfl, rfl, rfl⟩ (.inr rfl) nofun

theorem Inv.segment_listens (h : Inv x) {srcIp : ℕ} {data : List UInt8}
    (hok : (Event.segment srcIp data).Ok x) (hl : (x.stack.conns i).Listens) :
    ((x.step (.segment srcIp data)).stack.conns i).Listens := by
  by_cases hslot : (Event.segment srcIp data).slot x.stack = some i
  · obtain ⟨-, out, hchange, -⟩ := Event.change hslot
    generalize ((Event.segment srcIp data).run x.stack).conns i = c' at hchange
    cases hchange with
    | receive hg hi => exact absurd hl (h.not_listens hi (hok _ hg).1)
    | spawn hg hnone hl' hfree =>
      have hno := freeSlot_inactive hfree
      rw [hl.1] at hno
      cases hno
  · have hsame : (x.step (.segment srcIp data)).stack.conns i = x.stack.conns i :=
      Event.run_other hslot
    rw [hsame]
    exact hl

theorem tcpAccept_fst {k : ℤ} (h : (tcpAccept n k).1 = i.val) : n.acceptable k = some i := by
  rw [tcpAccept_eq] at h
  cases hj : n.acceptable k with
  | none =>
    rw [hj] at h
    have hneg : (-1 : ℤ) = i.val := h
    omega
  | some j =>
    rw [hj] at h
    have hval : (j.val : ℤ) = i.val := h
    exact congrArg some (Fin.ext (by omega))

/-- **Handles denote one connection each**, along runs in which no segment ends a connection that is
in use. -/
theorem handles_denote (x : Table) (hruns : Runs x) :
    (∀ i j, i ≠ j → (x.stack.conns i).Talks → (x.stack.conns j).Talks →
      ¬(x.stack.conns i).SameTuple (x.stack.conns j)) ∧
    (∀ (k : ℤ) (i : ConnId), (tcpAccept x.stack k).1 = i.val → ∃ l, connAt k = some l ∧
      (x.stack.conns l).Listens ∧ x.parent i = x.gen l) ∧
    (∀ e : Event, e.Ok x →
      (∀ i, x.use i = .held → (∀ k, e = .close k → connAt k ≠ some i) → Denotes x e i) ∧
      ∀ srcIp data, e = .segment srcIp data → ∀ i, (x.stack.conns i).Listens →
        ((x.step e).stack.conns i).Listens) := by
  have h := hruns.inv
  refine ⟨h.distinct, fun k i hk => ?_,
    fun e hok => ⟨fun i hheld hclose => h.denotes hok hheld hclose, ?_⟩⟩
  · obtain ⟨l, hacc⟩ := acceptable_spec (tcpAccept_fst hk)
    obtain ⟨l', hl', hlistens, hnum⟩ := h.child i hacc.active hacc.accepted
    have hsame : connAt k = some l' := by
      rw [← hacc.parent, hl']
      unfold connAt
      simp
    cases hacc.listener.symm.trans hsame
    exact ⟨l, hacc.listener, hlistens, hnum⟩
  · rintro srcIp data rfl i hl
    exact h.segment_listens hok hl

instance : NeZero tcpMaxConnections := ⟨by decide⟩

def connectedTable : Table :=
  ((Table.init.step (.connect 1 80)).step (.segment 1 (fromServer 7 0x12 []))).step (.connected 0)

theorem runs_connected : Runs connectedTable := by
  have hbegin : Runs (Table.init.step (.connect 1 80)) := Runs.init.step _ fun i hi => nomatch hi.1
  have hanswer :
      Runs ((Table.init.step (.connect 1 80)).step (.segment 1 (fromServer 7 0x12 []))) := by
    refine hbegin.step _ fun g hg => ?_
    have hparse :
        parse 1 (fromServer 7 0x12 []) = some ⟨1, 80, 50000, 7, 0, 0x12, []⟩ := by decide +kernel
    cases hg.symm.trans hparse
    refine ⟨by decide, fun i hi _ => ?_⟩
    have hslot :
        (Table.init.step (.connect 1 80)).stack.lookup ⟨1, 80, 50000, 7, 0, 0x12, []⟩ = some 0 := by
      decide +kernel
    cases hi.symm.trans hslot
    unfold Conn.EndsBy
    decide +kernel
  have hpending :
      ((Table.init.step (.connect 1 80)).step (.segment 1 (fromServer 7 0x12 []))).use 0 =
      .pending := by decide +kernel
  exact hanswer.step (.connected 0) hpending

theorem handles_denote_connected :
    connectedTable.use 0 = .held ∧ Denotes connectedTable (.recv 0 10) 0 := by
  have hheld : connectedTable.use 0 = .held := by decide +kernel
  exact ⟨hheld, ((handles_denote connectedTable runs_connected).2.2 (.recv 0 10) trivial).1 0
    hheld nofun⟩

def resetTable : Table := connectedTable.step (.segment 1 (fromServer 8 0x04 []))

def listeningTable : Table := Table.init.step (.listen 80)

def rstFromZero : List UInt8 := [0, 0, 0, 80, 0, 0, 0, 0, 0, 0, 0, 0, 80, 4, 0, 0, 0, 0, 0, 0]

/-- **A RST gives the slot of an open handle to the next connection**, and a RST from the address 0
and the port 0 removes a listener. -/
theorem reset_reassigns :
    resetTable.use 0 = .held ∧ resetTable.gen 0 = 1 ∧ (resetTable.stack.conns 0).remoteIp = 1 ∧
      (resetTable.step (.connect 2 80)).gen 0 = 2 ∧
      ((resetTable.step (.connect 2 80)).stack.conns 0).remoteIp = 2 ∧
    (listeningTable.stack.conns 0).active = true ∧ (listeningTable.stack.conns 0).state = .listen ∧
      ((listeningTable.step (.segment 0 rstFromZero)).stack.conns 0).active = false := by
  decide +kernel

end TaterTOS.Net
