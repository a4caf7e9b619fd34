import TaterTOS.Fd.Table

/-!
# Pipes as channels

Pipes with the descriptors that refer to them and the bytes that went through them.
-/

namespace TaterTOS.Fd

open Function Lib

/-! ### One pipe -/

/-- A pipe with `r` ends to read and `w` ends to write is used while it has an end; while it is
used, the bytes that were sent are those received and then those stored. -/
structure Pipe.Exact (p : Pipe) (r w : ℕ) (sent received : List UInt8) : Prop where
  readers : p.readers = r
  writers : p.writers = w
  used : p.used = true ↔ r ≠ 0 ∨ w ≠ 0
  valid : p.ring.Valid pipeBufsz
  fifo : p.used = true → sent = received ++ p.ring.contents pipeBufsz

namespace Pipe.Exact

variable {p : Pipe} {r w : ℕ} {sent received : List UInt8}

theorem valid_empty (r : RingBuffer UInt8) :
    RingBuffer.Valid pipeBufsz { r with head := 0, tail := 0 } :=
  ⟨show 0 < 4096 by omega, show 0 < 4096 by omega⟩

theorem settle {r' w' : ℕ} (h : p.Exact r w sent received) (hr : r' ≤ r) (hw : w' ≤ w) :
    (Pipe.settle { p with readers := r', writers := w' }).Exact r' w' sent received := by
  unfold Pipe.settle
  dsimp only
  split_ifs with hzero
  · refine ⟨rfl, rfl, ?_, valid_empty _, fun hused => absurd hused nofun⟩
    exact iff_of_false nofun (by omega)
  · have hused : p.used = true := h.used.mpr (by omega)
    refine ⟨rfl, rfl, ?_, h.valid, h.fifo⟩
    exact iff_of_true hused (by omega)

section

variable (h : p.Exact r w sent received)
include h

theorem dropReader : p.dropReader.Exact (r - 1) w sent received := by
  have hs := h.settle (Nat.sub_le r 1) le_rfl
  rwa [← h.readers, ← h.writers] at hs ⊢

theorem dropWriter : p.dropWriter.Exact r (w - 1) sent received := by
  have hs := h.settle le_rfl (Nat.sub_le w 1)
  rwa [← h.readers, ← h.writers] at hs ⊢

theorem addReader (hused : p.used = true) :
    Pipe.Exact { p with readers := p.readers + 1 } (r + 1) w sent received :=
  ⟨congrArg (· + 1) h.readers, h.writers, iff_of_true hused (.inl (Nat.succ_ne_zero r)), h.valid,
    h.fifo⟩

theorem addWriter (hused : p.used = true) :
    Pipe.Exact { p with writers := p.writers + 1 } r (w + 1) sent received :=
  ⟨h.readers, congrArg (· + 1) h.writers, iff_of_true hused (.inr (Nat.succ_ne_zero w)), h.valid,
    h.fifo⟩

theorem counts_of_unused (hused : p.used = false) : r = 0 ∧ w = 0 := by
  have hnot : ¬(r ≠ 0 ∨ w ≠ 0) := by
    rw [← h.used, hused]
    exact Bool.false_ne_true
  omega

theorem read (len : ℕ) :
    Pipe.Exact { p with ring := (p.ring.read pipeBufsz len).2 } r w sent
      (received ++ (p.ring.read pipeBufsz len).1) := by
  obtain ⟨hvalid, htaken, hrest⟩ := h.valid.read_spec len
  refine ⟨h.readers, h.writers, h.used, hvalid, fun hused => ?_⟩
  rw [h.fifo hused, htaken, hrest, List.append_assoc, List.take_append_drop]

theorem write (bytes : List UInt8) :
    Pipe.Exact { p with ring := (p.ring.write pipeBufsz bytes).2 } r w
      (sent ++ bytes.take (p.ring.write pipeBufsz bytes).1) received := by
  obtain ⟨hvalid, -, hadded⟩ := h.valid.write_spec bytes
  refine ⟨h.readers, h.writers, h.used, hvalid, fun hused => ?_⟩
  rw [h.fifo hused, hadded, List.append_assoc]

theorem length_le :
    (p.ring.contents pipeBufsz).length ≤ pipeBufsz - 1 := by
  rw [RingBuffer.length_contents]
  exact Nat.le_sub_one_of_lt h.valid.size_lt

end

end Pipe.Exact

/-! ### All pipes -/

structure Traffic where
  sent : PipeId → List UInt8
  received : PipeId → List UInt8

def Traffic.none : Traffic := ⟨fun _ => [], fun _ => []⟩

def Traffic.forget (m : Traffic) (pipes : PipeId → Pipe) : Traffic where
  sent i := if (pipes i).used then m.sent i else []
  received i := if (pipes i).used then m.received i else []

def Traffic.send (m : Traffic) (i : PipeId) (bytes : List UInt8) : Traffic :=
  { m with sent := update m.sent i (m.sent i ++ bytes) }

def Traffic.receive (m : Traffic) (i : PipeId) (bytes : List UInt8) : Traffic :=
  { m with received := update m.received i (m.received i ++ bytes) }

structure Channels (ι : Type) where
  ends : ι → Target
  pipes : PipeId → Pipe
  traffic : Traffic

def Target.isEnd : Target → Bool
  | .none | .pipeRead _ | .pipeWrite _ => true
  | _ => false

variable {ι : Type} [Fintype ι] {a b : ι} {i : PipeId}

structure Channels.Exact (c : Channels ι) : Prop where
  isEnd : ∀ a, (c.ends a).isEnd = true
  pipe : ∀ i, (c.pipes i).Exact (tally c.ends (.pipeRead i)) (tally c.ends (.pipeWrite i))
    (c.traffic.sent i) (c.traffic.received i)

def dropEnd (pipes : PipeId → Pipe) : Target → PipeId → Pipe
  | .pipeRead i => update pipes i (pipes i).dropReader
  | .pipeWrite i => update pipes i (pipes i).dropWriter
  | _ => pipes

def addEnd (pipes : PipeId → Pipe) : Target → PipeId → Pipe
  | .pipeRead i => update pipes i { pipes i with readers := (pipes i).readers + 1 }
  | .pipeWrite i => update pipes i { pipes i with writers := (pipes i).writers + 1 }
  | _ => pipes

namespace Channels.Exact

variable {c : Channels ι}

theorem used_of_end (h : c.Exact) (ha : c.ends a = .pipeRead i ∨ c.ends a = .pipeWrite i) :
    (c.pipes i).used = true := by
  rw [(h.pipe i).used]
  rcases ha with ha | ha
  · exact .inl (tally_pos ha).ne'
  · exact .inr (tally_pos ha).ne'

theorem forget (h : c.Exact) : Channels.Exact { c with traffic := c.traffic.forget c.pipes } := by
  refine ⟨h.isEnd, fun i => ?_⟩
  have hi := h.pipe i
  refine ⟨hi.readers, hi.writers, hi.used, hi.valid, fun hused => ?_⟩
  dsimp only [Traffic.forget] at hused ⊢
  rw [if_pos hused, if_pos hused, hi.fifo hused]

theorem update_pipe {ends : ι → Target} {p : Pipe} {m : Traffic}
    (hi : p.Exact (tally ends (.pipeRead i)) (tally ends (.pipeWrite i)) (m.sent i) (m.received i))
    (hrest : ∀ j, j ≠ i → (c.pipes j).Exact (tally ends (.pipeRead j)) (tally ends (.pipeWrite j))
      (m.sent j) (m.received j)) (j : PipeId) :
    (update c.pipes i p j).Exact (tally ends (.pipeRead j)) (tally ends (.pipeWrite j))
      (m.sent j) (m.received j) := by
  by_cases hj : j = i
  · subst hj
    rwa [update_self]
  · rw [update_of_ne hj]
    exact hrest j hj

theorem receive (h : c.Exact) (i : PipeId) (len : ℕ) : Channels.Exact
    ⟨c.ends, update c.pipes i
      { c.pipes i with ring := ((c.pipes i).ring.read pipeBufsz len).2 },
      c.traffic.receive i ((c.pipes i).ring.read pipeBufsz len).1⟩ := by
  refine ⟨h.isEnd, update_pipe ?_ fun j hj => ?_⟩
  · dsimp only [Traffic.receive]
    rw [update_self]
    exact (h.pipe i).read len
  · dsimp only [Traffic.receive]
    rw [update_of_ne hj]
    exact h.pipe j

theorem send (h : c.Exact) (i : PipeId) (bytes : List UInt8) : Channels.Exact
    ⟨c.ends, update c.pipes i
      { c.pipes i with ring := ((c.pipes i).ring.write pipeBufsz bytes).2 },
      c.traffic.send i (bytes.take ((c.pipes i).ring.write pipeBufsz bytes).1)⟩ := by
  refine ⟨h.isEnd, update_pipe ?_ fun j hj => ?_⟩
  · dsimp only [Traffic.send]
    rw [update_self]
    exact (h.pipe i).write bytes
  · dsimp only [Traffic.send]
    rw [update_of_ne hj]
    exact h.pipe j

theorem refuse (h : c.Exact) (hused : (c.pipes i).used = false) : Channels.Exact
    ⟨c.ends, update c.pipes i (c.pipes i).refused, c.traffic⟩ := by
  refine ⟨h.isEnd, update_pipe ?_ fun j _ => h.pipe j⟩
  obtain ⟨hr, hw⟩ := (h.pipe i).counts_of_unused hused
  refine ⟨hr.symm, hw.symm, ?_, Pipe.Exact.valid_empty _, fun h => absurd h nofun⟩
  rw [hr, hw]
  simp [Pipe.refused]

variable [DecidableEq ι]

theorem isEnd_update (h : c.Exact) {t : Target} (ht : t.isEnd = true) (b : ι) :
    (update c.ends a t b).isEnd = true := by
  by_cases hb : b = a
  · rw [hb, update_self, ht]
  · rw [update_of_ne hb, h.isEnd b]

theorem change {t : Target} {p : Pipe} (h : c.Exact) (ht : t.isEnd = true)
    (hother : ∀ j, j ≠ i → ∀ e : Target, e = .pipeRead j ∨ e = .pipeWrite j → c.ends a ≠ e ∧ t ≠ e)
    (hp : p.Exact (tally (update c.ends a t) (.pipeRead i))
      (tally (update c.ends a t) (.pipeWrite i))
      (c.traffic.sent i) (c.traffic.received i)) :
    Channels.Exact ⟨update c.ends a t, update c.pipes i p, c.traffic⟩ := by
  refine ⟨h.isEnd_update ht, update_pipe hp fun j hj => ?_⟩
  have hstay : ∀ e : Target, e = .pipeRead j ∨ e = .pipeWrite j →
      tally (update c.ends a t) e = tally c.ends e :=
    fun e he => tally_update_of_ne (hother j hj e he).1 (hother j hj e he).2
  rw [hstay _ (.inl rfl), hstay _ (.inr rfl)]
  exact h.pipe j

theorem drop (h : c.Exact) (a : ι) : Channels.Exact
    ⟨update c.ends a .none, dropEnd c.pipes (c.ends a), c.traffic⟩ := by
  cases ha : c.ends a with
  | pipeRead i =>
    refine h.change rfl (by simp +contextual [ha, eq_comm]) ?_
    simpa [tally_close, ha] using (h.pipe i).dropReader
  | pipeWrite i =>
    refine h.change rfl (by simp +contextual [ha, eq_comm]) ?_
    simpa [tally_close, ha] using (h.pipe i).dropWriter
  | none =>
    dsimp only [dropEnd]
    rwa [← ha, update_eq_self]
  | _ => exact absurd (ha ▸ h.isEnd a) nofun

theorem copy (h : c.Exact) (ha : c.ends a = .none) : Channels.Exact
    ⟨update c.ends a (c.ends b), addEnd c.pipes (c.ends b), c.traffic⟩ := by
  have hstay : ∀ t e : Target, e ≠ .none → t ≠ e → tally (update c.ends a t) e = tally c.ends e :=
    fun t e he => tally_update_of_ne (ha.trans_ne he.symm)
  have henter : ∀ e : Target, e ≠ .none → tally (update c.ends a e) e = tally c.ends e + 1 :=
    fun e he => tally_enter (ha.trans_ne he.symm)
  cases hb : c.ends b with
  | pipeRead i =>
    refine h.change rfl (by simp +contextual [ha, eq_comm]) ?_
    rw [henter (.pipeRead i) nofun, hstay (.pipeRead i) (.pipeWrite i) nofun nofun]
    exact (h.pipe i).addReader (h.used_of_end (.inl hb))
  | pipeWrite i =>
    refine h.change rfl (by simp +contextual [ha, eq_comm]) ?_
    rw [hstay (.pipeWrite i) (.pipeRead i) nofun nofun, henter (.pipeWrite i) nofun]
    exact (h.pipe i).addWriter (h.used_of_end (.inr hb))
  | none =>
    dsimp only [addEnd]
    rwa [← ha, update_eq_self]
  | _ => exact absurd (hb ▸ h.isEnd b) nofun

theorem create (h : c.Exact) (hused : (c.pipes i).used = false) (ha : c.ends a = .none)
    (hb : c.ends b = .none) (hab : b ≠ a) : Channels.Exact
    ⟨update (update c.ends a (.pipeRead i)) b (.pipeWrite i),
      update c.pipes i (c.pipes i).made, c.traffic.forget c.pipes⟩ := by
  obtain ⟨hr, hw⟩ := (h.pipe i).counts_of_unused hused
  have hb' : update c.ends a (.pipeRead i) b = .none := by
    rw [update_of_ne hab, hb]
  refine ⟨fun x => ?_, update_pipe ?_ fun j hj => ?_⟩
  · dsimp only
    by_cases hx : x = b
    · rw [hx, update_self]
      rfl
    · rw [update_of_ne hx]
      exact h.isEnd_update rfl x
  · have hread : tally (update (update c.ends a (.pipeRead i)) b (.pipeWrite i))
        (.pipeRead i) = 1 := by
      rw [tally_update_of_ne, tally_enter, hr]
      · exact ha.trans_ne nofun
      · exact hb'.trans_ne nofun
      · exact nofun
    have hwrite : tally (update (update c.ends a (.pipeRead i)) b (.pipeWrite i))
        (.pipeWrite i) = 1 := by
      rw [tally_enter, tally_update_of_ne, hw]
      · exact ha.trans_ne nofun
      · exact nofun
      · exact hb'.trans_ne nofun
    rw [hread, hwrite]
    refine ⟨rfl, rfl, by simp [Pipe.made], Pipe.Exact.valid_empty _, fun _ => ?_⟩
    dsimp only [Traffic.forget]
    rw [hused]
    rfl
  · have hne : ∀ t : Target, t ≠ .none → t ≠ .pipeRead i → t ≠ .pipeWrite i →
        tally (update (update c.ends a (.pipeRead i)) b (.pipeWrite i)) t = tally c.ends t := by
      intro t h0 h1 h2
      rw [tally_update_of_ne (hb'.trans_ne h0.symm) h2.symm,
        tally_update_of_ne (ha.trans_ne h0.symm) h1.symm]
    rw [hne (.pipeRead j) nofun (fun he => hj (Target.pipeRead.inj he)) nofun,
      hne (.pipeWrite j) nofun nofun fun he => hj (Target.pipeWrite.inj he)]
    exact h.forget.pipe j

end Channels.Exact

end TaterTOS.Fd
