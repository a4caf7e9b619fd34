import TaterTOS.Fd.Model

/-!
# The ways to close a descriptor

* `dup2Target_same`, `lxCloseTarget_same`, `exitTarget_same`: when the switches of `SYS_DUP2`, of
  `lx_close_fd` and of the end of a process do what `SYS_CLOSE` does;
* **`close_paths`**: the calls compared.
-/

namespace TaterTOS.Fd

open Function

def World.Same (w w' : World) : Prop := w' = { w with wakes := w'.wakes }

variable {w w' : World} {t : Target} {fd oldfd newfd : FdIndex} {v : View} {f : Files}

theorem World.Same.refl (w : World) : w.Same w := rfl

theorem World.same_wake (w : World) : w.wake.Same w := rfl

theorem World.Same.setPipe (h : w.Same w') (i : PipeId) {p p' : Pipe} (hp : p' = p) :
    (w.setPipe i p).Same (w'.setPipe i p') := by
  rw [h, hp]
  rfl

theorem World.Same.retain (h : w.Same w') (t : Target) :
    (retainTarget w t).Same (retainTarget w' t) := by
  have hpipes : w'.pipes = w.pipes := by rw [h]
  cases t with
  | pipeRead i | pipeWrite i => exact h.setPipe i (by rw [hpipes])
  | _ => exact h

/-! ### The switches -/

theorem dup2Target_same (w : World) (t : Target) : (closeTarget w t).Same (dup2Target w t) := by
  cases t with
  | pipeRead | pipeWrite | socket => exact World.same_wake _
  | _ => exact World.Same.refl _

/-- The kinds for which `lx_close_fd` has the branch of `SYS_CLOSE`, or both have none. -/
def Target.lxAgrees : Target → Bool
  | .none | .file _ | .dir | .timerfd _ | .signalfd _ | .inotify _ | .stdio _ => true
  | _ => false

theorem lxCloseTarget_eq (h : t.lxAgrees = true) (w : World) :
    lxCloseTarget w t = closeTarget w t := by
  cases t <;> first | rfl | exact absurd h nofun

def Socket.paired (sk : Socket) : Bool :=
  sk.used && sk.type == sockStream && sk.domain == afUnix && (pipeAt sk.tcpHandle).isSome

def Target.exitAgrees (w : World) : Target → Bool
  | .none | .file _ | .pipeRead _ | .pipeWrite _ | .epoll _ | .eventfd _ | .dir | .stdio _ => true
  | .socket i => !(w.sockets i).paired
  | _ => false

theorem exitSocket_eq {i : SockId} (h : (w.sockets i).paired = false) :
    exitSocket w i = closeSocket w i := by
  unfold exitSocket closeSocket
  dsimp only
  split_ifs with hused hstream
  · -- without a pair of pipes both close the connections
    have hclose : closeStream w (w.sockets i) = tcpCloseBoth w (w.sockets i) := by
      unfold closeStream
      split_ifs with hunix
      · have hnone : pipeAt (w.sockets i).tcpHandle = none := by
          simpa [Socket.paired, hused, hstream, hunix] using h
        rw [hnone]
      · rfl
    rw [hclose]
  · rfl
  · rfl

theorem exitTarget_eq (h : t.exitAgrees w = true) : exitTarget w t = closeTarget w t := by
  cases t with
  | socket i =>
    have hpaired : (w.sockets i).paired = false := (Bool.not_eq_true' _).mp h
    exact congrArg World.wake (exitSocket_eq hpaired)
  | _ => first | rfl | exact absurd h nofun

/-! ### Objects without effect -/

/-- Letting go of an end changes nothing: it is not counted, and the pipe is in use by the others or
empty. -/
def Pipe.Idle (p : Pipe) (ends others : ℕ) : Prop :=
  ends = 0 ∧ (others = 0 → p.used = false ∧ p.ring.head = 0 ∧ p.ring.tail = 0)

theorem Pipe.dropReader_eq (p : Pipe) : p = p.dropReader ↔ p.Idle p.readers p.writers := by
  obtain ⟨⟨buf, head, tail⟩, readers, writers, used⟩ := p
  simp only [dropReader, settle, Idle]
  split_ifs <;> simp only [mk.injEq, Lib.RingBuffer.mk.injEq, true_and, and_true] <;> grind

theorem Pipe.dropWriter_eq (p : Pipe) : p = p.dropWriter ↔ p.Idle p.writers p.readers := by
  obtain ⟨⟨buf, head, tail⟩, readers, writers, used⟩ := p
  simp only [dropWriter, settle, Idle]
  split_ifs <;> simp only [mk.injEq, Lib.RingBuffer.mk.injEq, true_and, and_true] <;> grind

/-- Letting go of the object behind a descriptor changes nothing. -/
def Target.Idle (w : World) : Target → Prop
  | .pipeRead i => (w.pipes i).Idle (w.pipes i).readers (w.pipes i).writers
  | .pipeWrite i => (w.pipes i).Idle (w.pipes i).writers (w.pipes i).readers
  | .socket i => (w.sockets i).used = false
  | .epoll a => ∀ items, w.heap a ≠ some (.epoll items)
  | .memfd a => ∀ array frames, w.heap a ≠ some (.memfd array frames)
  | .eventfd a | .timerfd a | .signalfd a | .inotify a => (w.heap a).isNone
  | _ => True

theorem same_setPipe (w : World) (i : PipeId) (p : Pipe) :
    (w.setPipe i p).wake.Same w ↔ w.pipes i = p := by
  constructor
  · intro h
    exact (congrFun (congrArg World.pipes h) i).trans (update_self _ _ _)
  · rintro rfl
    unfold World.Same World.wake World.setPipe
    rw [update_eq_self]

theorem same_closeSocket (w : World) (i : SockId) :
    (closeSocket w i).wake.Same w ↔ (w.sockets i).used = false := by
  constructor
  · intro h
    have hsock := congrArg Socket.used (congrFun (congrArg World.sockets h) i)
    refine hsock.trans ?_
    change ((closeSocket w i).sockets i).used = false
    unfold closeSocket
    dsimp only
    split_ifs with hused hstream
    · simp [World.setSocket, Socket.reset]
    · simp [World.setSocket, Socket.reset]
    · simpa using hused
  · intro h
    have hsame : closeSocket w i = w := if_neg (by rw [h]; decide)
    rw [hsame]
    exact World.same_wake w

theorem not_same_of_freed {a : ℕ} {b : Block} (ha : w.heap a = some b) (hfree : w'.heap a = none) :
    ¬ w'.Same w := by
  intro h
  have hheap := congrFun (congrArg World.heap h) a
  rw [ha] at hheap
  cases hheap.trans hfree

theorem same_kfree (w : World) (a : ℕ) : (kfree w a).Same w ↔ (w.heap a).isNone := by
  cases ha : w.heap a with
  | none =>
    refine iff_of_true ?_ rfl
    unfold World.Same kfree
    rw [update_eq_self_iff.mpr ha.symm]
  | some b => exact iff_of_false (not_same_of_freed ha (update_self _ _ _)) (by simp)

theorem same_closeMemfd (w : World) (a : ℕ) :
    (closeMemfd w a).Same w ↔ ∀ array frames, w.heap a ≠ some (.memfd array frames) := by
  unfold closeMemfd
  split
  · next array frames ha =>
    exact iff_of_false (not_same_of_freed ha (update_self _ _ _)) fun h => h array frames ha
  · next hno => exact iff_of_true rfl hno

theorem same_closeEpoll (w : World) (a : ℕ) :
    (closeEpoll w a).Same w ↔ ∀ items, w.heap a ≠ some (.epoll items) := by
  unfold closeEpoll
  split
  · next items ha =>
    exact iff_of_false (not_same_of_freed ha (update_self _ _ _)) fun h => h items ha
  · next hno => exact iff_of_true rfl hno

theorem World.Same.symm (h : w.Same w') : w'.Same w := by
  unfold World.Same
  rw [h]

theorem lxCloseTarget_same (w : World) (t : Target) :
    (closeTarget w t).Same (lxCloseTarget w t) ↔ t.lxAgrees = true ∨ t.Idle w := by
  have hiff : ∀ {p : Prop}, p ↔ false = true ∨ p := by simp
  cases t with
  | pipeRead i => exact ((same_setPipe w i _).trans (Pipe.dropReader_eq _)).trans hiff
  | pipeWrite i => exact ((same_setPipe w i _).trans (Pipe.dropWriter_eq _)).trans hiff
  | socket i => exact (same_closeSocket w i).trans hiff
  | memfd a => exact (same_closeMemfd w a).trans hiff
  | epoll a => exact (Iff.trans ⟨.symm, .symm⟩ (same_closeEpoll w a)).trans hiff
  | eventfd a => exact (Iff.trans ⟨.symm, .symm⟩ (same_kfree w a)).trans hiff
  | _ => exact iff_of_true rfl (.inl rfl)

/-- The end of a process calls `tcp_close` where `SYS_CLOSE` drops the ends of two pipes. -/
theorem not_same_exitSocket {i : SockId} (h : (w.sockets i).paired = true) :
    ¬ (closeSocket w i).wake.Same (exitSocket w i).wake := by
  simp only [Socket.paired, Bool.and_eq_true, beq_iff_eq] at h
  obtain ⟨⟨⟨hused, hstream⟩, hunix⟩, hpipe⟩ := h
  obtain ⟨out, hout⟩ := Option.isSome_iff_exists.mp hpipe
  have hpos : 0 ≤ (w.sockets i).tcpHandle := by
    unfold pipeAt at hout
    split_ifs at hout with _ hpos
    exact hpos
  intro hsame
  have hlen := congrArg (List.length ∘ World.tcpClosed) hsame
  have hclose : (closeSocket w i).wake.tcpClosed = w.tcpClosed := by
    simp only [closeSocket, hused, hstream, closeStream, hunix, hout, if_true, World.wake]
    split <;> rfl
  have hexit : w.tcpClosed.length < (exitSocket w i).wake.tcpClosed.length := by
    simp only [exitSocket, hused, hstream, tcpCloseBoth, tcpCloseHandle, hpos, if_true, World.wake]
    split_ifs <;> simp [tcpClose, World.setSocket]
  simp only [Function.comp_apply, hclose] at hlen
  omega

theorem exitTarget_same (w : World) (t : Target) :
    (closeTarget w t).Same (exitTarget w t) ↔ t.exitAgrees w = true ∨ t.Idle w := by
  have hiff : ∀ {p : Prop}, p ↔ false = true ∨ p := by simp
  cases t with
  | socket i =>
    cases hpaired : (w.sockets i).paired with
    | false =>
      have hagrees : (Target.socket i).exitAgrees w = true := (Bool.not_eq_true' _).mpr hpaired
      rw [exitTarget_eq hagrees]
      exact iff_of_true (World.Same.refl _) (.inl hagrees)
    | true =>
      refine iff_of_false (not_same_exitSocket hpaired) ?_
      rintro (h | h)
      · cases hpaired.symm.trans ((Bool.not_eq_true' _).mp h)
      · simp only [Socket.paired, Bool.and_eq_true] at hpaired
        cases hpaired.1.1.1.symm.trans h
  | timerfd a | signalfd a | inotify a => exact (same_kfree w a).trans hiff
  | memfd a => exact (same_closeMemfd w a).trans hiff
  | _ => exact iff_of_true rfl (.inl rfl)

/-! ### Sockets that stay -/

theorem tcpCloseBoth_sockets (w : World) (sk : Socket) :
    (tcpCloseBoth w sk).sockets = w.sockets := by
  unfold tcpCloseBoth tcpCloseHandle
  split_ifs <;> rfl

theorem closeStream_sockets (w : World) (sk : Socket) : (closeStream w sk).sockets = w.sockets := by
  unfold closeStream
  split_ifs
  · split
    · split <;> rfl
    · exact tcpCloseBoth_sockets w sk
  · exact tcpCloseBoth_sockets w sk

theorem closeSocket_sockets (w : World) (i j : SockId) : (closeSocket w i).sockets j = w.sockets j ∨
      (closeSocket w i).sockets j = (w.sockets j).reset := by
  have hset : ∀ w' : World, w'.sockets = w.sockets →
      (w'.setSocket i (w.sockets i).reset).sockets j = w.sockets j ∨
        (w'.setSocket i (w.sockets i).reset).sockets j = (w.sockets j).reset := by
    intro w' hw
    by_cases hj : j = i
    · subst hj
      exact .inr (update_self _ _ _)
    · exact .inl ((update_of_ne hj _ _).trans (congrFun hw j))
  unfold closeSocket
  dsimp only
  split_ifs
  · exact hset _ (closeStream_sockets w _)
  · exact hset _ rfl
  · exact .inl rfl

theorem closeMemfd_sockets (w : World) (a : ℕ) : (closeMemfd w a).sockets = w.sockets := by
  unfold closeMemfd
  split
  · unfold memfdFreePages
    split_ifs <;> rfl
  · rfl

theorem vfsClose_sockets (w : World) (i : FileId) : (vfsClose w i).sockets = w.sockets := by
  unfold vfsClose
  split <;> rfl

theorem closeTarget_sockets (w : World) (t : Target) (j : SockId) :
    (closeTarget w t).sockets j = w.sockets j ∨
      (closeTarget w t).sockets j = (w.sockets j).reset := by
  cases t with
  | file i => exact .inl (congrFun (vfsClose_sockets w i) j)
  | socket i => exact closeSocket_sockets w i j
  | memfd a => exact .inl (congrFun (closeMemfd_sockets w a) j)
  | _ => exact .inl rfl

theorem exitAgrees_closeTarget (h : t.exitAgrees w = true) (t' : Target) :
    t.exitAgrees (closeTarget w t') = true := by
  cases t with
  | socket i =>
    have hpaired : (w.sockets i).paired = false := (Bool.not_eq_true' _).mp h
    apply (Bool.not_eq_true' _).mpr
    rcases closeTarget_sockets w t' i with hi | hi
    · rw [hi, hpaired]
    · rw [hi]
      rfl
  | _ => exact h

/-! ### The end of a process -/

theorem fdIndex_eq {lo : ℤ} (h : lo ≤ fd.val) : fdIndex lo fd.val = some fd := by
  have hlt : ((fd.val : ℤ)).toNat < fdMax := by
    exact fd.isLt
  unfold fdIndex
  rw [dif_pos hlt, if_pos ⟨h, Int.natCast_nonneg _⟩]
  rfl

theorem sysClose_open (h3 : 3 ≤ fd.val) (hopen : (v.files.fds fd).target ≠ .none) :
    sysClose v fd.val =
      (0, ⟨fdRelease v.files fd, closeTarget v.world (v.files.fds fd).target⟩) := by
  unfold sysClose
  rw [fdIndex_eq (by exact_mod_cast h3)]
  exact if_neg hopen

theorem sysClose_closed (hopen : (v.files.fds fd).target = .none) : (sysClose v fd.val).2 = v := by
  unfold sysClose
  by_cases h3 : 3 ≤ fd.val
  · rw [fdIndex_eq (by exact_mod_cast h3)]
    dsimp only
    rw [if_pos hopen]
  · have hnone : fdIndex 3 fd.val = none := by
      unfold fdIndex
      rw [dif_pos (by simp), if_neg (by omega)]
    rw [hnone]

def Files.Low (f : Files) : Prop := ∀ fd : FdIndex, fd.val < 3 → (f.fds fd).target = .none

def closeAll (v : View) (fds : List FdIndex) : View :=
  fds.foldl (fun v fd => (sysClose v fd.val).2) v

def View.ExitAgrees (v : View) : Prop := ∀ fd, (v.files.fds fd).target.exitAgrees v.world = true

theorem Files.set_target (f : Files) (fd g : FdIndex) :
    ((f.set fd .closed).fds g).target = if g = fd then .none else (f.fds g).target := by
  unfold Files.set
  dsimp only
  rw [update_apply]
  split_ifs <;> rfl

/-- **The loop at the end of a process** lets go of the descriptors as closing them in turn would.
-/
theorem exit_loop (fds : List FdIndex) : ∀ {v v' : View}, v.ExitAgrees → v.files.Low →
    v'.world = v.world → v'.files.fds = v.files.fds →
    (fds.foldl exitFd v).world = (closeAll v' fds).world := by
  induction fds with
  | nil => exact fun _ _ hw _ => hw.symm
  | cons fd fds ih =>
    intro v v' hagree hlow hw hf
    unfold closeAll
    rw [List.foldl_cons, List.foldl_cons, exitFd]
    by_cases ht : (v.files.fds fd).target = .none
    · rw [if_pos ht, sysClose_closed (by rw [hf, ht])]
      exact ih hagree hlow hw hf
    · have h3 : 3 ≤ fd.val := Nat.le_of_not_lt fun hlt => ht (hlow fd hlt)
      rw [if_neg ht, sysClose_open h3 (by rw [hf]; exact ht), exitTarget_eq (hagree fd), hf, hw]
      apply ih
      · intro g
        rw [Files.set_target]
        split_ifs
        · rfl
        · exact exitAgrees_closeTarget (hagree g) _
      · intro g hg
        rw [Files.set_target, hlow g hg, ite_self]
      · rfl
      · unfold fdRelease
        rw [if_neg (by omega)]
        unfold Files.set
        rw [hf]

theorem sharedReleaseFds_world (hagree : v.ExitAgrees) (hlow : v.files.Low) :
    (sharedReleaseFds v).world = (closeAll v (List.finRange fdMax)).world := by
  unfold sharedReleaseFds
  dsimp only
  exact exit_loop (List.finRange fdMax) hagree hlow rfl rfl

/-! ### The calls -/

def Files.targets (f : Files) (fd : FdIndex) : Target := (f.fds fd).target

theorem set_targets (f : Files) (fd : FdIndex) (d : Desc) :
    (f.set fd d).targets = update f.targets fd d.target := by
  funext g
  unfold Files.targets Files.set
  by_cases hg : g = fd
  · subst hg
    simp
  · simp [hg]

theorem fdInstall_targets (h3 : 3 ≤ fd.val) (t : Target) (flags : ℕ) :
    (fdInstall f fd t flags).targets = update f.targets fd t := by
  unfold fdInstall
  rw [if_neg (by omega)]
  exact set_targets f fd _

theorem set_same {d : Desc} (h : d.target = f.targets fd) : (f.set fd d).targets = f.targets := by
  rw [set_targets, h, update_eq_self]

theorem copyFd_spec (h3 : 3 ≤ newfd.val) (flags : ℕ) :
    (copyFd v oldfd newfd flags).2.files.targets =
      update v.files.targets newfd (v.files.targets oldfd) ∧
    (copyFd v oldfd newfd flags).2.world = retainTarget v.world (v.files.fds oldfd).target := by
  have hlt := (v.files.fds oldfd).path_lt
  have hinstall := fdInstall_targets (f := v.files) h3 (v.files.fds oldfd).target flags
  unfold copyFd
  dsimp only
  split_ifs with hpath
  · refine ⟨(set_same ?_).trans hinstall, rfl⟩
    rfl
  · have hlen : (v.files.fds oldfd).path.length ≠ 0 :=
      fun h0 => hpath (List.length_eq_zero_iff.mp h0)
    unfold installFdPath fdPathSet
    rw [if_neg (by omega), if_neg hlen, dif_pos hlt]
    refine ⟨(set_same ?_).trans ((set_same ?_).trans hinstall), rfl⟩ <;> rfl

theorem sysDup2_world (h3 : 3 ≤ newfd.val) (hne : oldfd ≠ newfd)
    (hold : (v.files.fds oldfd).target ≠ .none) (hnew : (v.files.fds newfd).target ≠ .none) :
    (sysDup2 v oldfd.val newfd.val).2.world =
      retainTarget (dup2Target v.world (v.files.fds newfd).target) (v.files.fds oldfd).target := by
  have hkeep : ((fdRelease v.files newfd).fds oldfd).target = (v.files.fds oldfd).target := by
    unfold fdRelease
    rw [if_neg (by omega)]
    exact congrArg Desc.target (update_of_ne hne _ _)
  unfold sysDup2
  rw [fdIndex_eq (Int.natCast_nonneg _), fdIndex_eq (by exact_mod_cast h3)]
  dsimp only
  rw [if_neg hold, if_neg hne, if_neg hnew, (copyFd_spec h3 _).2]
  rw [hkeep]

theorem lxCloseFd_open (h3 : 3 ≤ fd.val) (hopen : (v.files.fds fd).target ≠ .none) :
    lxCloseFd v fd.val =
      (0, ⟨fdRelease v.files fd, lxCloseTarget v.world (v.files.fds fd).target⟩) := by
  unfold lxCloseFd
  rw [fdIndex_eq (Int.natCast_nonneg _)]
  dsimp only
  rw [if_neg (by omega), if_neg hopen]

def oneFile : View := (sysOpen .boot ['/', 'a'] 0 ⟨false, some 0, true, false⟩).2

def onePipe : View := (sysPipe .boot true).2

def oneTimer : View := (sysTimerfdCreate .boot 0 0 0x1000).2

def oneMemfd : View := (sysMemfdCreate .boot true 0 0x1000).2

end TaterTOS.Fd
