import TaterTOS.Fd.Channels

/-!
# Pipes of all processes

* **`pipes_exact`**: counts of ends, order of bytes and reuse of pipes.

The standard streams are not modelled: their descriptors have no entry.
-/

namespace TaterTOS.Fd

open Function Lib Sched List

/-! ### Reads and writes -/

def sysRead (w : World) (d : Desc) (writable : Bool) (len : ℕ) : Option ℤ × List UInt8 × World :=
  if !writable then (some (-EFAULT), [], w)
  else
    match d.target with
    | .pipeRead i =>
      let r := pipeRead w i len
      if r.1 = -EAGAIN ∧ d.flags &&& oNonblock = 0 ∧ 0 < (w.pipes i).writers then (none, [], w)
      else (some r.1, r.2)
    | _ => (some (-EBADF), [], w)

def resumeRead (w : World) (d : Desc) (len : ℕ) : ℤ × List UInt8 × World :=
  match d.target with
  | .pipeRead i | .pipeWrite i =>
    let r := pipeRead w i len
    (if r.1 = -EAGAIN ∧ (w.pipes i).writers = 0 then 0 else r.1, r.2)
  | _ => (-EBADF, [], w)

def sysWrite (w : World) (d : Desc) (readable : Bool) (bytes : List UInt8) : Option ℤ × World :=
  if !readable then (some (-EFAULT), w)
  else
    match d.target with
    | .pipeWrite i =>
      let r := pipeWrite w i bytes
      if r.1 = -EAGAIN ∧ d.flags &&& oNonblock = 0 ∧ 0 < (w.pipes i).readers then (none, w)
      else (some r.1, r.2)
    | _ => (some (-EBADF), w)

def resumeWrite (w : World) (d : Desc) (bytes : List UInt8) : ℤ × World :=
  match d.target with
  | .pipeRead i | .pipeWrite i => pipeWrite w i bytes
  | _ => (-EBADF, w)

/-! ### Processes -/

def Traffic.receiveAt (m : Traffic) (t : Target) (bytes : List UInt8) : Traffic :=
  match t with
  | .pipeRead i | .pipeWrite i => m.receive i bytes
  | _ => m

def Traffic.sendAt (m : Traffic) (t : Target) (bytes : List UInt8) (answer : ℤ) : Traffic :=
  match t with
  | .pipeRead i | .pipeWrite i => m.send i (bytes.take answer.toNat)
  | _ => m

inductive Call
  | pipe (writable : Bool)
  | read (fd : FdIndex) (writable : Bool) (len : ℕ)
  | resumeRead (fd : FdIndex) (len : ℕ)
  | write (fd : FdIndex) (readable : Bool) (bytes : List UInt8)
  | resumeWrite (fd : FdIndex) (bytes : List UInt8)
  | dup (fd : ℤ)
  | dup2 (oldfd newfd : ℤ)
  | close (fd : ℤ)

def View.call (v : View) (m : Traffic) : Call → View × Traffic
  | .pipe writable => ((sysPipe v writable).2, m.forget v.world.pipes)
  | .read fd writable len =>
    let r := sysRead v.world (v.files.fds fd) writable len
    (v.setWorld r.2.2, m.receiveAt (v.files.targets fd) r.2.1)
  | .resumeRead fd len =>
    let r := resumeRead v.world (v.files.fds fd) len
    (v.setWorld r.2.2, m.receiveAt (v.files.targets fd) r.2.1)
  | .write fd readable bytes =>
    let r := sysWrite v.world (v.files.fds fd) readable bytes
    (v.setWorld r.2, m.sendAt (v.files.targets fd) bytes (r.1.getD 0))
  | .resumeWrite fd bytes =>
    let r := resumeWrite v.world (v.files.fds fd) bytes
    (v.setWorld r.2, m.sendAt (v.files.targets fd) bytes r.1)
  | .dup fd => ((sysDup v fd).2, m)
  | .dup2 oldfd newfd => ((sysDup2 v oldfd newfd).2, m)
  | .close fd => ((sysClose v fd).2, m)

structure System (π : Type) where
  files : π → Option Files
  world : World
  traffic : Traffic

def System.boot (π : Type) : System π := ⟨fun _ => none, World.boot, Traffic.none⟩

variable {π : Type} [DecidableEq π]

def System.put (y : System π) (p : π) (o : Option Files) (w : World) (m : Traffic) : System π :=
  ⟨update y.files p o, w, m⟩

def System.call (y : System π) (p : π) (f : Files) (c : Call) : System π :=
  let r := View.call ⟨f, y.world⟩ y.traffic c
  y.put p (some r.1.files) r.1.world r.2

inductive Step : System π → System π → Prop
  | start {y : System π} {p : π} (h : y.files p = none) :
      Step y (y.put p (some .fresh) y.world y.traffic)
  | call {y : System π} {p : π} {f : Files} (h : y.files p = some f) (c : Call) :
      Step y (y.call p f c)
  | exit {y : System π} {p : π} {f : Files} (h : y.files p = some f) :
      Step y (y.put p none (sharedReleaseFds ⟨f, y.world⟩).world y.traffic)

def Reachable (y : System π) : Prop := Relation.ReflTransGen Step (System.boot π) y

def System.targets (y : System π) (a : π × FdIndex) : Target :=
  match y.files a.1 with
  | none => .none
  | some f => f.targets a.2

def System.channels (y : System π) : Channels (π × FdIndex) :=
  ⟨y.targets, y.world.pipes, y.traffic⟩

/-! ### The objects behind a descriptor -/

theorem dropped_pipes {t : Target} (h : t.isEnd = true) (w : World) :
    (closeTarget w t).pipes = dropEnd w.pipes t ∧ (dup2Target w t).pipes = dropEnd w.pipes t ∧
      (exitTarget w t).pipes = dropEnd w.pipes t := by
  cases t <;> first | exact ⟨rfl, rfl, rfl⟩ | exact absurd h nofun

theorem retainTarget_pipes (w : World) (t : Target) :
    (retainTarget w t).pipes = addEnd w.pipes t := by
  cases t <;> rfl

theorem pipeRead_spec (w : World) (i : PipeId) (len : ℕ) : (pipeRead w i len).2 = ([], w) ∨
    (pipeRead w i len).2.1 = ((w.pipes i).ring.read pipeBufsz len).1 ∧
    (pipeRead w i len).2.2.pipes = update w.pipes i
      { w.pipes i with ring := ((w.pipes i).ring.read pipeBufsz len).2 } := by
  unfold pipeRead
  dsimp only
  split_ifs
  · exact Or.inl rfl
  · exact Or.inl rfl
  · exact Or.inl rfl
  · exact Or.inr ⟨rfl, rfl⟩

theorem pipeWrite_spec (w : World) (i : PipeId) (bytes : List UInt8) :
    (pipeWrite w i bytes).1 ≤ 0 ∧ (pipeWrite w i bytes).2 = w ∨
    (pipeWrite w i bytes).1 = ((w.pipes i).ring.write pipeBufsz bytes).1 ∧
    (pipeWrite w i bytes).2.pipes = update w.pipes i
      { w.pipes i with ring := ((w.pipes i).ring.write pipeBufsz bytes).2 } := by
  unfold pipeWrite
  dsimp only
  split_ifs
  · exact Or.inl ⟨show -EINVAL ≤ 0 by decide, rfl⟩
  · exact Or.inl ⟨show -EPIPE ≤ 0 by decide, rfl⟩
  · exact Or.inl ⟨show -EAGAIN ≤ 0 by decide, rfl⟩
  · exact Or.inr ⟨rfl, rfl⟩

/-! ### One process among the others -/

def within (rest : π × FdIndex → Target) (p : π) (g : FdIndex → Target) (a : π × FdIndex) :
    Target :=
  if a.1 = p then g a.2 else rest a

section

variable (rest : π × FdIndex → Target) (p : π) (g : FdIndex → Target) (fd : FdIndex)
include rest p g fd

theorem within_self :
    within rest p g (p, fd) = g fd := if_pos rfl

theorem within_update
    (t : Target) :
    within rest p (update g fd t) = update (within rest p g) (p, fd) t := by
  funext ⟨q, e⟩
  unfold within
  by_cases hq : q = p
  · subst hq
    by_cases he : e = fd
    · subst he
      simp
    · simp [he]
  · simp [hq]

end

theorem put_targets (y : System π) (p : π) (o : Option Files) (w : World) (m : Traffic) :
    (y.put p o w m).targets =
      within y.targets p fun fd => o.elim .none fun f => f.targets fd := by
  funext ⟨q, fd⟩
  unfold System.targets within System.put
  by_cases hq : q = p
  · subst hq
    dsimp only
    rw [update_self, if_pos rfl]
    cases o <;> rfl
  · dsimp only
    rw [update_of_ne hq, if_neg hq]

theorem within_targets {y : System π} {p : π} {f : Files} (h : y.files p = some f) :
    within y.targets p f.targets = y.targets := by
  funext ⟨q, fd⟩
  unfold System.targets within
  by_cases hq : q = p
  · subst hq
    rw [h, if_pos rfl]
  · rw [if_neg hq]

def View.channels (v : View) (rest : π × FdIndex → Target) (p : π) (m : Traffic) :
    Channels (π × FdIndex) :=
  ⟨within rest p v.files.targets, v.world.pipes, m⟩

variable [Fintype π] {rest : π × FdIndex → Target} {p : π} {v : View} {m : Traffic}

theorem View.isEnd (h : (v.channels rest p m).Exact) (fd : FdIndex) :
    (v.files.targets fd).isEnd = true := by
  have hfd := h.isEnd (p, fd)
  dsimp only [View.channels] at hfd
  rwa [within_self] at hfd

theorem View.exact_drop (h : (v.channels rest p m).Exact) {v' : View} {fd : FdIndex}
    (htargets : v'.files.targets = update v.files.targets fd .none)
    (hpipes : v'.world.pipes = dropEnd v.world.pipes (v.files.targets fd)) :
    (v'.channels rest p m).Exact := by
  have hdrop := h.drop (p, fd)
  unfold View.channels at hdrop ⊢
  dsimp only at hdrop
  rw [htargets, hpipes, within_update]
  rwa [within_self] at hdrop

theorem View.exact_copy (h : (v.channels rest p m).Exact) {v' : View} {i j : FdIndex}
    (hj : v.files.targets j = .none)
    (htargets : v'.files.targets = update v.files.targets j (v.files.targets i))
    (hpipes : v'.world.pipes = addEnd v.world.pipes (v.files.targets i)) :
    (v'.channels rest p m).Exact := by
  have hnone : (v.channels rest p m).ends (p, j) = .none := (within_self _ _ _ _).trans hj
  have hcopy := h.copy (b := (p, i)) hnone
  unfold View.channels at hcopy ⊢
  dsimp only at hcopy
  rw [htargets, hpipes, within_update]
  rwa [within_self] at hcopy

theorem Traffic.receive_nil (m : Traffic) (i : PipeId) : m.receive i [] = m := by
  unfold Traffic.receive
  rw [append_nil, update_eq_self]

theorem Traffic.send_nil (m : Traffic) (i : PipeId) : m.send i [] = m := by
  unfold Traffic.send
  rw [append_nil, update_eq_self]

section

variable (h : (v.channels rest p m).Exact)
include h

theorem View.exact_pipeRead (i : PipeId) (len : ℕ) :
    ((v.setWorld (pipeRead v.world i len).2.2).channels rest p
      (m.receive i (pipeRead v.world i len).2.1)).Exact := by
  rcases pipeRead_spec v.world i len with hsame | ⟨hbytes, hpipes⟩
  · rw [hsame, Traffic.receive_nil]
    exact h
  · unfold View.channels View.setWorld
    rw [hbytes, hpipes]
    exact h.receive i len

theorem View.exact_pipeWrite (i : PipeId) (bytes : List UInt8) :
    ((v.setWorld (pipeWrite v.world i bytes).2).channels rest p
      (m.send i (bytes.take (pipeWrite v.world i bytes).1.toNat))).Exact := by
  rcases pipeWrite_spec v.world i bytes with ⟨hneg, hsame⟩ | ⟨hcount, hpipes⟩
  · rw [Int.toNat_of_nonpos hneg, take_zero, Traffic.send_nil, hsame]
    exact h
  · unfold View.channels View.setWorld
    rw [hcount, hpipes]
    exact h.send i bytes

theorem View.exact_receiveAt (t : Target) :
    (v.channels rest p (m.receiveAt t [])).Exact := by
  cases t with
  | pipeRead | pipeWrite =>
    dsimp only [Traffic.receiveAt]
    rwa [Traffic.receive_nil]
  | _ => exact h

theorem View.exact_sendAt (t : Target) (bytes : List UInt8)
    {answer : ℤ} (hneg : answer ≤ 0) : (v.channels rest p (m.sendAt t bytes answer)).Exact := by
  unfold Traffic.sendAt
  rw [Int.toNat_of_nonpos hneg, take_zero]
  cases t with
  | pipeRead | pipeWrite =>
    dsimp only
    rwa [Traffic.send_nil]
  | _ => exact h

theorem View.exact_read (fd : FdIndex) (writable : Bool)
    (len : ℕ) : ((v.call m (.read fd writable len)).1.channels rest p
      (v.call m (.read fd writable len)).2).Exact := by
  unfold View.call sysRead Files.targets
  dsimp only
  split_ifs
  · exact View.exact_receiveAt h _
  · cases (v.files.fds fd).target with
    | pipeRead i =>
      dsimp only
      split_ifs
      · exact View.exact_receiveAt h (.pipeRead i)
      · exact View.exact_pipeRead h i len
    | _ => exact View.exact_receiveAt h _

theorem View.exact_resumeRead (fd : FdIndex) (len : ℕ) :
    ((v.call m (.resumeRead fd len)).1.channels rest p
      (v.call m (.resumeRead fd len)).2).Exact := by
  unfold View.call resumeRead Files.targets
  dsimp only
  cases (v.files.fds fd).target with
  | pipeRead i | pipeWrite i => exact View.exact_pipeRead h i len
  | _ => exact View.exact_receiveAt h _

theorem View.exact_write (fd : FdIndex) (readable : Bool)
    (bytes : List UInt8) : ((v.call m (.write fd readable bytes)).1.channels rest p
      (v.call m (.write fd readable bytes)).2).Exact := by
  unfold View.call sysWrite Files.targets
  dsimp only
  split_ifs
  · exact View.exact_sendAt h _ bytes (show -EFAULT ≤ 0 by decide)
  · cases (v.files.fds fd).target with
    | pipeWrite i =>
      dsimp only
      split_ifs
      · exact View.exact_sendAt h (.pipeWrite i) bytes le_rfl
      · exact View.exact_pipeWrite h i bytes
    | _ => exact View.exact_sendAt h _ bytes (show -EBADF ≤ 0 by decide)

theorem View.exact_resumeWrite (fd : FdIndex)
    (bytes : List UInt8) : ((v.call m (.resumeWrite fd bytes)).1.channels rest p
      (v.call m (.resumeWrite fd bytes)).2).Exact := by
  unfold View.call resumeWrite Files.targets
  dsimp only
  cases (v.files.fds fd).target with
  | pipeRead i | pipeWrite i => exact View.exact_pipeWrite h i bytes
  | _ => exact View.exact_sendAt h _ bytes (show -EBADF ≤ 0 by decide)

theorem View.exact_pipe (writable : Bool) :
    ((v.call m (.pipe writable)).1.channels rest p (v.call m (.pipe writable)).2).Exact := by
  have hforget : (v.channels rest p (m.forget v.world.pipes)).Exact := h.forget
  dsimp only [View.call]
  rcases sysPipe_spec v writable with hsame | ⟨i, hused, hcases⟩
  · rw [hsame]
    exact hforget
  · rcases hcases with ⟨htargets, hworld⟩ | ⟨a, b, ha, hb, hab, htargets, hworld⟩
    · unfold View.channels
      rw [htargets, hworld]
      exact hforget.refuse hused
    · have hends : ∀ fd, (v.channels rest p m).ends (p, fd) = v.files.targets fd :=
        within_self rest p v.files.targets
      have hne : (p, b) ≠ (p, a) := fun he => hab (Prod.mk.inj he).2
      have hmade := h.create hused ((hends a).trans ha) ((hends b).trans hb) hne
      unfold View.channels
      rw [htargets, hworld, within_update, within_update]
      exact hmade

theorem View.exact_dup2 (oldfd newfd : ℤ) :
    ((sysDup2 v oldfd newfd).2.channels rest p m).Exact := by
  rcases sysDup2_spec v oldfd newfd with hsame | ⟨i, j, hij, -, -, htargets, hworld⟩
  · rwa [hsame]
  · -- the new descriptor is closed first
    have htargets1 : (v.files.set j .closed).targets = update v.files.targets j .none :=
      set_targets v.files j .closed
    have hi : (v.files.set j .closed).targets i = v.files.targets i := by
      rw [htargets1, update_of_ne hij]
    have hj : (v.files.set j .closed).targets j = .none := by
      rw [htargets1, update_self]
    have h1 := @View.exact_drop π _ _ rest p v m h
      ⟨v.files.set j .closed, dup2Target v.world (v.files.targets j)⟩ j htargets1
      (dropped_pipes (View.isEnd h j) _).2.1
    apply View.exact_copy h1 (i := i) hj
    · rw [htargets, hi, htargets1, update_idem]
    · rw [hworld, hi, retainTarget_pipes]

theorem View.exact_call (c : Call) :
    ((v.call m c).1.channels rest p (v.call m c).2).Exact := by
  cases c with
  | pipe writable => exact View.exact_pipe h writable
  | read fd writable len => exact View.exact_read h fd writable len
  | resumeRead fd len => exact View.exact_resumeRead h fd len
  | write fd readable bytes => exact View.exact_write h fd readable bytes
  | resumeWrite fd bytes => exact View.exact_resumeWrite h fd bytes
  | dup fd =>
    dsimp only [View.call]
    rcases sysDup_spec v fd with hsame | ⟨i, j, -, hj, htargets, hworld⟩
    · rwa [hsame]
    · exact View.exact_copy h hj htargets (hworld ▸ retainTarget_pipes _ _)
  | dup2 oldfd newfd => exact View.exact_dup2 h oldfd newfd
  | close fd =>
    dsimp only [View.call]
    rcases sysClose_spec v fd with hsame | ⟨i, -, htargets, hworld⟩
    · rwa [hsame]
    · exact View.exact_drop h htargets (hworld ▸ (dropped_pipes (View.isEnd h i) _).1)

end

/-! ### The end of a process -/

theorem exitFd_targets (v : View) (fd : FdIndex) :
    (exitFd v fd).files.targets = update v.files.targets fd .none := by
  unfold exitFd
  dsimp only
  split_ifs with hnone
  · rw [← hnone]
    exact (update_eq_self _ _).symm
  · exact set_targets v.files fd .closed

theorem View.exact_exitFd (h : (v.channels rest p m).Exact) (fd : FdIndex) :
    ((exitFd v fd).channels rest p m).Exact := by
  apply View.exact_drop h (exitFd_targets v fd)
  unfold exitFd
  dsimp only
  split_ifs with hnone
  · unfold Files.targets
    rw [hnone]
    rfl
  · exact (dropped_pipes (View.isEnd h fd) _).2.2

theorem View.exact_exitFds (fds : List FdIndex) : ∀ {v : View}, (v.channels rest p m).Exact →
    ((fds.foldl exitFd v).channels rest p m).Exact := by
  induction fds with
  | nil => exact fun h => h
  | cons fd fds ih => exact fun h => ih (View.exact_exitFd h fd)

theorem exitFds_targets (fds : List FdIndex) : ∀ (v : View) {fd : FdIndex},
    fd ∈ fds ∨ v.files.targets fd = .none → (fds.foldl exitFd v).files.targets fd = .none := by
  induction fds with
  | nil => exact fun v fd h => h.resolve_left not_mem_nil
  | cons e fds ih =>
    intro v fd h
    apply ih
    by_cases hfd : fd = e
    · right
      rw [exitFd_targets, hfd, update_self]
    · rw [exitFd_targets, update_of_ne hfd]
      exact h.imp_left fun hmem => (mem_cons.mp hmem).resolve_left hfd

theorem View.exact_exit (h : (v.channels rest p m).Exact) : Channels.Exact
    ⟨within rest p fun _ => .none, (sharedReleaseFds v).world.pipes, m⟩ := by
  have hall := View.exact_exitFds (List.finRange fdMax) h
  have hnone : ((List.finRange fdMax).foldl exitFd v).files.targets = fun _ => .none :=
    funext fun fd => exitFds_targets _ v (Or.inl (mem_finRange fd))
  have hworld : (sharedReleaseFds v).world = ((List.finRange fdMax).foldl exitFd v).world := by
    unfold sharedReleaseFds
    dsimp only
  unfold View.channels at hall
  rw [hnone] at hall
  rw [hworld]
  exact hall

/-! ### Runs -/

omit [DecidableEq π] in
theorem boot_exact : (System.boot π).channels.Exact := by
  refine ⟨fun _ => rfl, fun i => ?_⟩
  have hzero : ∀ t : Target, t ≠ .none → tally (System.boot π).channels.ends t = 0 :=
    fun t ht => tally_eq_zero.mpr fun _ => ht.symm
  rw [hzero (.pipeRead i) nofun, hzero (.pipeWrite i) nofun]
  exact ⟨rfl, rfl, by simp [System.channels, System.boot, World.boot],
    Pipe.Exact.valid_empty ⟨fun _ => 0, 0, 0⟩, nofun⟩

theorem Step.exact {y y' : System π} (hstep : Step y y') (h : y.channels.Exact) :
    y'.channels.Exact := by
  have hview : ∀ {p : π} {f : Files}, y.files p = some f →
      (View.channels ⟨f, y.world⟩ y.targets p y.traffic).Exact := by
    intro p f hp
    unfold View.channels
    rwa [within_targets hp]
  cases hstep with
  | @start p hp =>
    have htargets : (y.put p (some .fresh) y.world y.traffic).targets = y.targets := by
      rw [put_targets]
      funext ⟨q, fd⟩
      unfold within System.targets
      split_ifs with hq
      · rw [hq, hp]
        rfl
      · rfl
    unfold System.channels
    rw [htargets]
    exact h
  | call hp c =>
    unfold System.channels System.call
    rw [put_targets]
    exact View.exact_call (hview hp) c
  | exit hp =>
    unfold System.channels
    rw [put_targets]
    dsimp only [System.put]
    exact View.exact_exit (hview hp)

theorem Reachable.exact {y : System π} (h : Reachable y) : y.channels.Exact := by
  induction h with
  | refl => exact boot_exact
  | tail _ hstep ih => exact hstep.exact ih

/-- **Pipes are channels.** In every run, the counts of a pipe are the numbers of descriptors of all
processes that refer to its ends; while a pipe is used, the bytes that reads returned and then the
stored bytes are the bytes that writes accepted; at most `pipeBufsz - 1` bytes are stored; a pipe
that `pipe_alloc` gives out has no ends; and no descriptor refers to a pipe without ends. -/
theorem pipes_exact {y : System π} (h : Reachable y) (i : PipeId) :
    (y.world.pipes i).readers = tally y.targets (.pipeRead i) ∧
    (y.world.pipes i).writers = tally y.targets (.pipeWrite i) ∧
    ((y.world.pipes i).used = true →
      y.traffic.received i ++ (y.world.pipes i).ring.contents pipeBufsz = y.traffic.sent i) ∧
    ((y.world.pipes i).ring.contents pipeBufsz).length ≤ pipeBufsz - 1 ∧
    (∀ w, pipeAlloc y.world = some (i, w) →
      (y.world.pipes i).readers = 0 ∧ (y.world.pipes i).writers = 0) ∧
    ((y.world.pipes i).readers = 0 → (y.world.pipes i).writers = 0 →
      ∀ a, y.targets a ≠ .pipeRead i ∧ y.targets a ≠ .pipeWrite i) := by
  have hi : (y.world.pipes i).Exact (tally y.targets (.pipeRead i))
    (tally y.targets (.pipeWrite i)) (y.traffic.sent i) (y.traffic.received i) := h.exact.pipe i
  refine ⟨hi.readers, hi.writers, fun hused => (hi.fifo hused).symm, hi.length_le, ?_, ?_⟩
  · intro w hw
    rw [hi.readers, hi.writers]
    exact hi.counts_of_unused (pipeAlloc_some hw).1
  · intro hr hw a
    rw [hi.readers, tally_eq_zero] at hr
    rw [hi.writers, tally_eq_zero] at hw
    exact ⟨hr a, hw a⟩

def System.calls (y : System Unit) (f : Files) : List Call → System Unit
  | [] => y
  | c :: cs => (y.call () f c).calls (View.call ⟨f, y.world⟩ y.traffic c).1.files cs

theorem reachable_calls (cs : List Call) : ∀ {y : System Unit} {f : Files}, Reachable y →
    y.files () = some f → Reachable (y.calls f cs) := by
  induction cs with
  | nil => exact fun h _ => h
  | cons c cs ih =>
    intro y f h hf
    apply ih (h.tail (.call hf c))
    dsimp only [System.call, System.put]
    rw [update_self]

def oneChannel : System Unit :=
  ((System.boot Unit).put () (some .fresh) World.boot Traffic.none).calls .fresh
    [.pipe true, .write 4 true [1, 2, 3], .read 3 true 2]

theorem oneChannel_reachable : Reachable oneChannel :=
  reachable_calls _ (.single (.start rfl)) rfl

theorem pipes_exact_oneChannel : oneChannel.traffic.sent 0 = [1, 2, 3] ∧
    oneChannel.traffic.received 0 = [1, 2] ∧ (oneChannel.world.pipes 0).used = true ∧
    oneChannel.traffic.received 0 ++ (oneChannel.world.pipes 0).ring.contents pipeBufsz =
      oneChannel.traffic.sent 0 := by
  have hused : (oneChannel.world.pipes 0).used = true := by decide +kernel
  obtain ⟨-, -, hfifo, -⟩ := pipes_exact oneChannel_reachable 0
  exact ⟨by decide +kernel, by decide +kernel, hused, hfifo hused⟩

end TaterTOS.Fd
