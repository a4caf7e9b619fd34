import TaterTOS.Fd.Objects

/-!
# Duplicated descriptors

* `Op`, `View.op`: the calls that open, duplicate and close descriptors;
* **`careful_objects`**: an object is live exactly while a descriptor refers to it.
-/

namespace TaterTOS.Fd

open Function

variable {w₀ w : World} {g : FdIndex → Target}
  {w' : World} {i : SockId} {a : ℕ} {b : Block} {fd : FdIndex} {v : View}

/-! ### Closing -/

theorem same_wake (w : World) (x : Object) : x.Same w w.wake := by
  cases x <;> rfl

theorem World.Same.object {w : World} (h : w.Same w') (x : Object) : x.Same w w' := by
  rw [h]
  cases x <;> rfl

theorem kfree_dead (w : World) (a : ℕ) : Object.live (kfree w a) (.block a) = false := by
  dsimp only [kfree, Object.live]
  rw [update_self]
  rfl

theorem vfsClose_touches (w : World) (i : FileId) :
    Touches (.file i) w (vfsClose w i) ∧ Object.live (vfsClose w i) (.file i) = false := by
  unfold vfsClose
  cases hi : w.files i with
  | none =>
    refine ⟨fun x _ => ?_, ?_⟩
    · cases x <;> rfl
    · dsimp only [Object.live]
      rw [hi]
      rfl
  | some m =>
    refine ⟨fun x hx => by cases x <;> exact touches_setFile w i none _ hx, ?_⟩
    exact congrArg Option.isSome (update_self i none w.files)

theorem tcpCloseBoth_touches (w : World) (sk : Socket) (x : Object) :
    x.Same w (tcpCloseBoth w sk) := by
  unfold tcpCloseBoth tcpCloseHandle
  split_ifs <;> cases x <;> rfl

theorem closeSocket_touches (h : (w.sockets i).domain = afInet) :
    Touches (.socket i) w (closeSocket w i) ∧
      Object.live (closeSocket w i) (.socket i) = false := by
  have hstream : closeStream w (w.sockets i) = tcpCloseBoth w (w.sockets i) := by
    unfold closeStream
    rw [h]
    rfl
  have hreset :
      ∀ w' : World, Object.live (w'.setSocket i (w.sockets i).reset) (.socket i) = false :=
    fun w' => congrArg Socket.used (update_self i _ w'.sockets)
  unfold closeSocket
  dsimp only
  split_ifs with hused htype
  · rw [hstream]
    refine ⟨fun x hx => ?_, hreset _⟩
    have h1 := tcpCloseBoth_touches w (w.sockets i) x
    have h2 := touches_setSocket (tcpCloseBoth w (w.sockets i)) i (w.sockets i).reset x hx
    cases x <;> exact Eq.trans h2 h1
  · exact ⟨touches_setSocket w i _, hreset _⟩
  · refine ⟨fun x _ => ?_, (Bool.not_eq_true _).mp hused⟩
    cases x <;> rfl

theorem closeMemfd_eq (h : w.heap a = some (.memfd 0 [])) : closeMemfd w a = kfree w a := by
  unfold closeMemfd
  rw [h]
  rfl

theorem Keeps.close (h : Keeps w₀ g w) (a : FdIndex) :
    Keeps w₀ (update g a .none) (closeTarget w (g a)) := by
  have hok := h.ok a
  have hblock : ∀ t : Target, g a = t → t.counted = false → ∀ b, t.object = some (.block b) →
      Keeps w₀ (update g a .none) (kfree w b) := by
    rintro t rfl hcounted b hobj
    exact h.drop hcounted hobj (kfree_dead w b) (touches_heap w b none)
  cases ha : g a with
  | none | dir | stdio => exact h.plain (by rw [ha]; rfl) rfl trivial
  | file i =>
    obtain ⟨htouch, hdead⟩ := vfsClose_touches w i
    exact h.drop (by rw [ha]; rfl) (by rw [ha]; rfl) hdead htouch
  | socket i =>
    rw [ha] at hok
    obtain ⟨htouch, hdead⟩ := closeSocket_touches hok
    have hdrop : Keeps w₀ (update g a .none) (closeSocket w i) :=
      h.drop (by rw [ha]; rfl) (by rw [ha]; rfl) hdead htouch
    exact hdrop.sameWorld (same_wake _)
  | timerfd b | signalfd b | inotify b => exact hblock _ ha rfl b rfl
  | memfd b =>
    rw [ha] at hok
    dsimp only [closeTarget]
    rw [closeMemfd_eq hok]
    exact hblock _ ha rfl b rfl
  | pipeRead i | pipeWrite i =>
    have hobj : (g a).object = some (.pipe i) := by rw [ha]; rfl
    have hends := h.ends i a hobj
    apply Keeps.sameWorld _ (same_wake _)
    apply h.dropEnd hobj
    · simp [tally_close, ha, hends]
    · simp [tally_close, ha, hends]
    · rfl
  | _ =>
    rw [ha] at hok
    exact hok.elim

theorem Keeps.replace (h : Keeps w₀ g w) (a : FdIndex) :
    Keeps w₀ (update g a .none) (dup2Target w (g a)) :=
  (h.close a).sameWorld (dup2Target_same w (g a)).object

/-! ### Opening -/

theorem vfsOpen_spec (w : World) (mount : Option ℕ) (opened : Bool) :
    vfsOpen w mount opened = (none, w) ∨ ∃ i w', vfsOpen w mount opened = (some i, w') ∧
      Object.live w (.file i) = false ∧ Object.live w' (.file i) = true ∧
      Touches (.file i) w w' := by
  cases mount with
  | none => exact .inl rfl
  | some m =>
    unfold vfsOpen
    dsimp only
    by_cases hfull : w.mountRefs m = 0xFFFFFFFF
    · exact .inl (if_pos hfull)
    rw [if_neg hfull]
    cases hfind : (List.finRange filePoolSize).find? fun j => (w.files j).isNone with
    | none => exact .inl rfl
    | some i =>
      cases opened with
      | false => exact .inl rfl
      | true =>
        have hfree := List.find?_some hfind
        refine .inr ⟨i, _, rfl, ?_, ?_,
          fun x hx => by cases x <;> exact touches_setFile w i (some m) _ hx⟩
        · exact Option.isSome_eq_false_iff.mpr hfree
        · exact congrArg Option.isSome (update_self i (some m) w.files)

theorem sockAlloc_some (h : sockAlloc w = some (i, w')) :
    Object.live w (.socket i) = false ∧ w' = w.setSocket i ⟨true, 0, 0, .closed, -1, -1⟩ := by
  unfold sockAlloc at h
  rw [Option.map_eq_some_iff] at h
  obtain ⟨j, hj, heq⟩ := h
  have hused := List.find?_some hj
  cases heq
  exact ⟨(Bool.not_eq_true' _).mp hused, rfl⟩

theorem kmalloc_some {answer : ℕ} (h : kmalloc w answer b = some (a, w')) :
    Object.live w (.block a) = false ∧ w' = { w with heap := update w.heap a (some b) } := by
  unfold kmalloc at h
  split_ifs at h with hbusy
  cases h
  refine ⟨?_, rfl⟩
  have hfree : w.heap a = none := by
    by_contra hne
    exact hbusy (.inr hne)
  dsimp only [Object.live]
  rw [hfree]
  rfl

theorem setSocket_setSocket (w : World) (i : SockId) (sk sk' : Socket) :
    (w.setSocket i sk).setSocket i sk' = w.setSocket i sk' := by
  unfold World.setSocket
  rw [update_idem]

theorem setSocket_self (w : World) (i : SockId) (sk : Socket) :
    (w.setSocket i sk).sockets i = sk := update_self _ _ _

theorem installFdPath_targets (f : Files) (h3 : 3 ≤ fd.val) (path : List Char) :
    (installFdPath f fd path).1 = none ∧ (installFdPath f fd path).2.targets = f.targets ∨
      (installFdPath f fd path).1 ≠ none ∧
        (installFdPath f fd path).2.targets = update f.targets fd .none := by
  unfold installFdPath fdPathSet
  rw [if_neg (by omega)]
  split_ifs with hnil hlt
  · exact .inr ⟨Option.some_ne_none _, fdRelease_targets h3⟩
  · exact .inl ⟨rfl, set_same rfl⟩
  · exact .inr ⟨Option.some_ne_none _, fdRelease_targets h3⟩

theorem installFdPath_new {f g : Files} {t : Target} (h3 : 3 ≤ fd.val)
    (hnone : f.targets fd = .none) (hg : g.targets = update f.targets fd t) (path : List Char) :
    (∃ g', installFdPath g fd path = (none, g') ∧ g'.targets = update f.targets fd t) ∨
      ∃ e g', installFdPath g fd path = (some e, g') ∧ g'.targets = f.targets := by
  have hcases := installFdPath_targets g h3 path
  generalize installFdPath g fd path = r at hcases
  obtain ⟨o, g'⟩ := r
  rcases hcases with ⟨rfl, htargets⟩ | ⟨hsome, htargets⟩
  · exact .inl ⟨g', rfl, htargets.trans hg⟩
  · obtain ⟨e, he⟩ := Option.ne_none_iff_exists.mp hsome
    refine .inr ⟨e, g', by rw [he], ?_⟩
    rw [htargets, hg, update_idem, ← hnone, update_eq_self]

theorem opened_spec (w : World) (flags : ℕ) (a : PathAnswer) :
    (if (vfsOpen w a.mount a.opened).1 = none ∧ flags &&& oCreat ≠ 0 then
        vfsOpen (vfsOpen w a.mount a.opened).2 a.mount a.created
      else vfsOpen w a.mount a.opened) = (none, w) ∨
    ∃ i w', (if (vfsOpen w a.mount a.opened).1 = none ∧ flags &&& oCreat ≠ 0 then
        vfsOpen (vfsOpen w a.mount a.opened).2 a.mount a.created
      else vfsOpen w a.mount a.opened) = (some i, w') ∧ Object.live w (.file i) = false ∧
      Object.live w' (.file i) = true ∧ Touches (.file i) w w' := by
  rcases vfsOpen_spec w a.mount a.opened with hfail | ⟨i, w', hopen, hrest⟩
  · rw [hfail]
    split_ifs
    · exact vfsOpen_spec w a.mount a.created
    · exact .inl rfl
  · rw [hopen]
    exact .inr ⟨i, w', rfl, hrest⟩

section

variable (h : Keeps w₀ v.files.targets v.world)
include h

theorem Keeps.sysOpen (path : List Char) (flags : ℕ)
    (a : PathAnswer) :
    Keeps w₀ (sysOpen v path flags a).2.files.targets (sysOpen v path flags a).2.world := by
  unfold Fd.sysOpen
  by_cases hdir : a.isDir = true
  · split_ifs
    · exact h
    cases hfd : fdAlloc v.files with
    | none => exact h
    | some fd =>
      obtain ⟨h3, hnone⟩ := freeFrom_some hfd
      have hinstall := fdInstall_targets (f := v.files) h3 .dir (flags &&& oNonblock)
      dsimp only
      generalize hnew : (fdInstall v.files fd .dir (flags &&& oNonblock)).set fd _ = f'
      have hnew' : f'.targets = update v.files.targets fd .dir := by
        rw [← hnew, ← hinstall]
        exact set_same rfl
      rcases installFdPath_new h3 hnone hnew' path with ⟨f, hf, htargets⟩ | ⟨e, f, hf, htargets⟩
      · rw [hf]
        rw [htargets]
        exact h.plain (by rw [hnone]; rfl) rfl trivial
      · rw [hf]
        rwa [htargets]
  · rw [if_neg hdir]
    by_cases hwant : flags &&& oDirectory ≠ 0
    · rw [if_pos hwant]
      exact h
    rw [if_neg hwant]
    cases hfd : fdAlloc v.files with
    | none => exact h
    | some fd =>
      obtain ⟨h3, hnone⟩ := freeFrom_some hfd
      have hinstall := fun i =>
        fdInstall_targets (f := v.files) h3 (.file i) (flags &&& oNonblock)
      dsimp only
      rcases opened_spec v.world flags a with hfail | ⟨i, w', hopen, hdead, hlive, htouch⟩
      · rw [hfail]
        exact h
      · rw [hopen]
        dsimp only
        rcases installFdPath_new h3 hnone (hinstall i) path with
          ⟨f, hf, htargets⟩ | ⟨e, f, hf, htargets⟩
        · rw [hf]
          rw [htargets]
          exact h.enter hnone rfl rfl hdead hlive htouch trivial
        · rw [hf]
          rw [htargets]
          obtain ⟨htouch', hdead'⟩ := vfsClose_touches w' i
          exact h.quiet (htouch.trans htouch') hdead hdead'

theorem Keeps.sysSocket (domain type : ℕ) :
    Keeps w₀ (sysSocket v domain type).2.files.targets (sysSocket v domain type).2.world := by
  unfold Fd.sysSocket
  split_ifs with hdomain htype
  · exact h
  · exact h
  cases hs : sockAlloc v.world with
  | none => exact h
  | some r =>
    obtain ⟨i, w'⟩ := r
    obtain ⟨hdead, rfl⟩ := sockAlloc_some hs
    dsimp only
    cases hfd : fdAlloc v.files with
    | none =>
      rw [setSocket_setSocket]
      refine h.quiet (touches_setSocket _ i _) hdead ?_
      exact congrArg Socket.used (setSocket_self _ i _)
    | some fd =>
      obtain ⟨h3, hnone⟩ := freeFrom_some hfd
      dsimp only
      rw [fdInstall_targets h3, setSocket_setSocket, setSocket_self]
      refine h.enter hnone rfl rfl hdead ?_ (touches_setSocket _ i _) ?_
      · exact congrArg Socket.used (setSocket_self _ i _)
      · exact (congrArg Socket.domain (setSocket_self _ i _)).trans (not_not.mp hdomain)

theorem Keeps.createBlock (answer : ℕ) {t : ℕ → Target}
    (flags : ℕ) (hcounted : ∀ a, (t a).counted = false) (hobj : ∀ a, (t a).object = some (.block a))
    (hok : ∀ a (w : World), w.heap a = some b → (t a).Ok w) :
    Keeps w₀ (createBlock v answer b t flags).2.files.targets
      (createBlock v answer b t flags).2.world := by
  unfold Fd.createBlock
  cases hk : kmalloc v.world answer b with
  | none => exact h
  | some r =>
    obtain ⟨a, w'⟩ := r
    obtain ⟨hdead, rfl⟩ := kmalloc_some hk
    have hself : update v.world.heap a (some b) a = some b := update_self _ _ _
    cases hfd : fdAlloc v.files with
    | none =>
      refine h.quiet ?_ hdead (kfree_dead _ a)
      exact (touches_heap v.world a (some b)).trans (touches_heap _ a none)
    | some fd =>
      obtain ⟨h3, hnone⟩ := freeFrom_some hfd
      rw [fdInstall_targets h3]
      refine h.enter hnone (hcounted a) (hobj a) hdead ?_ (touches_heap v.world a (some b))
        (hok a _ hself)
      exact congrArg Option.isSome hself

theorem Keeps.sysTimerfdCreate (clockid flags answer : ℕ) :
    Keeps w₀ (sysTimerfdCreate v clockid flags answer).2.files.targets
      (sysTimerfdCreate v clockid flags answer).2.world := by
  unfold Fd.sysTimerfdCreate
  split_ifs
  · exact h
  · exact h
  · exact h.createBlock answer _ (fun _ => rfl) (fun _ => rfl) fun _ _ _ => trivial

theorem Keeps.sysMemfdCreate (name : Bool) (flags answer : ℕ) :
    Keeps w₀ (sysMemfdCreate v name flags answer).2.files.targets
      (sysMemfdCreate v name flags answer).2.world := by
  unfold Fd.sysMemfdCreate
  split_ifs
  · exact h
  · exact h
  · exact h.createBlock answer _ (fun _ => rfl) (fun _ => rfl) fun _ _ hb => hb

theorem Keeps.sysPipe (writable : Bool) :
    Keeps w₀ (sysPipe v writable).2.files.targets (sysPipe v writable).2.world := by
  rcases sysPipe_spec v writable with hsame | ⟨i, hused, hcases⟩
  · rwa [hsame]
  · rcases hcases with ⟨htargets, hworld⟩ | ⟨a, b, ha, hb, hab, htargets, hworld⟩
    · rw [htargets, hworld]
      refine h.quiet (touches_setPipe _ i _) hused ?_
      exact congrArg Pipe.used (setPipe_self _ i _)
    · rw [htargets, hworld]
      exact h.create hused ha hb hab

end

/-! ### Runs -/

inductive Op
  | openFile (path : List Char) (flags : ℕ) (a : PathAnswer)
  | pipe (writable : Bool)
  | socket (domain type : ℕ)
  | memfdCreate (name : Bool) (flags answer : ℕ)
  | timerfdCreate (clockid flags answer : ℕ)
  | dup (fd : ℤ)
  | dup2 (oldfd newfd : ℤ)
  | lxDup (oldfd minfd : ℤ) (extraFlags : ℕ)
  | close (fd : ℤ)
  | lxClose (fd : ℤ)

def View.op (v : View) : Op → View
  | .openFile path flags a => (sysOpen v path flags a).2
  | .pipe writable => (sysPipe v writable).2
  | .socket domain type => (sysSocket v domain type).2
  | .memfdCreate name flags answer => (sysMemfdCreate v name flags answer).2
  | .timerfdCreate clockid flags answer => (sysTimerfdCreate v clockid flags answer).2
  | .dup fd => (sysDup v fd).2
  | .dup2 oldfd newfd => (sysDup2 v oldfd newfd).2
  | .lxDup oldfd minfd extraFlags => (lxDupFdAt v oldfd minfd extraFlags).2
  | .close fd => (sysClose v fd).2
  | .lxClose fd => (lxCloseFd v fd).2

/-- Only descriptors without an object, or whose object counts them, are duplicated, and
`lx_close_fd` closes no pipe, socket or memfd. -/
def Op.careful (v : View) : Op → Prop
  | .dup fd => ∀ i, fdIndex 3 fd = some i → (v.files.targets i).counted = true
  | .dup2 oldfd newfd =>
    oldfd = newfd ∨ ∀ i, fdIndex 0 oldfd = some i → (v.files.targets i).counted = true
  | .lxDup oldfd _ _ => ∀ i, fdIndex 0 oldfd = some i → (v.files.targets i).counted = true
  | .lxClose fd => ∀ i, fdIndex 0 fd = some i → (v.files.targets i).lxAgrees = true
  | _ => True

/-- A process starts in the world `w₀`, without descriptors, and makes careful calls. -/
inductive CarefulRun (w₀ : World) : View → Prop
  | start : CarefulRun w₀ ⟨Files.fresh, w₀⟩
  | op {v : View} (h : CarefulRun w₀ v) (o : Op) (ho : o.careful v) : CarefulRun w₀ (v.op o)

theorem keeps_start (w₀ : World) : Keeps w₀ Files.fresh.targets w₀ where
  ledger := ⟨fun _ h => h, fun _ => iff_of_false nofun fun h => h.2 h.1⟩
  alone _ _ h := absurd h nofun
  ends _ _ h := absurd h nofun
  ok _ := trivial

theorem Keeps.sysDup2 (h : Keeps w₀ v.files.targets v.world) {oldfd newfd : ℤ}
    (ho : Op.careful v (.dup2 oldfd newfd)) :
    Keeps w₀ (sysDup2 v oldfd newfd).2.files.targets (sysDup2 v oldfd newfd).2.world := by
  rcases sysDup2_spec v oldfd newfd with hsame | ⟨i, j, hij, hi, hj, htargets, hworld⟩
  · rwa [hsame]
  · have hcounted : (v.files.targets i).counted = true := by
      rcases ho with rfl | ho
      · have hval : (i.val : ℤ) = j.val := (fdIndex_some hi).2.symm.trans (fdIndex_some hj).2
        exact absurd (Fin.ext (by exact_mod_cast hval)) hij
      · exact ho i hi
    -- the replaced descriptor is closed first
    have hclosed := h.replace j
    have hstay : update v.files.targets j .none i = v.files.targets i :=
      update_of_ne hij _ _
    have hcopy := hclosed.copy (a := j) (b := i) (update_self _ _ _) (hstay ▸ hcounted)
    rw [htargets, hworld]
    rwa [hstay, update_idem] at hcopy

theorem Keeps.op (h : Keeps w₀ v.files.targets v.world) (o : Op) (ho : o.careful v) :
    Keeps w₀ (v.op o).files.targets (v.op o).world := by
  cases o with
  | openFile path flags a => exact h.sysOpen path flags a
  | pipe writable => exact h.sysPipe writable
  | socket domain type => exact h.sysSocket domain type
  | memfdCreate name flags answer => exact h.sysMemfdCreate name flags answer
  | timerfdCreate clockid flags answer => exact h.sysTimerfdCreate clockid flags answer
  | dup fd =>
    dsimp only [View.op]
    rcases sysDup_spec v fd with hsame | ⟨i, j, hi, hj, htargets, hworld⟩
    · rwa [hsame]
    · rw [htargets, hworld]
      exact h.copy hj (ho i hi)
  | dup2 oldfd newfd => exact h.sysDup2 ho
  | lxDup oldfd minfd extraFlags =>
    dsimp only [View.op]
    rcases lxDupFdAt_spec v oldfd minfd extraFlags with hsame | ⟨i, j, hi, hj, hcases⟩
    · rwa [hsame]
    · rcases hcases with ⟨⟨k, htargets⟩, hworld⟩ | ⟨htargets, hworld⟩
      · rw [htargets, hworld]
        exact h.plain (by rw [hj]; rfl) rfl trivial
      · rw [htargets, hworld]
        exact h.copy hj (ho i hi)
  | close fd =>
    dsimp only [View.op]
    rcases sysClose_spec v fd with hsame | ⟨i, -, htargets, hworld⟩
    · rwa [hsame]
    · rw [htargets, hworld]
      exact h.close i
  | lxClose fd =>
    dsimp only [View.op]
    rcases lxCloseFd_spec v fd with hsame | ⟨i, hi, htargets, hworld⟩
    · rwa [hsame]
    · rw [htargets, hworld, lxCloseTarget_eq (ho i hi)]
      exact h.close i

theorem CarefulRun.keeps (h : CarefulRun w₀ v) : Keeps w₀ v.files.targets v.world := by
  induction h with
  | start => exact keeps_start w₀
  | op _ o ho ih => exact ih.op o ho

/-- **Objects live as long as their descriptors.** In every careful run, the live objects that were
not there before are exactly those that an open descriptor refers to, and what `vfs_open`,
`pipe_alloc`, `sock_alloc` and `kmalloc` give out next is behind no open descriptor. -/
theorem careful_objects {w₀ : World} {v : View} (h : CarefulRun w₀ v) :
    (∀ o : Object, (∃ fd, (v.files.targets fd).object = some o) ↔
      o.live v.world = true ∧ ¬o.live w₀ = true) ∧
    (∀ mount opened i w, vfsOpen v.world mount opened = (some i, w) →
      ∀ fd, (v.files.targets fd).object ≠ some (.file i)) ∧
    (∀ i w, pipeAlloc v.world = some (i, w) → ∀ fd, (v.files.targets fd).object ≠ some (.pipe i)) ∧
    (∀ i w, sockAlloc v.world = some (i, w) →
      ∀ fd, (v.files.targets fd).object ≠ some (.socket i)) ∧
    (∀ answer b a w, kmalloc v.world answer b = some (a, w) →
      ∀ fd, (v.files.targets fd).object ≠ some (.block a)) := by
  have hkeeps := h.keeps
  have hfree : ∀ {o : Object}, o.live v.world = false →
    ∀ fd, (v.files.targets fd).object ≠ some o := by
    exact fun hdead fd hfd => hkeeps.ne_of_dead hdead hfd rfl
  refine ⟨hkeeps.ledger.held_iff, ?_, ?_, ?_, ?_⟩
  · intro mount opened i w hopen
    rcases vfsOpen_spec v.world mount opened with hfail | ⟨j, w', hopen', hdead, -⟩
    · exact absurd (hfail.symm.trans hopen) nofun
    · have hij : j = i := Option.some.inj (Prod.mk.inj (hopen'.symm.trans hopen)).1
      exact hfree (hij ▸ hdead)
  · exact fun i w hpipe => hfree (pipeAlloc_some hpipe).1
  · exact fun i w hsock => hfree (sockAlloc_some hsock).1
  · exact fun answer b a w hblock => hfree (kmalloc_some hblock).1

def copiedEnd : View :=
  ((oneFile.op (.pipe true)).op (.dup 4)).op (.close 4)

theorem copiedEnd_run : CarefulRun World.boot copiedEnd := by
  have hfile : CarefulRun World.boot oneFile :=
    .op .start (.openFile ['/', 'a'] 0 ⟨false, some 0, true, false⟩) trivial
  have hpipe := hfile.op (.pipe true) trivial
  have hcounted : ((oneFile.op (.pipe true)).files.targets 4).counted = true := by decide +kernel
  have hdup := hpipe.op (.dup 4) fun i hi => by
    have hval := (fdIndex_some hi).2
    have hi4 : i = 4 := Fin.ext (by exact_mod_cast hval.symm)
    rwa [hi4]
  exact hdup.op (.close 4) trivial

theorem careful_objects_copiedEnd : copiedEnd.files.targets 6 = .pipeRead 0 ∧
    Object.live copiedEnd.world (.pipe 0) = true := by
  have htarget : copiedEnd.files.targets 6 = .pipeRead 0 := by decide +kernel
  have hobj : (copiedEnd.files.targets 6).object = some (.pipe 0) := by
    rw [htarget]
    rfl
  exact ⟨htarget, (((careful_objects copiedEnd_run).1 (.pipe 0)).mp ⟨6, hobj⟩).1⟩

/-- **A duplicated file dangles.** After a file is opened as 3, duplicated to 4 and closed as 3, the
descriptor 4 refers to a slot that was released, and the next open gives the slot to another file.
-/
theorem dup_dangles : ((oneFile.op (.dup 3)).op (.close 3)).files.targets 4 = .file 0 ∧
    Object.live ((oneFile.op (.dup 3)).op (.close 3)).world (.file 0) = false ∧
    (((oneFile.op (.dup 3)).op (.close 3)).op
      (.openFile ['/', 'b'] 0 ⟨false, some 0, true, false⟩)).files.targets 3 = .file 0 := by
  refine ⟨?_, ?_, ?_⟩ <;> decide +kernel

end TaterTOS.Fd
