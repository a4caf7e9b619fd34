import TaterTOS.Lib.Tally
import TaterTOS.Vfs.Model

/-!
# Reference counts of mounts

* **`refs_exact`**, **`create_leaks`**: runs with and without missing operations.
-/

namespace TaterTOS.Vfs

open Function Lib List

structure Exact (s : State) : Prop where
  refs : ∀ m mt, s.mounts m = some mt → mt.openRefs = tally s.files (some m)
  held : ∀ f m, s.files f = some m → (s.mounts m).isSome = true
  listed : ∀ m, m ∈ s.list ↔ ∃ mt, s.mounts m = some mt ∧ mt.active = true
  nodup : s.list.Nodup
  kept : ∀ m mt, s.mounts m = some mt → mt.active = false → mt.openRefs ≠ 0

variable {s s' : State} {m : ℕ} {mt : Mount}
  {path mountpoint : List Char} {op : OpName} {f : FileId}

theorem setMount_self (s : State) (m : ℕ) (o : Option Mount) : (s.setMount m o).mounts m = o :=
  update_self _ _ _

theorem setMount_of_ne {m' : ℕ} (h : m' ≠ m) (o : Option Mount) :
    (s.setMount m o).mounts m' = s.mounts m' := update_of_ne h _ _

theorem setMount_setMount (s : State) (m : ℕ) (o o' : Option Mount) :
    (s.setMount m o).setMount m o' = s.setMount m o' := by
  unfold State.setMount
  rw [update_idem]

theorem setMount_eq (h : s.mounts m = some mt) : s.setMount m (some mt) = s := by
  unfold State.setMount
  rw [← h, update_eq_self]

/-! ### Taking and dropping a reference -/

theorem getLocked_some (h : getLocked s m = some s') : ∃ mt, s.mounts m = some mt ∧
    s' = s.setMount m (some (mt.withRefs (mt.openRefs + 1))) := by
  unfold getLocked at h
  cases hm : s.mounts m with
  | none =>
    rw [hm] at h
    cases h
  | some mt =>
    rw [hm] at h
    dsimp only at h
    split_ifs at h
    cases h
    exact ⟨mt, rfl, rfl⟩

theorem tryDispose_active (hm : s.mounts m = some mt) (h : mt.active = true ∨ mt.openRefs ≠ 0) :
    tryDispose s m = s := by
  unfold tryDispose
  rw [hm]
  exact if_pos h

theorem tryDispose_gone (hm : s.mounts m = some mt) (hactive : mt.active = false)
    (hrefs : mt.openRefs = 0) : tryDispose s m = s.setMount m none := by
  unfold tryDispose
  rw [hm]
  dsimp only
  rw [if_neg (by rw [hactive, hrefs]; simp)]

theorem put_eq (hm : s.mounts m = some mt) :
    put s m = tryDispose (s.setMount m (some (mt.withRefs (mt.openRefs - 1)))) m := by
  unfold put
  rw [hm]

theorem Exact.put_get (h : Exact s) (hm : m ∈ s.list) (hget : getLocked s m = some s') :
    put s' m = s := by
  obtain ⟨mt, hmt, rfl⟩ := getLocked_some hget
  obtain ⟨mt', hmt', hactive⟩ := (h.listed m).mp hm
  rw [hmt, Option.some_inj] at hmt'
  subst hmt'
  rw [put_eq (setMount_self s m _), setMount_setMount]
  have hback : (mt.withRefs (mt.openRefs + 1)).withRefs
      ((mt.withRefs (mt.openRefs + 1)).openRefs - 1) = mt := rfl
  rw [hback, setMount_eq hmt]
  exact tryDispose_active hmt (.inl hactive)

/-! ### The mount of a path -/

theorem findMountLocked_mem (h : findMountLocked s path = some m) : m ∈ s.list := by
  refine foldlRecOn s.list _ (motive := fun best : Option ℕ × ℕ => ∀ x, best.1 = some x →
    x ∈ s.list) (by simp) (fun best hbest y hy x hx => ?_) m h
  unfold findMountTurn at hx
  split at hx
  · exact hbest x hx
  · split_ifs at hx
    · cases hx
      exact hy
    · exact hbest x hx

theorem findMountOnce_some {r : ℕ × State} (h : findMountOnce s path = some r) :
    r.1 ∈ s.list ∧ getLocked s r.1 = some r.2 := by
  unfold findMountOnce at h
  cases hf : findMountLocked s path with
  | none =>
    rw [hf] at h
    cases h
  | some m =>
    rw [hf] at h
    rw [Option.map_eq_some_iff] at h
    obtain ⟨s', hs', rfl⟩ := h
    exact ⟨findMountLocked_mem hf, hs'⟩

theorem Exact.pathCallWith (h : Exact s)
    (hop : ∀ r, findMountOnce s path = some r → r.2.supports r.1 op = true) (rc : ℤ) :
    (pathCallWith (findMountOnce s path) s op rc).2 = s := by
  unfold Vfs.pathCallWith
  cases hf : findMountOnce s path with
  | none => rfl
  | some r =>
    obtain ⟨hmem, hget⟩ := findMountOnce_some hf
    dsimp only
    rw [if_pos (hop r hf)]
    exact h.put_get hmem hget

/-! ### Unmounting and mounting -/

theorem vfsUmount_some (h : vfsUmount s mountpoint = some s') :
    ∃ m mt, m ∈ s.list ∧ s.mounts m = some mt ∧ mt.mountpoint = mountpoint ∧
      s' = tryDispose ({ s with list := s.list.erase m }.setMount m (some mt.inactive)) m := by
  unfold vfsUmount at h
  cases hf : s.list.find? fun m => (s.mounts m).any (·.mountpoint == mountpoint) with
  | none =>
    rw [hf] at h
    cases h
  | some m =>
    rw [hf] at h
    dsimp only at h
    cases hm : s.mounts m with
    | none =>
      rw [hm] at h
      cases h
    | some mt =>
      rw [hm] at h
      cases h
      have hpoint := List.find?_some hf
      rw [hm, Option.any_some, beq_iff_eq] at hpoint
      exact ⟨m, mt, mem_of_find?_eq_some hf, hm, hpoint, rfl⟩

theorem Exact.change (h : Exact s) {m : ℕ} (hmounts : ∀ x, x ≠ m → s'.mounts x = s.mounts x)
    (hfiles : ∀ x, x ≠ m → tally s'.files (some x) = tally s.files (some x))
    (hlist : ∀ x, x ≠ m → (x ∈ s'.list ↔ x ∈ s.list)) (hnodup : s'.list.Nodup)
    (hlisted : m ∈ s'.list ↔ ∃ mt, s'.mounts m = some mt ∧ mt.active = true)
    (hheld : ∀ f, s'.files f = some m → (s'.mounts m).isSome = true)
    (hrefs : ∀ mt, s'.mounts m = some mt → mt.openRefs = tally s'.files (some m))
    (hkept : ∀ mt, s'.mounts m = some mt → mt.active = false → mt.openRefs ≠ 0) : Exact s' := by
  refine ⟨fun x mt hx => ?_, fun f x hf => ?_, fun x => ?_, hnodup, fun x mt hx => ?_⟩
  · by_cases hxm : x = m
    · exact hxm ▸ hrefs mt (hxm ▸ hx)
    · rw [hfiles x hxm]
      exact h.refs x mt ((hmounts x hxm).symm.trans hx)
  · by_cases hxm : x = m
    · exact hxm ▸ hheld f (hxm ▸ hf)
    · -- the file was there before, on the same mount
      have hpos : 0 < tally s.files (some x) := hfiles x hxm ▸ tally_pos hf
      obtain ⟨g, hg⟩ : ∃ g, s.files g = some x := by
        by_contra hnone
        push Not at hnone
        exact absurd (tally_eq_zero.mpr hnone) hpos.ne'
      rw [hmounts x hxm]
      exact h.held g x hg
  · by_cases hxm : x = m
    · rw [hxm]
      exact hlisted
    · rw [hlist x hxm, hmounts x hxm]
      exact h.listed x
  · by_cases hxm : x = m
    · exact hkept mt (hxm ▸ hx)
    · exact h.kept x mt ((hmounts x hxm).symm.trans hx)

/-- The mount `m` gets the record `mt`, and goes if nothing refers to it. -/
theorem Exact.dispose (h : Exact s) (hm : s'.mounts m = some mt)
    (hmounts : ∀ x, x ≠ m → s'.mounts x = s.mounts x)
    (hfiles : ∀ x, x ≠ m → tally s'.files (some x) = tally s.files (some x))
    (hlist : ∀ x, x ≠ m → (x ∈ s'.list ↔ x ∈ s.list)) (hnodup : s'.list.Nodup)
    (hlisted : m ∈ s'.list ↔ mt.active = true) (hrefs : mt.openRefs = tally s'.files (some m)) :
    Exact (tryDispose s' m) := by
  by_cases hstays : mt.active = true ∨ mt.openRefs ≠ 0
  · rw [tryDispose_active hm hstays]
    refine h.change hmounts hfiles hlist hnodup ?_ (fun _ _ => by rw [hm]; rfl) ?_ ?_
    · rw [hlisted, hm]
      exact ⟨fun ha => ⟨mt, rfl, ha⟩, fun ⟨_, hmt, ha⟩ => Option.some.inj hmt ▸ ha⟩
    · intro mt' hmt
      cases hm.symm.trans hmt
      exact hrefs
    · intro mt' hmt hn
      cases hm.symm.trans hmt
      exact hstays.resolve_left fun ha => absurd (hn.symm.trans ha) nofun
  · rw [not_or, Bool.not_eq_true, not_not] at hstays
    have hnone := setMount_self s' m none
    rw [tryDispose_gone hm hstays.1 hstays.2]
    refine h.change (fun x hx => (setMount_of_ne hx _).trans (hmounts x hx)) hfiles hlist
      hnodup ?_ ?_
      (fun _ hmt => absurd (hnone.symm.trans hmt) nofun)
      fun _ hmt => absurd (hnone.symm.trans hmt) nofun
    · rw [hnone]
      refine iff_of_false (fun hmem => ?_) nofun
      exact absurd (hstays.1.symm.trans (hlisted.mp hmem)) nofun
    · intro f hf
      rw [hstays.2, eq_comm, tally_eq_zero] at hrefs
      exact absurd hf (hrefs f)

theorem Exact.umount (h : Exact s) (hu : vfsUmount s mountpoint = some s') : Exact s' := by
  obtain ⟨m, mt, hmem, hm, -, rfl⟩ := vfsUmount_some hu
  refine h.dispose (setMount_self _ m _) (fun x hx => setMount_of_ne hx _) (fun _ _ => rfl)
    (fun x hx => ?_) (h.nodup.erase m) ?_ (h.refs m mt hm)
  · exact h.nodup.mem_erase_iff.trans (and_iff_right hx)
  · exact iff_of_false (fun hn => (h.nodup.mem_erase_iff.mp hn).1 rfl) nofun

theorem Exact.umountAll (mountpoint : List Char) : ∀ (n : ℕ) {s : State}, Exact s →
    Exact (umountAll mountpoint n s) := by
  intro n
  induction n with
  | zero => exact fun h => h
  | succ n ih =>
    intro s h
    unfold Vfs.umountAll
    cases hu : vfsUmount s mountpoint with
    | none => exact h
    | some s' => exact ih (h.umount hu)

theorem tryDispose_list (s : State) (m : ℕ) : (tryDispose s m).list = s.list := by
  unfold tryDispose
  split
  · rfl
  · split_ifs <;> rfl

theorem Exact.mount (h : Exact s) (mountpoint : List Char) (ops : FsOps) (answer : ℕ) :
    Exact (vfsMount s mountpoint ops answer).2 := by
  have h1 := Exact.umountAll mountpoint s.list.length h
  unfold vfsMount
  dsimp only
  split_ifs with hbusy
  · exact h1
  generalize Vfs.umountAll mountpoint s.list.length s = s1 at h1 hbusy
  have hfree : s1.mounts answer = none := by
    cases hm : s1.mounts answer with
    | none => rfl
    | some mt => exact absurd (.inr (by rw [hm]; rfl)) hbusy
  have hfiles : ∀ f, s1.files f ≠ some answer := by
    intro f hf
    have hsome := h1.held f answer hf
    rw [hfree] at hsome
    cases hsome
  have hout : answer ∉ s1.list := by
    intro hmem
    obtain ⟨mt, hmt, -⟩ := (h1.listed answer).mp hmem
    exact absurd (hfree.symm.trans hmt) nofun
  have hnew := setMount_self s1 answer (some (newMount mountpoint ops))
  rw [← tryDispose_active (s := { s1.setMount answer (some (newMount mountpoint ops)) with
    list := answer :: s1.list }) hnew (.inl rfl)]
  exact h1.dispose hnew (fun x hx => setMount_of_ne hx _) (fun _ _ => rfl)
    (fun x hx => mem_cons.trans (or_iff_right hx)) (nodup_cons.mpr ⟨hout, h1.nodup⟩)
    (iff_of_true mem_cons_self rfl) (tally_eq_zero.mpr hfiles).symm

/-! ### Files -/

theorem fileAlloc_some (h : fileAlloc s = some f) : s.files f = none := by
  have hfree := List.find?_some h
  exact Option.isNone_iff_eq_none.mp hfree

theorem Exact.openFile (h : Exact s) (hmem : m ∈ s.list) (hget : getLocked s m = some s')
    (hf : s.files f = none) : Exact (s'.setFile f (some m)) := by
  obtain ⟨mt, hm, rfl⟩ := getLocked_some hget
  have hself := setMount_self s m (some (mt.withRefs (mt.openRefs + 1)))
  obtain ⟨mt', hmt', hactive⟩ := (h.listed m).mp hmem
  cases hm.symm.trans hmt'
  have henter : tally (update s.files f (some m)) (some m) = tally s.files (some m) + 1 :=
    tally_enter (by rw [hf]; exact nofun)
  rw [← tryDispose_active (s := (s.setMount m _).setFile f (some m)) hself (.inl hactive)]
  refine h.dispose hself (fun x hx => setMount_of_ne hx _) (fun x hx => ?_) (fun _ _ => Iff.rfl)
    h.nodup (iff_of_true hmem hactive) ((congrArg (· + 1) (h.refs m mt hm)).trans henter.symm)
  refine tally_update_of_ne (fun he => ?_) fun he => hx (Option.some.inj he).symm
  exact absurd (hf.symm.trans he) nofun

theorem tryDispose_setFile (s : State) (m : ℕ) (f : FileId) (o : Option ℕ) :
    (tryDispose s m).setFile f o = tryDispose (s.setFile f o) m := by
  have hmounts : (s.setFile f o).mounts m = s.mounts m := rfl
  unfold tryDispose
  rw [hmounts]
  cases s.mounts m with
  | none => rfl
  | some mt =>
    dsimp only
    split_ifs <;> rfl

theorem Exact.closeFile (h : Exact s) (hf : s.files f = some m) :
    Exact ((put s m).setFile f none) := by
  obtain ⟨mt, hm⟩ := Option.isSome_iff_exists.mp (h.held f m hf)
  have hleave : tally (update s.files f none) (some m) = mt.openRefs - 1 := by
    rw [h.refs m mt hm]
    exact tally_leave hf nofun
  rw [put_eq hm, tryDispose_setFile]
  refine h.dispose (setMount_self s m _) (fun x hx => setMount_of_ne hx _) (fun x hx => ?_)
    (fun _ _ => Iff.rfl) h.nodup ((h.listed m).trans ?_) hleave.symm
  · refine tally_update_of_ne (fun he => ?_) nofun
    exact hx (Option.some.inj (he.symm.trans hf))
  · exact ⟨fun ⟨_, hmt, ha⟩ => Option.some.inj (hm.symm.trans hmt) ▸ ha, fun ha => ⟨mt, hm, ha⟩⟩

/-! ### Runs -/

inductive Call
  | mount (mountpoint : List Char) (ops : FsOps) (answer : ℕ)
  | umount (mountpoint : List Char)
  | openFile (path : List Char) (recover : Option (List RecoverAct)) (opened : Bool)
  | close (f : FileId) (rc : ℤ)
  | readdir (path : List Char) (recover : Option (List RecoverAct)) (rc : ℤ)
  | readdirEx (path : List Char) (recover : Option (List RecoverAct)) (rc : ℤ)
  | stat (path : List Char) (recover : Option (List RecoverAct)) (rc : ℤ)
  | create (path : List Char) (recover : Option (List RecoverAct)) (rc : ℤ)
  | mkdir (path : List Char) (recover : Option (List RecoverAct)) (rc : ℤ)
  | unlink (path : List Char) (recover : Option (List RecoverAct)) (rc : ℤ)
  | rename (oldPath newPath : List Char) (recover : Option (List RecoverAct)) (rc : ℤ)

def State.call (s : State) : Call → State
  | .mount mountpoint ops answer => (vfsMount s mountpoint ops answer).2
  | .umount mountpoint => (vfsUmount s mountpoint).getD s
  | .openFile path recover opened => (vfsOpen s path recover opened).2
  | .close f rc => (vfsClose s f rc).2
  | .readdir path recover rc => (vfsReaddir s path recover rc).2
  | .readdirEx path recover rc => (vfsReaddirEx s path recover rc).2
  | .stat path recover rc => (vfsStat s path recover rc).2
  | .create path recover rc => (vfsCreate s path recover rc).2
  | .mkdir path recover rc => (vfsMkdir s path recover rc).2
  | .unlink path recover rc => (vfsUnlink s path recover rc).2
  | .rename oldPath newPath recover rc => (vfsRename s oldPath newPath recover rc).2

def Supports (s : State) (path : List Char) (op : OpName) : Prop :=
  ∀ r, findMountOnce s path = some r → r.2.supports r.1 op = true

def recoverSupported : State → List RecoverAct → Prop
  | _, [] => True
  | s, .probe path op :: acts =>
    Supports s path op ∧ recoverSupported ((RecoverAct.probe path op).run s) acts
  | s, act :: acts => recoverSupported (act.run s) acts

def PathSupported (s : State) (path : List Char) (recover : Option (List RecoverAct))
    (op : OpName) :
    Prop :=
  Supports s path op ∧ ∀ acts, recover = some acts →
    recoverSupported s acts ∧ Supports (acts.foldl RecoverAct.run s) path op

def Call.supported (s : State) : Call → Prop
  | .mount .. | .umount _ | .close .. => True
  | .openFile path recover _ => PathSupported s path recover .openFile
  | .readdir path recover _ | .readdirEx path recover _ => PathSupported s path recover .readdir
  | .stat path recover _ => PathSupported s path recover .stat
  | .create path recover _ => PathSupported s path recover .create
  | .mkdir path recover _ => PathSupported s path recover .mkdir
  | .unlink path recover _ => PathSupported s path recover .unlink
  | .rename oldPath _ recover _ => PathSupported s oldPath recover .rename

inductive SupportedRun : State → Prop
  | init : SupportedRun State.init
  | call {s : State} (h : SupportedRun s) (c : Call) (hc : c.supported s) : SupportedRun (s.call c)

theorem exact_init : Exact State.init where
  refs _ _ h := absurd h nofun
  held _ _ h := absurd h nofun
  listed _ := iff_of_false nofun nofun
  nodup := nodup_nil
  kept _ _ h := absurd h nofun

theorem Exact.health (h : Exact s) (mountpoint : List Char) :
    mountpointHealthy s mountpoint = s := by
  unfold mountpointHealthy
  split
  · rfl
  next m hm =>
    split
    · rfl
    next s' hget => exact h.put_get (mem_of_find?_eq_some hm) hget

theorem Exact.umount_getD (h : Exact s) (mountpoint : List Char) :
    Exact ((vfsUmount s mountpoint).getD s) := by
  cases hu : vfsUmount s mountpoint with
  | none => exact h
  | some s' => exact h.umount hu

theorem Exact.recover (acts : List RecoverAct) : ∀ {s : State}, Exact s → recoverSupported s acts →
    Exact (acts.foldl RecoverAct.run s) := by
  induction acts with
  | nil => exact fun h _ => h
  | cons act acts ih =>
    intro s h hsup
    cases act with
    | health mountpoint =>
      apply ih _ hsup
      dsimp only [RecoverAct.run]
      rwa [h.health]
    | umount mountpoint => exact ih (h.umount_getD mountpoint) hsup
    | mount mountpoint ops answer => exact ih (h.mount mountpoint ops answer) hsup
    | probe path op =>
      apply ih _ hsup.2
      dsimp only [RecoverAct.run]
      rwa [h.pathCallWith hsup.1]

section

variable {recover : Option (List RecoverAct)} (h : Exact s) (hsup : PathSupported s path recover op)
include h hsup

theorem Exact.findMountRef : ∃ s1, Exact s1 ∧ Supports s1 path op ∧
      ((Vfs.findMountRef s path recover) = (findMountOnce s1 path, s1) ∨
        Vfs.findMountRef s path recover = (none, s1)) := by
  unfold Vfs.findMountRef
  cases hf : findMountOnce s path with
  | some r => exact ⟨s, h, hsup.1, Or.inl (by rw [hf])⟩
  | none =>
    split_ifs
    · cases recover with
      | none => exact ⟨s, h, hsup.1, Or.inr rfl⟩
      | some acts =>
        obtain ⟨hacts, hafter⟩ := hsup.2 acts rfl
        exact ⟨_, h.recover acts hacts, hafter, Or.inl rfl⟩
    · exact ⟨s, h, hsup.1, Or.inr rfl⟩

theorem Exact.pathCall (rc : ℤ) :
    Exact (pathCall op s path recover rc).2 := by
  obtain ⟨s1, h1, hop, hfound | hnone⟩ := h.findMountRef hsup
  · unfold Vfs.pathCall
    rw [hfound]
    rwa [h1.pathCallWith hop]
  · unfold Vfs.pathCall
    rw [hnone]
    exact h1

/-- The mount of a path, with one more reference, and the state without it. -/
theorem Exact.mountRef : ∃ s1, Exact s1 ∧
      (Vfs.findMountRef s path recover = (none, s1) ∨
        ∃ r, Vfs.findMountRef s path recover = (some r, s1) ∧
        r.1 ∈ s1.list ∧ getLocked s1 r.1 = some r.2 ∧ r.2.supports r.1 op = true ∧
        put r.2 r.1 = s1) := by
  obtain ⟨s1, h1, hop, hfound | hnone⟩ := h.findMountRef hsup
  · refine ⟨s1, h1, ?_⟩
    rw [hfound]
    cases hf : findMountOnce s1 path with
    | none => exact .inl rfl
    | some r =>
      obtain ⟨hmem, hget⟩ := findMountOnce_some hf
      exact .inr ⟨r, rfl, hmem, hget, hop r hf, h1.put_get hmem hget⟩
  · exact ⟨s1, h1, .inl hnone⟩

end

variable {recover : Option (List RecoverAct)}

theorem Exact.vfsOpen (h : Exact s)
    (hsup : PathSupported s path recover .openFile) (opened : Bool) :
    Exact (vfsOpen s path recover opened).2 := by
  unfold Vfs.vfsOpen
  by_cases hpath : path = []
  · rw [if_pos hpath]
    exact h
  rw [if_neg hpath]
  obtain ⟨s1, h1, hnone | ⟨r, hfound, hmem, hget, hop, hback⟩⟩ := h.mountRef hsup
  · rw [hnone]
    exact h1
  · rw [hfound]
    dsimp only
    rw [if_pos hop, hback]
    cases ha : fileAlloc r.2 with
    | none => exact h1
    | some f =>
      cases opened with
      | true =>
        have hfree : s1.files f = none := by
          obtain ⟨mt, -, hs⟩ := getLocked_some hget
          have := fileAlloc_some ha
          rwa [hs] at this
        exact h1.openFile hmem hget hfree
      | false => exact h1

theorem Exact.vfsRename (h : Exact s) {oldPath : List Char}
    (hsup : PathSupported s oldPath recover .rename) (newPath : List Char) (rc : ℤ) :
    Exact (vfsRename s oldPath newPath recover rc).2 := by
  unfold Vfs.vfsRename
  obtain ⟨s1, h1, hnone | ⟨r, hfound, -, -, hop, hback⟩⟩ := h.mountRef hsup
  · rw [hnone]
    exact h1
  · rw [hfound]
    dsimp only
    rw [hback]
    split_ifs <;> exact h1

theorem Exact.call (h : Exact s) (c : Call) (hc : c.supported s) : Exact (s.call c) := by
  cases c with
  | mount mountpoint ops answer => exact h.mount mountpoint ops answer
  | umount mountpoint => exact h.umount_getD mountpoint
  | openFile path recover opened => exact h.vfsOpen hc opened
  | close f rc =>
    dsimp only [State.call]
    unfold vfsClose
    cases hf : s.files f with
    | none => exact h
    | some m => exact h.closeFile hf
  | readdir _ _ rc | readdirEx _ _ rc | stat _ _ rc | create _ _ rc | mkdir _ _ rc
  | unlink _ _ rc => exact h.pathCall hc rc
  | rename oldPath newPath recover rc => exact h.vfsRename hc newPath rc

theorem SupportedRun.exact (h : SupportedRun s) : Exact s := by
  induction h with
  | init => exact exact_init
  | call _ c hc ih => exact ih.call c hc

/-- **The counts of mounts are exact** in every run in which no call meets a null operation: the
count of a mount is the number of files open on it, no mount is disposed of while a file is open on
it, and an unmounted mount is still there only while a file is open on it. -/
theorem refs_exact {s : State} (h : SupportedRun s) :
    (∀ m mt, s.mounts m = some mt → mt.openRefs = tally s.files (some m)) ∧
    (∀ f m, s.files f = some m → (s.mounts m).isSome = true) ∧
    (∀ m mt, s.mounts m = some mt → mt.active = false → ∃ f, s.files f = some m) := by
  have hexact := h.exact
  refine ⟨hexact.refs, hexact.held, fun m mt hm hactive => ?_⟩
  have hrefs := hexact.kept m mt hm hactive
  by_contra hnone
  push Not at hnone
  rw [hexact.refs m mt hm] at hrefs
  exact hrefs (tally_eq_zero.mpr hnone)

def oneMount : State := State.init.call (.mount ['/'] (fun _ => true) 0x1000)

def openUnmounted : State :=
  (oneMount.call (.openFile ['/', 'a'] none true)).call (.umount ['/'])

theorem openUnmounted_run : SupportedRun openUnmounted := by
  have hmount : SupportedRun oneMount := .call .init _ trivial
  have hopen : SupportedRun (oneMount.call (.openFile ['/', 'a'] none true)) := by
    refine hmount.call _ ⟨?_, nofun⟩
    have hfound : (findMountOnce oneMount ['/', 'a']).all
        (fun r => r.2.supports r.1 .openFile) = true := by decide +kernel
    intro r hr
    rwa [hr] at hfound
  exact hopen.call (.umount ['/']) trivial

theorem refs_exact_openUnmounted : openUnmounted.files 0 = some 0x1000 ∧
    (openUnmounted.mounts 0x1000).isSome = true := by
  have hfile : openUnmounted.files 0 = some 0x1000 := by decide +kernel
  exact ⟨hfile, (refs_exact openUnmounted_run).2.1 0 0x1000 hfile⟩

def createdOnDev : State :=
  (State.init.call (.mount ['/', 'd', 'e', 'v'] (fun op => op != .create) 0x1000)).call
    (.create ['/', 'd', 'e', 'v', '/', 'x'] none 0)

/-- **A missing operation loses a reference**: no file is open, the count is 1, and after the mount
is unmounted it stays allocated. -/
theorem create_leaks : (∀ f, createdOnDev.files f = none) ∧
    (createdOnDev.mounts 0x1000).map (·.openRefs) = some 1 ∧
    ((createdOnDev.call (.umount ['/', 'd', 'e', 'v'])).mounts 0x1000).isSome = true := by
  refine ⟨fun _ => ?_, ?_, ?_⟩
  · rfl
  · decide +kernel
  · decide +kernel

end TaterTOS.Vfs
