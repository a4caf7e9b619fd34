import TaterTOS.Fat32.Creating

/-!
# FAT32: consistency of the volume along runs

* `Session`, `Act`: a volume with its open files, and the calls on them;
* `Act.Ok`: handles agree with their entries and new names are visible to the search;
* `run_consistent`: runs of such calls keep the volume consistent.
-/

namespace TaterTOS.Fat32

open Lib List

variable {fs : Fs} {m : Media} {V : Vol} {L : Obj → List ℕ} {f : File}

structure Session where
  media : Media
  files : List File

inductive Act
  | openPath (path : Str)
  | create (path : Str) (attr : UInt8)
  | mkdir (path : Str)
  | unlink (path : Str)
  | write (i : ℕ) (data : List UInt8)
  | truncate (i newSize : ℕ)
  | seek (i : ℕ) (offset : ℤ) (whence : ℕ)

def Act.run (fs : Fs) (st : Session) : Act → Session
  | .openPath path =>
    let r := fat32Open fs path (Device.fresh Area st.media)
    ⟨r.2.media, st.files ++ r.1.toList⟩
  | .create path attr => ⟨(fat32Create fs path attr (Device.fresh Area st.media)).2.media, st.files⟩
  | .mkdir path => ⟨(fat32Mkdir fs path (Device.fresh Area st.media)).2.media, st.files⟩
  | .unlink path => ⟨(fat32Unlink fs path (Device.fresh Area st.media)).2.media, st.files⟩
  | .write i data =>
    match st.files[i]? with
    | none => st
    | some f =>
      let r := fat32Write fs f data (Device.fresh Area st.media)
      ⟨r.2.media, st.files.set i r.1.2⟩
  | .truncate i newSize =>
    match st.files[i]? with
    | none => st
    | some f =>
      let r := fat32Truncate fs f newSize (Device.fresh Area st.media)
      ⟨r.2.media, st.files.set i r.1.2⟩
  | .seek i offset whence =>
    match st.files[i]? with
    | none => st
    | some f => ⟨st.media, st.files.set i (fat32Seek f offset whence).2⟩

structure File.Agrees (fs : Fs) (V : Vol) (f : File) : Prop where
  live : V.Live fs (some f.slot)
  file : (V.entry f.slot).isDir = false
  first : f.firstCluster = (V.entry f.slot).firstCluster
  size : f.size ≤ (V.chainFrom fs.totalClusters f.firstCluster).length * fs.clusterSize
  size_lt : f.size < 2 ^ 32

theorem File.Agrees.current (h : f.Agrees fs V) (hco : Coherent fs V L apart) :
    Current fs V L f := by
  refine ⟨h.live, h.file, h.first, ?_, h.size_lt⟩
  have hchain : V.Chain f.firstCluster (L (some f.slot)) := by
    rw [h.first]
    exact hco.chain _ h.live
  have hlen := hchain.length_le fun c hc => (hco.marked _ h.live c hc).1
  rw [← hchain.chainFrom hlen]
  exact h.size

theorem Coherent.agrees (hco : Coherent fs V L apart) {path : Str}
    (hopen : V.openAt fs fs.rootCluster (components (relative path)) = some f)
    (hfile : f.isDir = false) :
    f.Agrees fs V := by
  obtain ⟨s, hs, hs', rfl⟩ := hco.open_file hopen hfile
  refine ⟨hs, hs', rfl, ?_, le32_lt _ _⟩
  have hchain : V.Chain (V.entry s).firstCluster (L (some s)) := hco.chain _ hs
  have hlen := hchain.length_le fun c hc => (hco.marked _ hs c hc).1
  change (V.entry s).size ≤ (V.chainFrom _ (V.entry s).firstCluster).length * _
  rw [hchain.chainFrom hlen]
  exact hco.size s hs hs'

/-- The parent of a new entry is not reached through the entry of a directory for the root above it,
which has the cluster number 0. -/
def ParentOk (fs : Fs) (V : Vol) (path : Str) : Prop := ∀ h, V.ParentAt fs path h → 2 ≤ h

/-- Writes and truncations go through handles that agree with their entries, and new entries are
seen by the search. -/
def Act.Ok (fs : Fs) (st : Session) : Act → Prop
  | .create path attr => CreateOk path attr ∧ ParentOk fs (view fs st.media) path
  | .mkdir path => CreateOk path attrDir ∧ ParentOk fs (view fs st.media) path
  | .write i _ | .truncate i _ => ∀ f, st.files[i]? = some f → f.Agrees fs (view fs st.media)
  | _ => True

inductive Run (fs : Fs) (st : Session) : Session → Prop
  | refl : Run fs st st
  | step {st' : Session} (h : Run fs st st') (act : Act) (hok : act.Ok fs st') :
      Run fs st (act.run fs st')

theorem Settled.consistent {V0 : Vol} {L0 : Obj → List ℕ} {t : Obj} (h : Settled fs V0 L0 t m) :
    Consistent fs m := by
  obtain ⟨V, L, hat, hco, hcov, -⟩ := h
  obtain ⟨rfl, hmirror⟩ := hat
  exact ⟨⟨L, hco, hcov⟩, hmirror⟩

theorem consistent_of_spec {α : Type} {x : FatIo α} (h : Consistent fs m)
    (hx : ∀ L, Coherent fs (view fs m) L apart → Covered fs (view fs m) L ∅ → ∃ A t,
      Spec True A (At fs (view fs m)) x fun _ m' => Settled fs (view fs m) L t m') :
    Consistent fs (x (Device.fresh Area m)).2.media := by
  obtain ⟨⟨L, hco, hcov⟩, hmirror⟩ := h
  obtain ⟨A, t, hspec⟩ := hx L hco hcov
  exact (hspec (Device.fresh Area m) (fun _ _ => rfl) ⟨rfl, hmirror⟩).2.consistent

theorem Act.consistent (hgood : fs.Good) {st : Session} (h : Consistent fs st.media) {act : Act}
    (hok : act.Ok fs st) : Consistent fs (act.run fs st).media := by
  -- nothing is asked of the states on the way
  let J : Vol → Prop := fun _ => True
  cases act with
  | openPath path =>
    refine consistent_of_spec h fun L hco hcov =>
      ⟨Views fs J, none, (fat32Open_exact hco path).post ?_⟩
    exact fun _ m hm => ⟨_, L, hm.1, hco, hcov, .refl none⟩
  | create | mkdir =>
    exact consistent_of_spec h fun L hco hcov => ⟨Views fs J, none,
      fat32Create_spec hgood hco hcov hok.1 hok.2 (fun _ _ => trivial) (.inl fun _ => trivial)⟩
  | unlink path =>
    obtain ⟨⟨L, hco, hcov⟩, hmirror⟩ := h
    obtain ⟨t, hsettled⟩ := (fat32Unlink_spec (J := J) hgood hco hcov path (fun _ _ _ _ => trivial)
      (.inl fun _ => trivial) (Device.fresh Area st.media) (fun _ _ => rfl) ⟨rfl, hmirror⟩).2
    exact hsettled.consistent
  | write i data =>
    dsimp only [Act.run]
    cases hf : st.files[i]? with
    | none => exact h
    | some f =>
      exact consistent_of_spec h fun L hco hcov => ⟨_, some f.slot, (fat32Write_spec hgood hco hcov
        ((hok f hf).current hco) data).post fun _ _ ⟨_, _, hat, hw⟩ => hw.settled hat⟩
  | truncate i newSize =>
    dsimp only [Act.run]
    cases hf : st.files[i]? with
    | none => exact h
    | some f =>
      exact consistent_of_spec h fun L hco hcov =>
        ⟨Views fs J, some f.slot, fat32Truncate_spec hgood hco
        hcov ((hok f hf).current hco) newSize (fun _ _ => trivial) fun _ => .inl fun _ => trivial⟩
  | seek i offset whence =>
    dsimp only [Act.run]
    cases st.files[i]? with
    | none => exact h
    | some f => exact h

/-- **Runs keep the volume consistent.** -/
theorem run_consistent (fs : Fs) (hgood : fs.Good) (st st' : Session) (h : Consistent fs st.media)
    (hrun : Run fs st st') : Consistent fs st'.media := by
  induction hrun with
  | refl => exact h
  | step _ act hok ih => exact Act.consistent hgood ih hok

/-! ### A volume of five sectors -/

theorem open_agrees {st : Session} (h : Consistent fs st.media) {path : Str}
    (hopen : (fat32Open fs path (Device.fresh Area st.media)).1 = some f)
    (hfile : f.isDir = false) :
    f.Agrees fs (view fs ((Act.openPath path).run fs st).media) := by
  obtain ⟨⟨L, hco, -⟩, hmirror⟩ := h
  obtain ⟨hat, hr⟩ := (fat32Open_exact (J := fun _ => True) hco path (Device.fresh Area st.media)
    (fun _ _ => rfl) ⟨rfl, hmirror⟩).2
  have hmedia : view fs ((Act.openPath path).run fs st).media = view fs st.media := hat.view_eq
  rw [hmedia]
  exact hco.agrees (hr.symm.trans hopen) hfile

theorem live_mem {S : List Obj} (hroot : none ∈ S)
    (hstep : ∀ o ∈ S, V.isDir o = true → ∃ l, V.Chain (V.head fs o) l ∧
      ∀ s ∈ V.shown fs l, (V.entry s).Node → some s ∈ S) : ∀ o, V.Live fs o → o ∈ S := by
  intro o ho
  induction ho with
  | refl => exact hroot
  | tail _ hab ih =>
    obtain ⟨hdir, l, s, hl, hs, hnode, rfl⟩ := hab
    obtain ⟨l', hl', hall⟩ := hstep _ ih hdir
    exact hall s (hl.unique hl' ▸ hs) hnode

instance (e : Record) : Decidable e.Listed := inferInstanceAs (Decidable (_ ∧ _))

instance (e : Record) : Decidable e.Node := inferInstanceAs (Decidable (_ ∧ _))

def tinyFs : Fs where
  partLba := 0
  bytesPerSector := 512
  sectorsPerCluster := 1
  reservedSectors := 1
  fatCount := 1
  sectorsPerFat := 1
  totalSectors := 5
  rootCluster := 2
  bytes_mem := by decide
  cluster_pos := by decide
  fats_pos := by decide
  root_ge := by decide
  total_lt := by decide
  room := by decide

def emptyTable : Sector :=
  putLe32 (putLe32 (putLe32 (fun _ => 0) 0 0x0FFFFFF8) 4 0x0FFFFFFF) 8 0x0FFFFFFF

def emptyMedia : Media := Function.update (fun _ _ => 0) 1 emptyTable

theorem tinyFs_good : tinyFs.Good := ⟨by unfold Fs.FatFits; decide, by decide⟩

theorem tinyFs_mirrored (m : Media) : Mirrored tinyFs m := by
  intro f hf k _
  obtain rfl : f = 0 := by
    have : tinyFs.fatCount = 1 := rfl
    omega
  rw [zero_mul, add_zero]

theorem tinyFs_empty : Consistent tinyFs emptyMedia := by
  have hends : ∀ s ∈ dirSlots tinyFs [2], ((view tinyFs emptyMedia).entry s).isEnd = true := by
    decide +kernel
  have hchain : (view tinyFs emptyMedia).Chain 2 [2] :=
    ⟨by decide, by decide, show link _ = 0 by decide +kernel⟩
  have hnotListed : ∀ s ∈ dirSlots tinyFs [2], ¬((view tinyFs emptyMedia).entry s).Listed :=
    fun s hs hlisted => by
      have := hends s hs
      rw [hlisted.not_isEnd] at this
      exact Bool.false_ne_true this
  have hlive : ∀ o, (view tinyFs emptyMedia).Live tinyFs o → o = none := by
    intro o ho
    refine mem_singleton.mp (live_mem mem_cons_self (fun o ho _ => ⟨[2], ?_, fun s hs hnode => ?_⟩)
      o ho)
    · rw [mem_singleton.mp ho]
      exact hchain
    · exact absurd hnode.1 (hnotListed s ((takeWhile_sublist _).subset hs))
  have hnone : ∀ {s : Slot} {p : Prop}, (view tinyFs emptyMedia).Live tinyFs (some s) → p :=
    fun hs =>
    nomatch hlive _ hs
  refine ⟨⟨fun _ => [2], ⟨?_, ?_, ?_, ?_, ?_, ?_, ?_, ?_⟩, ?_⟩, tinyFs_mirrored _⟩
  · intro o ho
    rw [hlive o ho]
    exact hchain
  · intro o _ c hc
    rw [mem_singleton.mp hc]
    decide +kernel
  · intro o ho
    rw [hlive o ho]
    exact .inr mem_cons_self
  · intro o ho _
    rw [hlive o ho]
    exact le_rfl
  · intro o o' ho ho' _ _ _
    exact .inl ((hlive o ho).trans (hlive o' ho').symm)
  · exact fun s hs => hnone hs
  · exact fun o _ _ => ⟨[], _, rfl, fun _ => not_mem_nil.elim, hends⟩
  · exact fun o _ _ s hs hlisted => absurd hlisted (hnotListed s hs)
  · intro c hc hused
    refine .inr ⟨none, .refl, ?_⟩
    have hall : ∀ c < 5, (view tinyFs emptyMedia).fat c ≠ 0 → 2 ≤ c → c ∈ [2] := by decide +kernel
    exact hall c hc.2 hused hc.1

def pathA : Str := [slash, 0x41]

theorem pathA_ok : CreateOk pathA 0 where
  string := by decide
  name parent name short hsplit hshort := by
    have hname :
        (splitPath pathA).bind (fun q => buildShortName q.2) = some (padTo 11 [0x41]) := by decide
    rw [hsplit, Option.bind_some, hshort] at hname
    cases hname
    decide
  attr := by decide

theorem pathA_parent (V : Vol) : ParentOk tinyFs V pathA := by
  rintro h ⟨parent, name, hsplit, hres⟩
  have hparent : splitPath pathA = some ([], [0x41]) := by decide
  cases hsplit.symm.trans hparent
  cases hres
  decide

def writtenA : Session :=
  (Act.write 0 [1]).run tinyFs ((Act.openPath pathA).run tinyFs
    ((Act.create pathA 0).run tinyFs ⟨emptyMedia, []⟩))

theorem createA_ok : (Act.create pathA 0).Ok tinyFs ⟨emptyMedia, []⟩ := ⟨pathA_ok, pathA_parent _⟩

theorem createA_consistent :
    Consistent tinyFs ((Act.create pathA 0).run tinyFs ⟨emptyMedia, []⟩).media :=
  Act.consistent tinyFs_good tinyFs_empty createA_ok

theorem openA_ok : (Act.write 0 [1]).Ok tinyFs ((Act.openPath pathA).run tinyFs
    ((Act.create pathA 0).run tinyFs ⟨emptyMedia, []⟩)) := by
  intro f hf
  have hkind : (fat32Open tinyFs pathA (Device.fresh Area
      ((Act.create pathA 0).run tinyFs ⟨emptyMedia, []⟩).media)).1.map File.isDir = some false := by
    decide +kernel
  cases hopen : (fat32Open tinyFs pathA (Device.fresh Area
      ((Act.create pathA 0).run tinyFs ⟨emptyMedia, []⟩).media)).1 with
  | none =>
    rw [hopen] at hkind
    cases hkind
  | some f' =>
    have hfiles : ((Act.openPath pathA).run tinyFs
        ((Act.create pathA 0).run tinyFs ⟨emptyMedia, []⟩)).files = [f'] :=
      congrArg (fun r : Option File => [] ++ r.toList) hopen
    rw [hfiles] at hf
    cases hf
    rw [hopen] at hkind
    exact open_agrees createA_consistent hopen (Option.some.inj hkind)

theorem run_consistent_writtenA :
    Consistent tinyFs emptyMedia ∧ Consistent tinyFs writtenA.media := by
  refine ⟨tinyFs_empty, run_consistent tinyFs tinyFs_good ⟨emptyMedia, []⟩ writtenA tinyFs_empty ?_⟩
  exact ((Run.refl.step _ createA_ok).step (.openPath pathA) trivial).step (.write 0 [1]) openA_ok

/-- The file `/A` is created, opened twice while it is empty, and written through both handles. -/
def twiceA : Session :=
  [.create pathA 0, .openPath pathA, .openPath pathA, .write 0 [1], .write 1 [2]].foldl
    (fun st act => Act.run tinyFs st act) ⟨emptyMedia, []⟩

/-- **The cluster that the first write allocated is lost**: it is marked used and belongs to no live
object, though no file was unlinked or truncated. -/
theorem twiceA_lost : Consistent tinyFs emptyMedia ∧ (view tinyFs twiceA.media).fat 3 ≠ 0 ∧
    ∀ o l, (view tinyFs twiceA.media).Live tinyFs o →
      (view tinyFs twiceA.media).Chain ((view tinyFs twiceA.media).head tinyFs o) l → 3 ∉ l := by
  have hroot : (view tinyFs twiceA.media).Chain 2 [2] :=
    ⟨by decide, by decide, show link _ = 0 by decide +kernel⟩
  have hfile : (view tinyFs twiceA.media).Chain 4 [4] :=
    ⟨by decide, by decide, show link _ = 0 by decide +kernel⟩
  have hhead : (view tinyFs twiceA.media).head tinyFs (some ⟨2, 0⟩) = 4 := by decide +kernel
  have hlive : ∀ o, (view tinyFs twiceA.media).Live tinyFs o → o ∈ [none, some ⟨2, 0⟩] := by
    refine live_mem mem_cons_self fun o ho hdir => ?_
    rcases mem_cons.mp ho with rfl | ho
    · have hall : ∀ s ∈ (view tinyFs twiceA.media).shown tinyFs [2],
          ((view tinyFs twiceA.media).entry s).Node → s = ⟨2, 0⟩ := by decide +kernel
      refine ⟨[2], hroot, fun s hs hnode => ?_⟩
      rw [hall s hs hnode]
      exact mem_cons_of_mem _ mem_cons_self
    · rw [mem_singleton.mp ho] at hdir
      have hnot : (view tinyFs twiceA.media).isDir (some ⟨2, 0⟩) = false := by decide +kernel
      rw [hnot] at hdir
      exact absurd hdir Bool.false_ne_true
  refine ⟨tinyFs_empty, by decide +kernel, fun o l ho hl => ?_⟩
  rcases mem_cons.mp (hlive o ho) with rfl | ho
  · rw [hl.unique hroot]
    decide
  · rw [mem_singleton.mp ho, hhead] at hl
    rw [hl.unique hfile]
    decide

end TaterTOS.Fat32
