import TaterTOS.Linux.Failing

/-!
# The segments of a Linux program

A model of `lx_validate_image` and `lx_map_segment_at` in `kernel/proc/linux_elf.c`, and of the loop
of `elf_load_linux` over the program headers. The headers stand decoded in the image. A large file
is read while its segments are mapped, and appears as the answers of its file system. A load that
fails gives up its address space, so only the error is left.

* **`segments_permitted`**: the permissions of the pages are those their segments ask for;
* `shared_page_readonly`: a page of two segments has those of the segment that comes first.
-/

namespace TaterTOS.Linux

open Lib Vm List Vmm

inductive LoadError
  | noexec
  | nomem
  | fault
  | io
  deriving DecidableEq, Repr

structure Ehdr where
  ident : List UInt8
  (type machine phentsize phnum : UInt16)
  phoff : UInt64

structure Phdr where
  (type flags : UInt32)
  (offset vaddr filesz memsz : UInt64)
  deriving DecidableEq

/-- What `vfs_seek` and the reads at each offset answer; a buffer has all its bytes. -/
structure Payload where
  seeks : Bool
  read : ℕ → ℕ → List UInt8

def Payload.buffer (bytes : ℕ → UInt8) : Payload :=
  ⟨true, fun off n => (List.range n).map fun i => bytes (off + i)⟩

structure Image where
  size : UInt32
  payload : Payload
  eh : Ehdr
  ph : ℕ → Phdr

def lxPtLoad : UInt32 := 1
def lxPfX : UInt32 := 1
def lxPfW : UInt32 := 2

def lxValidateImage (img : Image) (wantType : UInt16) : Except LoadError Unit :=
  let eh := img.eh
  let phTable := u64 (eh.phoff.toNat + eh.phnum.toNat * eh.phentsize.toNat)
  if eh.ident.take 6 ≠ [0x7F, 0x45, 0x4C, 0x46, 2, 1] then .error .noexec
  else if eh.machine ≠ 62 then .error .noexec
  else if eh.type ≠ wantType then .error .noexec
  else if eh.phentsize ≠ 56 ∨ eh.phnum = 0 then .error .noexec
  else if img.size.toNat < eh.phoff.toNat ∨ img.size.toNat < phTable then .error .noexec
  else .ok ()

def segmentFlags (ph : Phdr) : ℕ :=
  flagPresent ||| flagUser ||| (if ph.flags &&& lxPfW ≠ 0 then flagWrite else 0) |||
    (if ph.flags &&& lxPfX = 0 then flagNoExecute else 0)

/-- One page of a segment; a page that is there already is left as it is. -/
def segmentPage (flags : ℕ) (h : Heap) (v : ℕ) : Except LoadError Heap :=
  if frameAt h.toState v ≠ 0 then .ok h
  else match lxMapOne h v flags with
    | (false, _) => .error .nomem
    | (true, h) => .ok h

/-- The loops of `lx_poke` and of the streamed reads; each round brings a byte. -/
def copyLoop (p : Payload) : ℕ → ℕ → ℕ → ℕ → Heap → Except LoadError Heap
  | 0, _, _, _, h => .ok h
  | k + 1, va, off, left, h =>
    if left = 0 then .ok h
    else
      let frame := frameAt h.toState va
      if frame = 0 then .error .fault
      else
        let n := min (4096 - va % 4096) left
        let bytes := (p.read off n).take n
        let dst := frame + va % 4096
        if bytes = [] then .error .io
        else copyLoop p k (va + bytes.length) (off + bytes.length) (left - bytes.length) { h with
          mem a := if dst ≤ a ∧ a < dst + bytes.length then bytes.getD (a - dst) 0 else h.mem a }

def fillSegment (img : Image) (ph : Phdr) (vaddr : ℕ) (h : Heap) : Except LoadError Heap :=
  if ph.filesz = 0 then .ok h
  else if !img.payload.seeks then .error .io
  else copyLoop img.payload ph.filesz.toNat vaddr ph.offset.toNat ph.filesz.toNat h

def lxMapSegmentAt (img : Image) (bias : ℕ) (h : Heap) (ph : Phdr) : Except LoadError Heap :=
  let off := ph.offset.toNat
  let size := img.size.toNat
  let vaddr := ph.vaddr.toNat + bias
  let start := alignDown vaddr 4096
  let stop := alignUp (vaddr + ph.memsz.toNat) 4096
  if userVaTop < ph.vaddr.toNat ∨ userVaTop - ph.vaddr.toNat < bias then .error .noexec
  else if userVaTop ≤ vaddr then .error .noexec
  else if ph.memsz < ph.filesz then .error .noexec
  else if size < off ∨ size - off < ph.filesz.toNat then .error .noexec
  else if userVaTop - vaddr < ph.memsz.toNat then .error .noexec
  else match (pageAddrs start (stop - start)).foldlM (segmentPage (segmentFlags ph)) h with
    | .error e => .error e
    | .ok h => fillSegment img ph vaddr h

def Image.headers (img : Image) : List Phdr := (List.range img.eh.phnum.toNat).map img.ph

/-- The loop of `elf_load_linux` over the program headers. -/
def loadSegments (img : Image) (bias : ℕ) (h : Heap) : Except LoadError Heap :=
  img.headers.foldlM
    (fun h ph => if ph.type ≠ lxPtLoad then .ok h else lxMapSegmentAt img bias h ph) h

/-! ### Permissions -/

def Phdr.Has (p : Phdr) (bias x : ℕ) : Prop :=
  p.vaddr.toNat + bias ≤ x ∧ x < p.vaddr.toNat + bias + p.memsz.toNat

def Phdr.Touches (p : Phdr) (bias n : ℕ) : Prop := ∃ x, p.Has bias x ∧ x / 4096 = n

def Image.loads (img : Image) : List Phdr := img.headers.filter (·.type = lxPtLoad)

/-- The process may use the page, and the flags of its entry satisfy `P`. -/
def Allows (h : Heap) (n : ℕ) (P : ℕ → Prop) : Prop :=
  ∃ x, h.pages n = some x ∧ x.2 &&& flagUser ≠ 0 ∧ P x.2

/-- A page is writable, or executable, exactly if it has a byte of a segment that is. -/
structure Permitted (img : Image) (bias : ℕ) (h : Heap) : Prop where
  writable : ∀ n, Allows h n (· &&& flagWrite ≠ 0) ↔
    ∃ p ∈ img.loads, p.Touches bias n ∧ p.flags &&& lxPfW ≠ 0
  executable : ∀ n, Allows h n (· &&& flagNoExecute = 0) ↔
    ∃ p ∈ img.loads, p.Touches bias n ∧ p.flags &&& lxPfX ≠ 0

theorem segmentFlags_spec (p : Phdr) : pteFlags (segmentFlags p) &&& flagUser ≠ 0 ∧
    (pteFlags (segmentFlags p) &&& flagWrite ≠ 0 ↔ p.flags &&& lxPfW ≠ 0) ∧
    (pteFlags (segmentFlags p) &&& flagNoExecute = 0 ↔ p.flags &&& lxPfX ≠ 0) := by
  unfold segmentFlags
  split_ifs with hw hx hx <;> simp only [hw, hx, ne_eq] <;> decide

/-- New pages can be mapped, and `F` are the flags of those there. -/
structure Laid (F : ℕ → Option ℕ) (h : Heap) : Prop where
  good : GoodPages h.pages
  maps : MapsWork h.toState
  flags : ∀ n, (h.pages n).map Prod.snd = F n

variable {img : Image} {bias flags m : ℕ} {h h' : Heap} {p : Phdr} {F : ℕ → Option ℕ}

/-- What the first of a list asks for a page is what the page gets. -/
theorem laid_foldlM {α : Type} {f : Heap → α → Except LoadError Heap} {g : α → ℕ → Option ℕ}
    (l : List α) (hf : ∀ a ∈ l, ∀ F h h', Laid F h → f h a = .ok h' →
      Laid (fun n => F n <|> g a n) h')
    (hl : Laid F h) (hrun : l.foldlM f h = .ok h') :
    Laid (fun n => F n <|> l.findSome? (g · n)) h' := by
  induction l generalizing h F with
  | nil =>
    obtain rfl := Except.ok.inj hrun
    simpa using hl
  | cons a l ih =>
    obtain ⟨ha, hf⟩ := forall_mem_cons.mp hf
    rw [foldlM_cons] at hrun
    cases hfa : f h a with
    | error e =>
      rw [hfa] at hrun
      cases hrun
    | ok h1 =>
      rw [hfa] at hrun
      have hrest := ih hf (ha F h h1 hl hfa) hrun
      refine ⟨hrest.good, hrest.maps, fun n => (hrest.flags n).trans ?_⟩
      rw [findSome?_cons]
      cases F n <;> cases g a n <;> rfl

theorem findSome?_if_eq (n c : ℕ) (l : List ℕ) :
    l.findSome? (fun m => if n = m then some c else none) = if n ∈ l then some c else none := by
  induction l with
  | nil => rfl
  | cons m l ih => by_cases hm : n = m <;> simp [hm, ih]

theorem segmentPage_laid (hm : m * 4096 < userVaTop) (hl : Laid F h)
    (hrun : segmentPage flags h (m * 4096) = .ok h') :
    Laid (fun n => F n <|> if n = m then some (pteFlags flags) else none) h' := by
  unfold segmentPage at hrun
  have hFm := hl.flags m
  cases hp : h.pages m with
  | some x =>
    have hframe : frameAt h.toState (m * 4096) ≠ 0 := by
      rw [frameAt, virtToPhysUser_page _ hm, hp]
      exact (hl.good m x hp).2 ▸ (hl.good m x hp).1
    rw [if_pos hframe] at hrun
    obtain rfl := Except.ok.inj hrun
    rw [hp] at hFm
    refine ⟨hl.good, hl.maps, fun n => (hl.flags n).trans ?_⟩
    split_ifs with hnm
    · rw [hnm, ← hFm]
      rfl
    · simp
  | none =>
    rw [if_neg (not_not.mpr (frameAt_of_none hp))] at hrun
    obtain ⟨a, s, new, -, hmaps, ⟨hone, -⟩ | ⟨hone, hz, hfa, hpages, -⟩⟩ :=
      lxMapOne_spec h hm flags hl.maps
    · rw [hone] at hrun
      cases hrun
    rw [hone] at hrun
    obtain rfl := Except.ok.inj hrun
    rw [hp] at hFm
    refine ⟨?_, hmaps, fun n => ?_⟩
    · rw [hpages]
      refine hl.good.updated ?_
      rintro x ⟨⟩
      exact ⟨hz, hfa⟩
    · rw [hpages, Function.update_apply]
      split_ifs with hnm
      · rw [hnm, ← hFm]
        rfl
      · simpa using hl.flags n

theorem copyLoop_state (q : Payload) (k : ℕ) : ∀ {va off left : ℕ} {h : Heap},
    copyLoop q k va off left h = .ok h' → h'.toState = h.toState := by
  induction k with
  | zero =>
    intro va off left h hrun
    rw [Except.ok.inj hrun]
  | succ k ih =>
    intro va off left h hrun
    rw [copyLoop] at hrun
    dsimp only at hrun
    split_ifs at hrun
    · rw [Except.ok.inj hrun]
    · have hstate := ih hrun
      exact hstate

/-- The pages that are mapped for a segment: an empty one at an address that is not aligned still
has the page of that address. -/
def Phdr.covers (p : Phdr) (bias n : ℕ) : Bool :=
  (p.vaddr.toNat + bias) / 4096 ≤ n ∧ n < (p.vaddr.toNat + bias + p.memsz.toNat + 4095) / 4096

theorem lxMapSegmentAt_laid (hl : Laid F h) (hrun : lxMapSegmentAt img bias h p = .ok h') :
    Laid (fun n => F n <|> if p.covers bias n then some (pteFlags (segmentFlags p)) else none)
      h' := by
  have htop : userVaTop = 2 ^ 47 := rfl
  unfold lxMapSegmentAt at hrun
  dsimp only at hrun
  split_ifs at hrun with h1 h2 h3 h4 h5
  set vaddr := p.vaddr.toNat + bias with hv
  have hstart : alignDown vaddr 4096 = vaddr / 4096 * 4096 :=
    alignDown_two_pow (k := 12) (by norm_num) (by omega)
  have hstop : alignUp (vaddr + p.memsz.toNat) 4096 =
      (vaddr + p.memsz.toNat + 4095) / 4096 * 4096 :=
    alignUp_two_pow (k := 12) (by norm_num) (by omega)
  rw [hstart, hstop, pageAddrs_of_dvd (by omega) (by omega) (by omega), foldlM_map] at hrun
  split at hrun
  · cases hrun
  next h1 hloop =>
    have hcovers : ∀ n, n ∈ pageNums (vaddr / 4096 * 4096)
        ((vaddr + p.memsz.toNat + 4095) / 4096 * 4096 - vaddr / 4096 * 4096) ↔
          p.covers bias n = true := by
      intro n
      rw [pageNums, mem_range'_1, Phdr.covers, ← hv, decide_eq_true_eq]
      omega
    have hlaid :=
      laid_foldlM (g := fun m n => if n = m then some (pteFlags (segmentFlags p)) else none)
      _ (fun m hm F h h' => segmentPage_laid (by
        have := (hcovers m).mp hm
        simp only [Phdr.covers, ← hv, decide_eq_true_eq] at this
        omega)) hl hloop
    have hstate : h'.toState = h1.toState := by
      unfold fillSegment at hrun
      split_ifs at hrun
      · rw [Except.ok.inj hrun]
      · exact copyLoop_state _ _ hrun
    refine ⟨hstate ▸ hlaid.good, hstate ▸ hlaid.maps, fun n => ?_⟩
    rw [hstate, hlaid.flags, findSome?_if_eq, if_congr (hcovers n) rfl rfl]

/-- The first segment that a page is mapped for. -/
def Image.first (img : Image) (bias n : ℕ) : Option Phdr := img.loads.find? (·.covers bias n)

theorem Laid.allows_iff {P : ℕ → Prop} {Q : Phdr → Prop} {n : ℕ}
    (hl : Laid (fun n => (img.first bias n).map fun p => pteFlags (segmentFlags p)) h)
    (hPQ : ∀ p, P (pteFlags (segmentFlags p)) ↔ Q p) :
    Allows h n P ↔ ∃ p, img.first bias n = some p ∧ Q p := by
  have hflags := hl.flags n
  constructor
  · rintro ⟨x, hx, -, hP⟩
    rw [hx] at hflags
    obtain ⟨p, hp, hf⟩ := Option.map_eq_some_iff.mp hflags.symm
    exact ⟨p, hp, (hPQ p).mp (hf ▸ hP)⟩
  · rintro ⟨p, hp, hQ⟩
    rw [hp] at hflags
    obtain ⟨x, hx, hf⟩ := Option.map_eq_some_iff.mp hflags
    exact ⟨x, hx, hf ▸ (segmentFlags_spec p).1, hf ▸ (hPQ p).mpr hQ⟩

theorem loadSegments_laid (hfresh : ∀ n, h.pages n = none) (hmaps : MapsWork h.toState)
    (hrun : loadSegments img bias h = .ok h') :
    Laid (fun n => (img.first bias n).map fun p => pteFlags (segmentFlags p)) h' := by
  have hstart : Laid (fun _ => none) h :=
    ⟨fun n x hx => absurd hx (by simp [hfresh]), hmaps, fun n => by rw [hfresh]; rfl⟩
  have hlaid := laid_foldlM (g := fun p n => if p.type = lxPtLoad ∧ p.covers bias n = true then
    some (pteFlags (segmentFlags p)) else none) _ (fun p _ F h h' hl hstep => by
      split_ifs at hstep with ht
      · obtain rfl := Except.ok.inj hstep
        simpa [ht] using hl
      · simpa [not_not.mp ht] using lxMapSegmentAt_laid hl hstep) hstart hrun
  refine ⟨hlaid.good, hlaid.maps, fun n => (hlaid.flags n).trans ?_⟩
  rw [Image.first, Image.loads, find?_filter]
  induction img.headers with
  | nil => rfl
  | cons p l ih =>
    by_cases hp : p.type = lxPtLoad ∧ p.covers bias n = true
    · simp [hp]
    · have hp' : (decide (p.type = lxPtLoad) && p.covers bias n) = false := by simpa using hp
      simpa [hp, hp'] using ih

/-- **The segments get their permissions** exactly if, on every page, the first segment that the
page is mapped for asks for what the segments with a byte on it ask for; `vmm_map_user` finds its
tables. -/
theorem segments_permitted (hfresh : ∀ n, h.pages n = none) (hmaps : MapsWork h.toState)
    (hrun : loadSegments img bias h = .ok h') :
    Permitted img bias h' ↔ ∀ n,
      ((∃ p, img.first bias n = some p ∧ p.flags &&& lxPfW ≠ 0) ↔
        ∃ p ∈ img.loads, p.Touches bias n ∧ p.flags &&& lxPfW ≠ 0) ∧
      ((∃ p, img.first bias n = some p ∧ p.flags &&& lxPfX ≠ 0) ↔
        ∃ p ∈ img.loads, p.Touches bias n ∧ p.flags &&& lxPfX ≠ 0) := by
  have hl := loadSegments_laid hfresh hmaps hrun
  have hw (n : ℕ) : Allows h' n (· &&& flagWrite ≠ 0) ↔ _ :=
    hl.allows_iff fun p => (segmentFlags_spec p).2.1
  have hx (n : ℕ) : Allows h' n (· &&& flagNoExecute = 0) ↔ _ :=
    hl.allows_iff fun p => (segmentFlags_spec p).2.2
  exact ⟨fun hp n => ⟨(hw n).symm.trans (hp.writable n), (hx n).symm.trans (hp.executable n)⟩,
    fun hc => ⟨fun n => (hw n).trans (hc n).1, fun n => (hx n).trans (hc n).2⟩⟩

/-- Two segments of 16 bytes on one page, the first read only. -/
def twoSegments (flags : UInt32) : Image where
  size := 4096
  payload := .buffer fun _ => 0
  eh := ⟨[0x7F, 0x45, 0x4C, 0x46, 2, 1], 2, 62, 56, 2, 64⟩
  ph i := if i = 0 then ⟨1, 4, 0, 0x400000, 16, 16⟩ else ⟨1, flags, 0, 0x400800, 16, 16⟩

theorem twoSegments_loaded : ∀ flags ∈ [4, 6], lxValidateImage (twoSegments flags) 2 = .ok () ∧
    ∃ h', loadSegments (twoSegments flags) 0 (fresh [0x5000]).toHeap = .ok h' ∧
      h'.pages 0x400 = some (0x5000, pteFlags (flagPresent ||| flagUser ||| flagNoExecute)) := by
  intro flags hf
  obtain ⟨hv, hl⟩ : lxValidateImage (twoSegments flags) 2 = .ok () ∧
      (loadSegments (twoSegments flags) 0 (fresh [0x5000]).toHeap).toOption.map (·.pages 0x400) =
        some (some (0x5000, pteFlags (flagPresent ||| flagUser ||| flagNoExecute))) := by
    simp only [mem_cons, not_mem_nil, or_false] at hf
    rcases hf with rfl | rfl <;> decide +kernel
  refine ⟨hv, ?_⟩
  cases hload : loadSegments (twoSegments flags) 0 (fresh [0x5000]).toHeap with
  | error e =>
    rw [hload] at hl
    cases hl
  | ok h' =>
    rw [hload] at hl
    exact ⟨h', rfl, Option.some.inj hl⟩

theorem segments_permitted_readonly : ∃ h',
    loadSegments (twoSegments 4) 0 (fresh [0x5000]).toHeap = .ok h' ∧
      Permitted (twoSegments 4) 0 h' := by
  obtain ⟨-, h', hl, -⟩ := twoSegments_loaded 4 (by simp)
  have hflags : ∀ p ∈ (twoSegments 4).loads, p.flags &&& lxPfW = 0 ∧
    p.flags &&& lxPfX = 0 := by decide
  have hfirst : ∀ {n p}, (twoSegments 4).first 0 n = some p → p ∈ (twoSegments 4).loads :=
    fun hp => mem_of_find?_eq_some hp
  refine ⟨h', hl,
    (segments_permitted (fun n => rfl) (fun a ha => absurd ha (by simp [fresh])) hl).mpr
    fun n => ⟨iff_of_false ?_ ?_, iff_of_false ?_ ?_⟩⟩
  · rintro ⟨p, hp, hw⟩
    exact hw (hflags p (hfirst hp)).1
  · rintro ⟨p, hp, -, hw⟩
    exact hw (hflags p hp).1
  · rintro ⟨p, hp, hx⟩
    exact hx (hflags p (hfirst hp)).2
  · rintro ⟨p, hp, -, hx⟩
    exact hx (hflags p hp).2

/-- **A page of two segments stays read only**, although the second one is writable. -/
theorem shared_page_readonly : lxValidateImage (twoSegments 6) 2 = .ok () ∧
    (twoSegments 6).loads.Pairwise (fun p q => ∀ x, p.Has 0 x → ¬q.Has 0 x) ∧ ∃ h',
      loadSegments (twoSegments 6) 0 (fresh [0x5000]).toHeap = .ok h' ∧
      ¬Permitted (twoSegments 6) 0 h' := by
  obtain ⟨hv, h', hl, hpage⟩ := twoSegments_loaded 6 (by simp)
  refine ⟨hv, ?_, h', hl, fun hp => ?_⟩
  · have hloads : (twoSegments 6).loads =
        [⟨1, 4, 0, 0x400000, 16, 16⟩, ⟨1, 6, 0, 0x400800, 16, 16⟩] := by decide
    rw [hloads, pairwise_pair]
    rintro x ⟨-, hx⟩ ⟨hx', -⟩
    exact absurd (hx'.trans_lt hx) (by decide)
  · obtain ⟨x, hx, -, hw⟩ := (hp.writable 0x400).mpr ⟨⟨1, 6, 0, 0x400800, 16, 16⟩, by decide,
      ⟨0x400800, ⟨by decide, by decide⟩, by decide⟩, by decide⟩
    rw [hpage] at hx
    obtain rfl := Option.some.inj hx
    exact hw (by decide)

end TaterTOS.Linux
