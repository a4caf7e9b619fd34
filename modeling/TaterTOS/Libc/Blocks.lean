import TaterTOS.Libc.Malloc
import TaterTOS.Vmm.Model

/-!
# The invariant of the allocator

A world is the heap together with what can be seen of it from outside: the memory obtained from the
kernel and not given back, and for every live pointer the size that was asked for.

* `World.Fresh`: memory the kernel may hand out: new, in user space, at a multiple of 16.
-/

namespace TaterTOS.Libc

open Function Lib Vmm List

structure Region where
  addr : ℕ
  len : ℕ
  mapped : Bool
  deriving DecidableEq

structure World where
  heap : Heap
  regions : List Region
  live : ℕ → Option ℕ

def Sys.apply (rs : List Region) : Sys → List Region
  | .mmap addr len => rs ++ [⟨addr, len, true⟩]
  | .sbrk addr len => rs ++ [⟨addr, len, false⟩]
  | .munmap addr _ => rs.filter fun r => r.addr ≠ addr

def Region.Apart (r s : Region) : Prop := r.addr + r.len ≤ s.addr ∨ s.addr + s.len ≤ r.addr

def Region.Placed (r : Region) : Prop :=
  0 < r.addr ∧ 0 < r.len ∧ 16 ∣ r.addr ∧ r.addr + r.len ≤ userVaTop

def World.Fresh (w : World) (r : Region) : Prop := r.Placed ∧ ∀ s ∈ w.regions, r.Apart s

structure HeaderOk (m : Mem) (r : Region) (owner : Option ℕ) : Prop where
  room : (readBlock m r.addr).size + headerSize ≤ r.len
  mapLen : (readBlock m r.addr).mapLen = if r.mapped then r.len else 0
  magic : (readBlock m r.addr).magic = mallocMagic
  flags : (readBlock m r.addr).flags =
    (if owner = none then flagFree else 0) + if r.mapped then flagMmap else 0
  /-- A mapped region is unmapped as soon as it is freed. -/
  held : r.mapped → owner ≠ none
  asked : ∀ n, owner = some n → n ≤ (readBlock m r.addr).size

def sbrkBlocks (rs : List Region) : List ℕ := (rs.filter fun r => !r.mapped).map Region.addr

structure World.Inv (w : World) : Prop where
  apart : w.regions.Pairwise Region.Apart
  placed : ∀ r ∈ w.regions, r.Placed
  header : ∀ r ∈ w.regions, HeaderOk w.heap.mem r (w.live (r.addr + headerSize))
  owner : ∀ p n, w.live p = some n → ∃ r ∈ w.regions, p = r.addr + headerSize
  chain : Chain (nextBlock w.heap.mem) 0 w.heap.freeList (sbrkBlocks w.regions)

instance : Std.Symm Region.Apart := ⟨fun _ _ => Or.symm⟩

theorem mem_sbrkBlocks {rs : List Region} {a : ℕ} :
    a ∈ sbrkBlocks rs ↔ ∃ r ∈ rs, r.mapped = false ∧ r.addr = a := by
  simp [sbrkBlocks, and_assoc]

theorem HeaderOk.of_fields {r : Region} {m m' : Mem} {o : Option ℕ} (h : HeaderOk m r o) {next : ℕ}
    (hread : readBlock m' r.addr = { readBlock m r.addr with next := next }) : HeaderOk m' r o where
  room := by
    rw [hread]
    exact h.room
  mapLen := by
    rw [hread]
    exact h.mapLen
  magic := by
    rw [hread]
    exact h.magic
  flags := by
    rw [hread]
    exact h.flags
  held := h.held
  asked n hn := by
    rw [hread]
    exact h.asked n hn

theorem HeaderOk.congr {r : Region} {m m' : Mem} {o : Option ℕ} (h : HeaderOk m r o)
    (hread : readBlock m' r.addr = readBlock m r.addr) : HeaderOk m' r o :=
  h.of_fields hread

namespace World.Inv

variable {w : World} {r s : Region} {m' : Mem} {live' : ℕ → Option ℕ}

theorem start (h : Heap) (hfree : h.freeList = 0) : World.Inv ⟨h, [], fun _ => none⟩ where
  apart := .nil
  placed := by simp
  header := by simp
  owner := by simp
  chain := hfree

section

variable (h : w.Inv)
include h

theorem headerSize_le (hr : r ∈ w.regions) : headerSize ≤ r.len :=
  le_trans (Nat.le_add_left _ _) (h.header r hr).room

theorem apart_of_ne (hr : r ∈ w.regions) (hs : s ∈ w.regions) (hne : r ≠ s) :
    r.Apart s :=
  h.apart.forall hr hs hne

theorem eq_of_addr (hr : r ∈ w.regions) (hs : s ∈ w.regions) (heq : r.addr = s.addr) :
    r = s := by
  by_contra hne
  have hapart := h.apart_of_ne hr hs hne
  have := h.headerSize_le hr
  have := h.headerSize_le hs
  unfold Region.Apart headerSize at *
  omega

theorem region_of_live {p n : ℕ} (hp : w.live p = some n) :
    ∃ r ∈ w.regions, p = r.addr + headerSize ∧ n ≤ (readBlock w.heap.mem r.addr).size := by
  obtain ⟨r, hr, rfl⟩ := h.owner p n hp
  exact ⟨r, hr, rfl, (h.header r hr).asked n hp⟩

theorem live_zero : w.live 0 = none := by
  by_contra hne
  obtain ⟨n, hn⟩ := Option.ne_none_iff_exists'.mp hne
  obtain ⟨r, _, hr⟩ := h.owner 0 n hn
  unfold headerSize at hr
  omega

theorem readBlock_eq (hs : s ∈ w.regions) (hframe : Frame w.heap.mem m' r.addr r.len)
    (hapart : r.Apart s) : readBlock m' s.addr = readBlock w.heap.mem s.addr := by
  have := h.headerSize_le hs
  refine readBlock_frame hframe ?_
  unfold Region.Apart at hapart
  omega

/-- **Inside one region anything may change, as long as its header agrees with the new owner and
keeps its link.** -/
theorem change (hr : r ∈ w.regions) (hframe : Frame w.heap.mem m' r.addr r.len)
    (hnext : nextBlock m' r.addr = nextBlock w.heap.mem r.addr)
    (hhead : HeaderOk m' r (live' (r.addr + headerSize)))
    (hlive : ∀ p, p ≠ r.addr + headerSize → live' p = w.live p) :
    World.Inv { w with heap := { w.heap with mem := m' }, live := live' } where
  apart := h.apart
  placed := h.placed
  header s hs := by
    by_cases heq : s = r
    · exact heq ▸ hhead
    · have hne : s.addr ≠ r.addr := fun haddr => heq (h.eq_of_addr hs hr haddr)
      dsimp only
      rw [hlive _ (by omega)]
      exact HeaderOk.congr (h.header s hs)
        (h.readBlock_eq hs hframe (h.apart_of_ne hr hs (Ne.symm heq)))
  owner p n hp := by
    by_cases heq : p = r.addr + headerSize
    · exact ⟨r, hr, heq⟩
    · exact h.owner p n (hlive p heq ▸ hp)
  chain := by
    refine h.chain.congr fun a ha => ?_
    obtain ⟨s, hs, _, rfl⟩ := mem_sbrkBlocks.mp ha
    by_cases heq : s = r
    · exact heq ▸ hnext
    · unfold nextBlock
      rw [h.readBlock_eq hs hframe (h.apart_of_ne hr hs (Ne.symm heq))]

theorem fresh_addr (hr : w.Fresh r) (hs : s ∈ w.regions) : s.addr ≠ r.addr := by
  have hapart := hr.2 s hs
  have := h.headerSize_le hs
  have := hr.1.2.1
  unfold Region.Apart headerSize at *
  omega

theorem live_fresh (hr : w.Fresh r) : w.live (r.addr + headerSize) = none := by
  by_contra hne
  obtain ⟨n, hn⟩ := Option.ne_none_iff_exists'.mp hne
  obtain ⟨s, hs, heq⟩ := h.owner _ n hn
  exact h.fresh_addr hr hs (by omega)

theorem apart_append (hr : w.Fresh r) : (w.regions ++ [r]).Pairwise Region.Apart := by
  refine pairwise_append.mpr ⟨h.apart, pairwise_singleton _ _, fun s hs t ht => ?_⟩
  rw [mem_singleton.mp ht]
  exact Or.symm (hr.2 s hs)

end

section

variable (h : w.Inv) (hr : w.Fresh r) {n : ℕ}
include h hr

theorem append {heap' : Heap}
    (hold : ∀ s ∈ w.regions, HeaderOk heap'.mem s (w.live (s.addr + headerSize)))
    (hnew : HeaderOk heap'.mem r (some n))
    (hchain : Chain (nextBlock heap'.mem) 0 heap'.freeList (sbrkBlocks (w.regions ++ [r]))) :
    World.Inv ⟨heap', w.regions ++ [r], update w.live (r.addr + headerSize) (some n)⟩ where
  apart := h.apart_append hr
  placed s hs := by
    rcases mem_append.mp hs with hs | hs
    · exact h.placed s hs
    · exact mem_singleton.mp hs ▸ hr.1
  header s hs := by
    rcases mem_append.mp hs with hs | hs
    · have hne := h.fresh_addr hr hs
      dsimp only
      rw [update_of_ne (by omega)]
      exact hold s hs
    · obtain rfl := mem_singleton.mp hs
      dsimp only
      rw [update_self]
      exact hnew
  owner p k hp := by
    by_cases heq : p = r.addr + headerSize
    · exact ⟨r, mem_append_right _ (mem_singleton_self r), heq⟩
    · dsimp only at hp
      rw [update_of_ne heq] at hp
      obtain ⟨s, hs, hps⟩ := h.owner p k hp
      exact ⟨s, mem_append_left _ hs, hps⟩
  chain := hchain

theorem mmap (hmapped : r.mapped = true)
    (hframe : Frame w.heap.mem m' r.addr r.len) (hnew : HeaderOk m' r (some n)) :
    World.Inv ⟨{ w.heap with mem := m' }, w.regions ++ [r],
      update w.live (r.addr + headerSize) (some n)⟩ := by
  refine h.append hr (fun s hs => ?_) hnew ?_
  · exact HeaderOk.congr (h.header s hs) (h.readBlock_eq hs hframe (hr.2 s hs))
  · have hblocks : sbrkBlocks (w.regions ++ [r]) = sbrkBlocks w.regions := by
      simp [sbrkBlocks, hmapped]
    rw [hblocks]
    refine h.chain.congr fun a ha => ?_
    obtain ⟨s, hs, _, rfl⟩ := mem_sbrkBlocks.mp ha
    unfold nextBlock
    rw [h.readBlock_eq hs hframe (hr.2 s hs)]

theorem sbrk_first (hmapped : r.mapped = false)
    (hframe : Frame w.heap.mem m' r.addr r.len) (hnew : HeaderOk m' r (some n))
    (hnil : nextBlock m' r.addr = 0) (hempty : sbrkBlocks w.regions = []) :
    World.Inv ⟨⟨m', r.addr⟩, w.regions ++ [r],
      update w.live (r.addr + headerSize) (some n)⟩ := by
  refine h.append hr (fun s hs => ?_) hnew ?_
  · exact HeaderOk.congr (h.header s hs) (h.readBlock_eq hs hframe (hr.2 s hs))
  · have hblocks : sbrkBlocks (w.regions ++ [r]) = [r.addr] := by
      simp only [sbrkBlocks] at hempty ⊢
      simp [hempty, hmapped]
    rw [hblocks]
    exact ⟨rfl, hr.1.1.ne', hnil⟩

theorem sbrk_link {l : List ℕ} {prev : ℕ}
    (hmapped : r.mapped = false) (hframe : Frame w.heap.mem m' r.addr r.len)
    (hnew : HeaderOk m' r (some n)) (hnil : nextBlock m' r.addr = 0)
    (hlast : sbrkBlocks w.regions = l ++ [prev]) :
    World.Inv ⟨{ w.heap with mem := setField m' prev .next r.addr }, w.regions ++ [r],
      update w.live (r.addr + headerSize) (some n)⟩ := by
  obtain ⟨t, ht, htm, rfl⟩ := mem_sbrkBlocks.mp
    (show prev ∈ sbrkBlocks w.regions by rw [hlast]; simp)
  have htop : r.addr < 2 ^ 64 := by
    have := hr.1.2.2.2
    unfold userVaTop at this
    omega
  have hlink := frame_setField m' t.addr .next r.addr
  have htlen := h.headerSize_le ht
  -- the header of `prev` changes in its link only, the other old ones not at all
  have hprev : readBlock (setField m' t.addr .next r.addr) t.addr =
      { readBlock w.heap.mem t.addr with next := r.addr } := by
    rw [readBlock_setNext htop, h.readBlock_eq ht hframe (hr.2 t ht)]
  have hother : ∀ s ∈ w.regions, s ≠ t →
      readBlock (setField m' t.addr .next r.addr) s.addr = readBlock w.heap.mem s.addr := by
    intro s hs hne
    have hapart := h.apart_of_ne ht hs (Ne.symm hne)
    have hslen := h.headerSize_le hs
    rw [readBlock_frame hlink (by unfold Region.Apart at hapart; omega),
      h.readBlock_eq hs hframe (hr.2 s hs)]
  have hself : readBlock (setField m' t.addr .next r.addr) r.addr = readBlock m' r.addr := by
    have hapart := hr.2 t ht
    have := hnew.room
    exact readBlock_frame hlink (by unfold Region.Apart at hapart; omega)
  refine h.append hr (fun s hs => ?_) (HeaderOk.congr hnew hself) ?_
  · by_cases heq : s = t
    · subst heq
      exact HeaderOk.of_fields (h.header s hs) hprev
    · exact HeaderOk.congr (h.header s hs) (hother s hs heq)
  · have hblocks : sbrkBlocks (w.regions ++ [r]) = l ++ t.addr :: [r.addr] := by
      simp only [sbrkBlocks] at hlast ⊢
      simp [hlast, hmapped]
    have hchain := h.chain
    rw [hlast] at hchain
    rw [hblocks]
    refine hchain.splice (fun a ha => ?_) ⟨?_, hr.1.1.ne', ?_⟩
    · obtain ⟨s, hs, _, rfl⟩ := mem_sbrkBlocks.mp
        (show a ∈ sbrkBlocks w.regions by rw [hlast]; exact mem_append_left _ ha)
      have hne : s ≠ t := by
        rintro rfl
        have := hchain.nodup
        rw [nodup_append] at this
        exact this.2.2 _ ha _ (mem_singleton_self _) rfl
      unfold nextBlock
      rw [hother s hs hne]
    · unfold nextBlock
      rw [hprev]
    · unfold nextBlock at hnil ⊢
      rw [hself]
      exact hnil

end

theorem munmap (h : w.Inv) (hr : r ∈ w.regions) (hmapped : r.mapped = true) :
    World.Inv ⟨w.heap, w.regions.filter fun s => s.addr ≠ r.addr,
      update w.live (r.addr + headerSize) none⟩ where
  apart := h.apart.filter _
  placed s hs := h.placed s (mem_of_mem_filter hs)
  header s hs := by
    have hne : s.addr ≠ r.addr := by simpa using (mem_filter.mp hs).2
    dsimp only
    rw [update_of_ne (by omega)]
    exact h.header s (mem_of_mem_filter hs)
  owner p n hp := by
    dsimp only at hp
    have hne : p ≠ r.addr + headerSize := by
      rintro rfl
      rw [update_self] at hp
      cases hp
    rw [update_of_ne hne] at hp
    obtain ⟨s, hs, rfl⟩ := h.owner p n hp
    exact ⟨s, mem_filter.mpr ⟨hs, by simp; omega⟩, rfl⟩
  chain := by
    have hblocks : sbrkBlocks (w.regions.filter fun s => s.addr ≠ r.addr) =
        sbrkBlocks w.regions := by
      unfold sbrkBlocks
      rw [filter_filter]
      congr 1
      refine filter_congr fun s hs => ?_
      -- a region from `fry_sbrk` is not the one unmapped
      cases hs' : s.mapped with
      | true => simp
      | false =>
        have hne : s.addr ≠ r.addr := fun haddr => by
          rw [h.eq_of_addr hs hr haddr, hmapped] at hs'
          cases hs'
        simp [hne]
    rw [hblocks]
    exact h.chain

end World.Inv

end TaterTOS.Libc
