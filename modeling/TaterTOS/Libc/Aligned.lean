import TaterTOS.Libc.Runs

/-!
# `realloc` and aligned blocks

* `Heap.alignedAlloc`: `malloc_aligned_alloc_impl`; an alignment above 16 puts a header of another
  kind before the pointer;
* **`realloc_ordinary`**: `realloc` on the blocks of `malloc`, `calloc` and `realloc`;
* **`realloc_aligned`**: on an aligned block it takes the padding of that header for a block's
  magic.
-/

namespace TaterTOS.Libc

open Lib

def validAlignment (alignment : ℕ) : Bool := 8 ≤ alignment ∧ alignment &&& (alignment - 1) = 0

/-- `malloc_aligned_alloc_impl`; `multiple` is `require_size_multiple`. -/
def Heap.alignedAlloc (fuel : ℕ) (h : Heap) (alignment size : ℕ) (multiple : Bool) (ans : Answers) :
    Option Outcome :=
  let request := if size ≠ 0 then size else 1
  if !validAlignment alignment then some { ret := 0, heap := h }
  else if multiple ∧ size % alignment ≠ 0 then some { ret := 0, heap := h }
  else if alignment ≤ 16 then h.malloc fuel request ans
  else if maxSize - alignment - headerSize < request then some { ret := 0, heap := h }
  else (h.malloc fuel (request + alignment - 1 + headerSize) ans).map fun r =>
    if r.ret = 0 then r
    else
      let addr := u64 (r.ret + headerSize + alignment - 1) &&& not64 (alignment - 1)
      let header := addr - headerSize
      let m := store (store (store r.heap.mem header 8 mallocAlignedMagic) (header + 8) 8 r.ret)
        (header + 16) 8 size
      { r with ret := addr, heap := { r.heap with mem := m } }

/-- The block of a pointer is given back: it is marked as free, or unmapped. -/
def Released (r : Outcome) (p : ℕ) : Prop :=
  (readBlock r.heap.mem (p - headerSize)).flags &&& flagFree ≠ 0 ∨
  ∃ len, .munmap (p - headerSize) len ∈ r.sys

theorem mem_foldl_apply {s : Region} (sys : List Sys) : ∀ {rs : List Region}, s ∈ rs →
    s ∈ sys.foldl Sys.apply rs ∨ ∃ len, .munmap s.addr len ∈ sys := by
  induction sys with
  | nil => exact fun h => .inl h
  | cons c sys ih =>
    intro rs h
    have hrest : s ∈ c.apply rs → s ∈ sys.foldl Sys.apply (c.apply rs) ∨
        ∃ len, .munmap s.addr len ∈ c :: sys := fun h =>
      (ih h).imp_right fun ⟨len, hlen⟩ => ⟨len, List.mem_cons_of_mem c hlen⟩
    cases c with
    | mmap addr len | sbrk addr len => exact hrest (List.mem_append_left _ h)
    | munmap addr len =>
      by_cases heq : s.addr = addr
      · exact .inr ⟨len, heq ▸ List.mem_cons_self⟩
      · exact hrest (List.mem_filter.mpr ⟨h, by simpa using heq⟩)

/-- What is no longer live has been given back. -/
theorem released_of_dead {w : World} {c : Call} {r : Outcome} {p k : ℕ} (h : w.Inv)
    (hinv : (w.step c r).Inv) (hp : w.live p = some k) (hdead : (w.step c r).live p = none) :
    Released r p := by
  obtain ⟨s, hs, rfl⟩ := h.owner p k hp
  unfold Released
  rw [Nat.add_sub_cancel]
  rcases mem_foldl_apply r.sys hs with hs' | hmun
  · have hhead := hinv.header s hs'
    rw [hdead] at hhead
    cases hmapped : s.mapped with
    | true => exact absurd rfl (hhead.held hmapped)
    | false =>
      have hflags := hhead.flags
      rw [hmapped] at hflags
      exact .inl (by rw [show (readBlock r.heap.mem s.addr).flags = flagFree from hflags]; decide)
  · exact .inr hmun

/-- **`realloc` resizes ordinary blocks.** After calls of `malloc`, `calloc`, `realloc` and `free`
(an aligned function with an alignment of at most 16 is `malloc`), it returns a block that is apart
from the other live blocks and holds the old bytes, and gives the old one back; or it changes
nothing, where the kernel has no memory. A pointer with anything else than the magic of a block
before it is refused, whatever the kernel has. -/
theorem realloc_ordinary (w : World) (hw : w.Reachable) (p k n : ℕ) (hp : w.live p = some k)
    (hn : 1 ≤ n)
    (ans : Answers) (hans : ans.Fresh w n) (fuel : ℕ) (hfuel : w.regions.length < fuel) :
    (∀ h alignment size multiple, alignment ≤ 16 → validAlignment alignment →
      (multiple = true → alignment ∣ size) → Heap.alignedAlloc fuel h alignment size multiple ans =
        h.malloc fuel (if size ≠ 0 then size else 1) ans) ∧
    (∃ r, w.heap.realloc fuel p n ans = some r ∧ let w' := w.step (.realloc p n ans) r
      w'.Sound ∧
      (∀ q i, w.live q = some i → q ≠ p → ∀ j < i, r.heap.mem (q + j) = w.heap.mem (q + j)) ∧
      (r.ret ≠ 0 → w'.live r.ret = some n ∧ (r.ret ≠ p → w'.live p = none ∧ Released r p) ∧
        ∀ j < min k n, r.heap.mem (r.ret + j) = w.heap.mem (p + j)) ∧
      (r.ret = 0 → NoMemory ans n ∧ r = { ret := 0, heap := w.heap })) ∧
    ∀ (h : Heap) (q : ℕ), q ≠ 0 → (readBlock h.mem (q - headerSize)).magic ≠ mallocMagic →
      h.realloc fuel q n ans = some { ret := 0, heap := h } := by
  have hn0 : n ≠ 0 := by omega
  have h := hw.inv
  refine ⟨?_, ?_, ?_⟩
  · intro h alignment size multiple hle hvalid hmul
    have hno : ¬(multiple = true ∧ size % alignment ≠ 0) := fun ⟨hm, hne⟩ =>
      hne (Nat.mod_eq_zero_of_dvd (hmul hm))
    simp only [Heap.alignedAlloc, hvalid, hno, hle, ite_not_true, if_false, if_true]
  · obtain ⟨r, hr, hb⟩ := realloc_behaves h (.intro (.inr ⟨k, hp⟩) hans) hfuel
    obtain ⟨hnew, hold⟩ := hb.moved p n ans k rfl hp hn0
    refine ⟨r, hr, hb.inv.sound, hb.kept, fun hret => ⟨?_, fun hne => ?_, hnew hret⟩, hold⟩
    · simp [World.step, World.after, Call.liveAfter, hret]
    · have hdead : (w.step (.realloc p n ans) r).live p = none := by
        simp [World.step, World.after, Call.liveAfter, hret, hne.symm]
      exact ⟨hdead, released_of_dead h hb.inv hp hdead⟩
  · intro h q hq hmagic
    rw [Heap.realloc, if_neg hq, if_neg hn0, if_pos hmagic]

/-- The first of two blocks moves, with its byte, and is free then. -/
theorem realloc_ordinary_moved :
    ∃ r, twoBlocks.heap.realloc 3 0x10000000020 50 (sbrkAt 0x100000000c0) = some r ∧
      r.ret = 0x100000000e0 ∧ r.heap.mem 0x100000000e0 = twoBlocks.heap.mem 0x10000000020 ∧
      twoBlocks.heap.mem 0x10000000020 = 7 ∧ Released r 0x10000000020 := by
  obtain ⟨r, hr, -, -, hnew, -⟩ :=
    (realloc_ordinary twoBlocks twoBlocks_reachable 0x10000000020 1 50
    (by decide +kernel) (by decide) (sbrkAt 0x100000000c0) twoBlocks_fresh 3
    (by decide +kernel)).2.1
  have hret : (twoBlocks.heap.realloc 3 0x10000000020 50 (sbrkAt 0x100000000c0)).map Outcome.ret =
      some 0x100000000e0 := by decide +kernel
  rw [hr] at hret
  have hret : r.ret = 0x100000000e0 := Option.some.inj hret
  rw [hret] at hnew
  obtain ⟨-, hold, hbytes⟩ := hnew (by decide)
  exact ⟨r, hr, hret, hbytes 0 (by decide), by decide +kernel, (hold (by decide)).2⟩

/-- **An aligned block cannot be resized**: the kernel has memory, and `realloc` returns `NULL`. -/
theorem realloc_aligned : ∃ r r', let ans : Answers := ⟨none, some ⟨0x2000, fun _ => 0⟩⟩
    emptyHeap.alignedAlloc 1 32 64 false ⟨none, some ⟨0x1000, fun _ => 0⟩⟩ = some r ∧
    r.ret = 0x1040 ∧ r.heap.realloc 2 r.ret 1 ans = some r' ∧ r'.ret = 0 :=
  ⟨_, _, rfl, by decide +kernel, rfl, by decide +kernel⟩

end TaterTOS.Libc
