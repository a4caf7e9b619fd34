import TaterTOS.Lib.Chain
import TaterTOS.Lib.Memory
import TaterTOS.Lib.Word

/-!
# `malloc`, `calloc`, `realloc` and `free`

The allocator of `libc.c` over a byte memory.  A block is a header of 32 bytes followed by its
data; small blocks come from `fry_sbrk` and stay in one list for ever, large blocks come from
`fry_mmap`.  What the two calls return is an argument, and a call reports the memory it obtained or
gave back.
-/

namespace TaterTOS.Libc

open Lib

/-! ### The header -/

@[ext] structure MallocBlock where
  size : ℕ
  mapLen : ℕ
  next : ℕ
  magic : ℕ
  flags : ℕ
  deriving DecidableEq

def headerSize : ℕ := 32

inductive Field where
  | size | mapLen | next | magic | flags
  deriving DecidableEq

def Field.offset : Field → ℕ
  | .size => 0
  | .mapLen => 8
  | .next => 16
  | .magic => 24
  | .flags => 28

def Field.width : Field → ℕ
  | .size | .mapLen | .next => 8
  | .magic | .flags => 4

def getField (m : Mem) (b : ℕ) (f : Field) : ℕ := load m (b + f.offset) f.width

def setField (m : Mem) (b : ℕ) (f : Field) (v : ℕ) : Mem := store m (b + f.offset) f.width v

def readBlock (m : Mem) (b : ℕ) : MallocBlock where
  size := getField m b .size
  mapLen := getField m b .mapLen
  next := getField m b .next
  magic := getField m b .magic
  flags := getField m b .flags

def writeBlock (m : Mem) (b : ℕ) (k : MallocBlock) : Mem :=
  setField (setField (setField (setField (setField m b .size k.size) b .mapLen k.mapLen) b .next
    k.next) b .magic k.magic) b .flags k.flags

def mallocMagic : ℕ := 0x4D414C4C

def mallocAlignedMagic : ℕ := 0x5441544552414C4C

def flagFree : ℕ := 1

def flagMmap : ℕ := 2

/-! ### The functions -/

structure Heap where
  mem : Mem
  freeList : ℕ

structure Grant where
  addr : ℕ
  contents : Mem

structure Answers where
  mmap : Option Grant
  sbrk : Option Grant

inductive Sys where
  | mmap (addr len : ℕ)
  | sbrk (addr len : ℕ)
  | munmap (addr len : ℕ)

structure Outcome where
  ret : ℕ
  heap : Heap
  sys : List Sys := []

def maxSize : ℕ := 2 ^ 64 - 1

def nextBlock (m : Mem) (b : ℕ) : ℕ := (readBlock m b).next

def fits (m : Mem) (size b : ℕ) : Bool :=
  (readBlock m b).flags &&& flagFree ≠ 0 ∧ size ≤ (readBlock m b).size

def Heap.grow (h : Heap) (g : Grant) (prev size : ℕ) : Heap :=
  let m := writeBlock (overlay h.mem g.contents g.addr (size + headerSize)) g.addr
    { size := size, mapLen := 0, next := 0, magic := mallocMagic, flags := 0 }
  if prev ≠ 0 then { h with mem := setField m prev .next g.addr } else
    { mem := m, freeList := g.addr }

/-- The second half of `malloc`: first fit, else a new block from `fry_sbrk`. -/
def Heap.mallocList (fuel : ℕ) (h : Heap) (size : ℕ) (ans : Answers) : Option Outcome :=
  match seek (nextBlock h.mem) 0 (fits h.mem size) fuel 0 h.freeList with
  | none => none
  | some (prev, cur) =>
    if cur ≠ 0 then
      some
        { ret := cur + headerSize
          heap := { h with
            mem := setField h.mem cur .flags ((readBlock h.mem cur).flags &&& not32 flagFree) } }
    else
      match ans.sbrk with
      | none => some { ret := 0, heap := h }
      | some g =>
        some
          { ret := g.addr + headerSize
            heap := h.grow g prev size
            sys := [.sbrk g.addr (size + headerSize)] }

def Heap.map (h : Heap) (g : Grant) (size mapLen : ℕ) : Heap :=
  { h with
    mem := writeBlock (overlay h.mem g.contents g.addr mapLen) g.addr
      { size := size, mapLen := mapLen, next := 0, magic := mallocMagic, flags := flagMmap } }

def mapLength (size : ℕ) : ℕ := alignUp (size + headerSize) 4096

def Heap.malloc (fuel : ℕ) (h : Heap) (size : ℕ) (ans : Answers) : Option Outcome :=
  if size = 0 then some { ret := 0, heap := h }
  else if maxSize - 15 < size then some { ret := 0, heap := h }
  else
    let size := alignUp size 16
    if maxSize - headerSize < size then some { ret := 0, heap := h }
    else if 64 * 1024 ≤ size + headerSize then
      match ans.mmap with
      | some g =>
        some
          { ret := g.addr + headerSize
            heap := h.map g size (mapLength size)
            sys := [.mmap g.addr (mapLength size)] }
      | none => h.mallocList fuel size ans
    else h.mallocList fuel size ans

/-- `malloc_aligned_header_from_ptr`: the header before an aligned pointer has its `magic` where a
block has its `size`, and its `base` where a block has its `map_len`. -/
def isAligned (m : Mem) (ptr : ℕ) : Bool :=
  let base := load m (ptr - headerSize + 8) 8
  ptr ≠ 0 ∧ load m (ptr - headerSize) 8 = mallocAlignedMagic ∧ base ≠ 0 ∧
    (readBlock m (sub64 base headerSize)).magic = mallocMagic

def Heap.free : ℕ → Heap → ℕ → Option Outcome
  | 0, _, _ => none
  | fuel + 1, h, ptr =>
    if ptr = 0 then some { ret := 0, heap := h }
    else
      let b := ptr - headerSize
      if isAligned h.mem ptr then
        let m := store (store (store h.mem b 8 0) (b + 8) 8 0) (b + 16) 8 0
        Heap.free fuel { h with mem := m } (load h.mem (b + 8) 8)
      else if (readBlock h.mem b).magic ≠ mallocMagic then some { ret := 0, heap := h }
      else if (readBlock h.mem b).flags &&& flagMmap ≠ 0 then
        some { ret := 0, heap := h, sys := [.munmap b (readBlock h.mem b).mapLen] }
      else
        some
          { ret := 0
            heap :=
              { h with mem := setField h.mem b .flags ((readBlock h.mem b).flags ||| flagFree) } }

def Heap.calloc (fuel : ℕ) (h : Heap) (nmemb size : ℕ) (ans : Answers) : Option Outcome :=
  if nmemb ≠ 0 ∧ maxSize / nmemb < size then some { ret := 0, heap := h }
  else
    let total := u64 (nmemb * size)
    match h.malloc fuel total ans with
    | none => none
    | some r =>
      if r.ret ≠ 0 then
        some { r with heap := { r.heap with mem := fill r.heap.mem r.ret total 0 } }
      else some r

/-- The end of a growing `realloc`: the old bytes go to the new block and the old block is freed. -/
def Heap.move (fuel : ℕ) (r : Outcome) (ptr : ℕ) : Option Outcome :=
  let m := copy r.heap.mem r.ret ptr (readBlock r.heap.mem (ptr - headerSize)).size
  match Heap.free fuel { r.heap with mem := m } ptr with
  | none => none
  | some f => some { ret := r.ret, heap := f.heap, sys := r.sys ++ f.sys }

def Heap.realloc (fuel : ℕ) (h : Heap) (ptr size : ℕ) (ans : Answers) : Option Outcome :=
  if ptr = 0 then h.malloc fuel size ans
  else if size = 0 then Heap.free fuel h ptr
  else
    let b := ptr - headerSize
    if (readBlock h.mem b).magic ≠ mallocMagic then some { ret := 0, heap := h }
    else if size ≤ (readBlock h.mem b).size then
      some { ret := ptr, heap := { h with mem := setField h.mem b .size size } }
    else
      match h.malloc fuel size ans with
      | none => none
      | some r => if r.ret ≠ 0 then Heap.move fuel r ptr else some r

/-! ### Headers in memory -/

section

variable {m m' : Mem} {a b n v : ℕ} {k : MallocBlock}

theorem Field.offset_add_width (f : Field) : f.offset + f.width ≤ headerSize := by
  cases f <;> decide

theorem frame_setField (m : Mem) (b : ℕ) (f : Field) (v : ℕ) :
    Frame m (setField m b f v) b headerSize :=
  (Frame.store m _ _ v).mono (Nat.le_add_right _ _) (by
    have := f.offset_add_width
    omega)

theorem getField_setField (f : Field) (hv : v < 256 ^ f.width) :
    getField (setField m b f v) b f = v :=
  load_store hv

theorem getField_setField_ne {f g : Field} (h : g ≠ f) :
    getField (setField m b f v) b g = getField m b g := by
  refine (Frame.store m _ _ v).load ?_
  cases f <;> cases g <;> simp [Field.offset, Field.width] at h ⊢

theorem readBlock_frame (h : Frame m m' a n) (hb : b + headerSize ≤ a ∨ a + n ≤ b) :
    readBlock m' b = readBlock m b := by
  have hfield (f : Field) : getField m' b f = getField m b f := by
    have := f.offset_add_width
    exact h.load (by omega)
  simp only [readBlock, hfield]

theorem readBlock_setSize (hv : v < 2 ^ 64) :
    readBlock (setField m b .size v) b = { readBlock m b with size := v } := by
  simp [readBlock, getField_setField_ne, getField_setField .size hv]

theorem readBlock_setMapLen (hv : v < 2 ^ 64) :
    readBlock (setField m b .mapLen v) b = { readBlock m b with mapLen := v } := by
  simp [readBlock, getField_setField_ne, getField_setField .mapLen hv]

theorem readBlock_setNext (hv : v < 2 ^ 64) :
    readBlock (setField m b .next v) b = { readBlock m b with next := v } := by
  simp [readBlock, getField_setField_ne, getField_setField .next hv]

theorem readBlock_setMagic (hv : v < 2 ^ 32) :
    readBlock (setField m b .magic v) b = { readBlock m b with magic := v } := by
  simp [readBlock, getField_setField_ne, getField_setField .magic hv]

theorem readBlock_setFlags (hv : v < 2 ^ 32) :
    readBlock (setField m b .flags v) b = { readBlock m b with flags := v } := by
  simp [readBlock, getField_setField_ne, getField_setField .flags hv]

structure MallocBlock.Fits (k : MallocBlock) : Prop where
  size : k.size < 2 ^ 64
  mapLen : k.mapLen < 2 ^ 64
  next : k.next < 2 ^ 64
  magic : k.magic < 2 ^ 32
  flags : k.flags < 2 ^ 32

theorem readBlock_writeBlock (hk : k.Fits) : readBlock (writeBlock m b k) b = k := by
  rw [writeBlock, readBlock_setFlags hk.flags, readBlock_setMagic hk.magic,
    readBlock_setNext hk.next, readBlock_setMapLen hk.mapLen, readBlock_setSize hk.size]

theorem frame_writeBlock (m : Mem) (b : ℕ) (k : MallocBlock) :
    Frame m (writeBlock m b k) b headerSize :=
  ((((frame_setField m b .size _).trans (frame_setField _ b .mapLen _)).trans
    (frame_setField _ b .next _)).trans (frame_setField _ b .magic _)).trans
      (frame_setField _ b .flags _)

end

end TaterTOS.Libc
