import TaterTOS.Lib.Memory
import TaterTOS.Lib.Word

/-!
# Buffered streams

The `FILE` streams of `stdio.c` over a file descriptor.  One array of 4 KiB is the read-ahead and
the write buffer of a stream; the kernel's offset runs ahead of or behind the position of the
stream by what is buffered.  How much a transfer moves is decided by the environment: each call
takes the list of amounts its transfers are cut to.
-/

namespace TaterTOS.Libc

open Lib

/-! ### Files -/

inductive Whence where
  | seekSet | seekCur | seekEnd
  deriving DecidableEq

def writeAt (c : List UInt8) (pos : ℕ) (d : List UInt8) : List UInt8 :=
  if d = [] then c
  else c.take pos ++ List.replicate (pos - c.length) 0 ++ d ++ c.drop (pos + d.length)

def seekTarget (len pos : ℕ) (offset : ℤ) (whence : Whence) : Option ℕ :=
  let base : ℕ := match whence with
    | .seekSet => 0
    | .seekCur => pos
    | .seekEnd => len
  if 0 ≤ base + offset then some (base + offset).toNat else none

structure Fd where
  content : List UInt8
  offset : ℕ
  readable : Bool
  writable : Bool

def Fd.fryRead (fd : Fd) (n amount : ℕ) : Option (List UInt8) × Fd :=
  if fd.readable then
    let d := ((fd.content.drop fd.offset).take n).take (max amount 1)
    (some d, { fd with offset := fd.offset + d.length })
  else (none, fd)

def Fd.fryWrite (fd : Fd) (d : List UInt8) (amount : ℕ) : Option ℕ × Fd :=
  if fd.writable then
    let d := d.take (max amount 1)
    (some d.length,
      { fd with content := writeAt fd.content fd.offset d, offset := fd.offset + d.length })
  else (none, fd)

def Fd.fryLseek (fd : Fd) (offset : ℤ) (whence : Whence) : Option ℕ × Fd :=
  match seekTarget fd.content.length fd.offset offset whence with
  | some pos => (some pos, { fd with offset := pos })
  | none => (none, fd)

/-! ### Streams -/

def stdioBufsz : ℕ := 4096

/-- `struct _FILE`, with the bits of its `flags`. -/
structure Stream where
  fd : Fd
  read : Bool
  write : Bool
  eof : Bool := false
  err : Bool := false
  opened : Bool := true
  unbuf : Bool := false
  buf : Mem := fun _ => 0
  bufPos : ℕ := 0
  bufLen : ℕ := 0
  wbufPos : ℕ := 0

inductive Mode where
  | r | w | rPlus | wPlus

def Mode.parse : Mode → Bool × Bool
  | .r => (true, false)
  | .w => (false, true)
  | .rPlus | .wPlus => (true, true)

def fopen (mode : Mode) (content : List UInt8) : Stream :=
  let content := match mode with
    | .r | .rPlus => content
    | .w | .wPlus => []
  { fd := ⟨content, 0, mode.parse.1, mode.parse.2⟩
    read := mode.parse.1
    write := mode.parse.2 }

def nextAmount (amounts : List ℕ) : ℕ := amounts.headD stdioBufsz

/-- `fflush`: whatever the kernel took, the buffer is empty afterwards. -/
def Stream.fflush (s : Stream) (amount : ℕ) : ℤ × Stream :=
  if !s.opened then (-1, s)
  else if 0 < s.wbufPos ∧ s.write then
    match s.fd.fryWrite (bytes s.buf 0 s.wbufPos) amount with
    | (none, fd) => (-1, { s with fd := fd, err := true })
    | (some _, fd) => (0, { s with fd := fd, wbufPos := 0 })
  else (0, s)

def Stream.fclose (s : Stream) (amount : ℕ) : Fd := (s.fflush amount).2.fd

def Stream.drain (s : Stream) (n : ℕ) : List UInt8 × Stream :=
  let k := min n (s.bufLen - s.bufPos)
  (bytes s.buf s.bufPos k, { s with bufPos := s.bufPos + k })

def Stream.stop (s : Stream) (fd : Fd) (failed : Bool) : List UInt8 × Stream :=
  ([], if failed then { s with fd := fd, err := true } else { s with fd := fd, eof := true })

def Stream.refill (s : Stream) (fd : Fd) (d : List UInt8) : Stream :=
  { s with fd := fd, buf := put s.buf 0 d, bufPos := 0, bufLen := d.length }

/-- The loop of `fread`: large rests are read in place, small ones through the buffer.  Every turn
but the last moves a byte, so `remain` turns are enough. -/
def Stream.freadLoop : ℕ → Stream → List ℕ → ℕ → List UInt8 × Stream
  | 0, s, _, _ => ([], s)
  | fuel + 1, s, amounts, remain =>
    if remain = 0 then ([], s)
    else if stdioBufsz ≤ remain then
      match s.fd.fryRead remain (nextAmount amounts) with
      | (none, fd) => s.stop fd true
      | (some [], fd) => s.stop fd false
      | (some (x :: xs), fd) =>
        let d := x :: xs
        let rest := Stream.freadLoop fuel { s with fd := fd } amounts.tail (remain - d.length)
        (d ++ rest.1, rest.2)
    else
      match s.fd.fryRead stdioBufsz (nextAmount amounts) with
      | (none, fd) => s.stop fd true
      | (some [], fd) => s.stop fd false
      | (some (x :: xs), fd) =>
        let got := (s.refill fd (x :: xs)).drain remain
        let rest := Stream.freadLoop fuel got.2 amounts.tail (remain - got.1.length)
        (got.1 ++ rest.1, rest.2)

def Stream.fread (s : Stream) (size nmemb : ℕ) (amounts : List ℕ) : (ℕ × List UInt8) × Stream :=
  if size = 0 ∨ nmemb = 0 then ((0, []), s)
  else if !(s.read || s.opened) then ((0, []), s)
  else
    let total := u64 (size * nmemb)
    let got := s.drain total
    let rest := got.2.freadLoop total amounts (total - got.1.length)
    (((got.1 ++ rest.1).length / size, got.1 ++ rest.1), rest.2)

def Stream.fwriteDirect : ℕ → Stream → List ℕ → List UInt8 → Option (ℕ × Stream)
  | 0, _, _, _ => none
  | fuel + 1, s, amounts, src =>
    if src = [] then some (0, s)
    else
      match s.fd.fryWrite src (nextAmount amounts) with
      | (none, fd) => some (0, { s with fd := fd, err := true })
      | (some n, fd) =>
        (Stream.fwriteDirect fuel { s with fd := fd } amounts.tail (src.drop n)).map
          fun r => (n + r.1, r.2)

def Stream.extend (s : Stream) (d : List UInt8) : Stream :=
  { s with buf := put s.buf s.wbufPos d, wbufPos := s.wbufPos + d.length }

/-- The loop of `fwrite`: fills the buffer and flushes it whenever it is full.  `none` stands for a
loop that does not end. -/
def Stream.fwriteLoop : ℕ → Stream → List ℕ → List UInt8 → Option (ℕ × Stream)
  | 0, _, _, _ => none
  | fuel + 1, s, amounts, src =>
    if src = [] then some (0, s)
    else
      let chunk := src.take (stdioBufsz - s.wbufPos)
      let s := s.extend chunk
      if stdioBufsz ≤ s.wbufPos then
        let f := s.fflush (nextAmount amounts)
        if f.1 ≠ 0 then some (chunk.length, f.2)
        else
          (Stream.fwriteLoop fuel f.2 amounts.tail (src.drop chunk.length)).map
            fun r => (chunk.length + r.1, r.2)
      else
        (Stream.fwriteLoop fuel s amounts (src.drop chunk.length)).map
          fun r => (chunk.length + r.1, r.2)

def Stream.fwrite (s : Stream) (size nmemb : ℕ) (src : List UInt8) (amounts : List ℕ) :
    Option (ℕ × Stream) :=
  if size = 0 ∨ nmemb = 0 then some (0, s)
  else if !(s.write || s.opened) then some (0, s)
  else
    let r := if s.unbuf then s.fwriteDirect (src.length + 1) amounts src
      else s.fwriteLoop (src.length + 1) amounts src
    r.map fun r => (r.1 / size, r.2)

def Stream.fseek (s : Stream) (offset : ℤ) (whence : Whence) (amount : ℕ) : ℤ × Stream :=
  if !s.opened then (-1, s)
  else
    let s := if s.write then (s.fflush amount).2 else s
    let s := { s with bufPos := 0, bufLen := 0, eof := false }
    match s.fd.fryLseek offset whence with
    | (none, fd) => (-1, { s with fd := fd })
    | (some _, fd) => (0, { s with fd := fd })

def Stream.ftell (s : Stream) : ℤ :=
  if !s.opened then -1
  else s.fd.offset - (s.bufLen - s.bufPos : ℕ) + s.wbufPos

def Stream.rewind (s : Stream) (amount : ℕ) : Stream :=
  { (s.fseek 0 .seekSet amount).2 with eof := false, err := false }

end TaterTOS.Libc
