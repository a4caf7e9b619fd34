import TaterTOS.Libc.Stdio

/-!
# Streams refine files

* `Stream.view`: the file a stream stands for; what is buffered for writing counts as written, what
  has been read ahead as unread;
* `fflush_view`, `freadLoop_reads`, `fwriteLoop_view`: the operations of the stream are those of its
  view, as long as reading and writing do not meet in the buffer;
* **`stream_refines`**: over every run of such calls;
* **`seek_after_read`**: where they meet, or where the kernel takes only a part, they are not.
-/

namespace TaterTOS.Libc

open Lib List

/-! ### Files without a buffer -/

@[ext] structure File where
  content : List UInt8
  pos : ℕ
  read : Bool
  write : Bool

def File.fread (f : File) (size nmemb : ℕ) : (ℕ × List UInt8) × File :=
  if size = 0 ∨ nmemb = 0 ∨ !f.read then ((0, []), f)
  else
    let d := (f.content.drop f.pos).take (size * nmemb)
    ((d.length / size, d), { f with pos := f.pos + d.length })

def File.fwrite (f : File) (size nmemb : ℕ) (src : List UInt8) : ℕ × File :=
  if size = 0 ∨ nmemb = 0 ∨ !f.write then (0, f)
  else
    (src.length / size,
      { f with content := writeAt f.content f.pos src, pos := f.pos + src.length })

def File.fseek (f : File) (offset : ℤ) (whence : Whence) : ℤ × File :=
  match seekTarget f.content.length f.pos offset whence with
  | some pos => (0, { f with pos := pos })
  | none => (-1, f)

/-! ### Operations -/

inductive Op where
  | fread (size nmemb : ℕ)
  | fwrite (size nmemb : ℕ) (src : List UInt8)
  | fgetc
  | fputc (c : UInt8)
  | fseek (offset : ℤ) (whence : Whence)
  | ftell
  | rewind
  | fflush

abbrev Value := ℤ × List UInt8

def charRead (r : ℕ × List UInt8) : Value :=
  if r.1 ≠ 1 then (-1, []) else ((r.2.headD 0).toNat, [])

def charWritten (c : UInt8) (n : ℕ) : Value := if n ≠ 1 then (-1, []) else (c.toNat, [])

def Op.run (s : Stream) (amounts : List ℕ) : Op → Option (Value × Stream)
  | .fread size nmemb =>
    let r := s.fread size nmemb amounts
    some ((r.1.1, r.1.2), r.2)
  | .fwrite size nmemb src => (s.fwrite size nmemb src amounts).map fun r => ((r.1, []), r.2)
  | .fgetc =>
    let r := s.fread 1 1 amounts
    some (charRead r.1, r.2)
  | .fputc c => (s.fwrite 1 1 [c] amounts).map fun r => (charWritten c r.1, r.2)
  | .fseek offset whence =>
    let r := s.fseek offset whence (nextAmount amounts)
    some ((r.1, []), r.2)
  | .ftell => some ((s.ftell, []), s)
  | .rewind => some ((0, []), s.rewind (nextAmount amounts))
  | .fflush =>
    let r := s.fflush (nextAmount amounts)
    some ((r.1, []), r.2)

def Op.ref (f : File) : Op → Value × File
  | .fread size nmemb =>
    let r := f.fread size nmemb
    ((r.1.1, r.1.2), r.2)
  | .fwrite size nmemb src =>
    let r := f.fwrite size nmemb src
    ((r.1, []), r.2)
  | .fgetc =>
    let r := f.fread 1 1
    (charRead r.1, r.2)
  | .fputc c =>
    let r := f.fwrite 1 1 [c]
    (charWritten c r.1, r.2)
  | .fseek offset whence =>
    let r := f.fseek offset whence
    ((r.1, []), r.2)
  | .ftell => ((f.pos, []), f)
  | .rewind => ((0, []), { f with pos := 0 })
  | .fflush => ((0, []), f)

/-! ### The view of a stream -/

def Stream.ahead (s : Stream) : ℕ := s.bufLen - s.bufPos

def Stream.pending (s : Stream) : List UInt8 := bytes s.buf 0 s.wbufPos

def Stream.view (s : Stream) : File where
  content := writeAt s.fd.content s.fd.offset s.pending
  pos := s.fd.offset + s.wbufPos - s.ahead
  read := s.read
  write := s.write

structure Stream.Ok (s : Stream) : Prop where
  opened : s.opened = true
  unbuf : s.unbuf = false
  readable : s.fd.readable = s.read
  writable : s.fd.writable = s.write
  room : s.wbufPos ≤ stdioBufsz
  inside : s.bufPos ≤ s.bufLen
  /-- The buffer serves one purpose at a time. -/
  apart : s.wbufPos = 0 ∨ s.ahead = 0
  mayRead : s.read = false → s.ahead = 0
  mayWrite : s.write = false → s.wbufPos = 0
  behind : s.ahead ≤ s.fd.offset
  /-- The read-ahead is what stands in the file before the offset. -/
  copied : bytes s.buf s.bufPos s.ahead = (s.fd.content.drop (s.fd.offset - s.ahead)).take s.ahead

structure Agrees (s : Stream) (f : File) : Prop where
  ok : s.Ok
  room : s.wbufPos < stdioBufsz
  view : s.view = f

def Op.Fits (s : Stream) (amounts : List ℕ) : Op → Prop
  | .fread size nmemb => (s.wbufPos = 0 ∨ s.read = false) ∧ size * nmemb < 2 ^ 64
  | .fgetc => s.wbufPos = 0 ∨ s.read = false
  | .fwrite size nmemb src => src.length = size * nmemb ∧ s.write ∧ s.ahead = 0 ∧
      ∀ k ∈ amounts, stdioBufsz ≤ k
  | .fputc _ => s.write ∧ s.ahead = 0 ∧ ∀ k ∈ amounts, stdioBufsz ≤ k
  | .fseek offset whence =>
    (s.ahead = 0 ∨ whence ≠ .seekCur ∧ (s.view.fseek offset whence).1 = 0) ∧
      ∀ k ∈ amounts, stdioBufsz ≤ k
  | .ftell => True
  | .rewind | .fflush => ∀ k ∈ amounts, stdioBufsz ≤ k

/-! ### Writing in parts -/

def padTo (c : List UInt8) (pos : ℕ) : List UInt8 := c.take pos ++ List.replicate (pos - c.length) 0

variable {d : List UInt8} {fd : Fd} {n fuel remain : ℕ} {s1 : Stream} {amounts : List ℕ}
  {whence : Whence} {f : File}

theorem padTo_length (c : List UInt8) (pos : ℕ) : (padTo c pos).length = pos := by
  simp only [padTo, length_append, length_take, length_replicate]
  omega

theorem padTo_append (c d : List UInt8) : padTo (c ++ d) c.length = c := by
  simp [padTo]

@[simp] theorem writeAt_nil (c : List UInt8) (pos : ℕ) : writeAt c pos [] = c := if_pos rfl

theorem writeAt_eq (c : List UInt8) (pos : ℕ) (hd : d ≠ []) :
    writeAt c pos d = padTo c pos ++ d ++ c.drop (pos + d.length) := if_neg hd

theorem writeAt_writeAt (c : List UInt8) (pos : ℕ) (a b : List UInt8) :
    writeAt (writeAt c pos a) (pos + a.length) b = writeAt c pos (a ++ b) := by
  by_cases ha : a = []
  · simp [ha]
  by_cases hb : b = []
  · simp [hb]
  have hlen : (padTo c pos ++ a).length = pos + a.length := by
    rw [length_append, padTo_length]
  have hpad : padTo (writeAt c pos a) (pos + a.length) = padTo c pos ++ a := by
    rw [writeAt_eq c pos ha, ← hlen]
    exact padTo_append _ _
  have hdrop : (writeAt c pos a).drop (pos + a.length + b.length) =
      c.drop (pos + (a ++ b).length) := by
    rw [writeAt_eq c pos ha, ← drop_drop, ← hlen, drop_left, drop_drop,
      length_append, length_append, padTo_length, add_assoc]
  rw [writeAt_eq _ _ hb, hpad, hdrop, writeAt_eq c pos (by simp [ha]), append_assoc _ a b]

/-! ### Flushing -/

section

variable {s : Stream} {amount : ℕ}

theorem fryWrite_whole (hw : fd.writable = true) (hd : d.length ≤ amount) :
    fd.fryWrite d amount = (some d.length,
      { fd with content := writeAt fd.content fd.offset d, offset := fd.offset + d.length }) := by
  have htake : d.take (max amount 1) = d := take_of_length_le (by omega)
  simp [Fd.fryWrite, hw, htake]

theorem Stream.Ok.write_of_pending (h : s.Ok) (hpos : 0 < s.wbufPos) : s.write = true := by
  by_contra hw
  have := h.mayWrite (by simpa using hw)
  omega

theorem view_eq (hzero : s.wbufPos = 0) :
    s.view = ⟨s.fd.content, s.fd.offset - s.ahead, s.read, s.write⟩ := by
  simp [Stream.view, Stream.pending, hzero]

theorem Agrees.flushed (h : s.Ok) (hzero : s.wbufPos = 0) (hview : s.view = f) : Agrees s f :=
  ⟨h, by rw [hzero]; decide, hview⟩

theorem copied_of_zero {m : Mem} {p k : ℕ} (hk : k = 0) (l : List UInt8) :
    bytes m p k = l.take k := by
  rw [hk]
  rfl

theorem fflush_eq (h : s.Ok) (hk : stdioBufsz ≤ amount) (hpos : 0 < s.wbufPos) :
    s.fflush amount = (0, { s with
      fd := { s.fd with
        content := writeAt s.fd.content s.fd.offset s.pending
        offset := s.fd.offset + s.wbufPos }
      wbufPos := 0 }) := by
  have hw := h.write_of_pending hpos
  have hroom := h.room
  have hwrite := @fryWrite_whole (bytes s.buf 0 s.wbufPos) s.fd amount (h.writable.trans hw)
    (by rw [bytes_length]; omega)
  unfold Stream.fflush
  rw [h.opened, if_neg (by decide), if_pos ⟨hpos, hw⟩, hwrite, bytes_length]
  rfl

theorem fflush_view (h : s.Ok) (hk : stdioBufsz ≤ amount) : ∃ s1, s.fflush amount = (0, s1) ∧
    s1.Ok ∧ s1.view = s.view ∧ s1.wbufPos = 0 ∧ s1.ahead = s.ahead := by
  rcases Nat.eq_zero_or_pos s.wbufPos with hzero | hpos
  · refine ⟨s, ?_, h, rfl, hzero, rfl⟩
    unfold Stream.fflush
    rw [h.opened, if_neg (by decide), if_neg (by omega)]
  · have hahead := h.apart.resolve_left (by omega)
    refine ⟨_, fflush_eq h hk hpos, ?_, ?_, rfl, rfl⟩
    · exact { h with
        room := by
          show 0 ≤ stdioBufsz
          decide
        apart := .inl rfl
        mayWrite := fun _ => rfl
        behind := h.behind.trans (Nat.le_add_right _ _)
        copied := copied_of_zero hahead _ }
    · rfl

end

/-! ### Reading -/

section

variable {s : Stream}

theorem drain_view (h : s.Ok) (hzero : s.wbufPos = 0) (n : ℕ) : let k := min n s.ahead
    (s.drain n).1 = (s.view.content.drop s.view.pos).take k ∧ (s.drain n).1.length = k ∧
      (s.drain n).2.Ok ∧ (s.drain n).2.wbufPos = 0 ∧ (s.drain n).2.ahead = s.ahead - k ∧
      (s.drain n).2.view = { s.view with pos := s.view.pos + k } := by
  intro k
  have hk : k ≤ s.ahead := min_le_right _ _
  have hin := h.inside
  have hbehind := h.behind
  have hdata : bytes s.buf s.bufPos k = (s.fd.content.drop (s.fd.offset - s.ahead)).take k := by
    rw [← bytes_take s.buf s.bufPos hk, h.copied, take_take, min_eq_left hk]
  have hahead : ({ s with bufPos := s.bufPos + k } : Stream).ahead = s.ahead - k := by
    show s.bufLen - (s.bufPos + k) = s.bufLen - s.bufPos - k
    omega
  have hdrain : s.drain n = (bytes s.buf s.bufPos k, { s with bufPos := s.bufPos + k }) := rfl
  rw [hdrain, view_eq hzero]
  refine ⟨hdata, bytes_length _ _ _, ?_, hzero, hahead, ?_⟩
  · exact { h with
      inside := by
        show s.bufPos + k ≤ s.bufLen
        unfold Stream.ahead at hk
        omega
      apart := .inl hzero
      mayRead := fun hr => by
        rw [hahead, h.mayRead hr, Nat.zero_sub]
      behind := by
        rw [hahead]
        exact (Nat.sub_le _ _).trans hbehind
      copied := by
        rw [hahead]
        show bytes s.buf (s.bufPos + k) _ = List.take _ (List.drop (s.fd.offset - _) s.fd.content)
        rw [← bytes_drop, h.copied, drop_take, drop_drop]
        congr 2
        omega }
  · have hpos : s.fd.offset - (s.ahead - k) = s.fd.offset - s.ahead + k := by omega
    rw [view_eq (s := { s with bufPos := s.bufPos + k }) hzero, hahead, ← hpos]

theorem fryRead_spec (hr : fd.readable = true) (hn : 0 < n) (amount : ℕ) :
    ∃ d : List UInt8, fd.fryRead n amount = (some d, { fd with offset := fd.offset + d.length }) ∧
      d = (fd.content.drop fd.offset).take d.length ∧ d.length ≤ n ∧
      (d = [] → fd.content.drop fd.offset = []) := by
  refine ⟨((fd.content.drop fd.offset).take n).take (max amount 1), if_pos hr, ?_, ?_, ?_⟩
  · rw [take_take]
    conv_lhs => rw [take_eq_take_min]
    rw [length_take]
  · simp only [length_take]
    omega
  · intro hnil
    rw [take_take, take_eq_nil_iff] at hnil
    rcases hnil with hzero | hnil
    · omega
    · exact hnil

theorem skip_view (h : s.Ok) (hzero : s.wbufPos = 0) (hahead : s.ahead = 0) (n : ℕ) :
    ({ s with fd := { s.fd with offset := s.fd.offset + n } } : Stream).Ok ∧
      ({ s with fd := { s.fd with offset := s.fd.offset + n } } : Stream).view =
        { s.view with pos := s.view.pos + n } := by
  constructor
  · exact { h with
      behind := h.behind.trans (Nat.le_add_right _ _)
      copied := copied_of_zero hahead _ }
  · rw [view_eq hzero]
    refine (view_eq (s := { s with fd := { s.fd with offset := s.fd.offset + n } }) hzero).trans
      (File.ext rfl ?_ rfl rfl)
    show s.fd.offset + n - s.ahead = s.fd.offset - s.ahead + n
    omega

theorem refill_view (h : s.Ok) (hread : s.read = true) (hzero : s.wbufPos = 0)
    (hahead : s.ahead = 0) (hd : d = (s.fd.content.drop s.fd.offset).take d.length) :
    ∃ s1, s.refill { s.fd with offset := s.fd.offset + d.length } d = s1 ∧ s1.Ok ∧
      s1.view = s.view ∧ s1.ahead = d.length ∧ s1.wbufPos = 0 ∧ s1.read = true := by
  refine ⟨_, rfl, ?_⟩
  set s1 := s.refill { s.fd with offset := s.fd.offset + d.length } d with hs1
  have hahead1 : s1.ahead = d.length := rfl
  refine ⟨?_, ?_, hahead1, hzero, hread⟩
  · exact { h with
      inside := Nat.zero_le _
      apart := .inl hzero
      mayRead := fun hr => absurd (hread.symm.trans hr) (by decide)
      behind := Nat.le_add_left _ _
      copied := by
        show bytes (put s.buf 0 d) 0 d.length =
          List.take d.length (List.drop (s.fd.offset + d.length - d.length) s.fd.content)
        rw [bytes_put, Nat.add_sub_cancel]
        exact hd }
  · rw [view_eq hzero, hahead]
    refine (view_eq (s := s1) hzero).trans ?_
    rw [hahead1, show s1.fd.offset - d.length = s.fd.offset from Nat.add_sub_cancel _ _]
    rfl

structure Reads (s : Stream) (n : ℕ) (r : List UInt8 × Stream) : Prop where
  data : r.1 = (s.view.content.drop s.view.pos).take n
  ok : r.2.Ok
  flushed : r.2.wbufPos = 0
  view : r.2.view = { s.view with pos := s.view.pos + r.1.length }

theorem Reads.nil (h : s.Ok) (hzero : s.wbufPos = 0) : Reads s 0 ([], s) :=
  ⟨rfl, h, hzero, rfl⟩

theorem Reads.stop (h : s.Ok) (hzero : s.wbufPos = 0) (failed : Bool)
    (hend : (s.view.content.drop s.view.pos).take n = []) : Reads s n (s.stop s.fd failed) := by
  cases failed
  · exact ⟨hend.symm, { h with }, hzero, rfl⟩
  · exact ⟨hend.symm, { h with }, hzero, rfl⟩

theorem Reads.append {r : List UInt8 × Stream}
    (hview : s1.view = { s.view with pos := s.view.pos + d.length })
    (hd : d = (s.view.content.drop s.view.pos).take d.length) (hn : d.length ≤ n)
    (h : Reads s1 (n - d.length) r) : Reads s n (d ++ r.1, r.2) where
  data := by
    obtain ⟨m, rfl⟩ := Nat.exists_eq_add_of_le hn
    rw [take_add, ← hd, h.data, hview, drop_drop, Nat.add_sub_cancel_left]
  ok := h.ok
  flushed := h.flushed
  view := by
    rw [h.view, hview, length_append, add_assoc]

/-- **The loop of `fread` yields the next bytes of the file**, however the reads are cut. -/
theorem freadLoop_reads (h : s.Ok) (hread : s.read = true) (hzero : s.wbufPos = 0)
    (hahead : remain = 0 ∨ s.ahead = 0) (hfuel : remain ≤ fuel) :
    Reads s remain (s.freadLoop fuel amounts remain) := by
  induction fuel generalizing s amounts remain with
  | zero =>
    obtain rfl : remain = 0 := by omega
    exact Reads.nil h hzero
  | succ fuel ih =>
    rcases Nat.eq_zero_or_pos remain with rfl | hpos
    · exact Reads.nil h hzero
    have hahead : s.ahead = 0 := hahead.resolve_left (by omega)
    have hview := view_eq hzero
    rw [hahead, Nat.sub_zero] at hview
    unfold Stream.freadLoop
    rw [if_neg (by omega)]
    split_ifs with hlarge
    · -- in place
      obtain ⟨d, hfry, hd, hle, hend⟩ := fryRead_spec (h.readable.trans hread) hpos
        (nextAmount amounts)
      rw [hfry]
      cases d with
      | nil => exact Reads.stop h hzero false (by rw [hview, hend rfl, take_nil])
      | cons x xs =>
        obtain ⟨hok, hskip⟩ := skip_view h hzero hahead (x :: xs).length
        have hlen : (x :: xs).length = xs.length + 1 := rfl
        exact Reads.append hskip (by rw [hview]; exact hd) hle
          (ih hok hread hzero (.inr hahead) (by omega))
    · -- through the buffer
      obtain ⟨d, hfry, hd, hle, hend⟩ := fryRead_spec (h.readable.trans hread)
        (show 0 < stdioBufsz by decide) (nextAmount amounts)
      rw [hfry]
      cases d with
      | nil => exact Reads.stop h hzero false (by rw [hview, hend rfl, take_nil])
      | cons x xs =>
        have hlen : (x :: xs).length = xs.length + 1 := rfl
        obtain ⟨s1, hs1, hok1, hview1, hahead1, hzero1, hread1⟩ :=
          refill_view h hread hzero hahead hd
        obtain ⟨hdata, hcount, hok2, hzero2, hahead2, hview2⟩ := drain_view hok1 hzero1 remain
        dsimp only
        rw [hs1]
        rw [hview1] at hdata hview2
        rw [← hcount] at hdata hview2 hahead2
        refine Reads.append hview2 hdata (by omega) (ih hok2 hread1 hzero2 ?_ (by omega))
        omega

theorem freadLoop_refused (hr : s.fd.readable = false) (amounts : List ℕ) (hfuel : 0 < fuel)
    (hpos : 0 < remain) :
    s.freadLoop fuel amounts remain = s.stop s.fd true := by
  obtain ⟨fuel, rfl⟩ := Nat.exists_eq_succ_of_ne_zero hfuel.ne'
  have hfry (n amount : ℕ) : s.fd.fryRead n amount = (none, s.fd) := by simp [Fd.fryRead, hr]
  unfold Stream.freadLoop
  rw [if_neg (by omega), hfry, hfry]
  split_ifs <;> rfl

theorem fread_view (h : s.Ok) (hroom : s.wbufPos < stdioBufsz) {size nmemb : ℕ}
    (amounts : List ℕ) (htotal : size * nmemb < 2 ^ 64) (hfits : s.wbufPos = 0 ∨ s.read = false) :
    ∃ s1, s.fread size nmemb amounts = ((s.view.fread size nmemb).1, s1) ∧
      Agrees s1 (s.view.fread size nmemb).2 := by
  unfold Stream.fread File.fread
  by_cases hempty : size = 0 ∨ nmemb = 0
  · rw [if_pos hempty, if_pos (by tauto)]
    exact ⟨s, rfl, h, hroom, rfl⟩
  rw [if_neg hempty, if_neg (by simp [h.opened]), u64_of_lt htotal]
  dsimp only
  cases hread : s.read with
  | false =>
    -- there is no read-ahead, and the kernel refuses
    have hpos : 0 < size * nmemb := Nat.pos_of_ne_zero (by simpa [not_or] using hempty)
    have hdrain : s.drain (size * nmemb) = ([], s) := by
      have hahead : s.bufLen - s.bufPos = 0 := h.mayRead hread
      simp [Stream.drain, hahead]
    rw [if_pos (by simp [Stream.view, hread]), hdrain, freadLoop_refused
      (h.readable.trans hread) amounts hpos (by simpa using hpos)]
    exact ⟨_, Prod.ext (by simp [Stream.stop]) rfl, { h with }, hroom, rfl⟩
  | true =>
    have hzero := hfits.resolve_right (by simp [hread])
    rw [if_neg (by simp [not_or.mp hempty, Stream.view, hread])]
    obtain ⟨hdata, hcount, hok, hzero', hahead', hview'⟩ := drain_view h hzero (size * nmemb)
    rw [← hcount] at hdata hview' hahead'
    have hloop : Reads (s.drain (size * nmemb)).2 (size * nmemb - (s.drain (size * nmemb)).1.length)
        ((s.drain (size * nmemb)).2.freadLoop (size * nmemb) amounts
          (size * nmemb - (s.drain (size * nmemb)).1.length)) :=
      freadLoop_reads hok hread hzero' (by omega) (Nat.sub_le _ _)
    have hreads := Reads.append hview' hdata (by omega) hloop
    rw [← hreads.data]
    exact ⟨_, rfl, .flushed hreads.ok hreads.flushed hreads.view⟩

end

/-! ### Writing -/

section

variable {s : Stream}

theorem extend_view (h : s.Ok) (hw : s.write = true) (hahead : s.ahead = 0)
    (hd : s.wbufPos + d.length ≤ stdioBufsz) :
    ∃ s1 : Stream, s.extend d = s1 ∧ s1.Ok ∧ s1.write = true ∧ s1.ahead = 0 ∧
      s1.wbufPos = s.wbufPos + d.length ∧ s1.view = { s.view with
        content := writeAt s.view.content s.view.pos d
        pos := s.view.pos + d.length } := by
  refine ⟨_, rfl, ?_, hw, hahead, rfl, ?_⟩
  · exact { h with
      room := hd
      apart := .inr hahead
      mayWrite := fun hf => absurd (hw.symm.trans hf) (by decide)
      copied := copied_of_zero hahead _ }
  · have hpending : bytes (put s.buf s.wbufPos d) 0 (s.wbufPos + d.length) = s.pending ++ d := by
      rw [bytes_add, (Frame.put s.buf s.wbufPos d).bytes (by omega), zero_add, bytes_put]
      rfl
    ext1
    · show writeAt s.fd.content s.fd.offset
        (bytes (put s.buf s.wbufPos d) 0 (s.wbufPos + d.length)) = _
      rw [hpending, ← writeAt_writeAt]
      simp [Stream.view, Stream.pending, hahead]
    · show s.fd.offset + (s.wbufPos + d.length) - s.ahead =
        s.fd.offset + s.wbufPos - s.ahead + d.length
      omega
    · rfl
    · rfl

theorem nextAmount_le (h : ∀ k ∈ amounts, stdioBufsz ≤ k) : stdioBufsz ≤ nextAmount amounts := by
  cases amounts with
  | nil => exact le_rfl
  | cons k _ => exact h k mem_cons_self

structure Writes (s : Stream) (src : List UInt8) (s' : Stream) : Prop where
  ok : s'.Ok
  room : s'.wbufPos < stdioBufsz
  view : s'.view = { s.view with
    content := writeAt s.view.content s.view.pos src
    pos := s.view.pos + src.length }

theorem Writes.append {s' : Stream} {e : List UInt8}
    (hview : s1.view = { s.view with
      content := writeAt s.view.content s.view.pos d
      pos := s.view.pos + d.length }) (h : Writes s1 e s') : Writes s (d ++ e) s' where
  ok := h.ok
  room := h.room
  view := by
    rw [h.view, hview, length_append, ← writeAt_writeAt, add_assoc]

section

variable (h : s.Ok) (hroom : s.wbufPos < stdioBufsz) (hw : s.write = true) (hahead : s.ahead = 0)
    (hall : ∀ k ∈ amounts, stdioBufsz ≤ k)
include h hroom hw hahead hall

theorem fwriteLoop_writes {src : List UInt8}
    (hfuel : src.length < fuel) :
    ∃ s', s.fwriteLoop fuel amounts src = some (src.length, s') ∧ Writes s src s' := by
  induction fuel generalizing s amounts src with
  | zero => omega
  | succ fuel ih =>
    unfold Stream.fwriteLoop
    split_ifs with hsrc
    · subst hsrc
      exact ⟨s, rfl, h, hroom, by simp⟩
    dsimp only
    set chunk := src.take (stdioBufsz - s.wbufPos) with hchunk
    have hlen : chunk.length = min (stdioBufsz - s.wbufPos) src.length := length_take
    have hpos : 0 < src.length := length_pos_iff.mpr hsrc
    have hsplit : chunk ++ src.drop chunk.length = src := by
      obtain ⟨rest, hrest⟩ := List.take_prefix (stdioBufsz - s.wbufPos) src
      rw [← hrest, drop_left]
    have hdrop : (src.drop chunk.length).length = src.length - chunk.length := length_drop
    obtain ⟨s1, hs1, hok1, hw1, hahead1, hpos1, hview1⟩ := extend_view h hw hahead
      (d := chunk) (by omega)
    rw [hs1]
    obtain ⟨s2, hs2, hok2, hview2, hzero2, hahead2⟩ := fflush_view hok1 (nextAmount_le hall)
    rw [hs2]
    split_ifs with hfull hfailed
    · exact absurd rfl hfailed
    · -- a full buffer goes to the kernel
      have hw2 : s2.write = true := (congrArg File.write hview2).trans hw1
      obtain ⟨s', hs', hwrites⟩ := ih hok2 (by rw [hzero2]; decide) hw2 (hahead2.trans hahead1)
        (fun k hk => hall k (mem_of_mem_tail hk))
        (show (src.drop chunk.length).length < fuel by omega)
      refine ⟨s', ?_, hsplit ▸ Writes.append (hview2.trans hview1) hwrites⟩
      rw [hs', Option.map_some]
      congr 2
      omega
    · obtain ⟨s', hs', hwrites⟩ := ih hok1 (not_le.mp hfull) hw1 hahead1 hall
        (show (src.drop chunk.length).length < fuel by omega)
      refine ⟨s', ?_, hsplit ▸ Writes.append hview1 hwrites⟩
      rw [hs', Option.map_some]
      congr 2
      omega

theorem fwrite_view (size nmemb : ℕ)
    (src : List UInt8) :
    ∃ s', s.fwrite size nmemb src amounts = some ((s.view.fwrite size nmemb src).1, s') ∧
      Agrees s' (s.view.fwrite size nmemb src).2 := by
  unfold Stream.fwrite File.fwrite
  by_cases hempty : size = 0 ∨ nmemb = 0
  · rw [if_pos hempty, if_pos (by tauto)]
    exact ⟨s, rfl, h, hroom, rfl⟩
  obtain ⟨s', hs', hwrites⟩ :=
    fwriteLoop_writes h hroom hw hahead hall (Nat.lt_succ_self src.length)
  have hopen : ¬ (!(s.write || s.opened)) = true := by simp [h.opened]
  have hmay : ¬ (size = 0 ∨ nmemb = 0 ∨ (!s.view.write) = true) := by
    simp [not_or.mp hempty, Stream.view, hw]
  rw [if_neg hempty, if_neg hopen, if_neg hmay, h.unbuf]
  rw [hs']
  exact ⟨s', rfl, hwrites.ok, hwrites.room, hwrites.view⟩

end

end

/-! ### Seeking -/

section

variable {s : Stream} {amount : ℕ}

theorem seekTarget_pos (len pos pos' : ℕ) (offset : ℤ) (h : whence ≠ .seekCur) :
    seekTarget len pos offset whence = seekTarget len pos' offset whence := by
  cases whence with
  | seekSet => rfl
  | seekCur => exact absurd rfl h
  | seekEnd => rfl

theorem discard_ok (h : s.Ok) (hzero : s.wbufPos = 0) (pos : ℕ) : let s1 : Stream := { s with
      fd := { s.fd with offset := pos }
      bufPos := 0
      bufLen := 0
      eof := false }
    s1.Ok ∧ s1.wbufPos = 0 ∧ s1.view = { s.view with pos := pos } := by
  refine ⟨{ h with
    inside := le_rfl
    apart := .inl hzero
    mayRead := fun _ => rfl
    behind := Nat.zero_le _
    copied := rfl }, hzero, ?_⟩
  rw [view_eq hzero]
  exact view_eq hzero

theorem seek_flush (h : s.Ok) (hk : stdioBufsz ≤ amount) :
    ∃ s1, (if s.write then (s.fflush amount).2 else s) = s1 ∧ s1.Ok ∧ s1.wbufPos = 0 ∧
      s1.view = s.view ∧ s1.ahead = s.ahead := by
  refine ⟨_, rfl, ?_⟩
  split_ifs with hw
  · obtain ⟨s1, hs1, hok, hview, hzero, hahead⟩ := fflush_view h hk
    rw [hs1]
    exact ⟨hok, hzero, hview, hahead⟩
  · exact ⟨h, h.mayWrite (by simpa using hw), rfl, rfl⟩

theorem fseek_view (h : s.Ok) {offset : ℤ} (hk : stdioBufsz ≤ amount)
    (hfits : s.ahead = 0 ∨ whence ≠ .seekCur ∧ (s.view.fseek offset whence).1 = 0) :
    ∃ s1, s.fseek offset whence amount = ((s.view.fseek offset whence).1, s1) ∧
      Agrees s1 (s.view.fseek offset whence).2 := by
  obtain ⟨s1, hs1, hok1, hzero1, hview1, hahead1⟩ := seek_flush h hk
  unfold Stream.fseek
  rw [h.opened]
  dsimp only
  rw [hs1]
  rw [← hahead1, ← hview1] at hfits
  rw [← hview1]
  have hview := view_eq hzero1
  have htarget : seekTarget s1.fd.content.length s1.fd.offset offset whence =
      seekTarget s1.view.content.length s1.view.pos offset whence := by
    rw [hview]
    rcases hfits with hahead | ⟨hcur, _⟩
    · rw [hahead, Nat.sub_zero]
    · exact seekTarget_pos _ _ _ _ hcur
  unfold File.fseek at hfits ⊢
  unfold Fd.fryLseek
  rw [htarget]
  cases htgt : seekTarget s1.view.content.length s1.view.pos offset whence with
  | some pos =>
    obtain ⟨hok, hzero, hv⟩ := discard_ok hok1 hzero1 pos
    exact ⟨_, rfl, .flushed hok hzero hv⟩
  | none =>
    rw [htgt] at hfits
    have hahead : s1.ahead = 0 := hfits.resolve_right fun hsome =>
      absurd hsome.2 (show (-1 : ℤ) ≠ 0 by decide)
    obtain ⟨hok, hzero, hv⟩ := discard_ok hok1 hzero1 s1.fd.offset
    refine ⟨_, rfl, .flushed hok hzero (hv.trans ?_)⟩
    rw [hview, hahead, Nat.sub_zero]

theorem ftell_view (h : s.Ok) : s.ftell = s.view.pos := by
  have hbehind := h.behind
  unfold Stream.ftell
  rw [h.opened]
  show (s.fd.offset : ℤ) - (s.ahead : ℕ) + s.wbufPos = (s.fd.offset + s.wbufPos - s.ahead : ℕ)
  omega

theorem rewind_view (h : s.Ok) (hk : stdioBufsz ≤ amount) :
    Agrees (s.rewind amount) { s.view with pos := 0 } := by
  obtain ⟨s1, hs1, h1⟩ := fseek_view h hk (.inr ⟨(by decide : Whence.seekSet ≠ .seekCur),
    (rfl : (s.view.fseek 0 .seekSet).1 = 0)⟩)
  unfold Stream.rewind
  rw [hs1]
  exact ⟨{ h1.ok with }, h1.room, h1.view⟩

end

/-! ### Runs -/

inductive Runs : Stream → File → Prop where
  | fopen (mode : Mode) (content : List UInt8) :
      Runs (fopen mode content) ⟨(fopen mode content).fd.content, 0, mode.parse.1, mode.parse.2⟩
  | step {s s' : Stream} {f : File} (h : Runs s f) {o : Op} {amounts : List ℕ}
      (hfits : o.Fits s amounts) {v : Value} (hrun : o.run s amounts = some (v, s')) :
      Runs s' (o.ref f).2

theorem agrees_fopen (mode : Mode) (content : List UInt8) : Agrees (fopen mode content)
    ⟨(fopen mode content).fd.content, 0, mode.parse.1, mode.parse.2⟩ where
  ok :=
    { opened := rfl
      unbuf := rfl
      readable := rfl
      writable := rfl
      room := Nat.zero_le _
      inside := le_rfl
      apart := .inl rfl
      mayRead := fun _ => rfl
      mayWrite := fun _ => rfl
      behind := le_rfl
      copied := rfl }
  room := by
    show 0 < stdioBufsz
    decide
  view := view_eq rfl

theorem agrees_step {s : Stream} (h : Agrees s f) {o : Op} (hfits : o.Fits s amounts) :
    ∃ s', o.run s amounts = some ((o.ref f).1, s') ∧ Agrees s' (o.ref f).2 := by
  obtain ⟨hok, hroom, rfl⟩ := h
  cases o with
  | fread size nmemb =>
    obtain ⟨s', hs', h⟩ := fread_view hok hroom amounts hfits.2 hfits.1
    exact ⟨s', by simp only [Op.run, Op.ref, hs'], h⟩
  | fgetc =>
    obtain ⟨s', hs', h⟩ :=
      fread_view hok hroom amounts (show 1 * 1 < 2 ^ 64 by norm_num) hfits
    exact ⟨s', by simp only [Op.run, Op.ref, hs'], h⟩
  | fwrite size nmemb src =>
    obtain ⟨s', hs', h⟩ := fwrite_view hok hroom hfits.2.1 hfits.2.2.1 hfits.2.2.2 size nmemb src
    exact ⟨s', by simp only [Op.run, hs', Option.map_some, Op.ref], h⟩
  | fputc c =>
    obtain ⟨s', hs', h⟩ := fwrite_view hok hroom hfits.1 hfits.2.1 hfits.2.2 1 1 [c]
    exact ⟨s', by simp only [Op.run, hs', Option.map_some, Op.ref], h⟩
  | fseek offset whence =>
    obtain ⟨s', hs', h⟩ := fseek_view hok (nextAmount_le hfits.2) hfits.1
    exact ⟨s', by simp only [Op.run, Op.ref, hs'], h⟩
  | ftell => exact ⟨s, by simp only [Op.run, Op.ref, ftell_view hok], hok, hroom, rfl⟩
  | rewind => exact ⟨_, rfl, rewind_view hok (nextAmount_le hfits)⟩
  | fflush =>
    obtain ⟨s', hs', hok', hview, hzero, -⟩ := fflush_view hok (nextAmount_le hfits)
    exact ⟨s', by simp only [Op.run, Op.ref, hs'], .flushed hok' hzero hview⟩

theorem Runs.agrees {s : Stream} (h : Runs s f) : Agrees s f := by
  induction h with
  | fopen mode content => exact agrees_fopen mode content
  | step _ hfits hrun ih =>
    obtain ⟨s'', hs'', hagrees⟩ := agrees_step ih hfits
    obtain ⟨_, rfl⟩ := Prod.mk.inj (Option.some.inj (hrun.symm.trans hs''))
    exact hagrees

/-- **A stream is the file it stands for**: in every run of calls that fit, the next such call
returns what it returns on the file, and after `fflush` and `fclose` the contents are the same. -/
theorem stream_refines (s : Stream) (f : File) (h : Runs s f) :
    (∀ (o : Op) (amounts : List ℕ), o.Fits s amounts → ∃ s',
      o.run s amounts = some ((o.ref f).1, s') ∧ (o = .fflush → s'.fd.content = f.content)) ∧
    ∀ amount, stdioBufsz ≤ amount → (s.fclose amount).content = f.content := by
  have hagrees := h.agrees
  constructor
  · intro o amounts hfits
    obtain ⟨s', hs', hagrees'⟩ := agrees_step hagrees hfits
    refine ⟨s', hs', ?_⟩
    rintro rfl
    obtain ⟨s1, hs1, -, hview, hzero, -⟩ := fflush_view hagrees.ok (nextAmount_le hfits)
    rw [Op.run, hs1] at hs'
    obtain ⟨_, rfl⟩ := Prod.mk.inj (Option.some.inj hs')
    rw [← hagrees.view, ← hview, view_eq hzero]
  · intro amount hk
    obtain ⟨s1, hs1, -, hview, hzero, -⟩ := fflush_view hagrees.ok hk
    rw [Stream.fclose, hs1, ← hagrees.view, ← hview, view_eq hzero]

theorem stream_refines_rewritten : ∃ s f, Runs s f ∧ f.content = [7, 8] ∧
    (∃ s', Op.fgetc.run s [] = some ((7, []), s')) ∧ (s.fclose stdioBufsz).content = [7, 8] := by
  have h1 := @Runs.step _ _ _ (Runs.fopen .wPlus []) (.fwrite 1 2 [7, 8]) []
    ⟨rfl, rfl, rfl, nofun⟩ _ rfl
  have h2 := @Runs.step _ _ _ h1 .rewind [] nofun _ rfl
  obtain ⟨hops, hclose⟩ := stream_refines _ _ h2
  obtain ⟨s', hs', _⟩ := hops .fgetc [] (.inl rfl)
  exact ⟨_, _, h2, rfl, ⟨s', hs'⟩, hclose stdioBufsz le_rfl⟩

/-- **Where reading and writing meet the stream is not the file**: after one byte has been read, a
seek to the current place ends up behind the read-ahead; bytes the kernel did not take at once are
lost; and a write to a stream opened for reading reports success. -/
theorem seek_after_read : (∃ s₁ s₂, Op.fgetc.run (fopen .rPlus [7, 8]) [] = some ((7, []), s₁) ∧
      (Op.fseek 0 .seekCur).run s₁ [] = some ((0, []), s₂) ∧ s₂.ftell = 2) ∧
    (∃ s₁, (Op.fwrite 1 2 [7, 8]).run (fopen .w []) [] = some ((2, []), s₁) ∧
      (s₁.fclose 1).content = [7]) ∧
    ∃ s₁, (Op.fputc 9).run (fopen .r [7, 8]) [] = some ((9, []), s₁) ∧
      (s₁.fclose stdioBufsz).content = [7, 8] := by
  refine ⟨⟨_, _, rfl, rfl, ?_⟩, ⟨_, rfl, ?_⟩, ⟨_, rfl, ?_⟩⟩
  · decide
  · decide
  · decide

end TaterTOS.Libc
