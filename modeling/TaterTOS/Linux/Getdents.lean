import TaterTOS.Lib.Memory
import TaterTOS.Lib.Word

/-!
# Reading directories

A model of `LNX_getdents64` on a directory whose `readdir` enumerates a fixed list of entries.
-/

namespace TaterTOS.Linux.Getdents

open Lib List

structure Entry where
  name : List UInt8
  attr : ℕ

structure Ctx where
  buf : Mem
  len : ℕ
  pos : ℕ
  skip : ℕ
  baseSkip : ℕ
  emitted : ℕ
  overflow : Bool

def lxDirent64Reclen (nameLen : ℕ) : ℕ := (u32 (19 + nameLen + 1 + 7) &&& not32 7) % 2 ^ 16

def Entry.nameLen (e : Entry) : ℕ := min e.name.length 255

def leBytes (n v : ℕ) : List UInt8 := (List.range n).map fun k => UInt8.ofNat (v / 256 ^ k)

/-- The bytes that the callback writes: the numbers, the kind, the name and its padding. -/
def record (index : ℕ) (e : Entry) : List UInt8 :=
  leBytes 8 index ++ leBytes 8 (u32 (index + 1)) ++ leBytes 2 (lxDirent64Reclen e.nameLen) ++
    [if e.attr &&& 0x10 ≠ 0 then 4 else 8] ++ e.name.take e.nameLen ++
    List.replicate (lxDirent64Reclen e.nameLen - (19 + e.nameLen)) 0

def lxGetdents64Cb (ctx : Ctx) (e : Entry) : Bool × Ctx :=
  if 0 < ctx.skip then (false, { ctx with skip := ctx.skip - 1 })
  else
    let pos := u32 (ctx.pos + lxDirent64Reclen e.nameLen)
    if ctx.len < pos then (true, { ctx with overflow := true })
    else
      let index := u32 (ctx.baseSkip + ctx.emitted + 1)
      (false, { ctx with
        buf := put ctx.buf ctx.pos (record index e), pos := pos, emitted := u32 (ctx.emitted + 1) })

def readdir : List Entry → Ctx → Ctx
  | [], ctx => ctx
  | e :: es, ctx =>
    let r := lxGetdents64Cb ctx e
    if r.1 then r.2 else readdir es r.2

inductive Errno
  | inval
  | fault
  | noent

structure Call where
  a3 : ℕ
  buf : Mem
  writable : Bool
  found : Bool

def toInt (n : ℕ) : ℤ := if n < 2 ^ 31 then n else n - 2 ^ 32

def lnxGetdents64 (dir : List Entry) (c : Call) (fdTable : ℤ) : Except Errno (List UInt8) × ℤ :=
  let count := u32 c.a3
  if count = 0 then (.error .inval, fdTable)
  else if !c.writable then (.error .fault, fdTable)
  else
    let skip := if 0 < fdTable then fdTable.toNat else 0
    let ctx := readdir dir ⟨c.buf, count, 0, skip, skip, 0, false⟩
    if !c.found then (.error .noent, fdTable)
    else if ctx.pos = 0 ∧ ctx.overflow then (.error .inval, fdTable)
    else (.ok (bytes ctx.buf 0 ctx.pos), toInt (u32 (skip + ctx.emitted)))

def run (dir : List Entry) : List Call → ℤ → List (Except Errno (List UInt8))
  | [], _ => []
  | c :: cs, k => (lnxGetdents64 dir c k).1 :: run dir cs (lnxGetdents64 dir c k).2

/-! ### Records -/

def records : ℕ → List Entry → List (List UInt8)
  | _, [] => []
  | i, e :: es => record (i + 1) e :: records (i + 1) es

theorem drop_records (es : List Entry) (i m : ℕ) :
    (records i es).drop m = records (i + m) (es.drop m) := by
  induction es generalizing i m with
  | nil => simp [records]
  | cons e es ih =>
    cases m with
    | zero => rfl
    | succ m => simp [records, ih, add_assoc, add_comm 1]

theorem reclen_spec : ∀ n < 256, 8 ∣ lxDirent64Reclen n ∧ 20 + n ≤ lxDirent64Reclen n ∧
    lxDirent64Reclen n ≤ 280 := by
  decide +kernel

theorem nameLen_lt (e : Entry) : e.nameLen < 256 := by
  unfold Entry.nameLen
  omega

theorem record_length (i : ℕ) (e : Entry) : (record i e).length = lxDirent64Reclen e.nameLen := by
  have hle := (reclen_spec _ (nameLen_lt e)).2.1
  have hname : min e.nameLen e.name.length = e.nameLen := by
    unfold Entry.nameLen
    omega
  simp only [record, leBytes, length_append, length_map, length_range, length_singleton,
    length_take, length_replicate]
  omega

theorem record_form (i : ℕ) (e : Entry) : 8 ∣ (record i e).length ∧
    ((record i e).drop 16).take 2 = leBytes 2 (record i e).length := by
  rw [record_length]
  refine ⟨(reclen_spec _ (nameLen_lt e)).1, ?_⟩
  simp [record, leBytes, List.range_succ]

/-! ### Calls -/

variable {es : List Entry} {buf : Mem} {len pos base emitted : ℕ} {overflow : Bool}

theorem readdir_skip (k : ℕ) (h : k ≤ es.length) :
    readdir es ⟨buf, len, pos, k, base, emitted, overflow⟩ =
      readdir (es.drop k) ⟨buf, len, pos, 0, base, emitted, overflow⟩ := by
  induction k generalizing es with
  | zero => rfl
  | succ k ih =>
    cases es with
    | nil => simp at h
    | cons e es => simpa [readdir, lxGetdents64Cb] using ih (by simpa using h)

theorem readdir_spec (hes : base + emitted + es.length < 2 ^ 31) (hpos : pos ≤ len)
    (hlen : len + 280 < 2 ^ 32) :
    ∃ m ≤ es.length, ∃ ctx, readdir es ⟨buf, len, pos, 0, base, emitted, overflow⟩ = ctx ∧
      ctx.emitted = emitted + m ∧ (ctx.overflow = true ∨ m = es.length) ∧
      bytes ctx.buf 0 ctx.pos =
        bytes buf 0 pos ++ ((records (base + emitted) es).take m).flatten := by
  induction es generalizing buf pos emitted with
  | nil => exact ⟨0, le_rfl, _, rfl, by simp [readdir]⟩
  | cons e es ih =>
    have hrec := (reclen_spec _ (nameLen_lt e)).2.2
    rw [length_cons] at hes
    have hwrap : u32 (pos + lxDirent64Reclen e.nameLen) = pos + lxDirent64Reclen e.nameLen :=
      u32_of_lt (by omega)
    have hindex : u32 (base + emitted + 1) = base + emitted + 1 := u32_of_lt (by omega)
    have hemit : u32 (emitted + 1) = emitted + 1 := u32_of_lt (by omega)
    by_cases hfull : len < pos + lxDirent64Reclen e.nameLen
    · simp [readdir, lxGetdents64Cb, hwrap, hfull]
    · obtain ⟨m, hm, ctx, hctx, hemitted, hend, hbytes⟩ :=
        @ih (put buf pos (record (base + emitted + 1) e)) (pos + lxDirent64Reclen e.nameLen)
          (emitted + 1) (by omega) (by omega)
      refine ⟨m + 1, by simpa using hm, ctx, ?_, by omega, by simpa using hend, ?_⟩
      · simp [readdir, lxGetdents64Cb, hwrap, hindex, hemit, hfull, hctx]
      · rw [hbytes, bytes_add, (Frame.put _ _ _).bytes (.inl (zero_add _).le),
          ← record_length (base + emitted + 1) e, zero_add, bytes_put]
        simp [records, add_assoc]

theorem toInt_eq {n : ℕ} (h : n < 2 ^ 31) : toInt (u32 n) = n := by
  rw [u32_of_lt (by omega), toInt, if_pos h]

theorem lnxGetdents64_spec {dir : List Entry} {c : Call} {k : ℕ} {out : List UInt8} {j : ℤ}
    (hdir : dir.length < 2 ^ 31) (hk : k ≤ dir.length) (hbuf : u32 c.a3 + 280 < 2 ^ 32)
    (h : lnxGetdents64 dir c k = (.ok out, j)) :
    ∃ m, k + m ≤ dir.length ∧ j = (k + m : ℕ) ∧
      out = ((records k (dir.drop k)).take m).flatten ∧ (out = [] → k + m = dir.length) := by
  have hskip : (if (0 : ℤ) < k then (k : ℤ).toNat else 0) = k := by
    split_ifs <;> omega
  have hlen : (dir.drop k).length = dir.length - k := length_drop
  obtain ⟨m, hm, ctx, hctx, hemitted, hend, hbytes⟩ :=
    @readdir_spec (dir.drop k) c.buf (u32 c.a3) 0 k 0 false (by omega) (Nat.zero_le _) hbuf
  unfold lnxGetdents64 at h
  dsimp only at h
  rw [hskip, readdir_skip k hk, hctx, hemitted] at h
  split_ifs at h with h1 h2 h3 h4
  · cases h
  · cases h
  · cases h
  · cases h
  · cases h
    rw [zero_add]
    refine ⟨m, by omega, toInt_eq (by omega), by simpa using hbytes, fun hout => ?_⟩
    have hpos : ctx.pos = 0 := by simpa using congrArg List.length hout
    rcases hend with hover | hall
    · exact absurd ⟨hpos, hover⟩ h4
    · omega

/-- **Pagination is lossless.** In a directory of fewer than `2^31` entries, with buffers that end
at least 280 bytes below `2^32`: the answers up to an empty one are made of whole records, which
together are those of all entries in order, aligned and with their lengths in `d_reclen`. -/
theorem pagination_lossless (dir : List Entry) (calls : List Call) (outs : List (List UInt8))
    (hdir : dir.length < 2 ^ 31) (hbuf : ∀ c ∈ calls, u32 c.a3 + 280 < 2 ^ 32)
    (hrun : run dir calls 0 = outs.map .ok) (hend : outs.getLast? = some []) :
    ∃ parts : List (List (List UInt8)), outs = parts.map List.flatten ∧
      parts.flatten = records 0 dir ∧
      ∀ r ∈ parts.flatten, 8 ∣ r.length ∧ (r.drop 16).take 2 = leBytes 2 r.length := by
  have hform : ∀ (es : List Entry) (i : ℕ), ∀ r ∈ records i es,
      8 ∣ r.length ∧ (r.drop 16).take 2 = leBytes 2 r.length := by
    intro es
    induction es with
    | nil => simp [records]
    | cons e es ih => simpa [records] using fun i => ⟨record_form (i + 1) e, ih (i + 1)⟩
  have hall : ∀ k : ℕ, k ≤ dir.length → run dir calls k = outs.map .ok →
      ∃ parts : List (List (List UInt8)), outs = parts.map List.flatten ∧
        parts.flatten = records k (dir.drop k) := by
    clear hrun
    induction calls generalizing outs with
    | nil =>
      intro k _ hrun
      obtain rfl : outs = [] := by simpa [run] using hrun
      simp at hend
    | cons c calls ih =>
      intro k hk hrun
      cases outs with
      | nil => simp at hend
      | cons out outs =>
        simp only [run, map_cons, cons.injEq] at hrun
        have hcall : lnxGetdents64 dir c k = (.ok out, (lnxGetdents64 dir c k).2) :=
          Prod.ext hrun.1 rfl
        obtain ⟨m, hm, hj, hout, hlast⟩ := lnxGetdents64_spec hdir hk (hbuf c mem_cons_self) hcall
        rw [hj] at hrun
        have hsplit : (records k (dir.drop k)).take m ++ records (k + m) (dir.drop (k + m)) =
            records k (dir.drop k) := by
          rw [← List.drop_drop, ← drop_records, take_append_drop]
        cases outs with
        | nil =>
          obtain rfl : out = [] := by simpa using hend
          refine ⟨[(records k (dir.drop k)).take m], by simpa using hout, ?_⟩
          rw [← hsplit, hlast rfl]
          simp [records]
        | cons out' outs =>
          obtain ⟨parts, hparts, hflat⟩ := ih _ (fun c hc => hbuf c (mem_cons_of_mem _ hc))
            (by simpa using hend) (k + m) hm hrun.2
          refine ⟨(records k (dir.drop k)).take m :: parts, by rw [map_cons, ← hout, ← hparts], ?_⟩
          rw [flatten_cons, hflat, hsplit]
  obtain ⟨parts, hparts, hflat⟩ := hall 0 (Nat.zero_le _) hrun
  exact ⟨parts, hparts, hflat, fun r hr => hform dir 0 r (hflat ▸ hr)⟩

def fileA : Entry := ⟨[97], 0⟩
def dirB : Entry := ⟨[98, 99], 0x10⟩

theorem pagination_lossless_two :
    ∃ parts : List (List (List UInt8)),
    [record 1 fileA, record 2 dirB, []] = parts.map List.flatten ∧
      parts.flatten = records 0 [fileA, dirB] ∧
      ∀ r ∈ parts.flatten, 8 ∣ r.length ∧ (r.drop 16).take 2 = leBytes 2 r.length :=
  pagination_lossless [fileA, dirB] [⟨24, fun _ => 0, true, true⟩, ⟨47, fun _ => 0, true, true⟩,
    ⟨24, fun _ => 0, true, true⟩] _ (by decide) (by decide) rfl rfl

theorem readdir_wraps (j : ℕ) (h : pos + 24 * j + 16 = 2 ^ 32) :
    (readdir (List.replicate (j + 1) fileA) ⟨buf, 2 ^ 32 - 1, pos, 0, 0, emitted,
      false⟩).pos = 8 := by
  have hrec : lxDirent64Reclen fileA.nameLen = 24 := rfl
  induction j generalizing buf pos emitted with
  | zero =>
    obtain rfl : pos = 2 ^ 32 - 16 := by omega
    simp [readdir, lxGetdents64Cb, hrec, u32]
  | succ j ih =>
    have hwrap : u32 (pos + 24) = pos + 24 := u32_of_lt (by omega)
    have hfull : ¬2 ^ 32 - 1 < pos + 24 := by omega
    rw [replicate_succ, readdir]
    simp only [lxGetdents64Cb, hrec, hwrap, hfull]
    exact ih (by omega)

/-- A directory that fills a buffer up to the end of the words: eight bytes are returned, a third of
a record. -/
theorem record_cut : ∃ out k, lnxGetdents64 (List.replicate (178956970 + 1) fileA)
    ⟨2 ^ 32 - 1, fun _ => 0, true, true⟩ 0 = (.ok out, k) ∧ out.length = 8 := by
  have hpos := @readdir_wraps (fun _ => 0) 0 0 178956970 rfl
  generalize List.replicate (178956970 + 1) fileA = dir at hpos ⊢
  have hcount : u32 (2 ^ 32 - 1) = 2 ^ 32 - 1 := rfl
  simp only [lnxGetdents64, hcount, lt_irrefl, if_false, hpos]
  exact ⟨_, _, rfl, bytes_length _ 0 8⟩

end TaterTOS.Linux.Getdents
