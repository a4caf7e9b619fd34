import TaterTOS.Lib.Memory
import TaterTOS.Lib.Word

/-!
# Partition tables

A model of `gpt_read_header` and `gpt_read_part` in `kernel/fs/part.c`, on a device given by its
bytes.

* `gptReadPart_eq`: where an entry is looked for;
* **`entries_in_place`**, **`entry_misread`**: when that is where the table stores it.
-/

namespace TaterTOS.Part

open Lib

/-! ### The device -/

/-- `struct block_device`; the sectors below `sectors` can be read, and `totalSectors` is what the
driver reports. -/
structure BlockDevice where
  sectorSize : ℕ
  totalSectors : ℕ
  sectors : ℕ
  content : Mem

def blockDeviceRead (bd : BlockDevice) (lba : ℕ) : Option Mem :=
  if lba < bd.sectors then
    some fun k => if k < bd.sectorSize then bd.content (lba * bd.sectorSize + k) else 0
  else none

/-! ### The header -/

structure GptHeader where
  signature : List UInt8
  headerSize : ℕ
  currentLba : ℕ
  partEntryLba : ℕ
  partEntryCount : ℕ
  partEntrySize : ℕ

def GptHeader.read (buf : Mem) : GptHeader where
  signature := bytes buf 0 8
  headerSize := load buf 12 4
  currentLba := load buf 24 8
  partEntryLba := load buf 72 8
  partEntryCount := load buf 80 4
  partEntrySize := load buf 84 4

structure GptInfo where
  partLba : ℕ
  partCount : ℕ
  partSize : ℕ
  deriving DecidableEq

def sigOk (s : List UInt8) : Bool := s == [69, 70, 73, 32, 80, 65, 82, 84]

def headerSane (h : GptHeader) (sectorSize : ℕ) : Bool :=
  sigOk h.signature && 92 ≤ h.headerSize && h.headerSize ≤ sectorSize && h.partEntryCount != 0 &&
    128 ≤ h.partEntrySize && h.partEntrySize ≤ sectorSize && sectorSize / h.partEntrySize != 0

def sectorSizeOk (bd : BlockDevice) : Bool := 512 ≤ bd.sectorSize && bd.sectorSize ≤ 4096

def gptReadHeaderAt (bd : BlockDevice) (lba : ℕ) : Option GptHeader :=
  if sectorSizeOk bd then (blockDeviceRead bd lba).map .read else none

def gptInfoFromHeader (h : GptHeader) (foundLba : ℕ) : Option GptInfo :=
  let partLba := u64 (h.partEntryLba + sub64 foundLba h.currentLba)
  if 2 ^ 63 ≤ partLba then none else some ⟨partLba, h.partEntryCount, h.partEntrySize⟩

def saneHeaderAt (bd : BlockDevice) (lba : ℕ) : Option GptHeader :=
  (gptReadHeaderAt bd lba).filter (headerSane · bd.sectorSize)

/-- `GPT_SCAN_MAX_LBA`, or the number of sectors if it is known and less. -/
def scanLimit (bd : BlockDevice) : ℕ :=
  if bd.totalSectors ≠ 0 ∧ bd.totalSectors < 8192 then bd.totalSectors else 8192

def backupHeader (bd : BlockDevice) : Option GptHeader :=
  if 2 < bd.totalSectors then saneHeaderAt bd (bd.totalSectors - 1) else none

def gptReadHeader (bd : BlockDevice) : Option GptInfo :=
  if sectorSizeOk bd then
    match saneHeaderAt bd 1 with
    | some h => gptInfoFromHeader h 1
    | none =>
      match backupHeader bd with
      | some h => gptInfoFromHeader h (bd.totalSectors - 1)
      | none => (List.range' 2 (scanLimit bd - 2)).findSome? fun lba =>
          (saneHeaderAt bd lba).bind (gptInfoFromHeader · lba)
  else none

/-! ### Entries -/

structure GptPart where
  typeGuid : List UInt8
  uniqGuid : List UInt8
  firstLba : ℕ
  lastLba : ℕ
  attrs : ℕ
  nameUtf16 : List UInt8
  deriving DecidableEq

def GptPart.read (buf : Mem) (p : ℕ) : GptPart where
  typeGuid := bytes buf p 16
  uniqGuid := bytes buf (p + 16) 16
  firstLba := load buf (p + 32) 8
  lastLba := load buf (p + 40) 8
  attrs := load buf (p + 48) 8
  nameUtf16 := bytes buf (p + 56) 72

def gptReadPart (bd : BlockDevice) (info : GptInfo) (index : ℕ) : Option GptPart :=
  if info.partCount ≤ index ∨ info.partSize < 128 ∨ bd.sectorSize < info.partSize then none
  else
    let entriesPerLba := bd.sectorSize / info.partSize
    if entriesPerLba = 0 ∨ 4096 < bd.sectorSize then none
    else (blockDeviceRead bd (u64 (info.partLba + index / entriesPerLba))).map
      (GptPart.read · (index % entriesPerLba * info.partSize))

variable {bd : BlockDevice} {info : GptInfo} {m m' : Mem} {a p lba : ℕ}

theorem bytes_eq_iff {n : ℕ} : bytes m p n = bytes m' a n ↔ ∀ k < n, m (p + k) = m' (a + k) := by
  simp only [bytes, List.map_inj_left, List.mem_range]

theorem load_eq_iff {n : ℕ} : load m p n = load m' a n ↔ ∀ k < n, m (p + k) = m' (a + k) := by
  constructor
  · intro h k hk
    refine UInt8.toNat_inj.mp ?_
    rw [← load_byte m p hk, ← load_byte m' a hk, h]
  · intro h
    induction n with
    | zero => rfl
    | succ n ih => rw [load, load, ih fun k hk => h k (by omega), h n n.lt_succ_self]

/-- The fields are all of the 128 bytes. -/
theorem GptPart.read_eq_iff :
    GptPart.read m p = GptPart.read m' a ↔ ∀ k < 128, m (p + k) = m' (a + k) := by
  simp only [read, GptPart.mk.injEq, bytes_eq_iff, load_eq_iff]
  constructor
  · rintro ⟨h0, h1, h2, h3, h4, h5⟩ k hk
    have shift : ∀ o, o ≤ k → m (p + o + (k - o)) = m' (a + o + (k - o)) →
        m (p + k) = m' (a + k) := by
      intro o ho h
      rwa [add_assoc, add_assoc, Nat.add_sub_cancel' ho] at h
    by_cases hk0 : k < 16
    · exact h0 k hk0
    by_cases hk1 : k < 32
    · exact shift 16 (by omega) (h1 _ (by omega))
    by_cases hk2 : k < 40
    · exact shift 32 (by omega) (h2 _ (by omega))
    by_cases hk3 : k < 48
    · exact shift 40 (by omega) (h3 _ (by omega))
    by_cases hk4 : k < 56
    · exact shift 48 (by omega) (h4 _ (by omega))
    · exact shift 56 (by omega) (h5 _ (by omega))
  · intro h
    simp only [add_assoc]
    refine ⟨fun k hk => h k (by omega), fun k hk => h _ (by omega), fun k hk => h _ (by omega),
      fun k hk => h _ (by omega), fun k hk => h _ (by omega), fun k hk => h _ (by omega)⟩

theorem gptReadHeader_some (h : gptReadHeader bd = some info) :
    ∃ lba hd, saneHeaderAt bd lba = some hd ∧ gptInfoFromHeader hd lba = some info := by
  unfold gptReadHeader at h
  split_ifs at h
  split at h
  · exact ⟨_, _, ‹_›, h⟩
  · split at h
    · next hd hback =>
      unfold backupHeader at hback
      split_ifs at hback
      exact ⟨_, _, hback, h⟩
    · obtain ⟨lba, -, hlba⟩ := List.exists_of_findSome?_eq_some h
      obtain ⟨hd, hsane, hinfo⟩ := Option.bind_eq_some_iff.mp hlba
      exact ⟨lba, hd, hsane, hinfo⟩

/-- The byte of the device at which the table stores an entry. -/
def storedAt (bd : BlockDevice) (info : GptInfo) (index : ℕ) : ℕ :=
  info.partLba * bd.sectorSize + index * info.partSize

/-- The byte of the device at which an entry is looked for. -/
def soughtAt (bd : BlockDevice) (info : GptInfo) (index : ℕ) : ℕ :=
  (info.partLba + index / (bd.sectorSize / info.partSize)) * bd.sectorSize +
    index % (bd.sectorSize / info.partSize) * info.partSize

/-- The entry is read from where the table stores it, and not at all if the device ends before. -/
def InPlace (bd : BlockDevice) (info : GptInfo) (index : ℕ) : Prop :=
  gptReadPart bd info index =
    if storedAt bd info index + info.partSize ≤ bd.sectors * bd.sectorSize then
      some (GptPart.read bd.content (storedAt bd info index))
    else none

/-- Every sector before the one of the entry adds what is left of it. -/
theorem soughtAt_eq (index : ℕ) : soughtAt bd info index = storedAt bd info index +
    index / (bd.sectorSize / info.partSize) * (bd.sectorSize % info.partSize) := by
  unfold soughtAt storedAt
  generalize he : bd.sectorSize / info.partSize = e
  have hss : bd.sectorSize = info.partSize * e + bd.sectorSize % info.partSize :=
    he ▸ (Nat.div_add_mod _ _).symm
  generalize bd.sectorSize % info.partSize = r at hss ⊢
  calc (info.partLba + index / e) * bd.sectorSize + index % e * info.partSize
      = info.partLba * bd.sectorSize + (e * (index / e) + index % e) * info.partSize +
          index / e * r := by rw [hss]; ring
    _ = info.partLba * bd.sectorSize + index * info.partSize + index / e * r := by
      rw [Nat.div_add_mod]

theorem gptReadPart_eq {index : ℕ} (hindex : index < info.partCount)
    (hcount : info.partCount < 2 ^ 32)
    (hlba : info.partLba < 2 ^ 63) (hps : 128 ≤ info.partSize) (hle : info.partSize ≤ bd.sectorSize)
    (hss : bd.sectorSize ≤ 4096) : gptReadPart bd info index =
      if soughtAt bd info index + info.partSize ≤ bd.sectors * bd.sectorSize then
        some (GptPart.read bd.content (soughtAt bd info index))
      else none := by
  have hepl := Nat.div_pos hle (by omega)
  have hcut : u64 (info.partLba + index / (bd.sectorSize / info.partSize)) = _ := u64_of_lt (by
    have := Nat.div_le_self index (bd.sectorSize / info.partSize)
    omega)
  have hroom : index % (bd.sectorSize / info.partSize) * info.partSize + info.partSize ≤
      bd.sectorSize := by
    have hmod := Nat.mul_le_mul_right info.partSize
      (Nat.mod_lt index hepl)
    rw [Nat.succ_mul] at hmod
    exact hmod.trans (Nat.div_mul_le_self _ _)
  unfold gptReadPart
  dsimp only
  rw [if_neg (by omega), if_neg (by omega), hcut]
  unfold blockDeviceRead soughtAt
  generalize bd.sectorSize / info.partSize = epl at *
  -- the sector is on the device if and only if the bytes of the entry are
  have hiff : info.partLba + index / epl < bd.sectors ↔
      (info.partLba + index / epl) * bd.sectorSize + index % epl * info.partSize + info.partSize ≤
        bd.sectors * bd.sectorSize := by
    constructor
    · intro hlt
      have := Nat.mul_le_mul_right bd.sectorSize (Nat.succ_le_of_lt hlt)
      rw [Nat.succ_mul] at this
      omega
    · intro hfit
      exact Nat.lt_of_mul_lt_mul_right (a := bd.sectorSize) (by omega)
  rw [if_congr hiff rfl rfl]
  split_ifs
  · refine congrArg some (GptPart.read_eq_iff.mpr fun k hk => ?_)
    rw [if_pos (by omega), add_assoc]
  · rfl

/-- What an accepted header says of the table. -/
theorem gptReadHeader_spec (hinfo : gptReadHeader bd = some info) :
    bd.sectorSize ≤ 4096 ∧ 128 ≤ info.partSize ∧ info.partSize ≤ bd.sectorSize ∧
    info.partCount < 2 ^ 32 ∧ ∃ lba hd, saneHeaderAt bd lba = some hd ∧
      info.partCount = hd.partEntryCount ∧ info.partSize = hd.partEntrySize ∧
      info.partLba < 2 ^ 63 ∧ u64 (info.partLba + hd.currentLba) = u64 (hd.partEntryLba + lba) := by
  obtain ⟨lba, hd, hat, hfrom⟩ := gptReadHeader_some hinfo
  obtain ⟨hread, hsane⟩ := Option.filter_eq_some_iff.mp hat
  simp only [headerSane, Bool.and_eq_true, decide_eq_true_eq] at hsane
  obtain ⟨⟨⟨-, hps⟩, hle⟩, -⟩ := hsane
  unfold gptReadHeaderAt at hread
  split_ifs at hread with hsize
  obtain ⟨buf, -, rfl⟩ := Option.map_eq_some_iff.mp hread
  simp only [sectorSizeOk, Bool.and_eq_true, decide_eq_true_eq] at hsize
  unfold gptInfoFromHeader at hfrom
  dsimp only at hfrom
  split_ifs at hfrom with hneg
  obtain rfl := Option.some.inj hfrom
  refine ⟨hsize.2, hps, hle, load_lt buf 80 4, lba, _, hat, rfl, rfl, by simpa using hneg, ?_⟩
  have hcur := load_lt buf 24 8
  simp only [GptHeader.read, u64, sub64]
  omega

/-- **Entries are read from where the table stores them**, at the byte `part_lba * sector_size +
index * entry_size` of the device, exactly if their size divides the size of a sector, or the entry
is in the first sector of the table, or its place is not on the device, or the same bytes stand
where it is looked for. The table lies at the place that the header names, moved with the header. -/
theorem entries_in_place (bd : BlockDevice) (info : GptInfo) (index : ℕ)
    (hinfo : gptReadHeader bd = some info) (hindex : index < info.partCount) :
    (∃ lba hd, saneHeaderAt bd lba = some hd ∧ info.partCount = hd.partEntryCount ∧
      info.partSize = hd.partEntrySize ∧ info.partLba < 2 ^ 63 ∧
      u64 (info.partLba + hd.currentLba) = u64 (hd.partEntryLba + lba)) ∧
    (InPlace bd info index ↔ info.partSize ∣ bd.sectorSize ∨
      index < bd.sectorSize / info.partSize ∨
      bd.sectors * bd.sectorSize < storedAt bd info index + info.partSize ∨
      soughtAt bd info index + info.partSize ≤ bd.sectors * bd.sectorSize ∧
        ∀ k < 128, bd.content (soughtAt bd info index + k) =
          bd.content (storedAt bd info index + k)) := by
  obtain ⟨hss, hps, hle, hcount, lba, hd, hat, hcnt, hsz, hlba, hmoved⟩ := gptReadHeader_spec hinfo
  refine ⟨⟨lba, hd, hat, hcnt, hsz, hlba, hmoved⟩, ?_⟩
  have hsought := @soughtAt_eq bd info index
  unfold InPlace
  rw [gptReadPart_eq hindex hcount hlba hps hle hss]
  by_cases hsame : info.partSize ∣ bd.sectorSize ∨ index < bd.sectorSize / info.partSize
  · have hzero : index / (bd.sectorSize / info.partSize) * (bd.sectorSize % info.partSize) = 0 := by
      rcases hsame with h | h
      · rw [Nat.mod_eq_zero_of_dvd h, mul_zero]
      · rw [Nat.div_eq_of_lt h, zero_mul]
    rw [hzero, add_zero] at hsought
    rw [hsought]
    exact iff_of_true rfl (or_assoc.mp (.inl hsame))
  · rw [← or_assoc, or_iff_right hsame]
    split_ifs with h1 h2 h2
    · rw [Option.some_inj, GptPart.read_eq_iff]
      exact ⟨fun h => .inr ⟨h1, h⟩, fun h => (h.resolve_left (by omega)).2⟩
    · omega
    · refine iff_of_false (by simp) ?_
      rintro (h | h)
      · omega
      · exact h1 h.1
    · exact iff_of_true rfl (.inl (by omega))

def small (size : UInt8 × UInt8) : BlockDevice where
  sectorSize := 512
  totalSectors := 8
  sectors := 8
  content :=
    put (put (put (put (put (put (fun _ => 0) 512 [69, 70, 73, 32, 80, 65, 82, 84]) 524 [92])
    536 [1]) 584 [2]) 592 [2, 0, 0, 0, size.1, size.2]) 1408 [7]

theorem entries_in_place_small :
    gptReadHeader (small (128, 0)) = some ⟨2, 2, 128⟩ ∧ InPlace (small (128, 0)) ⟨2, 2, 128⟩ 1 ∧
    gptReadHeader (small (128, 1)) = some ⟨2, 2, 384⟩ ∧ InPlace (small (128, 1)) ⟨2, 2, 384⟩ 0 := by
  have hinfo : gptReadHeader (small (128, 0)) = some ⟨2, 2, 128⟩ := by decide +kernel
  have hinfo' : gptReadHeader (small (128, 1)) = some ⟨2, 2, 384⟩ := by decide +kernel
  exact ⟨hinfo, (entries_in_place _ _ 1 hinfo (by decide)).2.mpr (.inl ⟨4, rfl⟩),
    hinfo', (entries_in_place _ _ 0 hinfo' (by decide)).2.mpr (.inr (.inl (by decide)))⟩

/-- **Entries of 384 bytes are accepted** although a sector has room for one of them and a part of
the next; the second is taken from the start of the next sector. -/
theorem entry_misread : gptReadHeader (small (128, 1)) = some ⟨2, 2, 384⟩ ∧
    gptReadPart (small (128, 1)) ⟨2, 2, 384⟩ 1 ≠
      some (GptPart.read (small (128, 1)).content (2 * 512 + 1 * 384)) := by
  decide +kernel

end TaterTOS.Part
