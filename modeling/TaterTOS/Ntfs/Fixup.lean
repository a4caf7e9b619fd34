import TaterTOS.Lib.Memory
import TaterTOS.Lib.Word

/-!
# NTFS: protected records

The last word of each sector of a record holds a sequence number, and an array in the record the
words that belong there.

* **`torn_not_used`**: what `ntfs_apply_fixup` restores and refuses, and the records that are used;
* **`unprotected_walked`**: an index block with a short array is used as it is.
-/

namespace TaterTOS.Ntfs

open Lib

/-! ### The code -/

/-- The address of the last word of the sector `i` of the record at `rec`. -/
def lastWord (rec sectorSize i : ℕ) : ℕ := rec + ((i + 1) * sectorSize - 2)

/-- The loop over the sectors from `i` on; the record is left as it is at the first mismatch. -/
def fixupLoop (rec array sectorSize seq : ℕ) : ℕ → ℕ → Mem → Mem × Bool
  | 0, _, m => (m, true)
  | n + 1, i, m =>
    if load m (lastWord rec sectorSize i) 2 ≠ seq then (m, false)
    else fixupLoop rec array sectorSize seq n (i + 1)
      (store m (lastWord rec sectorSize i) 2 (load m (array + 2 * (i + 1)) 2))

/-- The record at `rec` afterwards, and whether the result is 0. -/
def ntfsApplyFixup (m : Mem) (rec recordSize fixupOffset fixupCount sectorSize : ℕ) : Mem × Bool :=
  if recordSize = 0 ∨ sectorSize = 0 ∨ recordSize % sectorSize ≠ 0 ∨
      u32 (recordSize + 2 ^ 32 - 2) < fixupOffset ∨ fixupCount * 2 = 0 ∨
      u32 (recordSize + 2 ^ 32 - fixupOffset) < fixupCount * 2 ∨
      fixupCount < recordSize / sectorSize + 1 then (m, false)
  else fixupLoop rec (rec + fixupOffset) sectorSize (load m (rec + fixupOffset) 2)
    (recordSize / sectorSize) 0 m

/-- The call for a record, whose header has the place and the length of the array. -/
def fixup (m : Mem) (rec recordSize sectorSize : ℕ) : Mem × Bool :=
  ntfsApplyFixup m rec recordSize (load m (rec + 4) 2) (load m (rec + 6) 2) sectorSize

/-- An index block whose entries are walked: where it is, the buffer before and after the fixup, and
the place and the length of the entries. -/
structure Walked where
  pos : ℕ
  before : Mem
  after : Mem
  base : ℕ
  len : ℕ

/-- A block with a short array is not restored. -/
def blockFixup (m : Mem) (pos blockSize bytesPerSector : ℕ) : Mem × Bool :=
  if blockSize / bytesPerSector + 1 ≤ load m (pos + 6) 2 then fixup m pos blockSize bytesPerSector
  else (m, true)

/-- The entries of a block behind its header; `none` if the header is malformed. -/
def indexEntries (m : Mem) (pos blockSize : ℕ) : Option (ℕ × ℕ) :=
  let entriesOffset := load m (pos + 0x18) 4
  let indexLength := load m (pos + 0x1C) 4
  if indexLength < entriesOffset ∨ blockSize - 0x18 < entriesOffset then none
  else some (pos + 0x18 + entriesOffset,
    min (indexLength - entriesOffset) (blockSize - 0x18 - entriesOffset))

/-- The loop of `ntfs_lookup_index_alloc` over `n` blocks of at least 512 bytes; `stop` is whether
the walks so far end the search. -/
def blockLoop (stop : List Walked → Bool) (blockSize bytesPerSector : ℕ) :
    ℕ → ℕ → Mem → List Walked → List Walked
  | 0, _, _, out => out
  | n + 1, pos, m, out =>
    if load m pos 4 ≠ 0x58444E49 then
      blockLoop stop blockSize bytesPerSector n (pos + blockSize) m out
    else
      let r := blockFixup m pos blockSize bytesPerSector
      match r.2, indexEntries r.1 pos blockSize with
      | true, some (base, len) =>
        let out := out ++ [⟨pos, m, r.1, base, len⟩]
        if stop out then out
        else blockLoop stop blockSize bytesPerSector n (pos + blockSize) r.1 out
      | _, _ => blockLoop stop blockSize bytesPerSector n (pos + blockSize) r.1 out

/-- The fields of `struct ntfs_fs` that reading a record looks at. -/
structure Mft where
  recordSize : ℕ
  bytesPerSector : ℕ
  dataSize : ℕ

/-- The 64 slots of `mft_cache`, with an index and a buffer. -/
abbrev Cache := Fin 64 → Option (ℕ × Mem)

def ntfsMftCacheLookup (cache : Cache) (index : ℕ) : Option Mem :=
  (List.finRange 64).findSome? fun i => ((cache i).filter (·.1 = index)).map (·.2)

/-- A record that is not cached; `raw` is what the device has there. -/
def readRecord (fs : Mft) (index : ℕ) (raw : Option Mem) : Option Mem :=
  if 2 ^ 64 - 1 - fs.recordSize < index * fs.recordSize ∨
      fs.dataSize ≠ 0 ∧ fs.dataSize < index * fs.recordSize + fs.recordSize then none
  else raw.bind fun m =>
    if load m 0 4 ≠ 0x454C4946 ∨ (fixup m 0 fs.recordSize fs.bytesPerSector).2 = false then none
    else some (fixup m 0 fs.recordSize fs.bytesPerSector).1

/-- A new record is stored in the slot `victim`, unless there is no memory for it. -/
def ntfsReadMftEntry (fs : Mft) (cache : Cache) (index : ℕ) (raw : Option Mem)
    (victim : Option (Fin 64)) : Option Mem × Cache :=
  if fs.recordSize = 0 ∨ (2 ^ 64 - 1) / fs.recordSize < index then (none, cache)
  else match ntfsMftCacheLookup cache index with
    | some record => (some record, cache)
    | none =>
      match readRecord fs index raw with
      | none => (none, cache)
      | some record =>
        (some record, fun i => if some i = victim then some (index, record) else cache i)

inductive Reads (fs : Mft) : Cache → Prop
  | init : Reads fs fun _ => none
  | step {cache : Cache} (index : ℕ) (raw : Option Mem) (victim : Option (Fin 64)) :
      Reads fs cache →
    Reads fs (ntfsReadMftEntry fs cache index raw victim).2

/-! ### The loop over the sectors -/

variable {m orig : Mem} {rec array ss seq i j n : ℕ}

theorem lastWord_lt (hss : 2 ≤ ss) (h : i < j) : lastWord rec ss i + 2 ≤ lastWord rec ss j := by
  have hone : ss ≤ (i + 1) * ss := Nat.le_mul_of_pos_left ss (Nat.succ_pos i)
  have hmul : (i + 1 + 1) * ss ≤ (j + 1) * ss := Nat.mul_le_mul_right ss (by omega)
  rw [Nat.add_mul (i + 1)] at hmul
  unfold lastWord
  omega

theorem lastWord_apart (hss : 2 ≤ ss) (hne : i ≠ j) :
    lastWord rec ss i + 2 ≤ lastWord rec ss j ∨ lastWord rec ss j + 2 ≤ lastWord rec ss i :=
  (Nat.lt_or_gt_of_ne hne).imp (lastWord_lt hss) (lastWord_lt hss)

theorem fixupLoop_mismatch (hss : 2 ≤ ss) (hi : i ≤ j) (hj : j < i + n)
    (hne : load m (lastWord rec ss j) 2 ≠ seq) : (fixupLoop rec array ss seq n i m).2 = false := by
  induction n generalizing i m with
  | zero => omega
  | succ n ih =>
    unfold fixupLoop
    split_ifs with hhere
    · rfl
    · have hij : i ≠ j := by
        rintro rfl
        exact hhere hne
      refine ih (by omega) (by omega) ?_
      rwa [(Frame.store m _ 2 _).load (lastWord_apart hss hij).symm]

/-- Where all last words are marks, the loop ends and changes nothing but last words. -/
theorem fixupLoop_frame (hss : 2 ≤ ss)
    (hmarked : ∀ j, i ≤ j → j < i + n → load m (lastWord rec ss j) 2 = seq) :
    ∃ m', fixupLoop rec array ss seq n i m = (m', true) ∧
      ∀ x, (∀ j, i ≤ j → j < i + n → x < lastWord rec ss j ∨ lastWord rec ss j + 2 ≤ x) →
        m' x = m x := by
  induction n generalizing i m with
  | zero => exact ⟨m, rfl, fun _ _ => rfl⟩
  | succ n ih =>
    unfold fixupLoop
    rw [if_neg (not_not.mpr (hmarked i le_rfl (by omega)))]
    have hframe := Frame.store m (lastWord rec ss i) 2 (load m (array + 2 * (i + 1)) 2)
    obtain ⟨m', hm', hout⟩ :=
      @ih (store m (lastWord rec ss i) 2 (load m (array + 2 * (i + 1)) 2)) (i + 1)
      fun j h1 h2 => by
        rw [hframe.load (lastWord_apart hss (by omega)), hmarked j (by omega) (by omega)]
    refine ⟨m', hm', fun x hx => ?_⟩
    rw [hout x fun j _ _ => hx j (by omega) (by omega)]
    exact hframe x (hx i le_rfl (by omega))

/-- The record with the last words of its first `n` sectors as in `orig`. -/
def patched (orig m : Mem) (rec ss n : ℕ) : Mem := fun x =>
  if ∃ j < n, lastWord rec ss j ≤ x ∧ x < lastWord rec ss j + 2 then orig x else m x

theorem patched_succ : patched orig m rec ss (i + 1) =
    overlay (patched orig m rec ss i) orig (lastWord rec ss i) 2 := by
  funext x
  simp only [patched, overlay, Nat.exists_lt_succ_right]
  by_cases hi : lastWord rec ss i ≤ x ∧ x < lastWord rec ss i + 2
  · rw [if_pos (.inr hi), if_pos hi]
  · rw [if_neg hi]
    exact if_congr (or_iff_left hi) rfl rfl

theorem load_patched (hss : 2 ≤ ss) (hij : i ≤ j) :
    load (patched orig m rec ss i) (lastWord rec ss j) 2 = load m (lastWord rec ss j) 2 := by
  refine load_congr fun x h1 h2 => if_neg ?_
  rintro ⟨k, hk, h3, h4⟩
  have := @lastWord_lt rec ss k j hss (by omega)
  omega

/-- When the loop comes to a sector, its entry in the array is still the word that belongs there. -/
def EntryKept (orig m : Mem) (rec array ss j : ℕ) : Prop :=
  load (patched orig m rec ss j) (array + 2 * (j + 1)) 2 = load orig (lastWord rec ss j) 2

theorem fixupLoop_restores (hss : 2 ≤ ss) {m' : Mem}
    (hmarked : ∀ j, i ≤ j → j < i + n → load m (lastWord rec ss j) 2 = seq)
    (hrun : fixupLoop rec array ss seq n i (patched orig m rec ss i) = (m', true)) :
    (∀ j, i ≤ j → j < i + n → ∀ x, lastWord rec ss j ≤ x → x < lastWord rec ss j + 2 →
      m' x = orig x) ↔ ∀ j, i ≤ j → j < i + n → EntryKept orig m rec array ss j := by
  induction n generalizing i with
  | zero => exact iff_of_true (fun j _ _ => by omega) fun j _ _ => by omega
  | succ n ih =>
    have hmark := hmarked i le_rfl (by omega)
    rw [fixupLoop, load_patched hss le_rfl, if_neg (not_not.mpr hmark)] at hrun
    set entry := load (patched orig m rec ss i) (array + 2 * (i + 1)) 2 with hentry
    -- the word of this sector is not touched again
    have hword : ∀ x, lastWord rec ss i ≤ x → x < lastWord rec ss i + 2 →
        m' x = store (patched orig m rec ss i) (lastWord rec ss i) 2 entry x := by
      obtain ⟨m₁, hm₁, hout⟩ := @fixupLoop_frame
        (store (patched orig m rec ss i) (lastWord rec ss i) 2 entry) rec array ss seq (i + 1) n hss
        fun j h1 h2 => by
          rw [(Frame.store _ _ 2 _).load (lastWord_apart hss (by omega)),
            load_patched hss (by omega), hmarked j (by omega) (by omega)]
      obtain rfl := congrArg Prod.fst (hm₁.symm.trans hrun)
      intro x h1 h2
      refine hout x fun j hj _ => ?_
      have := @lastWord_lt rec ss i j hss (by omega)
      omega
    by_cases hkept : EntryKept orig m rec array ss i
    · rw [show entry = load orig (lastWord rec ss i) 2 from hkept, store_load] at hrun hword
      rw [← patched_succ] at hrun
      have hrest := ih (fun j h1 h2 => hmarked j (by omega) (by omega)) hrun
      constructor
      · intro h j h1 h2
        rcases h1.eq_or_lt with rfl | h1
        · exact hkept
        · exact hrest.mp (fun k h3 h4 => h k (by omega) (by omega)) j h1 (by omega)
      · intro h j h1 h2 x hx hx'
        rcases h1.eq_or_lt with rfl | h1
        · rw [hword x hx hx']
          exact if_pos ⟨hx, hx'⟩
        · exact hrest.mpr (fun k h3 h4 => h k (by omega) (by omega)) j h1 (by omega) x hx hx'
    · refine iff_of_false (fun h => hkept ?_) fun h => hkept (h i le_rfl (by omega))
      have hstored : load m' (lastWord rec ss i) 2 = entry := by
        rw [load_congr hword, load_store (load_lt _ _ 2)]
      rw [EntryKept, ← hentry, ← hstored]
      exact load_congr (h i le_rfl (by omega))

/-! ### What is used -/

/-- `m` is the record `orig` with an array at `array` and marks at the ends of its `n` sectors. -/
structure Protects (orig m : Mem) (rec array ss n : ℕ) : Prop where
  saved : ∀ i < n, load m (array + 2 * (i + 1)) 2 = load orig (lastWord rec ss i) 2
  marked : ∀ i < n, load m (lastWord rec ss i) 2 = load m array 2
  rest : ∀ x, (∀ i < n, x < lastWord rec ss i ∨ lastWord rec ss i + 2 ≤ x) →
    (x < array ∨ array + 2 * (n + 1) ≤ x) → m x = orig x

/-- The fixup succeeds, and every last word and every byte outside of the array is as in `orig`. -/
def Restores (orig m : Mem) (rec size offset count ss : ℕ) : Prop :=
  ∃ m', ntfsApplyFixup m rec size offset count ss = (m', true) ∧
    (∀ i < size / ss, ∀ x, lastWord rec ss i ≤ x → x < lastWord rec ss i + 2 → m' x = orig x) ∧
    ∀ x, x < rec + offset ∨ rec + offset + 2 * (size / ss + 1) ≤ x → m' x = orig x

theorem applyFixup_restores {size offset count : ℕ} (hss : 2 ≤ ss) (hpos : 0 < size)
    (hsize : size < 2 ^ 32) (hdvd : ss ∣ size) (hcount : size / ss + 1 ≤ count)
    (hroom : offset + 2 * count ≤ size)
    (h : Protects orig m rec (rec + offset) ss (size / ss)) :
    Restores orig m rec size offset count ss ↔
      ∀ j < size / ss, EntryKept orig m rec (rec + offset) ss j := by
  have hmarked : ∀ j, 0 ≤ j → j < 0 + size / ss → load m (lastWord rec ss j) 2 =
      load m (rec + offset) 2 := fun j _ hj => h.marked j (by omega)
  obtain ⟨m', hm', hout⟩ := @fixupLoop_frame m rec (rec + offset) ss (load m (rec + offset) 2) 0
    (size / ss) hss hmarked
  have hstart : patched orig m rec ss 0 = m := funext fun x => if_neg (by simp)
  have hiff := fixupLoop_restores hss hmarked (hstart.symm ▸ hm')
  simp only [Nat.zero_le, zero_add, true_imp_iff] at hiff hout
  have hrun : ntfsApplyFixup m rec size offset count ss = (m', true) := by
    have hone : 0 < count := (Nat.succ_pos _).trans_le hcount
    have h1 : u32 (size + 2 ^ 32 - 2) = size - 2 := by unfold u32; omega
    have h2 : u32 (size + 2 ^ 32 - offset) = size - offset := by unfold u32; omega
    rw [ntfsApplyFixup, if_neg (by rw [h2]; omega)]
    exact hm'
  rw [← hiff]
  constructor
  · rintro ⟨m₁, hm₁, hwords, -⟩
    obtain rfl := congrArg Prod.fst (hrun.symm.trans hm₁)
    exact hwords
  · refine fun hwords => ⟨m', hrun, hwords, fun x hx => ?_⟩
    by_cases hlast : ∃ j < size / ss, lastWord rec ss j ≤ x ∧ x < lastWord rec ss j + 2
    · obtain ⟨j, hj, h1, h2⟩ := hlast
      exact hwords j hj x h1 h2
    · have hapart : ∀ j < size / ss, x < lastWord rec ss j ∨ lastWord rec ss j + 2 ≤ x := by
        intro j hj
        have : ¬(lastWord rec ss j ≤ x ∧ x < lastWord rec ss j + 2) := fun hx => hlast ⟨j, hj, hx⟩
        omega
      rw [hout x hapart]
      exact h.rest x hapart hx

theorem applyFixup_mismatch {size : ℕ} (offset count : ℕ) (hss : 2 ≤ ss) (hi : i < size / ss)
    (hne : load m (lastWord rec ss i) 2 ≠ load m (rec + offset) 2) :
    (ntfsApplyFixup m rec size offset count ss).2 = false := by
  unfold ntfsApplyFixup
  split_ifs
  · rfl
  · exact fixupLoop_mismatch hss (Nat.zero_le _) (by omega) hne

def Walked.Restored (blockSize bps : ℕ) (w : Walked) : Prop :=
  fixup w.before w.pos blockSize bps = (w.after, true)

/-- The fixup of a block with a short array fails, but the block is walked. -/
def Walked.Ok (blockSize bps : ℕ) (w : Walked) : Prop :=
  w.Restored blockSize bps ↔ blockSize / bps + 1 ≤ load w.before (w.pos + 6) 2

theorem fixup_count {m' : Mem} (h : fixup m rec n ss = (m', true)) :
    n / ss + 1 ≤ load m (rec + 6) 2 := by
  unfold fixup ntfsApplyFixup at h
  split_ifs at h with hbad
  · cases h
  · omega

theorem blockLoop_ok (stop : List Walked → Bool) (blockSize bps : ℕ) {pos : ℕ} {out : List Walked}
    (hout : ∀ w ∈ out, w.Ok blockSize bps) :
    ∀ w ∈ blockLoop stop blockSize bps n pos m out, w.Ok blockSize bps := by
  induction n generalizing pos m out with
  | zero => exact hout
  | succ n ih =>
    unfold blockLoop
    split_ifs with hmagic
    · exact ih hout
    · dsimp only
      split
      · next base len htrue _ =>
        have hnew : ∀ w ∈ out ++ [⟨pos, m, (blockFixup m pos blockSize bps).1, base, len⟩],
            w.Ok blockSize bps := by
          simp only [List.mem_append, List.mem_singleton, or_imp, forall_and, forall_eq]
          refine ⟨hout, fixup_count, fun hcount => ?_⟩
          rw [blockFixup, if_pos hcount] at htrue
          rw [Walked.Restored, blockFixup, if_pos hcount]
          exact Prod.ext rfl htrue
        split_ifs
        · exact hnew
        · exact ih hnew
      · exact ih hout

def Mft.Fixed (fs : Mft) (record : Mem) : Prop :=
  ∃ m, fixup m 0 fs.recordSize fs.bytesPerSector = (record, true)

theorem readRecord_fixed {fs : Mft} {index : ℕ} {raw : Option Mem} {record : Mem}
    (h : readRecord fs index raw = some record) : fs.Fixed record := by
  unfold readRecord at h
  split_ifs at h
  obtain ⟨m, -, hm⟩ := Option.bind_eq_some_iff.mp h
  split_ifs at hm with hbad
  simp only [not_or, Bool.not_eq_false] at hbad
  exact ⟨m, Prod.ext (Option.some.inj hm) hbad.2⟩

theorem ntfsReadMftEntry_fixed {fs : Mft} {cache : Cache} {index : ℕ} {raw : Option Mem}
    {victim : Option (Fin 64)} (h : ∀ i x, cache i = some x → fs.Fixed x.2) :
    (∀ record, (ntfsReadMftEntry fs cache index raw victim).1 = some record → fs.Fixed record) ∧
      ∀ i x, (ntfsReadMftEntry fs cache index raw victim).2 i = some x → fs.Fixed x.2 := by
  unfold ntfsReadMftEntry
  split_ifs
  · exact ⟨nofun, h⟩
  · cases hlookup : ntfsMftCacheLookup cache index with
    | some record =>
      refine ⟨fun r hr => ?_, h⟩
      obtain rfl := Option.some.inj hr
      obtain ⟨i, -, hi⟩ := List.exists_of_findSome?_eq_some hlookup
      obtain ⟨x, hx, rfl⟩ := Option.map_eq_some_iff.mp hi
      exact h i x (Option.filter_eq_some_iff.mp hx).1
    | none =>
      cases hread : readRecord fs index raw with
      | none => exact ⟨nofun, h⟩
      | some record =>
        have hfixed := readRecord_fixed hread
        refine ⟨fun r hr => Option.some.inj hr ▸ hfixed, fun i x hx => ?_⟩
        dsimp only at hx
        split_ifs at hx
        · exact Option.some.inj hx ▸ hfixed
        · exact h i x hx

theorem Reads.fixed {fs : Mft} {cache : Cache} (h : Reads fs cache) :
    ∀ i x, cache i = some x → fs.Fixed x.2 := by
  induction h with
  | init => exact nofun
  | step index raw victim _ ih => exact (ntfsReadMftEntry_fixed ih).2

/-- **Torn records are not used.** A protected record is restored exactly if the words put back keep
the entries of the array that follow; a record with a last word that is not the sequence number is
refused; an index block is walked after it was restored exactly if its array is long enough, and
every record that is read was restored. -/
theorem torn_not_used (hss : 2 ≤ ss) :
    (∀ m orig rec size offset count, 0 < size → size < 2 ^ 32 → ss ∣ size → size / ss + 1 ≤ count →
      offset + 2 * count ≤ size → Protects orig m rec (rec + offset) ss (size / ss) →
      (Restores orig m rec size offset count ss ↔
        ∀ j < size / ss, EntryKept orig m rec (rec + offset) ss j)) ∧
    (∀ m rec size offset count, ∀ i < size / ss,
      load m (lastWord rec ss i) 2 ≠ load m (rec + offset) 2 →
      (ntfsApplyFixup m rec size offset count ss).2 = false) ∧
    (∀ stop blockSize n m, ∀ w ∈ blockLoop stop blockSize ss n 0 m [],
      (w.Restored blockSize ss ↔ blockSize / ss + 1 ≤ load w.before (w.pos + 6) 2)) ∧
    ∀ fs cache index raw victim record, Reads fs cache →
      (ntfsReadMftEntry fs cache index raw victim).1 = some record → fs.Fixed record :=
  ⟨fun _ _ _ _ _ _ => applyFixup_restores hss, fun _ _ _ _ _ _ => applyFixup_mismatch _ _ hss,
    fun stop blockSize _ _ => blockLoop_ok stop blockSize ss nofun,
    fun _ _ _ _ _ record h => (ntfsReadMftEntry_fixed h.fixed).1 record⟩

/-- A block of two sectors of 512 bytes with the sequence number 7 and an array at 40. -/
def sealed (last : UInt8) : Mem := fun x =>
  if x = 40 ∨ x = 510 then 7 else if x = 1022 then last else 0

def fileRecord : Mem := put (sealed 7) 0 [0x46, 0x49, 0x4C, 0x45, 40, 0, 3, 0]

theorem torn_not_used_sealed :
    Restores (fun _ => 0) (sealed 7) 0 1024 40 3 512 ∧
    (ntfsApplyFixup (sealed 8) 0 1024 40 3 512).2 = false ∧
      Mft.Fixed ⟨1024, 512, 0⟩ (fixup fileRecord 0 1024 512).1 := by
  obtain ⟨hrestores, hmismatch, -, hmft⟩ := @torn_not_used 512 (by norm_num)
  refine ⟨?_, ?_, ?_⟩
  · refine (hrestores (sealed 7) (fun _ => 0) 0 1024 40 3 (by norm_num) (by norm_num) (by norm_num)
      (by norm_num) (by norm_num) ⟨by decide, by decide, fun x hlast harray => ?_⟩).mpr
      (by unfold EntryKept; decide)
    have h0 : x < 510 ∨ 512 ≤ x := hlast 0 (by norm_num)
    have h1 : x < 1022 ∨ 1024 ≤ x := hlast 1 (by norm_num)
    have h2 : x < 40 ∨ 46 ≤ x := harray
    unfold sealed
    rw [if_neg (by omega), if_neg (by omega)]
  · exact hmismatch (sealed 8) 0 1024 40 3 1 (by norm_num) (by decide)
  · have hlookup : ntfsMftCacheLookup (fun _ => none) 0 = none := by decide
    have hbad : ¬(load fileRecord 0 4 ≠ 0x454C4946 ∨ (fixup fileRecord 0 1024 512).2 = false) := by
      decide
    refine hmft _ (fun _ => none) 0 (some fileRecord) none _ .init ?_
    simp [ntfsReadMftEntry, hlookup, readRecord, if_neg hbad]

def shortArray : Mem := put (sealed 8) 0 [0x49, 0x4E, 0x44, 0x58, 40, 0, 0, 0]

/-- **A block with a short array is walked as it is**, though it is torn. -/
theorem unprotected_walked :
    (blockLoop (fun _ => false) 1024 512 1 0 shortArray []).map Walked.pos = [0] ∧
      (fixup shortArray 0 1024 512).2 = false ∧
      load shortArray (lastWord 0 512 1) 2 ≠ load shortArray 40 2 := by
  refine ⟨by decide, by decide, by decide⟩

end TaterTOS.Ntfs
