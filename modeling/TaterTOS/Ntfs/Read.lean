import TaterTOS.Ntfs.Runs

/-!
# NTFS: reading an attribute

The bytes of a non-resident attribute are those of its runs, one after the other.

* `window`: the part of a stream that is read, from the bytes before it on;
* **`nonresident_read`**, **`empty_runs_refused`**: what `ntfs_read_nonresident` returns.
-/

namespace TaterTOS.Ntfs

open Lib List

/-! ### The code -/

/-- A mounted volume on a device with the bytes `data`; `fails` are the byte offsets at which
`ntfs_dev_read_bytes` fails. -/
structure Volume where
  bytesPerSector : ℕ
  sectorsPerCluster : ℕ
  clusterSize : ℕ
  data : Mem
  fails : ℕ → Bool
  size_eq : clusterSize = sectorsPerCluster * bytesPerSector
  size_pos : 0 < clusterSize
  size_lt : clusterSize < 2 ^ 32

def ntfsReadCluster (v : Volume) (lcn : ℕ) : Option (List UInt8) :=
  if (2 ^ 64 - 1) / v.sectorsPerCluster < lcn ∨
      (2 ^ 64 - 1) / v.bytesPerSector < lcn * v.sectorsPerCluster ∨
      v.fails (lcn * v.sectorsPerCluster * v.bytesPerSector) = true then none
  else some (bytes v.data (lcn * v.sectorsPerCluster * v.bytesPerSector)
    (v.sectorsPerCluster * v.bytesPerSector))

def readRunCluster (v : Volume) (lcn c : ℕ) : Option (List UInt8) :=
  if 2 ^ 64 - 1 - c < lcn then none else ntfsReadCluster v (lcn + c)

/-- The loop over the clusters of a run that starts at the byte `base` of the attribute: what is
read, and whether every cluster could be. -/
def clusterLoop (v : Volume) (lcn base offset len : ℕ) : ℕ → ℕ → List UInt8 → List UInt8 × Bool
  | 0, _, out => (out, true)
  | n + 1, c, out =>
    if len ≤ out.length then (out, true)
    else if base + c * v.clusterSize + v.clusterSize ≤ offset then
      clusterLoop v lcn base offset len n (c + 1) out
    else match readRunCluster v lcn c with
      | none => (out, false)
      | some buf =>
        let start := offset - (base + c * v.clusterSize)
        clusterLoop v lcn base offset len n (c + 1)
          (out ++ (buf.drop start).take (min (v.clusterSize - start) (len - out.length)))

/-- `(int)total_read`, and the bytes. -/
def answer (out : List UInt8) : ℤ × List UInt8 := ((out.length : ℤ).bmod (2 ^ 32), out)

def runLoop (v : Volume) (offset len : ℕ) : List DataRun → ℕ → List UInt8 → ℤ × List UInt8
  | [], _, out => answer out
  | r :: rs, base, out =>
    let runBytes := r.length * v.clusterSize
    if len ≤ out.length then answer out
    else if (2 ^ 64 - 1) / v.clusterSize < r.length ∨ 2 ^ 64 - 1 - runBytes < base then (-1, out)
    else if base + runBytes ≤ offset then runLoop v offset len rs (base + runBytes) out
    else if r.lcn = lcnSparse ∧ 0 < r.length then
      runLoop v offset len rs (base + runBytes)
        (out ++ replicate (min (runBytes - (offset - base)) (len - out.length)) 0)
    else match clusterLoop v r.lcn base offset len r.length 0 out with
      | (out, true) => runLoop v offset len rs (base + runBytes) out
      | (out, false) => if 0 < out.length then answer out else (-1, out)

/-- The fields of `struct ntfs_attr_nonresident` that are read. -/
def attrLength (attr : Mem) : ℕ := load attr 4 4

def dataRunOffset (attr : Mem) : ℕ := load attr 0x20 2

def realSize (attr : Mem) : ℕ := load attr 0x30 8

def attrRuns (attr : Mem) : Option (List DataRun) :=
  ntfsDecodeDataRuns (fun i => attr (dataRunOffset attr + i))
  (attrLength attr - dataRunOffset attr) 512

/-- The attribute at address 0 of `attr`; the allocations of the function succeed. -/
def ntfsReadNonresident (v : Volume) (attr : Mem) (offset len : ℕ) : ℤ × List UInt8 :=
  if attrLength attr < 64 ∨ attrLength attr ≤ dataRunOffset attr then (-1, [])
  else if realSize attr ≤ offset then (0, [])
  else
    let len := if realSize attr < u64 (offset + len) then realSize attr - offset else len
    if len = 0 then (0, [])
    else match attrRuns attr with
      | none => (-1, [])
      | some [] => (-1, [])
      | some runs => runLoop v offset len runs 0 []

/-! ### The stream -/

def runContent (v : Volume) (r : DataRun) : List UInt8 :=
  if r.lcn = lcnSparse then replicate (r.length * v.clusterSize) 0
  else bytes v.data (r.lcn * v.clusterSize) (r.length * v.clusterSize)

def stream (v : Volume) (runs : List DataRun) : List UInt8 := runs.flatMap (runContent v)

/-- What is read of the part `l` of a stream that starts at `base`, after `out`. -/
def window (offset len base : ℕ) (out l : List UInt8) : List UInt8 :=
  out ++ (l.drop (offset - base)).take (len - out.length)

section

variable {v : Volume} {offset len base lcn : ℕ} {out l l' : List UInt8}

theorem window_append : window offset len base out (l ++ l') =
    window offset len (base + l.length) (window offset len base out l) l' := by
  have hdrop : offset - (base + l.length) = offset - base - l.length := by omega
  have htake : len - (out.length + min (len - out.length) (l.length - (offset - base))) =
      len - out.length - (l.length - (offset - base)) := by omega
  simp only [window, drop_append, take_append, length_append, length_take, length_drop,
    append_assoc, hdrop, htake]

theorem window_of_full (h : len ≤ out.length) : window offset len base out l = out := by
  simp [window, Nat.sub_eq_zero_of_le h]

theorem window_of_before (h : base + l.length ≤ offset) : window offset len base out l = out := by
  simp [window, drop_of_length_le (show l.length ≤ offset - base by omega)]

theorem window_eq (n : ℕ) (hn : l.length = n) : window offset len base out l =
    out ++ (l.drop (offset - base)).take (min (n - (offset - base)) (len - out.length)) := by
  unfold window
  rw [append_right_inj, take_eq_take_iff, length_drop]
  omega

theorem ntfsReadCluster_eq (hok : ∀ x, v.fails x = false) (h : lcn * v.clusterSize < 2 ^ 64) :
    ntfsReadCluster v lcn = some (bytes v.data (lcn * v.clusterSize) v.clusterSize) := by
  have hpos := v.size_pos
  rw [v.size_eq] at h hpos ⊢
  have hspc := Nat.pos_of_mul_pos_right hpos
  have hbps := Nat.pos_of_mul_pos_left hpos
  rw [← mul_assoc] at h ⊢
  have hle : lcn * v.sectorsPerCluster ≤ lcn * v.sectorsPerCluster * v.bytesPerSector :=
    Nat.le_mul_of_pos_right _ hbps
  refine if_neg ?_
  simp only [hok, Bool.false_eq_true, or_false, not_or, not_lt, Nat.le_div_iff_mul_le hspc,
    Nat.le_div_iff_mul_le hbps]
  omega

theorem clusterLoop_eq (hok : ∀ x, v.fails x = false) (n c : ℕ)
    (h : (lcn + c + n) * v.clusterSize ≤ 2 ^ 64) :
    clusterLoop v lcn base offset len n c out = (window offset len (base + c * v.clusterSize) out
      (bytes v.data ((lcn + c) * v.clusterSize) (n * v.clusterSize)), true) := by
  induction n generalizing c out with
  | zero => simp [clusterLoop, window]
  | succ n ih =>
    have hpos := v.size_pos
    have hadd : (lcn + c + (n + 1)) * v.clusterSize =
        (lcn + c) * v.clusterSize + v.clusterSize + n * v.clusterSize := by ring
    have hnext :=
      fun out' => @ih out' (c + 1) (by rwa [show lcn + (c + 1) + n = lcn + c + (n + 1) by ring])
    rw [show base + (c + 1) * v.clusterSize = base + c * v.clusterSize + v.clusterSize by ring,
      show (lcn + (c + 1)) * v.clusterSize = (lcn + c) * v.clusterSize + v.clusterSize by ring]
      at hnext
    have hlen := bytes_length v.data ((lcn + c) * v.clusterSize) v.clusterSize
    rw [show (n + 1) * v.clusterSize = v.clusterSize + n * v.clusterSize by ring, bytes_add,
      window_append, hlen]
    unfold clusterLoop
    split_ifs with hfull hbefore
    · rw [window_of_full hfull, window_of_full hfull]
    · rw [@window_of_before offset len (base + c * v.clusterSize) out _ (by rwa [hlen]), hnext]
    · have hge := Nat.le_mul_of_pos_right (lcn + c) hpos
      rw [readRunCluster, if_neg (by omega), ntfsReadCluster_eq hok (by omega),
        window_eq v.clusterSize hlen]
      exact hnext _

def DataRun.Fits (v : Volume) (r : DataRun) : Prop :=
  r.lcn = lcnSparse ∨ (r.lcn + r.length) * v.clusterSize ≤ 2 ^ 64

theorem length_runContent (v : Volume) (r : DataRun) :
    (runContent v r).length = r.length * v.clusterSize := by
  unfold runContent
  split_ifs
  · exact length_replicate
  · simp [bytes]

theorem runLoop_eq (hok : ∀ x, v.fails x = false) {runs : List DataRun}
    (hfit : ∀ r ∈ runs, r.Fits v) (htotal : base + (stream v runs).length < 2 ^ 64) :
    runLoop v offset len runs base out = answer (window offset len base out (stream v runs)) := by
  induction runs generalizing base out with
  | nil => simp [runLoop, stream, window]
  | cons r rs ih =>
    obtain ⟨hr, hfit⟩ := forall_mem_cons.mp hfit
    have hlen := length_runContent v r
    have hsplit : stream v (r :: rs) = runContent v r ++ stream v rs := flatMap_cons
    rw [hsplit, length_append] at htotal
    have hnext := fun out' => @ih (base + r.length * v.clusterSize) out' hfit (by omega)
    have hdiv : r.length ≤ (2 ^ 64 - 1) / v.clusterSize := by
      rw [Nat.le_div_iff_mul_le v.size_pos]
      omega
    rw [hsplit, window_append, hlen]
    unfold runLoop
    dsimp only
    split_ifs with hfull hbig hbefore hsparse
    · rw [window_of_full hfull, window_of_full hfull]
    · omega
    · rw [@window_of_before offset len base out _ (by rwa [hlen]), hnext]
    · rw [hnext, window_eq _ hlen, runContent, if_pos hsparse.1, drop_replicate, take_replicate]
      rw [min_eq_left (show min _ _ ≤ _ - _ from min_le_left _ _)]
    · have hloop : clusterLoop v r.lcn base offset len r.length 0 out =
          (window offset len base out (runContent v r), true) := by
        by_cases hlcn : r.lcn = lcnSparse
        · have hzero : r.length = 0 := by
            by_contra hne
            exact hsparse ⟨hlcn, Nat.pos_of_ne_zero hne⟩
          simp [hzero, clusterLoop, window, runContent]
        · rw [clusterLoop_eq hok r.length 0 (hr.resolve_left hlcn), runContent, if_neg hlcn,
            zero_mul, add_zero, add_zero]
      rw [hloop]
      exact hnext _

end

theorem answer_eq {out : List UInt8} {k : ℕ} (hk : out.length = k) (hlt : k < 2 ^ 31) :
    answer out = ((k : ℤ), out) := by
  unfold answer
  rw [hk, Int.bmod_eq_of_le (by norm_num) (by norm_num; omega)]

/-- **Reads return the logical stream.** If the run list decodes to some runs, all clusters have
byte addresses below `2^64` and no read of the device fails, the bytes that are read are those of
the runs, up to the real size and the end of the last run. -/
theorem nonresident_read (v : Volume) (attr : Mem) (offset len : ℕ) {runs : List DataRun}
    (hruns : attrRuns attr = some runs) (hne : runs ≠ []) (hattr : 64 ≤ attrLength attr)
    (hoff : dataRunOffset attr < attrLength attr)
    (hfit : ∀ r ∈ runs, r.Fits v) (htotal : (stream v runs).length < 2 ^ 64)
    (hreal : realSize attr < 2 ^ 63) (hlen : len < 2 ^ 31) (hok : ∀ x, v.fails x = false) :
    let k := min len (min (realSize attr - offset) ((stream v runs).length - offset))
    ntfsReadNonresident v attr offset len = ((k : ℤ), ((stream v runs).drop offset).take k) := by
  intro k
  have hzero : k = 0 → ((0 : ℤ), []) = ((k : ℤ), ((stream v runs).drop offset).take k) := by
    intro hk
    simp [hk]
  rw [ntfsReadNonresident, if_neg (by omega)]
  by_cases hend : realSize attr ≤ offset
  · rw [if_pos hend]
    exact hzero (by omega)
  · have hn : (if realSize attr < u64 (offset + len) then realSize attr - offset else len) =
        min len (realSize attr - offset) := by
      rw [u64_of_lt (by omega)]
      split_ifs
      · omega
      · omega
    rw [if_neg hend, hn, hruns]
    by_cases hnone : min len (realSize attr - offset) = 0
    · exact (if_pos hnone).trans (hzero (by omega))
    · have hout : window offset (min len (realSize attr - offset)) 0 [] (stream v runs) =
          ((stream v runs).drop offset).take k := by
        rw [window, nil_append, length_nil, Nat.sub_zero, Nat.sub_zero, take_eq_take_iff,
          length_drop]
        omega
      have hlen : (((stream v runs).drop offset).take k).length = k := by
        rw [length_take, length_drop]
        omega
      have hloop :=
        @runLoop_eq v offset (min len (realSize attr - offset)) 0 [] hok runs hfit (by omega)
      rw [hout, answer_eq hlen (by omega)] at hloop
      obtain ⟨r, rs, rfl⟩ := exists_cons_of_ne_nil hne
      rw [if_neg hnone]
      exact hloop

def tiny : Volume where
  bytesPerSector := 2
  sectorsPerCluster := 1
  clusterSize := 2
  data x := UInt8.ofNat x
  fails _ := false
  size_eq := rfl
  size_pos := by decide
  size_lt := by decide

def attrWith (runList : List UInt8) : Mem :=
  put (fun x => if x = 4 then 72 else if x = 0x20 then 64 else if x = 0x30 then 9 else 0) 64 runList

theorem nonresident_read_tiny :
    ntfsReadNonresident tiny (attrWith [0x11, 2, 3, 0x01, 2]) 1 6 = (6, [7, 8, 9, 0, 0, 0]) := by
  refine (nonresident_read tiny (attrWith [0x11, 2, 3, 0x01, 2]) 1 6
    (show attrRuns _ = some [⟨3, 2⟩, ⟨lcnSparse, 2⟩] by decide) (by decide) (by decide)
    (by decide) ?_ ?_
    (by decide) (by decide) fun _ => rfl).trans (by decide)
  · simp [DataRun.Fits, tiny, lcnSparse]
  · decide

/-- A volume with clusters of `2^18` bytes. -/
def wide : Volume where
  bytesPerSector := 4096
  sectorsPerCluster := 64
  clusterSize := 2 ^ 18
  data _ := 0
  fails _ := false
  size_eq := rfl
  size_pos := by decide
  size_lt := by decide

/-- An attribute of 63 bytes, with its run list inside the header. -/
def shortAttr : Mem := put (put (put (attrWith []) 4 [63]) 0x20 [60]) 60 [0x01, 2]

/-- **An empty run list is refused**, where nothing is to be read. So are an attribute that is
shorter than its header and a cluster whose byte address is not below `2^64`. -/
theorem empty_runs_refused : (attrRuns (attrWith []) = some [] ∧
    ntfsReadNonresident tiny (attrWith []) 0 1 = (-1, [])) ∧
    (attrRuns shortAttr = some [⟨lcnSparse, 2⟩] ∧
      ntfsReadNonresident tiny shortAttr 0 1 = (-1, [])) ∧
    attrRuns (attrWith [0x61, 1, 0, 0, 0, 0, 0, 0x40]) = some [⟨2 ^ 46, 1⟩] ∧
    ntfsReadNonresident wide (attrWith [0x61, 1, 0, 0, 0, 0, 0, 0x40]) 0 1 = (-1, []) :=
  ⟨⟨by decide, by decide⟩, ⟨by decide +kernel, by decide +kernel⟩, by decide +kernel,
    by decide +kernel⟩

end TaterTOS.Ntfs
