import TaterTOS.Fat32.Ops

/-!
# FAT32: tables and clusters on the media
-/

namespace TaterTOS.Fat32

open Function Lib List

variable {fs : Fs} {m : Media} {c c' v : ℕ} {lba f s : ℕ} {p q : Slot} {s' : Sector}

/-! ### Geometry -/

theorem Fs.bytes_cases (fs : Fs) : fs.bytesPerSector = 512 ∨ fs.bytesPerSector = 1024 ∨
    fs.bytesPerSector = 2048 ∨ fs.bytesPerSector = 4096 := by
  have h := fs.bytes_mem
  simpa only [sectorSizes, mem_cons, not_mem_nil, or_false] using h

theorem Fs.bytes_ge (fs : Fs) : 512 ≤ fs.bytesPerSector := by
  rcases fs.bytes_cases with h | h | h | h <;> omega

theorem Fs.bytes_pos (fs : Fs) : 0 < fs.bytesPerSector := lt_of_lt_of_le (by norm_num) fs.bytes_ge

theorem Fs.bytes_le (fs : Fs) : fs.bytesPerSector ≤ fs.clusterSize :=
  Nat.le_mul_of_pos_left _ fs.cluster_pos

theorem Fs.bytes_dvd (fs : Fs) : 32 ∣ fs.bytesPerSector := by
  rcases fs.bytes_cases with h | h | h | h <;> rw [h] <;> norm_num

theorem Fs.clusterSize_pos (fs : Fs) : 0 < fs.clusterSize := Nat.mul_pos fs.cluster_pos fs.bytes_pos

theorem Fs.totalClusters_pos (fs : Fs) : 0 < fs.totalClusters := by
  apply Nat.div_pos _ fs.cluster_pos
  have := fs.room
  omega

def Fs.InFat (fs : Fs) (lba : ℕ) : Prop := fs.fatLba ≤ lba ∧ lba < fs.dataLba

def Fs.InData (fs : Fs) (lba : ℕ) : Prop :=
  fs.dataLba ≤ lba ∧ lba < fs.dataLba + fs.totalClusters * fs.sectorsPerCluster

theorem Fs.InFat.not_inData (h : fs.InFat lba) : ¬fs.InData lba :=
  fun hdata => absurd h.2 (not_lt.mpr hdata.1)

def Fs.FatFits (fs : Fs) : Prop := fs.clusterLimit * 4 ≤ fs.sectorsPerFat * fs.bytesPerSector

theorem fatIndex_lt (hfits : fs.FatFits) (hc : c < fs.clusterLimit) :
    c * 4 / fs.bytesPerSector < fs.sectorsPerFat := by
  rw [Nat.div_lt_iff_lt_mul fs.bytes_pos]
  unfold Fs.FatFits at hfits
  omega

theorem copy_le (hf : f < fs.fatCount) :
    f * fs.sectorsPerFat + fs.sectorsPerFat ≤ fs.fatCount * fs.sectorsPerFat := by
  calc f * fs.sectorsPerFat + fs.sectorsPerFat = (f + 1) * fs.sectorsPerFat := by ring
    _ ≤ fs.fatCount * fs.sectorsPerFat := Nat.mul_le_mul_right _ hf

theorem fatSector_mem (hfits : fs.FatFits) (hc : c < fs.clusterLimit) (hf : f < fs.fatCount) :
    fs.InFat (fs.fatSector c + f * fs.sectorsPerFat) := by
  have hindex := fatIndex_lt hfits hc
  have hcopy := copy_le hf
  unfold Fs.InFat Fs.fatSector Fs.dataLba
  generalize c * 4 / fs.bytesPerSector = q at hindex ⊢
  omega

theorem fatSector_mem_first (hfits : fs.FatFits) (hc : c < fs.clusterLimit) :
    fs.InFat (fs.fatSector c) := by
  have := fatSector_mem hfits hc fs.fats_pos
  rwa [Nat.zero_mul] at this

theorem dataSector_mem (hc : c < fs.clusterLimit) (hs : s < fs.sectorsPerCluster) :
    fs.InData (fs.clusterToLba c + s) := by
  have hpos := fs.totalClusters_pos
  have hindex : c - 2 + 1 ≤ fs.totalClusters := by
    unfold Fs.clusterLimit at hc
    omega
  have hmul : (c - 2) * fs.sectorsPerCluster + fs.sectorsPerCluster ≤
      fs.totalClusters * fs.sectorsPerCluster := by
    calc (c - 2) * fs.sectorsPerCluster + fs.sectorsPerCluster =
        (c - 2 + 1) * fs.sectorsPerCluster := by ring
      _ ≤ fs.totalClusters * fs.sectorsPerCluster := Nat.mul_le_mul_right _ hindex
  unfold Fs.InData Fs.clusterToLba
  omega

/-! ### The table -/

def fatAt (fs : Fs) (m : Media) (c : ℕ) : ℕ := low28 (le32 (m (fs.fatSector c)) (fs.fatOff c))

def fatSectorWith (fs : Fs) (s : Sector) (c v : ℕ) : Sector :=
  putLe32 s (fs.fatOff c) (setLow28 (le32 s (fs.fatOff c)) v)

theorem low28_setLow28 (p v : ℕ) : low28 (setLow28 p v) = low28 v := by
  unfold setLow28 low28
  omega

theorem setLow28_lt {p : ℕ} (hp : p < 2 ^ 32) (v : ℕ) : setLow28 p v < 2 ^ 32 := by
  unfold setLow28 low28
  omega

theorem fatAt_congr {m m' : Media} (h : m' (fs.fatSector c) = m (fs.fatSector c)) :
    fatAt fs m' c = fatAt fs m c := by
  unfold fatAt
  rw [h]

theorem fatAt_update {s : Sector} (h : fs.fatSector c ≠ lba) :
    fatAt fs (update m lba s) c = fatAt fs m c :=
  fatAt_congr (update_of_ne h _ _)

theorem fatOff_disjoint (hne : c' ≠ c) (hsector : fs.fatSector c' = fs.fatSector c) :
    fs.fatOff c' + 4 ≤ fs.fatOff c ∨ fs.fatOff c + 4 ≤ fs.fatOff c' := by
  unfold Fs.fatSector at hsector
  unfold Fs.fatOff
  rcases fs.bytes_cases with h | h | h | h <;> rw [h] at hsector ⊢ <;> omega

theorem fatAt_writeFat : fatAt fs (update m (fs.fatSector c)
      (fatSectorWith fs (m (fs.fatSector c)) c v)) c' =
    if c' = c then low28 v else fatAt fs m c' := by
  by_cases hc : c' = c
  · rw [if_pos hc, hc]
    unfold fatAt fatSectorWith
    rw [update_self, le32_putLe32 (setLow28_lt (le32_lt _ _) v), low28_setLow28]
  · rw [if_neg hc]
    by_cases hsector : fs.fatSector c' = fs.fatSector c
    · unfold fatAt fatSectorWith
      have hdisj := fatOff_disjoint hc hsector
      rw [hsector, update_self]
      exact congrArg low28 (le32_congr fun i h1 h2 => putLe32_outside (by omega))
    · exact fatAt_update hsector

/-! ### Directory entries -/

structure Slot.Ok (fs : Fs) (p : Slot) : Prop where
  offset_lt : p.offset < fs.clusterSize
  aligned : 32 ∣ p.offset

theorem Slot.Ok.sector_lt (h : p.Ok fs) : p.offset / fs.bytesPerSector < fs.sectorsPerCluster := by
  rw [Nat.div_lt_iff_lt_mul fs.bytes_pos]
  exact h.offset_lt

theorem slotOff_dvd (h : p.Ok fs) : 32 ∣ fs.slotOff p := by
  exact (Nat.dvd_mod_iff fs.bytes_dvd).mpr h.aligned

theorem slotOff_lt (fs : Fs) (p : Slot) : fs.slotOff p < fs.bytesPerSector :=
  Nat.mod_lt _ fs.bytes_pos

theorem cluster_of_lba {s' : ℕ} (hc : 2 ≤ c) (hc' : 2 ≤ c') (hs : s < fs.sectorsPerCluster)
    (hs' : s' < fs.sectorsPerCluster) (h : fs.clusterToLba c + s = fs.clusterToLba c' + s') :
    c = c' ∧ s = s' := by
  have hsum : s + (c - 2) * fs.sectorsPerCluster = s' + (c' - 2) * fs.sectorsPerCluster := by
    unfold Fs.clusterToLba at h
    omega
  have hdiv := congrArg (· / fs.sectorsPerCluster) hsum
  have hmod := congrArg (· % fs.sectorsPerCluster) hsum
  simp only [Nat.add_mul_div_right _ _ fs.cluster_pos, Nat.div_eq_of_lt hs, Nat.div_eq_of_lt hs',
    Nat.add_mul_mod_self_right, Nat.mod_eq_of_lt hs, Nat.mod_eq_of_lt hs'] at hdiv hmod
  omega

def EditsAt (off : ℕ) (s s' : Sector) : Prop := ∀ i, i < off ∨ off + 32 ≤ i → s' i = s i

/-! ### Fields of an entry -/

def Record.Same (e e' : Record) : Prop := ∀ i < 32, e i = e' i

section

variable {e e' : Record}

theorem Record.Same.attr (h : e.Same e') : e.attr = e'.attr := h 11 (by norm_num)

theorem Record.Same.head (h : e.Same e') : e 0 = e' 0 := h 0 (by norm_num)

theorem Record.Same.firstCluster (h : e.Same e') : e.firstCluster = e'.firstCluster := by
  unfold Record.firstCluster
  rw [le16_congr fun i h1 h2 => h i (by omega), le16_congr fun i h1 h2 => h i (by omega)]

theorem Record.Same.size (h : e.Same e') : e.size = e'.size :=
  le32_congr fun i h1 h2 => h i (by omega)

theorem recordAt_putBytes (s : Sector) (off : ℕ) (e : Record) :
    (recordAt (putBytes s off ((List.range 32).map e)) off).Same e := by
  intro i hi
  have hlen : i < ((List.range 32).map e).length := by
    exact hi
  unfold recordAt
  rw [if_pos hi, putBytes_inside hlen, get_eq_getElem, getElem_map, getElem_range]

theorem putBytes_edits (s : Sector) (off : ℕ) (e : Record) :
    EditsAt off s (putBytes s off ((List.range 32).map e)) := by
  intro i hi
  apply putBytes_outside
  exact hi

end

section

variable {name : List UInt8} {attr : UInt8} {cluster size : ℕ}

theorem newEntry_attr : (newEntry name attr cluster size).attr = attr := by
  unfold Record.attr newEntry putCluster
  rw [putLe32_outside (by omega), putLe16_outside (by omega), putLe16_outside (by omega),
    update_self]

theorem newEntry_firstCluster (h : cluster < 2 ^ 32) :
    (newEntry name attr cluster size).firstCluster = cluster := by
  have hhigh : le16 (newEntry name attr cluster size) 20 = cluster / 65536 := by
    unfold newEntry putCluster
    rw [le16_congr fun i h1 h2 => putLe32_outside (by omega), le16_putLe16_of_disjoint (by omega),
      le16_putLe16 (by omega)]
  have hlow : le16 (newEntry name attr cluster size) 26 = cluster % 2 ^ 16 := by
    unfold newEntry putCluster
    rw [le16_congr fun i h1 h2 => putLe32_outside (by omega), @putLe16_mod _ (0 + 26),
      le16_putLe16 (by omega)]
  unfold Record.firstCluster
  omega

theorem newEntry_size (h : size < 2 ^ 32) : (newEntry name attr cluster size).size = size :=
  le32_putLe32 h

end

theorem isDir_archive (a : UInt8) : (a ||| attrArchive) &&& attrDir = a &&& attrDir := by
  apply UInt8.toNat_inj.mp
  rw [UInt8.toNat_and, UInt8.toNat_or, Nat.and_or_distrib_right]
  exact Nat.or_zero _

/-! ### Sectors outside of the table -/

def Aside (fs : Fs) (lba : ℕ) : Prop := ∀ c < fs.clusterLimit, fs.fatSector c ≠ lba

theorem aside_of_inData (hfits : fs.FatFits) (h : fs.InData lba) : Aside fs lba := fun _ hc heq =>
  (fatSector_mem_first hfits hc).not_inData (heq ▸ h)

theorem aside_copy (hfits : fs.FatFits) (hf : 1 ≤ f) :
    Aside fs (fs.fatSector c + f * fs.sectorsPerFat) := by
  intro c' hc' heq
  have hindex := fatIndex_lt hfits hc'
  have hmul : fs.sectorsPerFat ≤ f * fs.sectorsPerFat := Nat.le_mul_of_pos_left _ hf
  unfold Fs.fatSector at heq
  generalize c * 4 / fs.bytesPerSector = q' at heq
  omega

end TaterTOS.Fat32
