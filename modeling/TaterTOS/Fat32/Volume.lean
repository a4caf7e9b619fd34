import TaterTOS.Fat32.View

/-!
# FAT32: the volume behind the media
-/

namespace TaterTOS.Fat32

open Function Lib

@[ext] structure Vol where
  fat : ℕ → ℕ
  data : ℕ → ℕ → UInt8

structure Fs.Good (fs : Fs) : Prop where
  fits : fs.FatFits
  limit : fs.clusterLimit ≤ eoc

def Fs.IsCluster (fs : Fs) (c : ℕ) : Prop := 2 ≤ c ∧ c < fs.clusterLimit

instance (fs : Fs) (c : ℕ) : Decidable (fs.IsCluster c) := inferInstanceAs (Decidable (_ ∧ _))

/-- The volume on the media. Outside of the volume there are zeros. -/
def view (fs : Fs) (m : Media) : Vol where
  fat c := if c < fs.clusterLimit then fatAt fs m c else 0
  data c o := if fs.IsCluster c ∧ o < fs.clusterSize then
      m (fs.clusterToLba c + o / fs.bytesPerSector) (o % fs.bytesPerSector) else 0

namespace Vol

variable (V : Vol)

def setFat (c v : ℕ) : Vol := { V with fat := update V.fat c v }

def setSector (fs : Fs) (c s : ℕ) (bytes : Sector) : Vol :=
  { V with data := update V.data c fun o =>
      if o < fs.clusterSize ∧ o / fs.bytesPerSector = s then bytes (o % fs.bytesPerSector)
      else V.data c o }

end Vol

variable {fs : Fs} {m : Media} {V : Vol} {c s v : ℕ} {lba q f : ℕ} {b : Sector}

/-! ### Writes of sectors -/

theorem sector_lt {o : ℕ} (ho : o < fs.clusterSize) :
    o / fs.bytesPerSector < fs.sectorsPerCluster := by
  rw [Nat.div_lt_iff_lt_mul fs.bytes_pos]
  exact ho

theorem view_other (haside : Aside fs lba) (hdata : ¬fs.InData lba) (b : Sector) :
    view fs (update m lba b) = view fs m := by
  ext c
  · dsimp only [view]
    split_ifs with hc
    · exact fatAt_update (haside c hc)
    · rfl
  · rename_i o
    dsimp only [view]
    split_ifs with hc
    · rw [update_of_ne]
      intro heq
      exact hdata (heq ▸ dataSector_mem hc.1.2 (sector_lt hc.2))
    · rfl

theorem view_writeFat (hfits : fs.FatFits) (hc : c < fs.clusterLimit) :
    view fs (update m (fs.fatSector c) (fatSectorWith fs (m (fs.fatSector c)) c v)) =
      (view fs m).setFat c (low28 v) := by
  have hmem := fatSector_mem_first hfits hc
  ext c'
  · dsimp only [view, Vol.setFat]
    by_cases hcc : c' = c
    · rw [hcc, update_self, if_pos hc, fatAt_writeFat, if_pos rfl]
    · rw [update_of_ne hcc]
      split_ifs
      · rw [fatAt_writeFat, if_neg hcc]
      · rfl
  · rename_i o
    dsimp only [view, Vol.setFat]
    split_ifs with hc'
    · rw [update_of_ne]
      intro heq
      exact hmem.not_inData (heq ▸ dataSector_mem hc'.1.2 (sector_lt hc'.2))
    · rfl

theorem view_writeData (hfits : fs.FatFits) (hc : fs.IsCluster c) (hs : s < fs.sectorsPerCluster)
    (b : Sector) : view fs (update m (fs.clusterToLba c + s) b) =
      (view fs m).setSector fs c s b := by
  have hmem := dataSector_mem hc.2 hs
  ext c'
  · dsimp only [view, Vol.setSector]
    split_ifs with hc'
    · exact fatAt_update (aside_of_inData hfits hmem c' hc')
    · rfl
  · rename_i o
    dsimp only [view, Vol.setSector]
    by_cases hcc : c' = c
    · subst hcc
      rw [update_self]
      by_cases ho : o < fs.clusterSize
      · rw [if_pos ⟨hc, ho⟩]
        by_cases hos : o / fs.bytesPerSector = s
        · rw [hos, update_self, if_pos ⟨ho, rfl⟩]
        · rw [update_of_ne (by omega), if_neg fun h => hos h.2, if_pos ⟨hc, ho⟩]
      · rw [if_neg fun h => ho h.2, if_neg fun h => ho h.1, if_neg fun h => ho h.2]
    · rw [update_of_ne hcc]
      split_ifs with hc'
      · rw [update_of_ne]
        intro heq
        exact hcc (cluster_of_lba hc'.1.1 hc.1 (sector_lt hc'.2) hs heq).1
      · rfl

/-! ### Copies of the table -/

def Mirrored (fs : Fs) (m : Media) : Prop :=
  ∀ f < fs.fatCount, ∀ k < fs.sectorsPerFat,
    m (fs.fatLba + k + f * fs.sectorsPerFat) = m (fs.fatLba + k)

theorem Mirrored.data (h : Mirrored fs m) (hlba : fs.InData lba) (b : Sector) :
    Mirrored fs (update m lba b) := by
  have hfat : ∀ f < fs.fatCount, ∀ k < fs.sectorsPerFat,
      fs.fatLba + k + f * fs.sectorsPerFat ≠ lba := by
    intro f hf k hk heq
    have hcopy := copy_le hf
    have hdata := hlba.1
    unfold Fs.dataLba at hdata
    omega
  intro f hf k hk
  have hfirst := hfat 0 fs.fats_pos k hk
  rw [zero_mul, add_zero] at hfirst
  rw [update_of_ne (hfat f hf k hk), update_of_ne hfirst]
  exact h f hf k hk

structure Mirroring (fs : Fs) (q f : ℕ) (b : Sector) (m : Media) : Prop where
  done : ∀ f' < f, m (fs.fatLba + q + f' * fs.sectorsPerFat) = b
  rest : ∀ f' < fs.fatCount, ∀ k < fs.sectorsPerFat, k ≠ q →
    m (fs.fatLba + k + f' * fs.sectorsPerFat) = m (fs.fatLba + k)

theorem copy_inj {k f' : ℕ} (hq : q < fs.sectorsPerFat) (hk : k < fs.sectorsPerFat)
    (h : fs.fatLba + q + f * fs.sectorsPerFat = fs.fatLba + k + f' * fs.sectorsPerFat) :
    q = k ∧ f = f' := by
  have hpos : 0 < fs.sectorsPerFat := by omega
  have hsum : q + f * fs.sectorsPerFat = k + f' * fs.sectorsPerFat := by omega
  have hdiv := congrArg (· / fs.sectorsPerFat) hsum
  have hmod := congrArg (· % fs.sectorsPerFat) hsum
  simp only [Nat.add_mul_div_right _ _ hpos, Nat.div_eq_of_lt hq, Nat.div_eq_of_lt hk,
    Nat.add_mul_mod_self_right, Nat.mod_eq_of_lt hq, Nat.mod_eq_of_lt hk] at hdiv hmod
  omega

theorem Mirrored.start (h : Mirrored fs m) (hq : q < fs.sectorsPerFat) (b : Sector) :
    Mirroring fs q 1 b (update m (fs.fatLba + q) b) where
  done f' hf' := by
    obtain rfl : f' = 0 := by omega
    rw [zero_mul, add_zero, update_self]
  rest f' hf' k hk hne := by
    rw [update_of_ne, update_of_ne]
    · exact h f' hf' k hk
    · omega
    · intro heq
      have hzero :
          fs.fatLba + k + f' * fs.sectorsPerFat = fs.fatLba + q + 0 * fs.sectorsPerFat := by
        omega
      exact hne (copy_inj hk hq hzero).1

theorem Mirroring.step (h : Mirroring fs q f b m) (hq : q < fs.sectorsPerFat) :
    Mirroring fs q (f + 1) b (update m (fs.fatLba + q + f * fs.sectorsPerFat) b) where
  done f' hf' := by
    by_cases heq : f' = f
    · rw [heq, update_self]
    · rw [update_of_ne fun h => heq (copy_inj hq hq h).2]
      exact h.done f' (by omega)
  rest f' hf' k hk hne := by
    rw [update_of_ne fun h => hne (copy_inj hk hq h).1, update_of_ne]
    · exact h.rest f' hf' k hk hne
    · intro heq
      have hzero : fs.fatLba + k + 0 * fs.sectorsPerFat = fs.fatLba + q + f * fs.sectorsPerFat := by
        omega
      exact hne (copy_inj hk hq hzero).1

theorem Mirroring.finish (h : Mirroring fs q fs.fatCount b m) : Mirrored fs m := by
  intro f hf k hk
  by_cases hkq : k = q
  · have hfirst := h.done 0 fs.fats_pos
    rw [zero_mul, add_zero] at hfirst
    rw [hkq, h.done f hf, hfirst]
  · exact h.rest f hf k hk hkq

/-! ### Primitives on a device that works -/

def Views (fs : Fs) (J : Vol → Prop) : Access Area → Prop
  | .read _ _ => True
  | .write _ _ after => J (view fs after)

structure At (fs : Fs) (V : Vol) (m : Media) : Prop where
  view_eq : view fs m = V
  mirrored : Mirrored fs m

theorem Fs.IsCluster.lt_eoc (hgood : fs.Good) (h : fs.IsCluster c) : c < eoc :=
  lt_of_lt_of_le h.2 hgood.limit

theorem Fs.IsCluster.lt_word (hgood : fs.Good) (h : fs.IsCluster c) : c < 2 ^ 32 :=
  (h.lt_eoc hgood).trans (by decide)

section

variable {J : Vol → Prop} (hgood : fs.Good)
include hgood

/-- What the program does from the volume `V` on a device that works. -/
abbrev Runs {α : Type} (fs : Fs) (J : Vol → Prop) (V : Vol) (x : FatIo α) (Q : α → Media → Prop) :
    Prop := Spec True (Views fs J) (At fs V) x Q

/-- The program returns `a` and leaves the volume `V'`. -/
abbrev Yields {α : Type} (fs : Fs) (J : Vol → Prop) (V : Vol) (x : FatIo α) (a : α) (V' : Vol) :
    Prop :=
  Runs fs J V x fun r m => At fs V' m ∧ r = a

omit hgood in
theorem Yields.bind {α β : Type} {V' : Vol} {x : FatIo α} {a : α} {f : α → FatIo β}
    {R : β → Media → Prop} (hx : Yields fs J V x a V')
    (hf : Runs fs J V' (f a) R) : Runs fs J V (x >>= f) R :=
  Spec.bind hx fun _ => .fact fun h => h ▸ hf

omit hgood in
theorem readFatEntry_exact (hc : c < fs.clusterLimit) :
    Yields fs J V (readFatEntry fs c) (V.fat c) V := by
  refine .option (.read trivial) (.pure fun m hm => absurd rfl (hm.2.2 trivial)) fun b => ?_
  refine .pure fun m hm => ⟨hm.1, ?_⟩
  rw [← hm.1.view_eq, hm.2.1 b rfl]
  dsimp only [view]
  rw [if_pos hc]
  rfl

theorem mirrorFat_exact (hJ : J V) (hc : c < fs.clusterLimit) (b : Sector) : ∀ n f : ℕ, 1 ≤ f →
    f + n = fs.fatCount → Spec True (Views fs J)
      (fun m => view fs m = V ∧ Mirroring fs (c * 4 / fs.bytesPerSector) f b m)
      (mirrorFat fs (fs.fatSector c) b f n) fun r m => At fs V m ∧ r = true
  | 0, f, _, hn => by
    refine .pure fun m hm => ⟨⟨hm.1, ?_⟩, rfl⟩
    obtain rfl : f = fs.fatCount := hn
    exact hm.2.finish
  | n + 1, f, hf, hn => by
    have hmem := fatSector_mem hgood.fits hc (show f < fs.fatCount by omega)
    have hview : ∀ m, view fs m = V →
        view fs (update m (fs.fatSector c + f * fs.sectorsPerFat) b) = V := fun m hm =>
      (view_other (aside_copy hgood.fits hf) hmem.not_inData b).trans hm
    have hstep : Spec True (Views fs J)
        (fun m => view fs m = V ∧ Mirroring fs (c * 4 / fs.bytesPerSector) f b m)
        (writeSector Area.fat (fs.fatSector c + f * fs.sectorsPerFat) b) fun r m => r = true ∧
          view fs m = V ∧ Mirroring fs (c * 4 / fs.bytesPerSector) (f + 1) b m := by
      refine .write (fun _ h _ => absurd trivial h) (fun m hm => ?_) (fun m hm => ?_)
        fun _ h _ => absurd trivial h
      · change J (view fs _)
        rw [hview m hm.1]
        exact hJ
      · exact ⟨rfl, hview m hm.1, hm.2.step (fatIndex_lt hgood.fits hc)⟩
    unfold mirrorFat
    refine .bool hstep (.of (fun _ hm => hm.1) fun hb => absurd hb Bool.false_ne_true) ?_
    exact (mirrorFat_exact hJ hc b n (f + 1) (by omega) (by omega)).right

theorem writeFatEntry_exact (hc : c < fs.clusterLimit) (hJ : J (V.setFat c (low28 v))) :
    Yields fs J V (writeFatEntry fs c v) true (V.setFat c (low28 v)) := by
  have hindex := fatIndex_lt hgood.fits hc
  refine .option (.read trivial) (.of (fun _ hm => hm.2.2 trivial) fun h => absurd rfl h) fun s =>
    ?_
  have hfirst : Spec True (Views fs J)
      (fun m => At fs V m ∧ (∀ b, some s = some b → b = m (fs.fatSector c)) ∧
        (True → some s ≠ none))
      (writeSector Area.fat (fs.fatSector c)
        (putLe32 s (fs.fatOff c) (setLow28 (le32 s (fs.fatOff c)) v)))
      fun r m => r = true ∧ view fs m = V.setFat c (low28 v) ∧
        Mirroring fs (c * 4 / fs.bytesPerSector) 1
          (putLe32 s (fs.fatOff c) (setLow28 (le32 s (fs.fatOff c)) v)) m := by
    have hview : ∀ m, At fs V m → s = m (fs.fatSector c) → view fs (update m
        (fs.fatSector c) (putLe32 s (fs.fatOff c) (setLow28 (le32 s (fs.fatOff c)) v))) =
        V.setFat c (low28 v) := by
      intro m hm hs
      rw [hs, ← hm.view_eq]
      exact view_writeFat hgood.fits hc
    refine .write (fun _ h _ => absurd trivial h) (fun m hm => ?_) (fun m hm => ?_)
      fun _ h _ => absurd trivial h
    · change J (view fs _)
      rw [hview m hm.1 (hm.2.1 s rfl)]
      exact hJ
    · exact ⟨rfl, hview m hm.1 (hm.2.1 s rfl), hm.1.mirrored.start hindex _⟩
  refine .bool hfirst (.of (fun _ hm => hm.1) nofun) ?_
  have hcount : 1 + (fs.fatCount - 1) = fs.fatCount := by
    have := fs.fats_pos
    omega
  exact (mirrorFat_exact hgood hJ hc _ _ 1 le_rfl hcount).right

omit hgood in
theorem readData_bind {β : Type} {f : Option Sector → FatIo β} {R : β → Media → Prop}
    (hc : fs.IsCluster c) (hs : s < fs.sectorsPerCluster)
    (hf : ∀ b, (∀ i < fs.bytesPerSector, b i = V.data c (s * fs.bytesPerSector + i)) →
      Runs fs J V (f (some b)) R) :
    Runs fs J V (readSector Area.data (fs.clusterToLba c + s) >>= f) R := by
  refine .option (.read trivial) (.of (fun _ hm => hm.2.2 trivial) fun h => absurd rfl h)
    fun b => ?_
  refine .of (fun m hm i hi => ?_) fun hb => (hf b hb).left
  · have ho : s * fs.bytesPerSector + i < fs.clusterSize := by
      calc s * fs.bytesPerSector + i < s * fs.bytesPerSector + fs.bytesPerSector := by omega
        _ = (s + 1) * fs.bytesPerSector := by ring
        _ ≤ fs.clusterSize := Nat.mul_le_mul_right _ hs
    rw [← hm.1.view_eq, hm.2.1 b rfl]
    dsimp only [view]
    rw [if_pos ⟨hc, ho⟩, add_comm (s * _), Nat.add_mul_div_right _ _ fs.bytes_pos,
      Nat.div_eq_of_lt hi, Nat.add_mul_mod_self_right, Nat.mod_eq_of_lt hi, zero_add]

theorem writeData_exact (hc : fs.IsCluster c) (hs : s < fs.sectorsPerCluster)
    (hJ : J (V.setSector fs c s b)) :
    Yields fs J V (writeSector Area.data (fs.clusterToLba c + s) b) true
    (V.setSector fs c s b) := by
  have hview : ∀ m, At fs V m →
      view fs (update m (fs.clusterToLba c + s) b) = V.setSector fs c s b := fun m hm =>
    (view_writeData hgood.fits hc hs b).trans (by rw [hm.view_eq])
  refine .write (fun _ h _ => absurd trivial h) (fun m hm => ?_) (fun m hm => ?_)
    fun _ h _ => absurd trivial h
  · change J (view fs _)
    rw [hview m hm]
    exact hJ
  · exact ⟨⟨hview m hm, hm.mirrored.data (dataSector_mem hc.2 hs) b⟩, rfl⟩

end

end TaterTOS.Fat32
