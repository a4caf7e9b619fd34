import TaterTOS.Fat32.Tree

/-!
# FAT32: changes of a volume
-/

namespace TaterTOS.Fat32

open Function Lib List

variable {fs : Fs} {V V' : Vol} {s s' : Slot} {e e' : Record} {c n : ℕ}

/-! ### Entries -/

namespace Record

def setSize (e : Record) (n : ℕ) : Record := putLe32 e 28 n

def setCluster (e : Record) (c : ℕ) : Record := putCluster e 0 c

def delete (e : Record) : Record := update e 0 0xE5

theorem setSize_size (h : n < 2 ^ 32) : (e.setSize n).size = n := le32_putLe32 h

theorem setSize_firstCluster : (e.setSize n).firstCluster = e.firstCluster := by
  unfold firstCluster setSize
  rw [le16_congr fun i h1 h2 => putLe32_outside (by omega), le16_congr
    fun i h1 h2 => putLe32_outside (by omega)]

theorem setSize_head : e.setSize n 0 = e 0 := putLe32_outside (by omega)

theorem setSize_attr : (e.setSize n).attr = e.attr := by
  unfold attr setSize
  exact putLe32_outside (by omega)

theorem setCluster_outside {i : ℕ} (h : i < 20 ∨ 28 ≤ i) : e.setCluster c i = e i := by
  unfold setCluster putCluster
  rw [putLe16_outside (by omega), putLe16_outside (by omega)]

theorem setCluster_firstCluster (h : c < 2 ^ 32) : (e.setCluster c).firstCluster = c := by
  have hhigh : le16 (e.setCluster c) 20 = c / 65536 := by
    unfold setCluster putCluster
    rw [le16_putLe16_of_disjoint (by omega), le16_putLe16 (by omega)]
  have hlow : le16 (e.setCluster c) 26 = c % 2 ^ 16 := by
    unfold setCluster putCluster
    rw [@putLe16_mod _ (0 + 26), le16_putLe16 (by omega)]
  unfold firstCluster
  omega

theorem setCluster_size : (e.setCluster c).size = e.size :=
  le32_congr fun i h1 h2 => setCluster_outside (by omega)

theorem setCluster_head : e.setCluster c 0 = e 0 := setCluster_outside (by omega)

theorem setCluster_attr : (e.setCluster c).attr = e.attr := setCluster_outside (by omega)

theorem delete_isDeleted : e.delete.isDeleted = true := by
  unfold isDeleted delete
  rfl

theorem delete_isEnd : e.delete.isEnd = false := by
  unfold isEnd delete
  rfl

theorem listed_congr (h : e' 0 = e 0) (ha : e'.attr = e.attr) : e'.Listed ↔ e.Listed := by
  unfold Listed isEnd isDeleted isLfn isVolume
  rw [h, ha]

theorem node_congr (h : e' 0 = e 0) (ha : e'.attr = e.attr) : e'.Node ↔ e.Node := by
  unfold Node
  rw [listed_congr h ha, h]

theorem isDir_congr (ha : e'.attr = e.attr) : e'.isDir = e.isDir := by
  unfold isDir
  rw [ha]

theorem Same.node_iff (h : e.Same e') : e.Node ↔ e'.Node := node_congr h.head h.attr

theorem Same.isDir (h : e.Same e') : e.isDir = e'.isDir := isDir_congr h.attr

theorem Same.isEnd (h : e.Same e') : e.isEnd = e'.isEnd := by
  unfold Record.isEnd
  rw [h.head]

theorem Same.isDeleted (h : e.Same e') : e.isDeleted = e'.isDeleted := by
  unfold Record.isDeleted
  rw [h.head]

end Record

def Vol.putEntry (V : Vol) (s : Slot) (e : Record) : Vol :=
  { V with data := update V.data s.cluster fun o =>
      if s.offset ≤ o ∧ o < s.offset + 32 then e (o - s.offset) else V.data s.cluster o }

@[simp] theorem Vol.putEntry_fat : (V.putEntry s e).fat = V.fat := rfl

theorem Vol.putEntry_data (h : c ≠ s.cluster) : (V.putEntry s e).data c = V.data c :=
  update_of_ne h _ _

theorem Vol.putEntry_self (V : Vol) (s : Slot) (e : Record) :
    ((V.putEntry s e).entry s).Same e := by
  intro i hi
  unfold Vol.entry Vol.putEntry
  dsimp only
  rw [if_pos hi, update_self, if_pos ⟨by omega, by omega⟩, Nat.add_sub_cancel_left]

theorem Vol.entry_congr (h : V'.data s.cluster = V.data s.cluster) : V'.entry s = V.entry s := by
  unfold Vol.entry
  rw [h]

theorem Vol.putEntry_of_ne (hs : 32 ∣ s.offset) (hs' : 32 ∣ s'.offset) (hne : s' ≠ s) :
    (V.putEntry s e).entry s' = V.entry s' := by
  by_cases hc : s'.cluster = s.cluster
  · have hoff : s'.offset ≠ s.offset := fun hoff => hne (by
      cases s
      cases s'
      exact Slot.mk.injEq .. ▸ ⟨hc, hoff⟩)
    funext i
    unfold Vol.entry Vol.putEntry
    dsimp only
    by_cases hi : i < 32
    · rw [if_pos hi, if_pos hi, hc, update_self, if_neg (by omega)]
    · rw [if_neg hi, if_neg hi]
  · exact Vol.entry_congr (Vol.putEntry_data hc)

theorem Vol.entry_apply {i : ℕ} (hi : i < 32) : V.entry s i = V.data s.cluster (s.offset + i) :=
  if_pos hi

theorem Vol.putEntry_putEntry : (V.putEntry s e).putEntry s e' = V.putEntry s e' := by
  unfold Vol.putEntry
  refine Vol.ext rfl ?_
  dsimp only
  rw [update_idem, update_self]
  refine congrArg (update V.data s.cluster) (funext fun o => ?_)
  split_ifs <;> rfl

theorem Vol.putEntry_entry : V.putEntry s (V.entry s) = V := by
  refine Vol.ext rfl ?_
  refine (congrArg (update V.data s.cluster) (funext fun o => ?_)).trans
    (update_eq_self _ _)
  split_ifs with ho
  · rw [Vol.entry_apply (by omega)]
    exact congrArg (V.data s.cluster) (by omega)
  · rfl

theorem Vol.setSector_eq_putEntry {b b' : Sector} (hs : s.Ok fs)
    (hb : ∀ i < fs.bytesPerSector,
      b i = V.data s.cluster (s.offset / fs.bytesPerSector * fs.bytesPerSector + i))
    (hedit : EditsAt (fs.slotOff s) b b') (he : ∀ i < 32, b' (fs.slotOff s + i) = e i) :
    V.setSector fs s.cluster (s.offset / fs.bytesPerSector) b' = V.putEntry s e := by
  have hpos := fs.bytes_pos
  have hoff : fs.slotOff s + 32 ≤ fs.bytesPerSector := by
    have hlt := slotOff_lt fs s
    have hdvd := slotOff_dvd hs
    have hdvd' := fs.bytes_dvd
    omega
  have hsplit : s.offset = s.offset / fs.bytesPerSector * fs.bytesPerSector + fs.slotOff s := by
    rw [mul_comm]
    exact (Nat.div_add_mod s.offset fs.bytesPerSector).symm
  refine Vol.ext rfl ?_
  refine congrArg (update V.data s.cluster) (funext fun o => ?_)
  generalize hq : s.offset / fs.bytesPerSector = q at hb hsplit ⊢
  by_cases ho : s.offset ≤ o ∧ o < s.offset + 32
  · have hdiv : o / fs.bytesPerSector = q := by
      rw [Nat.div_eq_iff hpos]
      constructor <;> omega
    have hmod : o % fs.bytesPerSector = fs.slotOff s + (o - s.offset) := by
      have := Nat.div_add_mod o fs.bytesPerSector
      rw [hdiv, mul_comm] at this
      omega
    have hlt : o < fs.clusterSize := by
      have hsec := hs.sector_lt
      rw [hq] at hsec
      rwa [← hdiv, Nat.div_lt_iff_lt_mul hpos] at hsec
    rw [if_pos ⟨hlt, hdiv⟩, if_pos ho, hmod, he _ (by omega)]
  · split_ifs with hsec
    · have hmod := Nat.div_add_mod o fs.bytesPerSector
      rw [hsec.2, mul_comm] at hmod
      have hlt := Nat.mod_lt o hpos
      rw [hedit _ (by omega), hb _ hlt, hmod]
    · rfl

/-! ### Tables -/

theorem Vol.setFat_self {v : ℕ} : (V.setFat c v).fat c = v := update_self _ _ _

theorem Vol.setFat_of_ne {v c' : ℕ} (h : c' ≠ c) : (V.setFat c v).fat c' = V.fat c' :=
  update_of_ne h _ _

def Vol.linkAfter (V : Vol) (prev c : ℕ) : Vol :=
  if prev = 0 then V.setFat c endMark else (V.setFat c endMark).setFat prev c

def Vol.zeroTo (fs : Fs) (V : Vol) (c k : ℕ) : Vol :=
  { V with data := update V.data c fun o => if o < k * fs.bytesPerSector then 0 else V.data c o }

def Vol.claim (fs : Fs) (V : Vol) (prev c : ℕ) : Vol :=
  (V.linkAfter prev c).zeroTo fs c fs.sectorsPerCluster

theorem Vol.zeroTo_zero : V.zeroTo fs c 0 = V := by
  refine Vol.ext rfl ?_
  refine (congrArg (update V.data c) (funext fun o => ?_)).trans (update_eq_self _ _)
  exact if_neg (by omega)

theorem Vol.zeroTo_succ {k : ℕ} (hk : k < fs.sectorsPerCluster) :
    (V.zeroTo fs c k).setSector fs c k (fun _ => 0) = V.zeroTo fs c (k + 1) := by
  have hpos := fs.bytes_pos
  have hle : (k + 1) * fs.bytesPerSector ≤ fs.clusterSize := Nat.mul_le_mul_right _ hk
  have hsucc : (k + 1) * fs.bytesPerSector = k * fs.bytesPerSector + fs.bytesPerSector := by ring
  unfold Vol.setSector Vol.zeroTo
  refine Vol.ext rfl ?_
  dsimp only
  rw [update_idem, update_self]
  refine congrArg (update V.data c) (funext fun o => ?_)
  by_cases ho : o / fs.bytesPerSector = k
  · have hmod := Nat.div_add_mod o fs.bytesPerSector
    rw [ho, mul_comm] at hmod
    have hlt := Nat.mod_lt o hpos
    rw [if_pos ⟨by omega, ho⟩, if_pos (by omega)]
  · rw [if_neg fun h => ho h.2]
    rw [Nat.div_eq_iff hpos] at ho
    refine if_congr ?_ rfl rfl
    constructor <;> omega

theorem Vol.zeroTo_data {k c' : ℕ} (h : c' ≠ c) : (V.zeroTo fs c k).data c' = V.data c' :=
  update_of_ne h _ _

@[simp] theorem Vol.linkAfter_data {prev : ℕ} : (V.linkAfter prev c).data = V.data := by
  unfold Vol.linkAfter
  split_ifs <;> rfl

def Vol.freed (V : Vol) (l : List ℕ) : Vol :=
  { V with fat := fun c => if c ∈ l then 0 else V.fat c }

theorem Vol.freed_nil : V.freed [] = V := by
  refine Vol.ext (funext fun c => ?_) rfl
  change (if c ∈ [] then 0 else V.fat c) = V.fat c
  exact if_neg not_mem_nil

theorem Vol.freed_append (l1 l2 : List ℕ) : (V.freed l1).freed l2 = V.freed (l1 ++ l2) := by
  refine Vol.ext (funext fun c => ?_) rfl
  dsimp only [Vol.freed]
  simp only [mem_append]
  split_ifs <;> first | rfl | (exfalso; tauto)

theorem Vol.freed_singleton : V.freed [c] = V.setFat c 0 := by
  refine Vol.ext (funext fun c' => ?_) rfl
  dsimp only [Vol.freed, Vol.setFat]
  by_cases h : c' = c
  · rw [h, update_self, if_pos mem_cons_self]
  · rw [update_of_ne h, if_neg fun hmem => h (mem_singleton.mp hmem)]

end TaterTOS.Fat32
