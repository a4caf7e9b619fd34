import TaterTOS.Lib.Memory
import TaterTOS.Lib.Word

/-!
# NTFS run lists

A model of `ntfs_decode_data_runs` in `kernel/fs/ntfs.c`. Positions are 32-bit words; the bytes
behind `max_len` belong to no run list.

* `Encodes`: the format of a run list, with fields of any sizes;
* **`decode_exact`**, **`no_room_for_none`**: what the decoder returns.
-/

namespace TaterTOS.Ntfs

open Lib

/-! ### The decoder -/

structure DataRun where
  lcn : ℕ
  length : ℕ
  deriving DecidableEq

def lcnSparse : ℕ := 2 ^ 64 - 1

def readField (m : Mem) (pos : ℕ) : ℕ → ℕ
  | 0 => 0
  | i + 1 => readField m pos i ||| (m (u32 (pos + i))).toNat <<< (i * 8)

/-- `raw_delta` after the sign extension. -/
def rawDelta (m : Mem) (pos offSize : ℕ) : ℕ :=
  let raw := readField m pos offSize
  if (m (u32 (pos + offSize - 1))).toNat &&& 0x80 ≠ 0 ∧ offSize < 8 then
    raw ||| (2 ^ 64 - 2 ^ (offSize * 8))
  else raw

def ntfsLcnApplyDelta (cur delta : ℕ) : Option ℕ :=
  if delta < 2 ^ 63 then
    if 2 ^ 64 - 1 - delta < cur then none else some (cur + delta)
  else if cur < 2 ^ 64 - delta then none
  else some (cur - (2 ^ 64 - delta))

/-- One turn of the loop: the run, the next position and `prev_lcn`; `none` if it is malformed. -/
def decodeRun (m : Mem) (maxLen pos prevLcn : ℕ) : Option (DataRun × ℕ × ℕ) :=
  let lenSize := (m pos).toNat &&& 0x0F
  let offSize := ((m pos).toNat >>> 4) &&& 0x0F
  let pos := u32 (pos + 1)
  if lenSize = 0 ∨ 8 < lenSize ∨ 8 < offSize ∨ maxLen < u32 (pos + lenSize + offSize) then none
  else
    let runLength := readField m pos lenSize
    let pos := u32 (pos + lenSize)
    if runLength = 0 then none
    else if offSize = 0 then some (⟨lcnSparse, runLength⟩, pos, prevLcn)
    else (ntfsLcnApplyDelta prevLcn (rawDelta m pos offSize)).map fun lcn =>
      (⟨lcn, runLength⟩, u32 (pos + offSize), lcn)

/-- The loop while there is room for runs, and the check behind it. -/
def decodeLoop (m : Mem) (maxLen : ℕ) : ℕ → ℕ → ℕ → Option (List DataRun)
  | 0, pos, _ => if pos < maxLen ∧ m pos ≠ 0 then none else some []
  | room + 1, pos, prevLcn =>
    if pos < maxLen ∧ m pos ≠ 0 then
      (decodeRun m maxLen pos prevLcn).bind fun r =>
        (decodeLoop m maxLen room r.2.1 r.2.2).map (r.1 :: ·)
    else some []

def ntfsDecodeDataRuns (m : Mem) (maxLen maxRuns : ℕ) : Option (List DataRun) :=
  if maxRuns = 0 then none else decodeLoop m maxLen maxRuns 0 0

/-! ### The format -/

structure Run where
  lcn : Option ℕ
  length : ℕ

def Run.toDataRun (r : Run) : DataRun := ⟨r.lcn.getD lcnSparse, r.length⟩

def signed (m : Mem) (a k : ℕ) : ℤ :=
  if load m a k < 2 ^ (k * 8 - 1) then load m a k else load m a k - 2 ^ (k * 8)

/-- The bytes from `pos` to `stop` encode a run, after a run at `prev`. -/
inductive EncodesRun (m : Mem) (pos prev : ℕ) : Run → ℕ → ℕ → Prop
  | sparse {n : ℕ} (hhead : (m pos).toNat = n) (hn : 1 ≤ n ∧ n ≤ 8)
      (hlen : load m (pos + 1) n ≠ 0) :
      EncodesRun m pos prev ⟨none, load m (pos + 1) n⟩ (pos + 1 + n) prev
  | placed {n k lcn : ℕ} (hhead : (m pos).toNat = 16 * k + n) (hn : 1 ≤ n ∧ n ≤ 8)
      (hk : 1 ≤ k ∧ k ≤ 8) (hlen : load m (pos + 1) n ≠ 0)
      (hlcn : (lcn : ℤ) = prev + signed m (pos + 1 + n) k) (hlt : lcn < 2 ^ 64) :
      EncodesRun m pos prev ⟨some lcn, load m (pos + 1) n⟩ (pos + 1 + n + k) lcn

inductive Encodes (m : Mem) : ℕ → ℕ → List Run → ℕ → Prop
  | nil {pos prev : ℕ} : Encodes m pos prev [] pos
  | cons {pos prev mid lcn stop : ℕ} {r : Run} {rs : List Run}
      (hr : EncodesRun m pos prev r mid lcn)
      (hrs : Encodes m mid lcn rs stop) : Encodes m pos prev (r :: rs) stop

def Terminated (m : Mem) (maxLen stop : ℕ) : Prop := stop = maxLen ∨ stop < maxLen ∧ m stop = 0

variable {m : Mem} {maxLen room pos prev stop n k : ℕ} {r : Run} {rs : List Run}

/-! ### Fields -/

theorem readField_eq (h : pos + n ≤ 2 ^ 32) : readField m pos n = load m pos n := by
  induction n with
  | zero => rfl
  | succ n ih =>
    have hlt : load m pos n < 2 ^ (n * 8) := by
      rw [mul_comm, pow_mul]
      exact load_lt m pos n
    rw [readField, load, ih (by omega), u32_of_lt (by omega), Nat.or_comm, Nat.shiftLeft_eq,
      mul_comm, ← Nat.two_pow_add_eq_or_of_lt hlt, add_comm, mul_comm n, pow_mul]
    rfl

theorem load_lt_iff (m : Mem) (a k : ℕ) :
    load m a (k + 1) < 2 ^ ((k + 1) * 8 - 1) ↔ (m (a + k)).toNat &&& 0x80 = 0 := by
  have hlow := load_lt m a k
  have hbyte := (m (a + k)).toNat_lt
  have hpow : 2 ^ ((k + 1) * 8 - 1) = 256 ^ k * 128 := by
    rw [show (k + 1) * 8 - 1 = 8 * k + 7 by omega, pow_add, pow_mul]
    rfl
  have hbit : ∀ b : Fin 256, b.val &&& 0x80 = 0 ↔ b.val < 128 := by decide +kernel
  refine Iff.trans ?_ (hbit ⟨_, hbyte⟩).symm
  dsimp only
  rw [load]
  generalize (m (a + k)).toNat = b at *
  constructor
  · intro h
    by_contra hb
    have := Nat.mul_le_mul_left (256 ^ k) (not_lt.mp hb)
    omega
  · intro h
    have := Nat.mul_le_mul_left (256 ^ k) (Nat.succ_le_of_lt h)
    rw [Nat.mul_succ] at this
    omega

theorem rawDelta_eq (h : pos + k ≤ 2 ^ 32) (hk : 1 ≤ k ∧ k ≤ 8) :
    (rawDelta m pos k : ℤ) = signed m pos k + (if signed m pos k < 0 then 2 ^ 64 else 0) ∧
      -2 ^ 63 ≤ signed m pos k ∧ signed m pos k < 2 ^ 63 := by
  obtain ⟨j, rfl⟩ : ∃ j, k = j + 1 := ⟨k - 1, by omega⟩
  have hlt := load_lt m pos (j + 1)
  have htop := load_lt_iff m pos j
  unfold rawDelta signed
  rw [readField_eq h, Nat.add_sub_assoc hk.1, Nat.add_sub_cancel, u32_of_lt (by omega)]
  simp only [ne_eq, ← htop]
  clear htop
  generalize load m pos (j + 1) = v at *
  have hj : j ≤ 7 := by omega
  have hor : v ||| (2 ^ 64 - 2 ^ ((j + 1) * 8)) = v + (2 ^ 64 - 2 ^ ((j + 1) * 8)) := by
    have hv : v < 2 ^ ((j + 1) * 8) := by
      rw [mul_comm, pow_mul]
      exact hlt
    have hmul : 2 ^ 64 - 2 ^ ((j + 1) * 8) = 2 ^ ((j + 1) * 8) * (2 ^ (64 - (j + 1) * 8) - 1) := by
      rw [Nat.mul_sub, ← pow_add, Nat.add_sub_cancel' (by omega), mul_one]
    rw [hmul, Nat.or_comm, ← Nat.two_pow_add_eq_or_of_lt hv, add_comm]
  rw [hor]
  clear hor h hk
  interval_cases j <;> norm_num at hlt ⊢ <;> split_ifs <;> omega

theorem applyDelta_iff (h : pos + k ≤ 2 ^ 32) (hk : 1 ≤ k ∧ k ≤ 8) (hprev : prev < 2 ^ 64)
    {lcn : ℕ} :
    ntfsLcnApplyDelta prev (rawDelta m pos k) = some lcn ↔
      (lcn : ℤ) = prev + signed m pos k ∧ lcn < 2 ^ 64 := by
  obtain ⟨heq, hge, hlt⟩ := rawDelta_eq (m := m) h hk
  unfold ntfsLcnApplyDelta
  split_ifs at heq ⊢ <;> simp only [Option.some.injEq, false_iff] <;> omega

/-! ### One run -/

theorem header_eq (b : UInt8) : b.toNat = 16 * (b.toNat >>> 4 &&& 0x0F) + (b.toNat &&& 0x0F) := by
  have h : ∀ b : Fin 256,
    b.val = 16 * (b.val >>> 4 &&& 0x0F) + (b.val &&& 0x0F) := by decide +kernel
  exact h ⟨_, b.toNat_lt⟩

theorem header_parts (hn : n < 16) (hk : k < 16) :
    (16 * k + n) &&& 0x0F = n ∧ (16 * k + n) >>> 4 &&& 0x0F = k := by
  have h : ∀ n k : Fin 16, (16 * k.val + n.val) &&& 0x0F = n.val ∧
      (16 * k.val + n.val) >>> 4 &&& 0x0F = k.val := by decide +kernel
  exact h ⟨n, hn⟩ ⟨k, hk⟩

theorem EncodesRun.bounds {lcn : ℕ} (h : EncodesRun m pos prev r stop lcn) (hprev : prev < 2 ^ 64) :
    pos < stop ∧ m pos ≠ 0 ∧ lcn < 2 ^ 64 := by
  cases h with
  | sparse hhead hn => exact ⟨by omega, fun h => by simp [h] at hhead; omega, hprev⟩
  | placed hhead hn hk _ _ hlt => exact ⟨by omega, fun h => by simp [h] at hhead; omega, hlt⟩

theorem EncodesRun.decode {lcn : ℕ} (h : EncodesRun m pos prev r stop lcn) (hprev : prev < 2 ^ 64)
    (hstop : stop ≤ maxLen) (hlen : maxLen < 2 ^ 32) :
    decodeRun m maxLen pos prev = some (r.toDataRun, stop, lcn) := by
  unfold decodeRun
  cases h with
  | @sparse n hhead hn hlength =>
    obtain ⟨h1, h2⟩ := @header_parts n 0 (by omega) (by omega)
    rw [mul_zero, zero_add] at h1 h2
    simp only [hhead, h1, h2, u32_of_lt (show pos + 1 < 2 ^ 32 by omega), add_zero,
      u32_of_lt (show pos + 1 + n < 2 ^ 32 by omega),
      readField_eq (show pos + 1 + n ≤ 2 ^ 32 by omega)]
    rw [if_neg (by omega), if_neg hlength]
    rfl
  | @placed n k lcn hhead hn hk hlength hlcn hlt =>
    obtain ⟨h1, h2⟩ := @header_parts n k (by omega) (by omega)
    have hdelta := (applyDelta_iff (m := m) (show pos + 1 + n + k ≤ 2 ^ 32 by omega) hk hprev).mpr
      ⟨hlcn, hlt⟩
    simp only [hhead, h1, h2, u32_of_lt (show pos + 1 < 2 ^ 32 by omega),
      u32_of_lt (show pos + 1 + n < 2 ^ 32 by omega),
      u32_of_lt (show pos + 1 + n + k < 2 ^ 32 by omega),
      readField_eq (show pos + 1 + n ≤ 2 ^ 32 by omega)]
    rw [if_neg (by omega), if_neg hlength, if_neg (by omega), hdelta]
    rfl

theorem decodeRun_some {d : DataRun × ℕ × ℕ} (h : decodeRun m maxLen pos prev = some d)
    (hpos : pos < maxLen) (hprev : prev < 2 ^ 64) (hlen : maxLen + 16 < 2 ^ 32) :
    ∃ r, EncodesRun m pos prev r d.2.1 d.2.2 ∧ d.2.1 ≤ maxLen ∧ d.1 = r.toDataRun := by
  unfold decodeRun at h
  have hhead := header_eq (m pos)
  generalize (m pos).toNat &&& 0x0F = n at *
  generalize (m pos).toNat >>> 4 &&& 0x0F = k at *
  dsimp only at h
  split_ifs at h with hbad hzero hk
  all_goals
    rw [u32_of_lt (show pos + 1 < 2 ^ 32 by omega)] at h hbad hzero
    rw [u32_of_lt (by omega)] at hbad
    rw [readField_eq (by omega)] at h hzero
    rw [u32_of_lt (show pos + 1 + n < 2 ^ 32 by omega)] at h
  · cases h
    exact ⟨_, .sparse (by omega) (by omega) hzero, by dsimp only; omega, rfl⟩
  · obtain ⟨lcn, hlcn, rfl⟩ := Option.map_eq_some_iff.mp h
    obtain ⟨heq, hlt⟩ := (applyDelta_iff (by omega) (by omega) hprev).mp hlcn
    rw [u32_of_lt (by omega)]
    exact ⟨_, .placed hhead (by omega) (by omega) hzero heq hlt, by dsimp only; omega, rfl⟩

/-! ### Run lists -/

theorem Encodes.decode (h : Encodes m pos prev rs stop) (hprev : prev < 2 ^ 64)
    (hstop : stop ≤ maxLen) (hterm : Terminated m maxLen stop) (hlen : maxLen < 2 ^ 32) (room : ℕ) :
    pos ≤ stop ∧ decodeLoop m maxLen room pos prev =
      if rs.length ≤ room then some (rs.map Run.toDataRun) else none := by
  induction h generalizing room with
  | nil =>
    rcases hterm with rfl | ⟨-, hzero⟩
    · cases room <;> simp [decodeLoop]
    · cases room <;> simp [decodeLoop, hzero]
  | @cons pos prev mid lcn stop r rs hr hrs ih =>
    obtain ⟨hlt, hhead, hlcn⟩ := hr.bounds hprev
    obtain ⟨hle, -⟩ := ih hlcn hstop hterm 0
    refine ⟨by omega, ?_⟩
    have hgo : pos < maxLen ∧ m pos ≠ 0 := ⟨by omega, hhead⟩
    cases room with
    | zero => simp [decodeLoop, hgo]
    | succ room =>
      rw [decodeLoop, if_pos hgo, hr.decode hprev (by omega) hlen, Option.bind_some,
        (ih hlcn hstop hterm room).2]
      by_cases hroom : rs.length ≤ room <;> simp [hroom]

theorem decodeLoop_some {l : List DataRun} (h : decodeLoop m maxLen room pos prev = some l)
    (hpos : pos ≤ maxLen) (hprev : prev < 2 ^ 64) (hlen : maxLen + 16 < 2 ^ 32) :
    ∃ rs stop, Encodes m pos prev rs stop ∧ stop ≤ maxLen ∧ Terminated m maxLen stop ∧
      l = rs.map Run.toDataRun := by
  induction room generalizing pos prev l with
  | zero =>
    unfold decodeLoop at h
    split_ifs at h with hend
    cases h
    exact ⟨[], pos, .nil, hpos, by unfold Terminated; grind, rfl⟩
  | succ room ih =>
    unfold decodeLoop at h
    split_ifs at h with hgo
    · obtain ⟨d, hd, hrest⟩ := Option.bind_eq_some_iff.mp h
      obtain ⟨l, hl, rfl⟩ := Option.map_eq_some_iff.mp hrest
      obtain ⟨r, hr, hle, heq⟩ := decodeRun_some hd hgo.1 hprev hlen
      obtain ⟨rs, stop, hrs, hstop, hterm, rfl⟩ := ih hl hle (hr.bounds hprev).2.2
      exact ⟨r :: rs, stop, .cons hr hrs, hstop, hterm, by rw [heq, List.map_cons]⟩
    · cases h
      exact ⟨[], pos, .nil, hpos, by unfold Terminated; grind, rfl⟩

/-- **Run lists decode exactly.** If the buffer holds an encoding of a list of runs, up to its end
or to a zero, the decoder returns this list, or fails when there are more than `max_runs`. If it
returns a list for any bytes, the buffer holds an encoding of it, and of no other list. -/
theorem decode_exact (m : Mem) (maxLen maxRuns : ℕ) (hruns : 0 < maxRuns) (hlen : maxLen < 2 ^ 32) :
    (∀ rs stop, Encodes m 0 0 rs stop → stop ≤ maxLen → Terminated m maxLen stop →
      ntfsDecodeDataRuns m maxLen maxRuns =
        if rs.length ≤ maxRuns then some (rs.map Run.toDataRun) else none) ∧
    (maxLen + 16 < 2 ^ 32 → ∀ l, ntfsDecodeDataRuns m maxLen maxRuns = some l →
      ∃ rs stop, Encodes m 0 0 rs stop ∧ stop ≤ maxLen ∧ Terminated m maxLen stop ∧
        l = rs.map Run.toDataRun ∧ ∀ rs' stop', Encodes m 0 0 rs' stop' → stop' ≤ maxLen →
          Terminated m maxLen stop' → l = rs'.map Run.toDataRun) := by
  have hdecode : ∀ rs stop, Encodes m 0 0 rs stop → stop ≤ maxLen → Terminated m maxLen stop →
      ntfsDecodeDataRuns m maxLen maxRuns =
        if rs.length ≤ maxRuns then some (rs.map Run.toDataRun) else none := by
    intro rs stop h hstop hterm
    rw [ntfsDecodeDataRuns, if_neg hruns.ne']
    exact (h.decode (by norm_num) hstop hterm hlen maxRuns).2
  refine ⟨hdecode, fun hroom l hl => ?_⟩
  have hloop := hl
  rw [ntfsDecodeDataRuns, if_neg hruns.ne'] at hloop
  obtain ⟨rs, stop, h, hstop, hterm, heq⟩ :=
    decodeLoop_some hloop (Nat.zero_le _) (by norm_num) hroom
  refine ⟨rs, stop, h, hstop, hterm, heq, fun rs' stop' h' hstop' hterm' => ?_⟩
  have hother := (hdecode rs' stop' h' hstop' hterm').symm.trans hl
  split_ifs at hother
  exact (Option.some.inj hother).symm

def twoRuns : Mem := put (fun _ => 0) 0 [0x11, 5, 3, 0x01, 2]

theorem decode_exact_twoRuns :
    ntfsDecodeDataRuns twoRuns 6 2 = some [⟨3, 5⟩, ⟨lcnSparse, 2⟩] ∧
    ∃ rs stop, Encodes twoRuns 0 0 rs stop ∧ Terminated twoRuns 6 stop ∧
      [⟨3, 5⟩, ⟨lcnSparse, 2⟩] = rs.map Run.toDataRun := by
  have hdecode : ntfsDecodeDataRuns twoRuns 6 2 = some [⟨3, 5⟩, ⟨lcnSparse, 2⟩] := by decide +kernel
  obtain ⟨rs, stop, h, -, hterm, heq, -⟩ :=
    (decode_exact twoRuns 6 2 (by norm_num) (by norm_num)).2 (by norm_num) _ hdecode
  exact ⟨hdecode, rs, stop, h, hterm, heq⟩

/-- Sparse runs of four bytes each, but for the last one before `2^32`, which is of five. -/
def wrapping : Mem := fun x =>
  if x = 2 ^ 32 - 4 then 4 else if x % 4 = 0 then 3 else if x % 4 = 2 then 1 else 0

theorem wrapping_head {i : ℕ} (hi : i + 1 < 2 ^ 30) : wrapping (4 * i) = 3 := by
  rw [wrapping, if_neg (by omega), if_pos (by omega)]

theorem wrapping_run {i : ℕ} (hi : i + 1 < 2 ^ 30) :
    EncodesRun wrapping (4 * i) 0 ⟨none, 256⟩ (4 * (i + 1)) 0 := by
  have hload : load wrapping (4 * i + 1) 3 = 256 := by
    have h0 : wrapping (4 * i + 1) = 0 := by
      rw [wrapping, if_neg (by omega), if_neg (by omega), if_neg (by omega)]
    have h1 : wrapping (4 * i + 1 + 1) = 1 := by
      rw [wrapping, if_neg (by omega), if_neg (by omega), if_pos (by omega)]
    have h2 : wrapping (4 * i + 1 + 2) = 0 := by
      rw [wrapping, if_neg (by omega), if_neg (by omega), if_neg (by omega)]
    simp [load, h0, h1, h2]
  have h := @EncodesRun.sparse wrapping (4 * i) 0 3 (by rw [wrapping_head hi]; rfl)
    (by decide) (by rw [hload]; decide)
  rwa [hload] at h

theorem decodeLoop_wrapping (j : ℕ) {i : ℕ} (h : i + j + 1 = 2 ^ 30) :
    ∃ l, decodeLoop wrapping (2 ^ 32 - 1) (j + 1) (4 * i) 0 = some l := by
  induction j generalizing i with
  | zero =>
    obtain rfl : i = 2 ^ 30 - 1 := by omega
    exact ⟨[⟨lcnSparse, 3 * 2 ^ 24 + 256⟩], by decide +kernel⟩
  | succ j ih =>
    have hi : i + 1 < 2 ^ 30 := by omega
    obtain ⟨l, hl⟩ := @ih (i + 1) (by omega)
    have hgo : 4 * i < 2 ^ 32 - 1 ∧ wrapping (4 * i) ≠ 0 :=
      ⟨by omega, by rw [wrapping_head hi]; decide⟩
    rw [decodeLoop, if_pos hgo, (wrapping_run hi).decode (by norm_num) (by omega) (by norm_num),
      Option.bind_some, hl]
    exact ⟨_, rfl⟩

theorem wrapping_not_encoded (h : Encodes wrapping pos prev rs stop)
    (hpos : (∃ i < 2 ^ 30, pos = 4 * i) ∨ 2 ^ 32 ≤ pos) (hstop : stop ≤ 2 ^ 32 - 1) :
    ¬Terminated wrapping (2 ^ 32 - 1) stop := by
  have hhead : ∀ i < 2 ^ 30, (wrapping (4 * i)).toNat = if i + 1 < 2 ^ 30 then 3 else 4 := by
    intro i hi
    split_ifs with hlt
    · exact congrArg _ (wrapping_head hlt)
    · exact congrArg _ (if_pos (by omega))
  induction h with
  | @nil pos prev =>
    obtain ⟨i, hi, rfl⟩ | hpos := hpos
    · rintro (hend | ⟨-, hzero⟩)
      · omega
      · have hthree := hhead i hi
        rw [hzero] at hthree
        split_ifs at hthree <;> exact absurd hthree (by decide)
    · omega
  | @cons pos prev mid lcn stop r rs hr hrs ih =>
    refine ih ?_ hstop
    obtain ⟨i, hi, rfl⟩ | hpos := hpos
    · cases hr with
      | sparse hn =>
        rw [hhead i hi] at hn
        split_ifs at hn with hlt
        · exact .inl ⟨i + 1, hlt, by omega⟩
        · exact .inr (by omega)
      | placed hn _ hk =>
        rw [hhead i hi] at hn
        split_ifs at hn <;> omega
    · cases hr <;> exact .inr (by omega)

/-- **Without room for runs the empty list is refused**, although it has no more than `max_runs`. In
a buffer that ends with the 32-bit words the position wraps, and bytes that encode no list are
decoded. -/
theorem no_room_for_none : Encodes (fun _ => 0) 0 0 [] 0 ∧ Terminated (fun _ => 0) 1 0 ∧
    ([] : List Run).length ≤ 0 ∧ ntfsDecodeDataRuns (fun _ => 0) 1 0 ≠ some [] ∧
    (∃ l, ntfsDecodeDataRuns wrapping (2 ^ 32 - 1) (2 ^ 30) = some l) ∧
    ∀ rs stop, Encodes wrapping 0 0 rs stop → stop ≤ 2 ^ 32 - 1 →
      ¬Terminated wrapping (2 ^ 32 - 1) stop := by
  refine ⟨.nil, .inr ⟨one_pos, rfl⟩, le_rfl, nofun, ?_, fun rs stop h hstop => ?_⟩
  · obtain ⟨l, hl⟩ := @decodeLoop_wrapping (2 ^ 30 - 1) 0 (by norm_num)
    rw [show 2 ^ 30 - 1 + 1 = 2 ^ 30 by norm_num] at hl
    exact ⟨l, (if_neg (by norm_num)).trans hl⟩
  · exact wrapping_not_encoded h (.inl ⟨0, by norm_num, rfl⟩) hstop
end TaterTOS.Ntfs
