import TaterTOS.Process.Runs
import TaterTOS.Vmm.Tables

/-!
# Keys of futex words
-/

namespace TaterTOS.Process

open Lib Sched

variable {σ γ : Type}
  {vm : Vmm.State} {uaddr key n : ℕ} {t : Table σ} {i : Slot} {y : System Unit Unit}

def EFAULT : ℤ := 14
def EINVAL : ℤ := 22

def pageSize : ℕ := 4096

def userTop : ℕ := Vmm.userVaTop

/-! ### User addresses -/

def userPtrOk (ptr len : ℕ) : Bool :=
  if userTop ≤ ptr then false
  else if len = 0 then true
  else if u64 (ptr + len) < ptr then false
  else u64 (ptr + len) ≤ userTop

/-- The loop over the pages from `va` to `last`; the fuel is their number. -/
def pagesAccessible (vm : Vmm.State) (cr3 : ℕ) (wantWrite : Bool) (last : ℕ) : ℕ → ℕ → Bool
  | 0, _ => false
  | fuel + 1, va =>
    let flags := Vmm.vmmQueryUserFlags vm cr3 va
    if flags &&& Vmm.flagPresent = 0 then false
    else if flags &&& Vmm.flagUser = 0 then false
    else if wantWrite = true ∧ flags &&& Vmm.flagWrite = 0 then false
    else if va = last then true
    else if userTop - pageSize < va then false
    else pagesAccessible vm cr3 wantWrite last fuel (u64 (va + pageSize))

def userBufAccessible (vm : Vmm.State) (cr3 ptr len : ℕ) (wantWrite : Bool) : Bool :=
  if cr3 = 0 then false
  else if !userPtrOk ptr len then false
  else if len = 0 then true
  else
    let va := alignDown ptr pageSize
    let last := alignDown (ptr + len - 1) pageSize
    pagesAccessible vm cr3 wantWrite last ((last - va) / pageSize + 1) va

def userBufMapped (vm : Vmm.State) (cr3 ptr len : ℕ) : Bool :=
  userBufAccessible vm cr3 ptr len false

/-! ### Keys -/

def privateKey (ownerPid uaddr : ℕ) : ℕ :=
  0x8000000000000000 ||| ((ownerPid &&& 0x7FFF) <<< 48) ||| (uaddr &&& 0x0000FFFFFFFFFFFC)

def futexKeyForUserWordEx (t : Table σ) (vm : Vmm.State) (i : Slot) (uaddr : ℕ) (isPrivate : Bool) :
    Except ℤ ℕ :=
  let p := t.procs i
  if uaddr &&& 3 ≠ 0 then .error (-EINVAL)
  else if !userBufMapped vm p.cr3 uaddr 4 then .error (-EFAULT)
  else if isPrivate then
    match p.shared with
    | none => .error (-ESRCH)
    | some k => .ok (privateKey (t.procs k).owned.ownerPid uaddr)
  else
    let key := Vmm.vmmVirtToPhysUser vm p.cr3 uaddr
    if key = 0 then .error (-EFAULT) else .ok key

theorem lt_of_userBufMapped {cr3 ptr len : ℕ} (h : userBufMapped vm cr3 ptr len = true) :
    ptr < userTop := by
  unfold userBufMapped userBufAccessible at h
  by_contra hge
  have hptr : userPtrOk ptr len = false := by
    unfold userPtrOk
    rw [if_pos (not_lt.mp hge)]
  rw [hptr] at h
  simp at h

theorem privateKey_eq (ownerPid : ℕ) (hlt : uaddr < 2 ^ 48) (halign : uaddr &&& 3 = 0) :
    privateKey ownerPid uaddr = 2 ^ 63 + ownerPid % 2 ^ 15 * 2 ^ 48 + uaddr := by
  have hmod : uaddr % 2 ^ 2 = 0 := by rwa [← Nat.and_two_pow_sub_one_eq_mod]
  have haddr : uaddr &&& 0x0000FFFFFFFFFFFC = uaddr := by
    have hmask : 0x0000FFFFFFFFFFFC = (2 ^ 48 - 1) &&& not64 (2 ^ 2 - 1) := by decide
    rw [hmask, ← Nat.and_assoc, Nat.and_two_pow_sub_one_eq_mod, Nat.mod_eq_of_lt hlt,
      and_not64_two_pow _ (by norm_num) (hlt.trans (by norm_num))]
    omega
  have hpid : ownerPid &&& 0x7FFF = ownerPid % 2 ^ 15 := Nat.and_two_pow_sub_one_eq_mod ownerPid 15
  unfold privateKey
  rw [haddr, hpid, Nat.or_assoc, ← Nat.shiftLeft_add_eq_or_of_lt hlt, Nat.shiftLeft_eq,
    ← Nat.two_pow_add_eq_or_of_lt (by omega : ownerPid % 2 ^ 15 * 2 ^ 48 + uaddr < 2 ^ 63) 1]
  omega

theorem vmmVirtToPhysUser_lt (vm : Vmm.State) (pml4 virt : ℕ) :
    Vmm.vmmVirtToPhysUser vm pml4 virt < 2 ^ 63 := by
  have hsum : ∀ e m, m < 2 ^ 30 → u64 (Vmm.frameOf e + (virt &&& m)) < 2 ^ 63 := by
    intro e m hm
    have he := Vmm.frameOf_lt e
    have hv : virt &&& m ≤ m := Nat.and_le_right
    unfold u64
    omega
  unfold Vmm.vmmVirtToPhysUser
  dsimp only
  split_ifs
  all_goals first
    | exact hsum _ _ (by norm_num)
    | norm_num

theorem privateKey_of_ok (h : futexKeyForUserWordEx t vm i uaddr true = .ok key) :
    ∃ k, (t.procs i).shared = some k ∧
      uaddr < 2 ^ 47 ∧ key = 2 ^ 63 + (t.procs k).owned.ownerPid % 2 ^ 15 * 2 ^ 48 + uaddr := by
  unfold futexKeyForUserWordEx at h
  simp only [↓reduceIte] at h
  split_ifs at h with halign hmapped
  cases hk : (t.procs i).shared with
  | none =>
    rw [hk] at h
    exact absurd h nofun
  | some k =>
    rw [hk] at h
    have hlt : uaddr < 2 ^ 47 := lt_of_userBufMapped (by simpa using hmapped)
    refine ⟨k, rfl, hlt, ?_⟩
    rw [← Except.ok.inj h]
    exact privateKey_eq _ (hlt.trans (by norm_num)) (not_not.mp halign)

theorem futexKey_private {k : Slot} (hk : (t.procs i).shared = some k) (halign : uaddr &&& 3 = 0)
    (hmapped : userBufMapped vm (t.procs i).cr3 uaddr 4 = true) :
    futexKeyForUserWordEx t vm i uaddr true =
      .ok (privateKey (t.procs k).owned.ownerPid uaddr) := by
  unfold futexKeyForUserWordEx
  simp only [halign, hmapped, hk, ne_eq, not_true_eq_false, Bool.not_true, Bool.false_eq_true,
    ↓reduceIte]

theorem sharedKey_lt (h : futexKeyForUserWordEx t vm i uaddr false = .ok key) : key < 2 ^ 63 := by
  unfold futexKeyForUserWordEx at h
  simp only [Bool.false_eq_true, ↓reduceIte] at h
  split_ifs at h
  rw [← Except.ok.inj h]
  exact vmmVirtToPhysUser_lt vm _ _

variable {R : Resources σ γ} {act : Table σ → Slot → γ → σ → γ → Prop}

/-- **Futex keys identify words** exactly as far as the pids in them do: in every run in which pids
are not used up, equal private keys of two tasks mean one process, one page table and one address,
if and only if the two are not, at one address, tasks of different groups whose pids agree in
fifteen bits. No private key is the key of a shared word. -/
theorem futexKey_identifies {limit kernelPml4 : ℕ} {world : γ} {y : System σ γ}
    (hlimit : limit < 2 ^ 32) (hpos : 0 < limit) (h : Reachable R act limit kernelPml4 world y)
    (vm : Vmm.State) {p q : Slot} (hp : (y.table.procs p).live = true)
    (hq : (y.table.procs q).live = true) {a b key key' : ℕ}
    (hkey : futexKeyForUserWordEx y.table vm p a true = .ok key)
    (hkey' : futexKeyForUserWordEx y.table vm q b true = .ok key') :
    ((key = key' → (y.table.procs p).shared = (y.table.procs q).shared ∧
        (y.table.procs p).cr3 = (y.table.procs q).cr3 ∧ a = b) ↔
      (a = b → (y.table.procs p).tgid % 2 ^ 15 = (y.table.procs q).tgid % 2 ^ 15 →
        (y.table.procs p).tgid = (y.table.procs q).tgid)) ∧
    ∀ i c, futexKeyForUserWordEx y.table vm i c false ≠ .ok key := by
  have hinv := (h.inv hlimit hpos).1
  obtain ⟨k, hk, ha, hpkey⟩ := privateKey_of_ok hkey
  obtain ⟨k', hk', hb, hqkey⟩ := privateKey_of_ok hkey'
  have hbp := hinv.belongs p k hp hk
  have hbq := hinv.belongs q k' hq hk'
  rw [hbp.owner] at hpkey
  rw [hbq.owner] at hqkey
  rw [hbp.tgid, hbq.tgid]
  refine ⟨⟨fun hident haddr hpid => ?_, fun hpids heq => ?_⟩, fun i c hshared => ?_⟩
  · have hsame : some k = some k' := by
      rw [← hk, ← hk']
      exact (hident (by rw [hpkey, hqkey, haddr, hpid])).1
    rw [Option.some.inj hsame]
  · obtain ⟨hpid, haddr⟩ : (y.table.procs k).pid % 2 ^ 15 = (y.table.procs k').pid % 2 ^ 15 ∧
      a = b := by
      omega
    obtain rfl := hinv.pid_inj k k' (hpids haddr hpid) (hinv.pid_pos k hbp.leads.1)
    exact ⟨hk.trans hk'.symm, hbp.cr3.trans hbq.cr3.symm, haddr⟩
  · have := sharedKey_lt hshared
    omega

/-! ### Two processes -/

def mappedEverywhere : Vmm.State := ⟨fun _ _ => 0x1007, 0, []⟩

/-- The two threads of the first process have one key for a word, the second process has another
one. -/
theorem futexKey_identifies_twoProcesses :
    (∀ q ∈ [0, 1], futexKeyForUserWordEx twoProcesses.table mappedEverywhere q 0x1000 true =
        .ok (2 ^ 63 + 2 ^ 48 + 0x1000)) ∧
    (twoProcesses.table.procs 0).shared = (twoProcesses.table.procs 1).shared ∧
    futexKeyForUserWordEx twoProcesses.table mappedEverywhere 2 0x1000 true =
        .ok (2 ^ 63 + 3 * 2 ^ 48 + 0x1000) ∧
    futexKeyForUserWordEx twoProcesses.table mappedEverywhere 2 0x1000 false ≠
        .ok (2 ^ 63 + 2 ^ 48 + 0x1000) := by
  have hkey :
      ∀ q ∈ [0, 1], futexKeyForUserWordEx twoProcesses.table mappedEverywhere q 0x1000 true =
      .ok (2 ^ 63 + 2 ^ 48 + 0x1000) := by decide +kernel
  have h := futexKey_identifies (by norm_num) (by norm_num)
    (twoProcesses_reachable (by norm_num : 3 < 4)) mappedEverywhere (by decide +kernel)
    (by decide +kernel) (hkey 0 (by decide)) (hkey 1 (by decide))
  exact ⟨hkey, (h.1.mpr (fun _ _ => by decide +kernel) rfl).1, by decide +kernel, h.2 2 0x1000⟩

structure FirstOnly (y : System Unit Unit) (n : ℕ) : Prop where
  next : y.table.nextPid = n
  live : (y.table.procs 0).live = true
  pid : (y.table.procs 0).pid = 1
  cr3 : (y.table.procs 0).cr3 = 0x5000
  shared : (y.table.procs 0).shared = some 0
  owner : (y.table.procs 0).owned.ownerPid = 1
  free : ∀ j ≠ 0, (y.table.procs j).live = false

instance : NeZero Sched.procMax := ⟨by decide⟩

def secondProc (n : ℕ) : Proc Unit :=
  { clearedProc bare n with cr3 := 0x6000, shared := some 1, owned := ⟨n, 1, ()⟩ }

def secondStarted (y : System Unit Unit) : System Unit Unit :=
  ⟨(processCreateUser bare y.table 0x6000 true).2, y.world⟩

theorem FirstOnly.second (h : FirstOnly y n) (hn : n + 1 < 2 ^ 32) :
    (secondStarted y).table = y.table.put 1 (secondProc n) := by
  have hslots : slots = 0 :: 1 :: slots.tail.tail := by decide +kernel
  have hfind : slots.find? (fun i => !(y.table.procs i).live) = some 1 := by
    rw [hslots, List.find?_cons_of_neg (by simp [h.live]),
      List.find?_cons_of_pos (by simp [h.free 1 (by decide)])]
  have hu : u32 (n + 1) = n + 1 := u32_of_lt hn
  unfold secondStarted processCreateUser procAlloc
  rw [hfind, h.next, hu]
  have hput : ({ y.table.set 1 (clearedProc bare n) with nextPid := n + 1 } : Table Unit) =
      y.table.put 1 (clearedProc bare n) := by
    unfold Table.put
    rw [h.next]
  rw [Option.map_some, hput]
  dsimp only
  rw [startTask_put, Table.put_self]
  rfl

theorem FirstOnly.round (h : FirstOnly y n) (hn : n < 2 ^ 32 - 1) (hrun : BareRun (2 ^ 32 - 1) y) :
    ∃ y', BareRun (2 ^ 32 - 1) y' ∧ FirstOnly y' (n + 1) := by
  have hsecond := h.second (by omega)
  have hrun1 : BareRun (2 ^ 32 - 1) (secondStarted y) :=
    hrun.tail (Step.createUser (by rw [h.next]; exact hn) 0x6000 true)
  have hinv := (Reachable.inv (by norm_num) (by norm_num) hrun1).1
  have hself : (secondStarted y).table.procs 1 = secondProc n := by rw [hsecond, Table.put_self]
  have hother : ∀ j ≠ 1, (secondStarted y).table.procs j = y.table.procs j := by
    intro j hj
    rw [hsecond, Table.put_of_ne _ _ hj]
  have hlive : ((secondStarted y).table.procs 1).live = true := by
    rw [hself]
    rfl
  have hsafe := noCpu_safe (secondStarted y).table ((secondStarted y).table.procs 1).tgid
  obtain ⟨y1, k, he, -, hk, hf⟩ := hinv.exitGroup_freed (R := bare) hlive hsafe
  -- the process ends in its own slot
  have hk1 : k = 1 := by
    rcases hk with ⟨-, hk⟩ | hk
    · exact hk
    · rw [hself] at hk
      exact (Option.some.inj hk).symm
  subst hk1
  obtain ⟨hdead, -, hnext, -, hlike⟩ := hf.procs
  have hstay : ∀ j ≠ 1, (y.table.procs j).Like
      ((processExitGroup bare (secondStarted y) noCpu
        ((secondStarted y).table.procs 1).tgid).table.procs j) := by
    intro j hj
    rw [← hother j hj]
    refine (he.stay j ?_).trans (hlike j hj)
    -- only the first process lives besides, and it is its own group
    rintro ⟨hjlive, hjtgid, hjpid⟩
    by_cases hj0 : j = 0
    · subst hj0
      have hshared : ((secondStarted y).table.procs 0).shared = some 0 := by
        rw [hother 0 hj, h.shared]
      exact hjpid ((hinv.belongs 0 0 hjlive hshared).tgid.symm.trans hjtgid)
    · rw [hother j hj, h.free j hj0] at hjlive
      exact absurd hjlive nofun
  refine ⟨_, hrun1.tail (Step.exitGroup hlive hsafe), ?_⟩
  have h0 := hstay 0 (by decide)
  refine ⟨?_, ?_, ?_, ?_, ?_, ?_, ?_⟩
  · rw [hnext, he.nextPid, hsecond]
    change y.table.nextPid + 1 = n + 1
    rw [h.next]
  · rw [h0.live, h.live]
  · rw [h0.pid, h.pid]
  · rw [h0, h.cr3]
  · rw [h0.shared, h.shared]
  · rw [h0, h.owner]
  · intro j hj
    by_cases hj1 : j = 1
    · rw [hj1, hdead]
    · rw [(hstay j hj1).live, h.free j hj]

theorem firstOnly_reachable (m : ℕ) (hm : m + 2 < 2 ^ 32) :
    ∃ y, BareRun (2 ^ 32 - 1) y ∧ FirstOnly y (m + 2) := by
  induction m with
  | zero =>
    refine ⟨oneProcess, oneProcess_reachable (by norm_num), rfl, rfl, rfl, rfl, rfl, rfl, ?_⟩
    decide +kernel
  | succ m ih =>
    obtain ⟨y, hrun, h⟩ := ih (by omega)
    exact h.round (by omega) hrun

/-- **Two processes with one private key.** After `2 ^ 15` processes the pid in the key comes round,
and a new process has the key of the first one at the same address, in another page table. -/
theorem futexKey_collides : ∃ y, BareRun (2 ^ 32 - 1) y ∧ ∃ p q key,
    (y.table.procs p).live = true ∧ (y.table.procs q).live = true ∧
    (y.table.procs p).cr3 ≠ (y.table.procs q).cr3 ∧
    futexKeyForUserWordEx y.table mappedEverywhere p 0x1000 true = .ok key ∧
    futexKeyForUserWordEx y.table mappedEverywhere q 0x1000 true = .ok key := by
  obtain ⟨y, hrun, h⟩ := firstOnly_reachable (2 ^ 15 - 1) (by norm_num)
  have hsecond := h.second (by norm_num)
  have hfirst : (secondStarted y).table.procs 0 = y.table.procs 0 := by
    rw [hsecond, Table.put_of_ne _ _ (by decide)]
  have hself : (secondStarted y).table.procs 1 = secondProc (2 ^ 15 - 1 + 2) := by
    rw [hsecond, Table.put_self]
  refine ⟨secondStarted y, hrun.tail (Step.createUser (by rw [h.next]; norm_num) 0x6000 true), 0, 1,
    2 ^ 63 + 2 ^ 48 + 0x1000, ?_, ?_, ?_, ?_, ?_⟩
  · rw [hfirst, h.live]
  · rw [hself]
    rfl
  · rw [hfirst, hself, h.cr3]
    exact nofun
  · rw [futexKey_private (k := 0) (by rw [hfirst, h.shared]) rfl, hfirst, h.owner]
    · decide
    · rw [hfirst, h.cr3]
      decide +kernel
  · rw [futexKey_private (k := 1) (by rw [hself]; rfl) rfl, hself]
    · decide
    · rw [hself]
      decide +kernel

end TaterTOS.Process
