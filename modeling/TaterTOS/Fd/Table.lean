import TaterTOS.Lib.Tally
import TaterTOS.Fd.Close

/-!
# What calls do to the descriptors of a process
-/

namespace TaterTOS.Fd

open Function Lib

/-! ### One descriptor -/

variable {lo : ℤ} {fd i : FdIndex} {f : Files}

theorem fdIndex_some {fd : ℤ} (h : fdIndex lo fd = some i) : lo ≤ i.val ∧ fd = i.val := by
  unfold fdIndex at h
  split_ifs at h with hlt hle
  cases h
  dsimp only
  omega

theorem fdIndex_three {fd : ℤ} (h : fdIndex 3 fd = some i) : 3 ≤ i.val := by
  have := (fdIndex_some h).1
  omega

theorem freeFrom_some {lo : ℕ} (h : freeFrom f lo = some fd) :
    lo ≤ fd.val ∧ f.targets fd = .none := by
  have hfd := List.find?_some h
  rw [Bool.and_eq_true, decide_eq_true_eq, Bool.not_eq_true'] at hfd
  exact ⟨hfd.1, bne_eq_false_iff_eq.mp hfd.2⟩

theorem fdRelease_targets (h3 : 3 ≤ fd.val) :
    (fdRelease f fd).targets = update f.targets fd .none := by
  unfold fdRelease
  rw [if_neg (by omega)]
  exact set_targets f fd _

/-! ### How many descriptors refer to an end -/

section

variable {ι : Type} [Fintype ι] [DecidableEq ι] {g : ι → Target} {a : ι}

theorem tally_close (t : Target) (ht : t ≠ .none) :
    tally (update g a .none) t = tally g t - if g a = t then 1 else 0 := by
  have h := tally_update g a .none t
  rw [if_neg ht.symm] at h
  omega

end

/-! ### The calls -/

theorem sysClose_spec (v : View) (fd : ℤ) : (sysClose v fd).2 = v ∨ ∃ i, v.files.targets i ≠ .none ∧
      (sysClose v fd).2.files.targets = update v.files.targets i .none ∧
      (sysClose v fd).2.world = closeTarget v.world (v.files.targets i) := by
  unfold sysClose
  cases hfd : fdIndex 3 fd with
  | none => exact .inl rfl
  | some i =>
    dsimp only
    split_ifs with hnone
    · exact .inl rfl
    · exact .inr ⟨i, hnone, fdRelease_targets (fdIndex_three hfd), rfl⟩

theorem sysDup_spec (v : View) (fd : ℤ) : (sysDup v fd).2 = v ∨
    ∃ i j, fdIndex 3 fd = some i ∧ v.files.targets j = .none ∧
      (sysDup v fd).2.files.targets = update v.files.targets j (v.files.targets i) ∧
      (sysDup v fd).2.world = retainTarget v.world (v.files.targets i) := by
  unfold sysDup
  cases hfd : fdIndex 3 fd with
  | none => exact .inl rfl
  | some i =>
    dsimp only
    split_ifs with hnone
    · exact .inl rfl
    · cases hfree : fdAlloc v.files with
      | none => exact .inl rfl
      | some j =>
        obtain ⟨h3, hj⟩ := freeFrom_some hfree
        exact .inr ⟨i, j, rfl, hj, copyFd_spec h3 _⟩

theorem sysDup2_spec (v : View) (oldfd newfd : ℤ) : (sysDup2 v oldfd newfd).2 = v ∨
    ∃ i j, i ≠ j ∧ fdIndex 0 oldfd = some i ∧ fdIndex 3 newfd = some j ∧
      (sysDup2 v oldfd newfd).2.files.targets = update v.files.targets j (v.files.targets i) ∧
      (sysDup2 v oldfd newfd).2.world =
        retainTarget (dup2Target v.world (v.files.targets j)) (v.files.targets i) := by
  unfold sysDup2
  split
  next i j hi hj =>
    have h3 := fdIndex_three hj
    split_ifs with hnone hij
    · exact .inl rfl
    · exact .inl rfl
    · refine .inr ⟨i, j, hij, hi, hj, ?_⟩
      rw [(copyFd_spec h3 _).1, (copyFd_spec h3 _).2]
      split_ifs with ht
      · have hworld : dup2Target v.world (v.files.targets j) = v.world := by
          unfold Files.targets
          rw [ht]
          rfl
        rw [hworld]
        exact ⟨rfl, rfl⟩
      · have htargets : (fdRelease v.files j).targets = update v.files.targets j .none :=
          fdRelease_targets h3
        have hi : (fdRelease v.files j).targets i = v.files.targets i := by
          rw [htargets, update_of_ne hij]
        refine ⟨?_, congrArg (retainTarget _) hi⟩
        rw [hi, htargets, update_idem]
  next => exact .inl rfl

theorem lxDupFdAt_spec (v : View) (oldfd minfd : ℤ) (extraFlags : ℕ) :
    (lxDupFdAt v oldfd minfd extraFlags).2 = v ∨
    ∃ i j, fdIndex 0 oldfd = some i ∧ v.files.targets j = .none ∧
      ((∃ k, (lxDupFdAt v oldfd minfd extraFlags).2.files.targets =
            update v.files.targets j (.stdio k)) ∧
          (lxDupFdAt v oldfd minfd extraFlags).2.world = v.world ∨
        (lxDupFdAt v oldfd minfd extraFlags).2.files.targets =
            update v.files.targets j (v.files.targets i) ∧
          (lxDupFdAt v oldfd minfd extraFlags).2.world =
            retainTarget v.world (v.files.targets i)) := by
  unfold lxDupFdAt
  cases hold : fdIndex 0 oldfd with
  | none => exact .inl rfl
  | some i =>
    dsimp only
    by_cases hopen : (!fdIsOpen v.files i) = true
    · rw [if_pos hopen]
      exact .inl rfl
    rw [if_neg hopen]
    cases fdIndex 0 minfd with
    | none => exact .inl rfl
    | some m =>
      dsimp only
      cases hfree : freeFrom v.files (max 3 m.val) with
      | none => exact .inl rfl
      | some j =>
        obtain ⟨hle, hj⟩ := freeFrom_some hfree
        have h3 : 3 ≤ j.val := (le_max_left 3 m.val).trans hle
        refine .inr ⟨i, j, rfl, hj, ?_⟩
        split_ifs with hstd
        · exact .inl ⟨⟨_, fdInstall_targets h3 _ _⟩, rfl⟩
        · exact .inr (copyFd_spec h3 _)

theorem lxCloseFd_spec (v : View) (fd : ℤ) : (lxCloseFd v fd).2 = v ∨ ∃ i, fdIndex 0 fd = some i ∧
      (lxCloseFd v fd).2.files.targets = update v.files.targets i .none ∧
      (lxCloseFd v fd).2.world = lxCloseTarget v.world (v.files.targets i) := by
  unfold lxCloseFd
  cases hfd : fdIndex 0 fd with
  | none => exact .inl rfl
  | some i =>
    dsimp only
    split_ifs with hlow hnone
    · exact .inl rfl
    · exact .inl rfl
    · exact .inr ⟨i, rfl, fdRelease_targets (by omega), rfl⟩

theorem pipeAlloc_some {w w' : World} {i : PipeId} (h : pipeAlloc w = some (i, w')) :
    (w.pipes i).used = false ∧ w' = w.setPipe i { (w.pipes i) with
      used := true, readers := 0, writers := 0
      ring := { (w.pipes i).ring with head := 0, tail := 0 } } := by
  unfold pipeAlloc at h
  rw [Option.map_eq_some_iff] at h
  obtain ⟨j, hj, heq⟩ := h
  have hused := List.find?_some hj
  cases heq
  exact ⟨by simpa using hused, rfl⟩

def Pipe.refused (p : Pipe) : Pipe :=
  { p with used := false, readers := 0, writers := 0, ring := { p.ring with head := 0, tail := 0 } }

def Pipe.made (p : Pipe) : Pipe :=
  { p with used := true, readers := 1, writers := 1, ring := { p.ring with head := 0, tail := 0 } }

theorem setPipe_setPipe (w : World) (i : PipeId) (p q : Pipe) :
    (w.setPipe i p).setPipe i q = w.setPipe i q := by
  unfold World.setPipe
  rw [update_idem]

theorem setPipe_self (w : World) (i : PipeId) (p : Pipe) : (w.setPipe i p).pipes i = p :=
  update_self _ _ _

theorem sysPipe_spec (v : View) (writable : Bool) : (sysPipe v writable).2 = v ∨
    ∃ i, (v.world.pipes i).used = false ∧ ((sysPipe v writable).2.files.targets = v.files.targets ∧
          (sysPipe v writable).2.world = v.world.setPipe i (v.world.pipes i).refused ∨
        ∃ a b, v.files.targets a = .none ∧ v.files.targets b = .none ∧ b ≠ a ∧
          (sysPipe v writable).2.files.targets =
            update (update v.files.targets a (.pipeRead i)) b (.pipeWrite i) ∧
          (sysPipe v writable).2.world = v.world.setPipe i (v.world.pipes i).made) := by
  unfold sysPipe
  split_ifs
  · exact .inl rfl
  cases hpipe : pipeAlloc v.world with
  | none => exact .inl rfl
  | some r =>
    obtain ⟨i, w⟩ := r
    obtain ⟨hused, rfl⟩ := pipeAlloc_some hpipe
    refine .inr ⟨i, hused, ?_⟩
    dsimp only
    cases ha : fdAlloc v.files with
    | none =>
      refine .inl ⟨rfl, ?_⟩
      rw [setPipe_setPipe, setPipe_self]
      rfl
    | some a =>
      obtain ⟨ha3, hanone⟩ := freeFrom_some ha
      have htargets := fdInstall_targets (f := v.files) ha3 (.pipeRead i) 0
      dsimp only
      cases hb : fdAlloc (fdInstall v.files a (.pipeRead i) 0) with
      | none =>
        refine .inl ⟨?_, ?_⟩
        · rw [fdRelease_targets ha3, htargets, update_idem, ← hanone, update_eq_self]
        · rw [setPipe_setPipe, setPipe_self]
          rfl
      | some b =>
        obtain ⟨hb3, hbnone⟩ := freeFrom_some hb
        rw [htargets] at hbnone
        have hba : b ≠ a := by
          rintro rfl
          rw [update_self] at hbnone
          exact absurd hbnone nofun
        rw [update_of_ne hba] at hbnone
        refine .inr ⟨a, b, hanone, hbnone, hba, ?_, ?_⟩
        · rw [fdInstall_targets hb3, htargets]
        · dsimp only [retainTarget]
          rw [setPipe_setPipe, setPipe_self, setPipe_setPipe, setPipe_self]
          rfl

end TaterTOS.Fd
