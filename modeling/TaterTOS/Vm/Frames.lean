import TaterTOS.Vm.Model
import TaterTOS.Vmm.Tables

/-!
# Frames

What a piece of code takes from the allocator and gives back to it.
-/

namespace TaterTOS.Vm

open Function Vmm List

/-! ### The allocator -/

def Pool.used (p : Pool) (f : ℕ) : ℕ := if p.free f then 0 else 1

/-- Between `p` and `p'` the handing out and the giving back of each frame are accounted for. -/
def Pool.Balanced (p p' : Pool) : Prop :=
  ∀ f, p'.puts f + p'.used f + p.gets f = p.puts f + p.used f + p'.gets f

theorem Pool.Balanced.refl (p : Pool) : p.Balanced p := fun _ => rfl

theorem Pool.Balanced.trans {p1 p2 p3 : Pool} (h1 : p1.Balanced p2) (h2 : p2.Balanced p3) :
    p1.Balanced p3 := fun f => by
  have := h1 f
  have := h2 f
  omega

section

variable {p : Pool} {a f : ℕ}

theorem Pool.free_take : (p.take a).free f = true ↔ p.free f = true ∧ f ≠ a := by
  show update p.free a false f = true ↔ _
  rw [update_apply]
  split_ifs with h <;> simp [h]

theorem Pool.free_put : (p.put a).free f = true ↔ p.free f = true ∨ f = a := by
  show update p.free a true f = true ↔ _
  rw [update_apply]
  split_ifs with h <;> simp [h]

theorem Pool.balanced_take (h : p.free a = true) : p.Balanced (p.take a) := by
  intro f
  unfold Pool.used Pool.take
  by_cases hf : f = a
  · subst hf
    simp [h]
    omega
  · simp [hf]

theorem Pool.balanced_put (h : p.free a = false) : p.Balanced (p.put a) := by
  intro f
  unfold Pool.used Pool.put
  by_cases hf : f = a
  · subst hf
    simp [h]
  · simp [hf]

theorem Pool.free_puts (l : List ℕ) (p : Pool) (f : ℕ) :
    (l.foldl Pool.put p).free f = true ↔ p.free f = true ∨ f ∈ l := by
  induction l generalizing p with
  | nil => simp
  | cons a l ih =>
    rw [foldl_cons, ih, Pool.free_put, mem_cons, or_assoc]

theorem Pool.balanced_puts (l : List ℕ) (p : Pool) (hl : l.Nodup)
    (h : ∀ a ∈ l, p.free a = false) : p.Balanced (l.foldl Pool.put p) := by
  induction l generalizing p with
  | nil => exact Pool.Balanced.refl p
  | cons a l ih =>
    obtain ⟨hal, hl⟩ := nodup_cons.mp hl
    refine (Pool.balanced_put (h a mem_cons_self)).trans (ih _ hl fun b hb => ?_)
    rw [← Bool.not_eq_true, Pool.free_put]
    rintro (hf | rfl)
    · rw [h b (mem_cons_of_mem _ hb)] at hf
      exact Bool.false_ne_true hf
    · exact hal hb

end

/-! ### Taking frames -/

structure Took (s s' : State) (F : Set ℕ) (new : List ℕ) : Prop where
  regions : s'.regions = s.regions
  fds : s'.fds = s.fds
  tables : s'.tables = new ++ s.tables
  nodup : new.Nodup
  offers : ∀ f, f ∈ F ∨ f ∈ new → s.pool.Offers f
  disjoint : ∀ f ∈ new, f ∉ F
  free : ∀ f, s'.pool.free f = true ↔ s.pool.free f = true ∧ f ∉ F ∧ f ∉ new
  balanced : s.pool.Balanced s'.pool

section

variable {s s1 s2 : State} {F F1 F2 : Set ℕ} {new new1 new2 : List ℕ}

theorem Took.refl (s : State) : Took s s ∅ [] where
  regions := rfl
  fds := rfl
  tables := rfl
  nodup := nodup_nil
  offers f hf := by simp at hf
  disjoint f hf := by simp at hf
  free f := by simp
  balanced := Pool.Balanced.refl _

theorem Took.trans (h1 : Took s s1 F1 new1) (h2 : Took s1 s2 F2 new2) :
    Took s s2 (F1 ∪ F2) (new2 ++ new1) := by
  -- what the second part takes was still there after the first
  have hold : ∀ f, f ∈ F2 ∨ f ∈ new2 → s.pool.Offers f ∧ f ∉ F1 ∧ f ∉ new1 := by
    intro f hf
    obtain ⟨hz, ha, hfree⟩ := h2.offers f hf
    obtain ⟨h, h', h''⟩ := (h1.free f).mp hfree
    exact ⟨⟨hz, ha, h⟩, h', h''⟩
  refine ⟨h2.regions.trans h1.regions, h2.fds.trans h1.fds, ?_, ?_, ?_, ?_, ?_,
    h1.balanced.trans h2.balanced⟩
  · rw [h2.tables, h1.tables, append_assoc]
  · refine nodup_append.mpr ⟨h2.nodup, h1.nodup, ?_⟩
    rintro a ha b hb rfl
    exact (hold a (.inr ha)).2.2 hb
  · rintro f (hF | hnew)
    · cases hF with
      | inl hF => exact h1.offers f (.inl hF)
      | inr hF => exact (hold f (.inl hF)).1
    · cases mem_append.mp hnew with
      | inl hnew => exact (hold f (.inr hnew)).1
      | inr hnew => exact h1.offers f (.inr hnew)
  · intro f hnew hF
    cases mem_append.mp hnew with
    | inl hnew =>
      cases hF with
      | inl hF => exact (hold f (.inr hnew)).2.1 hF
      | inr hF => exact h2.disjoint f hnew hF
    | inr hnew =>
      cases hF with
      | inl hF => exact h1.disjoint f hnew hF
      | inr hF => exact (hold f (.inl hF)).2.2 hnew
  · intro f
    rw [h2.free f, h1.free f, Set.mem_union, mem_append]
    tauto

theorem Took.then (h1 : Took s s1 F new1) (h2 : Took s1 s2 ∅ new2) :
    Took s s2 F (new2 ++ new1) := by
  have h := h1.trans h2
  rwa [Set.union_empty] at h

theorem Took.put_back (h1 : Took s s1 F new) {l : List ℕ} (hl : l.Nodup) (hF : ∀ f, f ∈ l ↔ f ∈ F)
    (hr : s2.regions = s1.regions) (hf : s2.fds = s1.fds) (ht : s2.tables = s1.tables)
    (hp : s2.pool = l.foldl Pool.put s1.pool) : Took s s2 ∅ new := by
  refine ⟨hr.trans h1.regions, hf.trans h1.fds, ht.trans h1.tables, h1.nodup,
    fun f hf => h1.offers f (hf.imp (fun h => absurd h (Set.notMem_empty f)) id),
    fun f _ => Set.notMem_empty f, fun f => ?_, h1.balanced.trans ?_⟩
  · rw [hp, Pool.free_puts, h1.free f, hF f]
    constructor
    · rintro (⟨h1, -, h2⟩ | hf)
      · exact ⟨h1, Set.notMem_empty f, h2⟩
      · exact ⟨(h1.offers f (.inl hf)).2.2, Set.notMem_empty f, fun hnew => h1.disjoint f hnew hf⟩
    · rintro ⟨h2, -, h3⟩
      by_cases hf : f ∈ F
      · exact .inr hf
      · exact .inl ⟨h2, hf, h3⟩
  · rw [hp]
    refine Pool.balanced_puts l s1.pool hl fun a ha => ?_
    rw [← Bool.not_eq_true, h1.free a]
    exact fun hc => hc.2.1 ((hF a).mp ha)

end

/-- From `s` to `s'` only frames for page tables were taken. -/
structure Idle (s s' : State) : Prop where
  took : ∃ new, Took s s' ∅ new
  pages : s'.pages = s.pages
  objects : s'.objects = s.objects

theorem Idle.refl (s : State) : Idle s s := ⟨⟨[], Took.refl s⟩, rfl, rfl⟩

structure Kept (s s' : State) : Prop where
  took : ∃ new, Took s s' ∅ new
  pages : s'.pages = s.pages
  objects : ∀ id, s'.objects id = s.objects id ∨
    (s.objects id).used = false ∧ (s'.objects id).used = false

theorem Idle.kept {s s' : State} (h : Idle s s') : Kept s s' :=
  ⟨h.took, h.pages, fun id => .inl (congrFun h.objects id)⟩

theorem Kept.refl (s : State) : Kept s s := (Idle.refl s).kept

/-! ### The two ways to take frames -/

theorem allocPage_spec (s : State) : ∃ a s', pmmAllocPage s = (a, s') ∧ s'.pages = s.pages ∧
    s'.objects = s.objects ∧ s'.env.maps = s.env.maps ∧
    (a = 0 ∧ Took s s' ∅ [] ∨ a ≠ 0 ∧ frameOf a = a ∧ Took s s' {a} []) := by
  unfold pmmAllocPage
  cases s.env.frames with
  | nil => exact ⟨0, s, rfl, rfl, rfl, rfl, Or.inl ⟨rfl, Took.refl s⟩⟩
  | cons a frames =>
    dsimp only
    split_ifs with ha
    · refine ⟨a, _, rfl, rfl, rfl, rfl, Or.inr ⟨ha.1, ha.2.1, rfl, rfl, rfl, nodup_nil, ?_, ?_, ?_,
        Pool.balanced_take ha.2.2⟩⟩
      · rintro f (rfl | hf)
        · exact ha
        · exact absurd hf not_mem_nil
      · exact fun f hf => absurd hf not_mem_nil
      · intro f
        rw [Pool.free_take]
        simp
    · exact ⟨0, _, rfl, rfl, rfl, rfl, Or.inl ⟨rfl, { Took.refl s with }⟩⟩

theorem takeTables_spec (as : List ℕ) (s : State) : ∃ new, Took s (takeTables s as) ∅ new ∧
    (takeTables s as).pages = s.pages ∧ (takeTables s as).objects = s.objects ∧
    (takeTables s as).env = s.env := by
  induction as generalizing s with
  | nil => exact ⟨[], Took.refl s, rfl, rfl, rfl⟩
  | cons a as ih =>
    rw [takeTables]
    split_ifs with ha
    · obtain ⟨new, ht, hp, ho, he⟩ := ih { s with pool := s.pool.take a, tables := a :: s.tables }
      have h1 : Took s { s with pool := s.pool.take a, tables := a :: s.tables } ∅ [a] := by
        refine ⟨rfl, rfl, rfl, nodup_singleton a, ?_, fun f _ => Set.notMem_empty f, ?_,
          Pool.balanced_take ha.2.2⟩
        · rintro f (hf | hf)
          · exact absurd hf (Set.notMem_empty f)
          · rw [mem_singleton.mp hf]
            exact ha
        · intro f
          rw [Pool.free_take]
          simp
      exact ⟨new ++ [a], h1.then ht, hp, ho, he⟩
    · exact ih s

def mapAnswer (s : State) : Bool × List ℕ := s.env.maps.headD (true, [])

theorem mapUser_spec (s : State) {virt : ℕ} (hv : virt < userVaTop) (phys flags : ℕ) :
    ∃ new, Took s (vmmMapUser s virt phys flags) ∅ new ∧ (vmmMapUser s virt phys flags).pages =
        (if (mapAnswer s).1 then s.pages.map virt phys flags else s.pages) ∧
      (vmmMapUser s virt phys flags).objects = s.objects ∧
      (vmmMapUser s virt phys flags).env = { s.env with maps := s.env.maps.tail } := by
  unfold vmmMapUser mapAnswer
  rw [if_neg (not_le.mpr hv)]
  cases hm : s.env.maps with
  | nil =>
    refine ⟨[], { Took.refl s with }, rfl, rfl, ?_⟩
    cases h : s.env
    simp_all
  | cons answer maps =>
    obtain ⟨ok, taken⟩ := answer
    obtain ⟨new, ht, hp, ho, he⟩ :=
      takeTables_spec taken { s with env := { s.env with maps := maps } }
    have h1 : Took s { s with env := { s.env with maps := maps } } ∅ [] :=
      { Took.refl s with }
    have h2 := h1.then ht
    rw [append_nil] at h2
    dsimp only
    cases ok with
    | false => exact ⟨new, h2, hp, ho, he⟩
    | true =>
      refine ⟨new, { h2 with }, ?_, ho, he⟩
      rw [hp]
      rfl

end TaterTOS.Vm
