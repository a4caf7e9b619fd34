import TaterTOS.Dom.Freeing

/-!
# Runs of calls

* `run_forest`: the pool is a forest after every run of fair calls with calm hooks.
-/

namespace TaterTOS.Dom

open Function Lib Relation List

section

variable {d : Pool} {kids : ℕ → List ℕ} {p c i : ℕ}

variable {parent base : ℤ} {kind : Kind} {tag : Text} {d' : Pool} {stack : List ℕ}

theorem tsDomGetNode_eq_some {id : ℤ} : tsDomGetNode d id = some i ↔
    id = i ∧ i < maxNodes ∧ d.used i = true := by
  unfold tsDomGetNode
  constructor
  · intro h
    split_ifs at h with hr hu
    obtain rfl := Option.some.inj h
    exact ⟨by omega, by omega, hu⟩
  · rintro ⟨rfl, hlt, hu⟩
    rw [if_neg (by omega), Int.toNat_natCast, if_pos hu]

/-! ### Moving nodes -/

@[simp] theorem unlink_used (d : Pool) (p c : ℕ) : (unlink d p c).used = d.used := by
  unfold unlink
  split_ifs <;> rfl

@[simp] theorem clear_used (d : Pool) (c : ℕ) : (clear d c).used = d.used := rfl

section

/-- Hooks that leave a forest and its nodes behind, and the tree alone while a node is taken out. -/
structure Hooks.Calm (hooks : Hooks) : Prop where
  forest : ∀ d c kids, Forest d kids → ∃ kids', Forest (hooks.onConnected d c) kids'
  used : ∀ d c a, d.used a = true → (hooks.onConnected d c).used a = true
  alone : ∀ d c, hooks.onDisconnected d c = d

theorem Hooks.calm_null : Hooks.null.Calm :=
  ⟨fun _ _ kids h => ⟨kids, h⟩, fun _ _ _ h => h, fun _ _ => rfl⟩

variable {hooks : Hooks} (hcalm : hooks.Calm) (h : Forest d kids)

section

include h

theorem Forest.link (hp : d.used p = true) (hc : d.used c = true)
    (hroot : d.parent c = none) (hup : ¬ ReflTransGen d.Parent p c) :
    ∃ kids', Forest (link d p c) kids' := by
  rw [h.link_eq hp (h.not_mem_of_root hp hroot)]
  exact ⟨_, h.insertAt hp hc hroot (append_nil _).symm hup⟩

theorem Forest.clear_unlink (hcp : d.Parent c p) :
    ∃ kids', Forest (clear (unlink d p c) c) kids' ∧
      ∀ a b, (clear (unlink d p c) c).Parent a b ↔ d.Parent a b ∧ a ≠ c := by
  have hp := h.up c p hcp
  obtain ⟨xs, ys, hk⟩ := append_of_mem (((h.family p hp).child c).mp hcp)
  rw [h.unlink_eq hp hk]
  exact ⟨_, h.detach hp hk, clear_parent (d.without p xs ys) c⟩

end

include hcalm h

theorem Forest.appendChild {child : ℤ} (hup : ∀ p c, tsDomGetNode d parent = some p →
      tsDomGetNode d child = some c → ¬ ReflTransGen d.Parent p c) :
    ∃ kids', Forest (tsDomAppendChild hooks d parent child) kids' := by
  unfold tsDomAppendChild
  split
  · next p c hp hc =>
    have hup := hup p c hp hc
    have hp := (tsDomGetNode_eq_some.mp hp).2.2
    have hc := (tsDomGetNode_eq_some.mp hc).2.2
    refine Exists.elim ?_ (hcalm.forest _ c)
    cases hroot : d.parent c with
    | none => exact h.link hp hc hroot hup
    | some old =>
      obtain ⟨kids1, h1, hparent⟩ := h.clear_unlink ⟨hc, hroot⟩
      dsimp only
      rw [← link_clear]
      refine h1.link (by simpa using hp) (by simpa using hc) (update_self _ _ _)
        fun hpc => hup ?_
      exact ReflTransGen.mono (fun a b hab => ((hparent a b).mp hab).1) _ _ hpc
  · exact ⟨kids, h⟩

theorem Forest.removeChild (parent child : ℤ) :
    ∃ kids', Forest (tsDomRemoveChild hooks d parent child) kids' := by
  unfold tsDomRemoveChild
  split
  · next p c hp hc =>
    rw [hcalm.alone]
    split_ifs with hcp
    · obtain ⟨kids', h', -⟩ := h.clear_unlink ⟨(tsDomGetNode_eq_some.mp hc).2.2, hcp⟩
      exact ⟨kids', h'⟩
    · exact ⟨kids, h⟩
  · exact ⟨kids, h⟩

omit hcalm in
theorem Forest.linkBefore (hc : d.used c = true) (hroot : d.parent c = none)
    {r : ℕ} (hr : d.Parent r p) (hup : ¬ ReflTransGen d.Parent p c) :
    ∃ kids', Forest (linkBefore d p c r) kids' := by
  have hp := h.up r p hr
  obtain ⟨xs, ys, hk⟩ := append_of_mem (((h.family p hp).child r).mp hr)
  rw [h.linkBefore_eq hp (h.not_mem_of_root hp hroot) hk]
  exact ⟨_, h.insertAt hp hc hroot hk hup⟩

theorem Forest.insertBefore {new ref : ℤ}
    (hfair : ∀ p c, tsDomGetNode d parent = some p → tsDomGetNode d new = some c →
      ¬ ReflTransGen d.Parent p c ∧
        ∀ r, tsDomGetNode d ref = some r → d.parent r = some p ∧ r ≠ c) :
    ∃ kids', Forest (tsDomInsertBefore hooks d parent new ref) kids' := by
  unfold tsDomInsertBefore
  split
  · next p c hp hc =>
    obtain ⟨hup, href⟩ := hfair p c hp hc
    cases hr : tsDomGetNode d ref with
    | none => exact h.appendChild hcalm fun p c hp hc => (hfair p c hp hc).1
    | some r =>
      obtain ⟨hrp, hrc⟩ := href r hr
      have hr : d.Parent r p := ⟨(tsDomGetNode_eq_some.mp hr).2.2, hrp⟩
      have hc' := (tsDomGetNode_eq_some.mp hc).2.2
      cases hroot : d.parent c with
      | none => exact h.linkBefore hc' hroot hr hup
      | some old =>
        obtain ⟨kids1, h1, hparent⟩ := h.clear_unlink ⟨hc', hroot⟩
        have hremove : tsDomRemoveChild hooks d old new = clear (unlink d old c) c := by
          rw [tsDomRemoveChild, tsDomGetNode_of_used h (h.up c old ⟨hc', hroot⟩), hc]
          dsimp only
          rw [hcalm.alone]
          exact if_pos hroot
        dsimp only
        rw [hremove]
        refine h1.linkBefore (by simpa using hc') (update_self _ _ _)
          ((hparent r p).mpr ⟨hr, hrc⟩) fun hpc => hup ?_
        exact ReflTransGen.mono (fun a b hab => ((hparent a b).mp hab).1) _ _ hpc
  · exact ⟨kids, h⟩

end

/-! ### Making and freeing nodes -/

theorem tsDomAllocNode_eq_some (h : tsDomAllocNode d kind tag = some (i, d')) :
    d.used i = false ∧ i < maxNodes ∧ d' = d.fresh i kind tag := by
  obtain ⟨j, hj, he⟩ := Option.map_eq_some_iff.mp h
  obtain ⟨rfl, rfl⟩ := Prod.mk.inj he
  refine ⟨by simpa using List.find?_some hj, ?_, rfl⟩
  exact mem_range.mp (mem_of_find?_eq_some hj)

section

variable {hooks : Hooks} (hcalm : hooks.Calm)
include hcalm

theorem tsDomAppendChild_used {a : ℕ} (ha : d.used a = true) (parent child : ℤ) :
    (tsDomAppendChild hooks d parent child).used a = true := by
  unfold tsDomAppendChild
  split
  · refine hcalm.used _ _ a ?_
    split
    · exact ha
    · exact (congrFun (unlink_used d _ _) a).trans ha
  · exact ha

theorem Forest.appendFresh (h : Forest d kids) (halloc : tsDomAllocNode d kind tag = some (i, d'))
    (hparent : tsDomGetNode d parent = none → parent < 0 ∨ parent ≥ maxNodes) :
    (∃ kids', Forest (tsDomAppendChild hooks d' parent i) kids') ∧
      ∀ a, d.used a = true → (tsDomAppendChild hooks d' parent i).used a = true := by
  obtain ⟨hi, hlt, rfl⟩ := tsDomAllocNode_eq_some halloc
  have hfresh := h.fresh hi hlt kind tag
  have hused : ∀ a, d.used a = true → (d.fresh i kind tag).used a = true := by
    intro a ha
    show update d.used i true a = true
    rw [update_apply]
    split_ifs
    · rfl
    · exact ha
  have hleaf : ∀ a, ¬ (d.fresh i kind tag).Parent a i := by
    intro a ha
    have hfamily := hfresh.family i (update_self _ _ _)
    rw [update_self] at hfamily
    exact not_mem_nil ((hfamily.child a).mp ha)
  refine ⟨hfresh.appendChild hcalm fun p c hp hc hpc => ?_, fun a ha => ?_⟩
  · obtain ⟨hci, -, -⟩ := tsDomGetNode_eq_some.mp hc
    obtain rfl : i = c := by exact_mod_cast hci
    obtain ⟨hpp, hplt, -⟩ := tsDomGetNode_eq_some.mp hp
    rcases ReflTransGen.cases_tail hpc with rfl | ⟨a, -, ha⟩
    · have hnone : tsDomGetNode d parent = none := by
        rw [hpp, tsDomGetNode, if_neg (by omega), Int.toNat_natCast, hi]
        rfl
      rcases hparent hnone with hlt | hge <;> omega
    · exact hleaf a ha
  · exact tsDomAppendChild_used hcalm (hused a ha) _ _

theorem Forest.setOnlyText (h : Forest d kids) {node : ℤ} {n : ℕ}
    (hn : tsDomGetNode d node = some n) {l : List ℕ} (hmem : ∀ i, i ∈ l ↔ TransGen d.Parent i n)
    (text : Text) : ∃ kids', Forest (setOnlyText hooks (d.mark l) node n text) kids' := by
  obtain ⟨hnode, hlt, hu⟩ := tsDomGetNode_eq_some.mp hn
  have hnl : n ∉ l := fun hm => h.acyclic n ((hmem n).mp hm)
  have hpruned := h.prune hnl hmem
  have hstill : tsDomGetNode (d.prune n l) node = some n := by
    refine tsDomGetNode_eq_some.mpr ⟨hnode, hlt, ?_⟩
    simp [Pool.prune, hu, hnl]
  unfold Dom.setOnlyText
  extract_lets d1
  have heq : d1 = d.prune n l := rfl
  rw [heq]
  split_ifs
  · exact ⟨_, hpruned⟩
  · split
    · exact ⟨_, hpruned⟩
    · next i d' halloc =>
      refine (hpruned.appendFresh hcalm halloc fun hnone => ?_).1
      rw [hstill] at hnone
      cases hnone
  · exact ⟨_, hpruned⟩

theorem Forest.setTextContent (h : Forest d kids) (node : ℤ) (text : Text) :
    ∃ d', tsDomSetTextContent hooks d node text = some d' ∧ ∃ kids', Forest d' kids' := by
  unfold tsDomSetTextContent
  cases hn : tsDomGetNode d node with
  | none => exact ⟨d, rfl, kids, h⟩
  | some n =>
    obtain ⟨l, hl, hmem⟩ := h.below (tsDomGetNode_eq_some.mp hn).2.2
    have hfree := freeChildren_eq hl (Nat.lt_succ_of_le hl.length_le) rfl rfl fun i hi =>
      (hl.bounded i hi).2
    exact ⟨_, congrArg (Option.map _) hfree, h.setOnlyText hcalm hn hmem text⟩

end

/-! ### Pages -/

theorem mem_of_mem_closeTag (h : i ∈ closeTag d tag stack) : i ∈ stack := by
  induction stack with
  | nil => exact h
  | cons j stack ih =>
    rw [closeTag] at h
    split_ifs at h
    · exact mem_cons_of_mem _ h
    · exact mem_cons_of_mem _ (ih h)

def Base (d : Pool) (base : ℤ) : Prop :=
  tsDomGetNode d base = none → base < 0 ∨ base ≥ maxNodes

theorem Base.mono (h : Base d base) (hused : ∀ a, d.used a = true → d'.used a = true) :
    Base d' base := by
  intro hnone
  cases hb : tsDomGetNode d base with
  | none => exact h hb
  | some b =>
    obtain ⟨hbase, hlt, hu⟩ := tsDomGetNode_eq_some.mp hb
    rw [tsDomGetNode_eq_some.mpr ⟨hbase, hlt, hused b hu⟩] at hnone
    cases hnone

structure Building (d : Pool) (base : ℤ) (stack : List ℕ) : Prop where
  forest : ∃ kids, Forest d kids
  base : Base d base
  stack : ∀ i ∈ stack, d.used i = true

theorem Building.current (h : Building d base stack) : Base d (current base stack) := by
  cases stack with
  | nil => exact h.base
  | cons i stack =>
    obtain ⟨kids, hf⟩ := h.forest
    intro hnone
    rw [Dom.current, tsDomGetNode_of_used hf (h.stack i (by simp))] at hnone
    cases hnone

section

variable {hooks : Hooks} (hcalm : hooks.Calm)
include hcalm

theorem Building.addNode (h : Building d base stack)
    (hadd : addNode hooks d base stack kind tag = some (i, d')) :
    Building d' base stack ∧ Building d' base (i :: stack) := by
  obtain ⟨⟨j, d₁⟩, halloc, he⟩ := Option.map_eq_some_iff.mp hadd
  obtain ⟨rfl, rfl⟩ := Prod.mk.inj he
  obtain ⟨kids, hf⟩ := h.forest
  obtain ⟨hforest, hused⟩ := hf.appendFresh hcalm halloc h.current
  have hnew : (tsDomAppendChild hooks d₁ (Dom.current base stack) j).used j = true := by
    obtain ⟨-, -, rfl⟩ := tsDomAllocNode_eq_some halloc
    exact tsDomAppendChild_used hcalm (update_self _ _ _) _ _
  have hstack : ∀ i ∈ stack,
      (tsDomAppendChild hooks d₁ (Dom.current base stack) j).used i = true :=
    fun i hi => hused i (h.stack i hi)
  refine ⟨⟨hforest, h.base.mono hused, hstack⟩, hforest, h.base.mono hused, fun i hi => ?_⟩
  rcases mem_cons.mp hi with rfl | hi
  · exact hnew
  · exact hstack i hi

theorem Building.loop {tokens : List Token} : ∀ {stack : List ℕ} {d : Pool},
    Building d base stack → ∃ kids, Forest (buildLoop hooks base tokens stack d) kids := by
  induction tokens with
  | nil => exact fun h => h.forest
  | cons t ts ih =>
    intro stack d h
    cases t with
    | tagOpen name =>
      rw [buildLoop]
      split
      · exact h.forest
      · next hadd =>
        split_ifs
        · exact ih (h.addNode hcalm hadd).2
        · exact ih (h.addNode hcalm hadd).1
    | tagSelfClose | comment =>
      rw [buildLoop]
      split
      · exact h.forest
      · next hadd => exact ih (h.addNode hcalm hadd).1
    | tagClose name => exact ih ⟨h.forest, h.base, fun i hi => h.stack i (mem_of_mem_closeTag hi)⟩
    | text s =>
      rw [buildLoop]
      split_ifs
      · exact ih h
      · split
        · exact h.forest
        · next hadd => exact ih (h.addNode hcalm hadd).1
    | other => exact ih h

theorem Forest.buildFromHtml (h : Forest d kids) (tokens : List Token) (hbase : Base d parent) :
    ∃ kids', Forest (tsDomBuildFromHtml hooks d tokens parent) kids' :=
  Building.loop hcalm ⟨⟨kids, h⟩, hbase, by simp⟩

end

end

/-! ### Runs -/

/-- What the code takes for granted: a node is not put under itself or a node below it, a page is
not built under a free node, and the node before which another one is inserted is a child of the
given parent and not the new node. -/
def Op.Fair (d : Pool) : Op → Prop
  | .appendChild parent child => ∀ p c, tsDomGetNode d parent = some p →
      tsDomGetNode d child = some c → ¬ ReflTransGen d.Parent p c
  | .insertBefore parent new ref => ∀ p c, tsDomGetNode d parent = some p →
      tsDomGetNode d new = some c → ¬ ReflTransGen d.Parent p c ∧
        ∀ r, tsDomGetNode d ref = some r → d.parent r = some p ∧ r ≠ c
  | .buildFromHtml _ parent => Base d parent
  | _ => True

theorem Forest.step {d : Pool} {kids : ℕ → List ℕ} (h : Forest d kids) {hooks : Hooks}
    (hcalm : hooks.Calm) {op : Op} (hop : op.Fair d) :
    ∃ d', step hooks d op = some d' ∧ ∃ kids', Forest d' kids' := by
  cases op with
  | create kind tag =>
    refine ⟨_, rfl, ?_⟩
    cases halloc : tsDomAllocNode d kind tag with
    | none => exact ⟨kids, h⟩
    | some r =>
      obtain ⟨hi, hlt, heq⟩ := tsDomAllocNode_eq_some halloc
      exact ⟨_, heq ▸ h.fresh hi hlt kind tag⟩
  | appendChild parent child => exact ⟨_, rfl, h.appendChild hcalm hop⟩
  | insertBefore parent new ref => exact ⟨_, rfl, h.insertBefore hcalm hop⟩
  | removeChild parent child => exact ⟨_, rfl, h.removeChild hcalm parent child⟩
  | setTextContent node text => exact h.setTextContent hcalm node text
  | buildFromHtml tokens parent => exact ⟨_, rfl, h.buildFromHtml hcalm tokens hop⟩

def AllFair : Pool → List (Hooks × Op) → Prop
  | _, [] => True
  | d, (hooks, op) :: ops =>
    hooks.Calm ∧ op.Fair d ∧ ∀ d', step hooks d op = some d' → AllFair d' ops

theorem Forest.run {ops : List (Hooks × Op)} : ∀ {d : Pool} {kids : ℕ → List ℕ}, Forest d kids →
    AllFair d ops → ∃ d', run d ops = some d' ∧ ∃ kids', Forest d' kids' := by
  induction ops with
  | nil => exact fun h _ => ⟨_, rfl, _, h⟩
  | cons op ops ih =>
    intro d kids h hfair
    obtain ⟨hcalm, hop, hrest⟩ := hfair
    obtain ⟨d₁, hstep, kids1, h1⟩ := h.step hcalm hop
    obtain ⟨d', hrun, hforest⟩ := ih h1 (hrest d₁ hstep)
    exact ⟨d', by rw [Dom.run, hstep]; exact hrun, hforest⟩

/-- **The document stays a forest** in every run of fair calls with calm hooks. -/
theorem run_forest (ops : List (Hooks × Op)) (hfair : AllFair Pool.empty ops) :
    ∃ d, run Pool.empty ops = some d ∧ ∃ kids, Forest d kids :=
  forest_empty.run hfair

theorem create_parent {hooks : Hooks} {d d' : Pool} {kind : Kind} {tag : Text}
    (h : step hooks d (.create kind tag) = some d')
    (hd : ∀ i, d.parent i = none) (i : ℕ) :
    d'.parent i = none := by
  obtain rfl := Option.some.inj h
  cases halloc : tsDomAllocNode d kind tag with
  | none => exact hd i
  | some r =>
    obtain ⟨-, -, heq⟩ := tsDomAllocNode_eq_some halloc
    simp only [Option.map_some, Option.getD_some, heq, Pool.fresh, update_apply, hd, ite_self]

theorem run_forest_moved :
    ∃ d, run Pool.empty ([.create .element [], .create .element [], .appendChild 0 1,
      .setTextContent 1 [120], .removeChild 0 1].map (.null, ·)) = some d ∧
        ∃ kids, Forest d kids := by
  have hnull := Hooks.calm_null
  refine run_forest _ ⟨hnull, trivial, fun d₁ h1 => ⟨hnull, trivial, fun d₂ h2 => ⟨hnull,
    fun p c hp hc hpc => ?_, fun _ _ => ⟨hnull, trivial, fun _ _ => ⟨hnull, trivial,
      fun _ _ => trivial⟩⟩⟩⟩⟩
  have hnone := create_parent h2 (create_parent h1 fun _ => rfl)
  obtain ⟨hp, -, -⟩ := tsDomGetNode_eq_some.mp hp
  obtain ⟨hc, -, -⟩ := tsDomGetNode_eq_some.mp hc
  rcases ReflTransGen.cases_head hpc with rfl | ⟨q, hq, -⟩
  · omega
  · rw [Pool.Parent, hnone] at hq
    cases hq.2

/-- A node is appended to itself. -/
theorem self_parent :
    ∃ d, run Pool.empty [(.null, .create .element []), (.null, .appendChild 0 0)] =
      some d ∧ ¬ ∃ kids, Forest d kids := by
  have hrun : (run Pool.empty [(.null, .create .element []), (.null, .appendChild 0 0)]).map
      (fun d => (d.used 0, d.parent 0)) = some (true, some 0) := by decide +kernel
  obtain ⟨d, hd, heq⟩ := Option.map_eq_some_iff.mp hrun
  obtain ⟨hused, hparent⟩ := Prod.mk.inj heq
  exact ⟨d, hd, fun ⟨kids, h⟩ => h.acyclic 0 (.single ⟨hused, hparent⟩)⟩

end TaterTOS.Dom
