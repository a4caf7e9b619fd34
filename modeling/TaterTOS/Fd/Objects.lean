import TaterTOS.Lib.Ledger
import TaterTOS.Fd.Table

/-!
# Objects behind descriptors
-/

namespace TaterTOS.Fd

open Function Lib

inductive Object
  | file (i : FileId)
  | pipe (i : PipeId)
  | socket (i : SockId)
  | block (a : ℕ)
  deriving DecidableEq, Repr

def Object.live (w : World) : Object → Bool
  | .file i => (w.files i).isSome
  | .pipe i => (w.pipes i).used
  | .socket i => (w.sockets i).used
  | .block a => (w.heap a).isSome

def Target.object : Target → Option Object
  | .file i => some (.file i)
  | .pipeRead i | .pipeWrite i => some (.pipe i)
  | .socket i => some (.socket i)
  | .epoll a | .eventfd a | .timerfd a | .signalfd a | .inotify a | .memfd a => some (.block a)
  | .none | .dir | .stdio _ => Option.none

def Target.counted : Target → Bool
  | .none | .dir | .stdio _ | .pipeRead _ | .pipeWrite _ => true
  | _ => false

def Target.Ok (w : World) : Target → Prop
  | .memfd a => w.heap a = some (.memfd 0 [])
  | .socket i => (w.sockets i).domain = afInet
  | .epoll _ | .eventfd _ => False
  | _ => True

/-! ### Changes of the world -/

def Object.Same (w w' : World) : Object → Prop
  | .file i => w'.files i = w.files i
  | .pipe i => w'.pipes i = w.pipes i
  | .socket i => w'.sockets i = w.sockets i
  | .block a => w'.heap a = w.heap a

def Touches (o : Object) (w w' : World) : Prop := ∀ x, x ≠ o → x.Same w w'

variable {x : Object} {w'' : World} {i : PipeId} {p : Pipe} {t : Target} {w w' : World}

theorem Object.Same.live (h : x.Same w w') : x.live w' = x.live w := by
  cases x with
  | file | block => exact congrArg Option.isSome h
  | pipe i => exact congrArg Pipe.used h
  | socket i => exact congrArg Socket.used h

theorem Target.Ok.same (h : t.Ok w)
    (hsame : ∀ o, t.object = some o → (∀ i, o ≠ .pipe i) → o.Same w w') : t.Ok w' := by
  cases t with
  | memfd a => exact (hsame (.block a) rfl nofun).trans h
  | socket i => exact (congrArg Socket.domain (hsame (.socket i) rfl nofun)).trans h
  | _ => exact h

theorem object_ne_pipe (h : t.counted = false) (i : PipeId) :
    t.object ≠ some (.pipe i) := by
  cases t with
  | pipeRead | pipeWrite => exact absurd h nofun
  | _ => exact nofun

theorem object_ne_none (h : t.counted = false) : t.object ≠ none := by
  cases t with
  | none | dir | stdio => exact absurd h nofun
  | _ => exact nofun

theorem touches_setFile (w : World) (i : FileId) (m : Option ℕ) :
    Touches (.file i) w (w.setFile i m) := by
  intro x hx
  cases x with
  | file j => exact update_of_ne (fun he => hx (congrArg Object.file he)) _ _
  | _ => rfl

theorem touches_setPipe (w : World) (i : PipeId) (p : Pipe) :
    Touches (.pipe i) w (w.setPipe i p) := by
  intro x hx
  cases x with
  | pipe j => exact update_of_ne (fun he => hx (congrArg Object.pipe he)) _ _
  | _ => rfl

theorem touches_setSocket (w : World) (i : SockId) (sk : Socket) :
    Touches (.socket i) w (w.setSocket i sk) := by
  intro x hx
  cases x with
  | socket j => exact update_of_ne (fun he => hx (congrArg Object.socket he)) _ _
  | _ => rfl

theorem touches_heap (w : World) (a : ℕ) (b : Option Block) :
    Touches (.block a) w { w with heap := update w.heap a b } := by
  intro x hx
  cases x with
  | block c => exact update_of_ne (fun he => hx (congrArg Object.block he)) _ _
  | _ => rfl

theorem Touches.trans {o : Object} (h : Touches o w w') (h' : Touches o w' w'') :
    Touches o w w'' := by
  intro x hx
  have h1 := h x hx
  have h2 := h' x hx
  cases x <;> exact Eq.trans h2 h1

section

variable {o : Object} {w w' : World} (h : Touches o w w')
include h

theorem Touches.live_iff (hsame : o.live w' = o.live w) (x : Object) :
    x.live w' = true ↔ x.live w = true := by
  by_cases hx : x = o
  · rw [hx, hsame]
  · rw [(h x hx).live]

theorem Touches.live_new (hlive : o.live w' = true) (x : Object) :
    x.live w' = true ↔ x = o ∨ x.live w = true := by
  by_cases hx : x = o
  · rw [hx]
    exact iff_of_true hlive (.inl rfl)
  · rw [(h x hx).live]
    exact (or_iff_right hx).symm

theorem Touches.live_gone (hdead : o.live w' = false) (x : Object) :
    x.live w' = true ↔ x.live w = true ∧ x ≠ o := by
  by_cases hx : x = o
  · rw [hx, hdead]
    exact iff_of_false nofun fun hn => hn.2 rfl
  · rw [(h x hx).live]
    exact (and_iff_left hx).symm

end

/-! ### Descriptors that keep their objects -/

/-- The live objects are those of the world `w0` and those that the descriptors refer to;
descriptors share only objects that count them, and the counts are right. -/
structure Keeps (w0 : World) (g : FdIndex → Target) (w : World) : Prop where
  ledger : Ledger (fun o => o.live w0 = true) (fun o => o.live w = true) fun fd => (g fd).object
  alone : ∀ a b, (g a).counted = false → (g b).object = (g a).object → b = a
  ends : ∀ i a, (g a).object = some (.pipe i) →
    (w.pipes i).readers = tally g (.pipeRead i) ∧ (w.pipes i).writers = tally g (.pipeWrite i)
  ok : ∀ fd, (g fd).Ok w

namespace Keeps

variable {w0 w w' : World} {g : FdIndex → Target} {a b : FdIndex} {t : Target} {o : Object}

theorem object_update (g : FdIndex → Target) (a : FdIndex) (t : Target) :
    (fun fd => (update g a t fd).object) = update (fun fd => (g fd).object) a t.object := by
  funext fd
  by_cases hfd : fd = a
  · subst hfd
    simp
  · simp [hfd]

theorem ne_of_dead (h : Keeps w0 g w) (hdead : o.live w = false) (hx : (g a).object = some x) :
    x ≠ o := by
  rintro rfl
  have hlive : x.live w = true := h.ledger.live_of_held hx
  exact absurd (hdead.symm.trans hlive) nofun

theorem quiet (h : Keeps w0 g w) (htouch : Touches o w w') (hdead : o.live w = false)
    (hdead' : o.live w' = false) : Keeps w0 g w' := by
  refine ⟨h.ledger.congr (htouch.live_iff (hdead'.trans hdead.symm)), h.alone,
    fun i fd hfd => ?_, fun fd => ?_⟩
  · have hsame : w'.pipes i = w.pipes i := htouch _ (h.ne_of_dead hdead hfd)
    rw [hsame]
    exact h.ends i fd hfd
  · exact (h.ok fd).same fun x hx _ => htouch x (h.ne_of_dead hdead hx)

theorem sameWorld (h : Keeps w0 g w) (hsame : ∀ x : Object, x.Same w w') : Keeps w0 g w' := by
  refine ⟨h.ledger.congr fun x => by rw [(hsame x).live], h.alone, fun i fd hfd => ?_, fun fd => ?_⟩
  · have hpipe : w'.pipes i = w.pipes i := hsame (.pipe i)
    rw [hpipe]
    exact h.ends i fd hfd
  · exact (h.ok fd).same fun x _ _ => hsame x

theorem ends_update (h : Keeps w0 g w) (ha : (g a).object ≠ some (.pipe i))
    (ht : t.object ≠ some (.pipe i))
    (hsame : ∀ b, b ≠ a → (g b).object = some (.pipe i) → w'.pipes i = w.pipes i)
    (hb : (update g a t b).object = some (.pipe i)) :
    (w'.pipes i).readers = tally (update g a t) (.pipeRead i) ∧
      (w'.pipes i).writers = tally (update g a t) (.pipeWrite i) := by
  have hstay : ∀ e : Target, e.object = some (.pipe i) → tally (update g a t) e = tally g e :=
    fun e he => tally_update_of_ne (fun hg => ha (hg ▸ he)) fun hn => ht (hn ▸ he)
  have hba : b ≠ a := by
    rintro rfl
    rw [update_self] at hb
    exact ht hb
  rw [update_of_ne hba] at hb
  rw [hstay _ rfl, hstay _ rfl, hsame b hba hb]
  exact h.ends i b hb

theorem alone_update (h : Keeps w0 g w)
    (hnew : t.counted = false → ∀ b, b ≠ a → (g b).object ≠ t.object)
    (hold : ∀ b, b ≠ a → (g b).counted = false → (g b).object ≠ t.object) (c d : FdIndex)
    (hc : (update g a t c).counted = false)
    (hcd : (update g a t d).object = (update g a t c).object) : d = c := by
  by_cases hca : c = a
  · by_cases hda : d = a
    · rw [hda, hca]
    · rw [hca, update_self] at hc hcd
      rw [update_of_ne hda] at hcd
      exact absurd hcd (hnew hc d hda)
  · rw [update_of_ne hca] at hc hcd
    by_cases hda : d = a
    · rw [hda, update_self] at hcd
      exact absurd hcd.symm (hold c hca hc)
    · rw [update_of_ne hda] at hcd
      exact h.alone c d hc hcd

theorem ok_update (hok : t.Ok w') (hrest : ∀ b, b ≠ a → (g b).Ok w') (fd : FdIndex) :
    (update g a t fd).Ok w' := by
  by_cases hfd : fd = a
  · rwa [hfd, update_self]
  · rw [update_of_ne hfd]
    exact hrest fd hfd

theorem enter (h : Keeps w0 g w) (ha : g a = .none) (ht : t.counted = false)
    (hobj : t.object = some o) (hdead : o.live w = false) (hlive : o.live w' = true)
    (htouch : Touches o w w') (hok : t.Ok w') : Keeps w0 (update g a t) w' := by
  have hnone : (g a).object = none := by
    rw [ha]
    rfl
  have hfresh : ∀ b, (g b).object ≠ t.object := by
    intro b hb
    exact h.ne_of_dead hdead (hb.trans hobj) rfl
  refine ⟨?_, h.alone_update (fun _ b _ => hfresh b) fun b _ _ => hfresh b, fun i fd => ?_,
    ok_update hok fun b _ => (h.ok b).same fun x hx _ => htouch x (h.ne_of_dead hdead hx)⟩
  · rw [object_update, hobj]
    exact h.ledger.enter hnone (by rw [hdead]; exact nofun) (htouch.live_new hlive)
  · exact h.ends_update (by rw [hnone]; exact nofun) (object_ne_pipe ht i)
      fun b _ hb => htouch _ (h.ne_of_dead hdead hb)

theorem drop (h : Keeps w0 g w) (ht : (g a).counted = false) (hobj : (g a).object = some o)
    (hdead : o.live w' = false) (htouch : Touches o w w') :
    Keeps w0 (update g a .none) w' := by
  have hne : ∀ {fd x}, fd ≠ a → (g fd).object = some x → x ≠ o := by
    rintro fd x hfd hx rfl
    exact hfd (h.alone a fd ht (hx.trans hobj.symm))
  refine ⟨?_, h.alone_update nofun fun b _ hb => object_ne_none hb, fun i fd => ?_,
    ok_update trivial fun b hb => (h.ok b).same fun x hx _ => htouch x (hne hb hx)⟩
  · rw [object_update]
    exact h.ledger.leave hobj (fun b hb => h.alone a b ht (hb.trans hobj.symm))
      (htouch.live_gone hdead)
  · exact h.ends_update (object_ne_pipe ht i) nofun fun b hba hb => htouch _ (hne hba hb)

theorem plain (h : Keeps w0 g w) (ha : (g a).object = none) (ht : t.object = none) (hok : t.Ok w) :
    Keeps w0 (update g a t) w := by
  have hcounted : t.counted = true := by
    by_contra hn
    exact object_ne_none ((Bool.not_eq_true _).mp hn) ht
  refine ⟨?_, h.alone_update (fun hn => absurd (hcounted.symm.trans hn) nofun) fun b _ hb => ?_,
    fun i fd => ?_, ok_update hok fun b _ => h.ok b⟩
  · rw [object_update, ht, ← ha, update_eq_self]
    exact h.ledger
  · rw [ht]
    exact object_ne_none hb
  · exact h.ends_update (by rw [ha]; exact nofun) (by rw [ht]; exact nofun) fun _ _ _ => rfl

/-! ### Pipes -/

theorem object_eq_pipe (h : t.object = some (.pipe i)) :
    t = .pipeRead i ∨ t = .pipeWrite i := by
  cases t with
  | pipeRead j =>
    cases h
    exact .inl rfl
  | pipeWrite j =>
    cases h
    exact .inr rfl
  | _ => exact absurd h nofun

theorem change_pipe (h : Keeps w0 g w) (ha : (g a).object = none ∨ (g a).object = some (.pipe i))
    (ht : t = .none ∨ t.object = some (.pipe i))
    (hledger : Ledger (fun o => o.live w0 = true) (fun o => o.live (w.setPipe i p) = true)
      (update (fun fd => (g fd).object) a t.object))
    (hends : (∃ b, (update g a t b).object = some (.pipe i)) →
      p.readers = tally (update g a t) (.pipeRead i) ∧
        p.writers = tally (update g a t) (.pipeWrite i)) :
    Keeps w0 (update g a t) (w.setPipe i p) := by
  have hcounted : t.counted = true := by
    rcases ht with rfl | ht
    · rfl
    · rcases object_eq_pipe ht with rfl | rfl <;> rfl
  have hne : ∀ b, (g b).counted = false → (g b).object ≠ t.object := by
    intro b hb he
    rcases ht with rfl | ht
    · exact object_ne_none hb he
    · exact object_ne_pipe hb i (he.trans ht)
  refine ⟨?_, h.alone_update (fun hn => absurd (hcounted.symm.trans hn) nofun) fun b _ => hne b,
    fun j fd hfd => ?_, ok_update ?_ fun b _ => (h.ok b).same fun x _ hx => ?_⟩
  · rwa [object_update]
  · by_cases hj : j = i
    · subst hj
      rw [setPipe_self]
      exact hends ⟨fd, hfd⟩
    · have hij : Object.pipe j ≠ .pipe i := fun he => hj (Object.pipe.inj he)
      refine h.ends_update ?_ ?_ (fun _ _ _ => touches_setPipe w i p _ hij) hfd
      · rcases ha with ha | ha <;> rw [ha]
        · exact nofun
        · exact fun he => hij (Option.some.inj he).symm
      · rcases ht with rfl | ht
        · exact nofun
        · rw [ht]
          exact fun he => hij (Option.some.inj he).symm
  · rcases ht with rfl | ht
    · trivial
    · rcases object_eq_pipe ht with rfl | rfl <;> trivial
  · exact touches_setPipe w i p x (hx i)

theorem live_setPipe_self (w : World) (i : PipeId) (p : Pipe) :
    Object.live (w.setPipe i p) (.pipe i) = p.used := congrArg Pipe.used (setPipe_self w i p)

theorem live_setPipe_used (hused : p.used = (w.pipes i).used) (x : Object) :
    x.live (w.setPipe i p) = true ↔ x.live w = true :=
  (touches_setPipe w i p).live_iff ((live_setPipe_self w i p).trans hused) x

theorem copy (h : Keeps w0 g w) (ha : g a = .none) (hcounted : (g b).counted = true) :
    Keeps w0 (update g a (g b)) (retainTarget w (g b)) := by
  have hnone : (g a).object = none := by
    rw [ha]
    rfl
  have htally : ∀ t : Target, t ≠ .none → tally (update g a (g b)) t =
      tally g t + if g b = t then 1 else 0 := by
    intro t ht
    rw [← tally_update, ha, if_neg ht.symm, add_zero]
  cases hb : g b with
  | pipeRead i | pipeWrite i =>
    have hobj : (g b).object = some (.pipe i) := by rw [hb]; rfl
    have hends := h.ends i b hobj
    rw [hb] at htally
    refine h.change_pipe (.inl hnone) (.inr rfl) ?_ fun _ => ⟨?_, ?_⟩
    · exact (h.ledger.share hnone hobj).congr (live_setPipe_used rfl)
    · simp [htally, hends]
    · simp [htally, hends]
  | none | dir | stdio => exact h.plain hnone rfl trivial
  | _ => exact absurd (hb ▸ hcounted) nofun

theorem create (h : Keeps w0 g w) (hused : (w.pipes i).used = false) (ha : g a = .none)
    (hb : g b = .none) (hab : b ≠ a) :
    Keeps w0 (update (update g a (.pipeRead i)) b (.pipeWrite i))
      (w.setPipe i (w.pipes i).made) := by
  have hzero : ∀ t : Target, t.object = some (.pipe i) → tally g t = 0 := by
    intro t ht
    refine tally_eq_zero.mpr fun c hc => ?_
    have hlive : Object.live w (.pipe i) = true := h.ledger.live_of_held (a := c) (by rw [hc, ht])
    exact absurd (hused.symm.trans hlive) nofun
  -- the end to read comes first
  have h1 : Keeps w0 (update g a (.pipeRead i))
      (w.setPipe i { (w.pipes i).made with writers := 0 }) := by
    refine h.change_pipe (.inl (by rw [ha]; rfl)) (.inr rfl) ?_ fun _ => ⟨?_, ?_⟩
    · apply h.ledger.enter (by rw [ha]; rfl) _
        ((touches_setPipe w i _).live_new (live_setPipe_self w i _))
      exact fun hlive => absurd (hused.symm.trans hlive) nofun
    · rw [tally_enter (by rw [ha]; exact nofun), hzero (.pipeRead i) rfl]
      rfl
    · rw [tally_update_of_ne, hzero (.pipeWrite i) rfl]
      · rw [ha]
        exact nofun
      · exact nofun
  have hb' : update g a (.pipeRead i) b = .none := by
    rw [update_of_ne hab, hb]
  have ha' : (update g a (.pipeRead i) a).object = some (.pipe i) := by
    rw [update_self]
    rfl
  obtain ⟨hread, hwrite⟩ := h1.ends i a ha'
  have h2 : Keeps w0 (update (update g a (.pipeRead i)) b (.pipeWrite i))
      ((w.setPipe i { (w.pipes i).made with writers := 0 }).setPipe i (w.pipes i).made) := by
    refine h1.change_pipe (.inl (by rw [hb']; rfl)) (.inr rfl) ?_ fun _ => ⟨?_, ?_⟩
    · refine (h1.ledger.share (by rw [hb']; rfl) ha').congr (live_setPipe_used ?_)
      rw [setPipe_self]
    · rw [tally_update_of_ne, ← hread, setPipe_self]
      · rw [hb']
        exact nofun
      · exact nofun
    · rw [tally_enter (by rw [hb']; exact nofun), ← hwrite, setPipe_self]
      rfl
  rwa [setPipe_setPipe] at h2

theorem dropEnd (h : Keeps w0 g w) (hobj : (g a).object = some (.pipe i))
    (hread : p.readers = tally (update g a .none) (.pipeRead i))
    (hwrite : p.writers = tally (update g a .none) (.pipeWrite i))
    (hused : p.used = (w.pipes i).used) :
    Keeps w0 (update g a .none) (w.setPipe i p.settle) := by
  have hends : p.settle.readers = p.readers ∧ p.settle.writers = p.writers := by
    unfold Pipe.settle
    split_ifs <;> exact ⟨rfl, rfl⟩
  refine h.change_pipe (.inr hobj) (.inl rfl) ?_ fun _ =>
    ⟨hends.1.trans hread, hends.2.trans hwrite⟩
  unfold Pipe.settle
  split_ifs with hzero
  · obtain ⟨hr, hw⟩ := hzero
    rw [hread, tally_eq_zero] at hr
    rw [hwrite, tally_eq_zero] at hw
    refine h.ledger.leave hobj (fun b hb => ?_)
      ((touches_setPipe w i _).live_gone (live_setPipe_self w i _))
    by_contra hba
    have hstay : update g a .none b = g b := update_of_ne hba _ _
    rcases object_eq_pipe hb with hb | hb
    · exact hr b (hstay.trans hb)
    · exact hw b (hstay.trans hb)
  · have hother : ∃ b, b ≠ a ∧ (g b).object = some (.pipe i) := by
      by_contra hnone
      push Not at hnone
      have hgone : ∀ t : Target, t.object = some (.pipe i) → tally (update g a .none) t = 0 := by
        intro t ht
        refine tally_eq_zero.mpr fun b hb => ?_
        by_cases hba : b = a
        · rw [hba, update_self] at hb
          rw [← hb] at ht
          exact absurd ht nofun
        · rw [update_of_ne hba] at hb
          exact hnone b hba (hb ▸ ht)
      exact hzero ⟨hread.trans (hgone _ rfl), hwrite.trans (hgone _ rfl)⟩
    obtain ⟨b, hba, hb⟩ := hother
    exact (h.ledger.part hba (hb.trans hobj.symm)).congr (live_setPipe_used hused)

end Keeps

end TaterTOS.Fd
