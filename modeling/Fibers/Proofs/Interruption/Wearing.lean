import Fibers.Proofs.Interruption.Masks

set_option autoImplicit false

/-! # Masks in the course of a run

What a step makes of the masks of its fiber is known. The end of a turn does not touch them, and
neither does anybody else; and a fiber is made without a mask. So in every moment of a run the masks
of every fiber that is not done fit its machine.
-/

namespace Fibers

variable {σ : Type}

/-- Whether a fiber waits after a step. -/
def Decision.awaits : Decision → Bool
  | .await _ _ => true
  | _ => false

namespace World

/-! ## The end of a step -/

theorem masks_holding (m : Machine σ) (release : Option Handle) :
    (m.holding release).masks = m.masks ∧ (m.holding release).exiting = m.exiting := by
  cases release with
  | none => exact ⟨rfl, rfl⟩
  | some h => exact ⟨rfl, rfl⟩

/-- The end of a step touches neither the masks of the fiber nor what it has put off. A fiber that waits
starts to count its steps anew. Unless the fiber is done it has the machine of the step, up to what it
goes on with. -/
theorem get?_conclude {f : Key .fiber} {stepped : World σ × Stepped σ} {y : Fiber σ}
    (hy : stepped.1.fibers.get? f = some y) :
    ∃ y', (conclude f stepped).world.fibers.get? f = some y' ∧
      y' = { y with
        phase := y'.phase, nextToken := y'.nextToken, done := y'.done
        ops := if stepped.2.decision.awaits then 0 else y.ops } ∧
      ((∃ m, (conclude f stepped).machine? f = some m ∧ y'.done.outcome? = y.done.outcome? ∧
          m.masks = stepped.2.machine.masks ∧ m.exiting = stepped.2.machine.exiting) ∨
        (∃ e, stepped.2.decision = .done e) ∧ (conclude f stepped).machine? f = none) := by
  obtain ⟨w, m, d⟩ := stepped
  have hy : w.fibers.get? f = some y := hy
  have hparked : ∀ w' : World σ, (⟨w', none⟩ : Moment σ).machine? f = w'.parked? f := fun _ => rfl
  cases d with
  | proceed => exact ⟨y, hy, rfl, Or.inl ⟨m, Moment.machine?_active, rfl, rfl, rfl⟩⟩
  | yield =>
      simp only [conclude, hy]
      refine ⟨(y.park m).1, get?_park y m hy, rfl, Or.inl ⟨m, ?_, rfl, rfl, rfl⟩⟩
      simp only [hparked, parked?, queue, get?_park y m hy]
      rfl
  | await a release =>
      obtain ⟨hmasks, hexiting⟩ := masks_holding m release
      set w₁ := (w.park f { y with ops := 0 } (m.holding release)).1 with hw₁
      have hget : w₁.fibers.get? f = some (({ y with ops := 0 } : Fiber σ).park (m.holding release)).1 :=
        get?_park { y with ops := 0 } (m.holding release) hy
      simp only [conclude, hy]
      rw [← hw₁]
      split
      · -- what it waits for has not happened, and it is put aside
        have hgrows : Grows none w₁ (w₁.subscribe
            ⟨f, (w.park f { y with ops := 0 } (m.holding release)).2⟩ a) := grows_subscribe _ _ a
        obtain ⟨y', hy', hlater, -⟩ := hgrows.fibers f _ hget
        obtain ⟨y₀, hy₀, heq⟩ := fibers_subscribe hy'
        obtain rfl := Option.some.inj (hget.symm.trans hy₀)
        refine ⟨y', hy', by rw [heq]; rfl, Or.inl ⟨m.holding release, ?_, hlater.outcome, hmasks, hexiting⟩⟩
        rw [hparked, parked?_subscribe, parked?, hget]
        rfl
      · have hrun : (w₁.modifyFiber f fun fiber => { fiber with phase := .running }).fibers.get? f =
            some { (({ y with ops := 0 } : Fiber σ).park (m.holding release)).1 with
              phase := .running } := by
          rw [modifyFiber, Store.get?_modify, if_pos rfl, hget, Option.map_some]
        exact ⟨_, hrun, rfl, Or.inl ⟨_, Moment.machine?_active, rfl, hmasks, hexiting⟩⟩
  | done e =>
      obtain ⟨c, hc, -⟩ := get?_finishFiber_self hy e
      refine ⟨_, hc, rfl, Or.inr ⟨⟨e, rfl⟩, ?_⟩⟩
      simp only [conclude, hparked, parked?, hc]
      rfl

/-- So what the fiber wears, what it has put off and what it has been told outlast its turn. -/
theorem masks_conclude {f : Key .fiber} {stepped : World σ × Stepped σ} {y : Fiber σ}
    (hy : stepped.1.fibers.get? f = some y) :
    ∃ y', (conclude f stepped).world.fibers.get? f = some y' ∧ y'.masks = y.masks ∧
      y'.deferred = y.deferred ∧ y'.terminating = y.terminating := by
  obtain ⟨y', hy', heq, -⟩ := get?_conclude hy
  exact ⟨y', hy', by rw [heq], by rw [heq], by rw [heq]⟩

/-- The end of a step makes no fibers. -/
theorem old_conclude {f g : Key .fiber} {stepped : World σ × Stepped σ} {y' : Fiber σ}
    (hy' : (conclude f stepped).world.fibers.get? g = some y') :
    ∃ y, stepped.1.fibers.get? g = some y := by
  obtain ⟨w, m, d⟩ := stepped
  -- fibers are set and modified here, and none is added
  have hset : ∀ {z x : Fiber σ}, (w.fibers.set f z).get? g = some x →
      ∃ y, w.fibers.get? g = some y := by
    intro z x h
    rw [Store.get?_set] at h
    split at h
    · obtain ⟨y, hy, -⟩ := Option.map_eq_some_iff.mp h
      exact ⟨y, hy⟩
    · exact ⟨x, h⟩
  have hpark : ∀ {z x : Fiber σ} {m}, (w.park f z m).1.fibers.get? g = some x →
      ∃ y, w.fibers.get? g = some y := by
    intro z x m h
    unfold park at h
    dsimp only at h
    split at h
    · exact hset h
    · exact hset h
  cases d with
  | proceed => exact ⟨y', hy'⟩
  | yield =>
      simp only [conclude] at hy'
      split at hy'
      · exact ⟨y', hy'⟩
      · exact hpark hy'
  | await a release =>
      simp only [conclude] at hy'
      split at hy'
      · exact ⟨y', hy'⟩
      · split at hy'
        · obtain ⟨y₀, hy₀, -⟩ := fibers_subscribe hy'
          exact hpark hy₀
        · rw [modifyFiber, Store.get?_modify] at hy'
          split at hy'
          · obtain ⟨y₀, hy₀, -⟩ := Option.map_eq_some_iff.mp hy'
            exact hpark hy₀
          · exact hpark hy'
  | done e =>
      simp only [conclude, finishFiber] at hy'
      split at hy'
      · exact ⟨y', hy'⟩
      · rename_i x hx
        simp only [modifyFiber, Store.modify_eq_set _ hx] at hy'
        split at hy'
        · exact hset hy'
        · rw [foldl_keeps fibers _ (fun w o => fibers_notifyDone f e w o)] at hy'
          exact hset hy'

/-! ## Fibers that are made -/

/-- A fiber that has not had a turn yet. -/
structure Young (y : Fiber σ) : Prop where
  context : y.context.interruptible = true
  fits : y.Fits 0
  pending : y.done.outcome? = none
  ops : y.ops = 0
  machine : ∃ p, y.phase.machine? = some { control := .start p }

theorem Young.waits {y y' : Fiber σ} (h : Young y) (hcontext : y'.context = y.context)
    (hwaits : y.Waits y') : Young y' :=
  ⟨hcontext ▸ h.context, h.fits.aside hwaits.aside, hwaits.aside.outcome.trans h.pending,
    hwaits.aside.ops.trans h.ops, hwaits.machine? ▸ h.machine⟩

/-- All fibers let interruption in at the bottom. -/
def Rooted (w : World σ) : Prop := ∀ f y, w.fibers.get? f = some y → y.context.interruptible = true

/-- A fiber that changes make has not had a turn. -/
theorem Changes.young {L : Licence} {actor : Option (Key .fiber)} {w w' : World σ}
    (h : Changes L actor w w') (hactor : ∀ f, actor = some f → ∃ y, w.fibers.get? f = some y)
    (hroot : w.Rooted) : ∀ f y', w'.fibers.get? f = some y' →
      (∃ y, w.fibers.get? f = some y) ∨ Young y' := by
  induction h with
  | refl => exact fun f y' h => Or.inl ⟨y', h⟩
  | @tail w₁ w₂ hchanges hchange ih =>
      have hrooted : w₁.Rooted := by
        intro f y hy
        rcases ih f y hy with ⟨y₀, hy₀⟩ | hyoung
        · obtain ⟨y₁, hy₁, hlater, -⟩ := (Changes.grows hchanges).fibers f y₀ hy₀
          obtain rfl := Option.some.inj (hy₁.symm.trans hy)
          rw [hlater.context]
          exact hroot f y₀ hy₀
        · exact hyoung.context
      intro f y' hy'
      -- the last change made the fiber, or found it there
      rcases hchange.newborn hy' with ⟨y, hy⟩ | ⟨hborn, hinterruptible⟩
      · rcases ih f y hy with hold | hyoung
        · exact Or.inl hold
        · by_cases hf : actor = some f
          · exact Or.inl (hactor f hf)
          · obtain ⟨y₁, hy₁, hlater, haside⟩ := hchange.grows.fibers f y hy
            obtain rfl := Option.some.inj (hy₁.symm.trans hy')
            exact Or.inr (hyoung.waits hlater.context ⟨haside hf, hlater.phase⟩)
      · right
        have hcontext := hinterruptible hrooted
        obtain ⟨p, hphase⟩ := hborn.phase
        refine ⟨hcontext, ⟨?_, ?_, fun _ => hborn.deferred, ?_⟩, by rw [hborn.done]; rfl, hborn.ops, p, ?_⟩
        · rw [hborn.masks]
          exact hcontext
        · rw [hborn.masks]
          rfl
        · rw [hborn.deferred]
          exact List.Pairwise.nil
        · rw [hphase]
          rfl

end World

/-- A fiber that is made in the step of another has not had a turn. -/
theorem World.young_advance {w : World σ} {g : Key .fiber} {m : Machine σ}
    (hx : Moment.Lawful ⟨w, some (g, m)⟩) (hroot : w.Rooted) {f : Key .fiber} {y' : Fiber σ}
    (hy' : (w.advance g m).world.fibers.get? f = some y') :
    (∃ y, w.fibers.get? f = some y) ∨
      World.Young y' ∧ (w.advance g m).machine? f = y'.phase.machine? := by
  cases hget : w.fibers.get? g with
  | none =>
      simp only [World.advance, hget] at hy'
      exact Or.inl ⟨y', hy'⟩
  | some z =>
      have hadvance : w.advance g m = World.conclude g (w.step g z (m.heed z)) := by
        simp only [World.advance, hget]
      rw [hadvance] at hy' ⊢
      obtain ⟨y₁, hy₁⟩ := World.old_conclude hy'
      rcases World.Changes.young (World.step_changes hx z)
        (fun f hf => by cases hf; exact ⟨z, hget⟩) hroot f y₁ hy₁ with hold | hyoung
      · exact Or.inl hold
      · by_cases hgf : g = f
        · exact Or.inl ⟨z, hgf ▸ hget⟩
        · -- it is not the fiber whose step it is, so the end of the step leaves it aside
          obtain ⟨y₂, hy₂, honward, hwaits⟩ :=
            (World.onward_conclude g (w.step g z (m.heed z))).fibers f y₁ hy₁
          obtain rfl := Option.some.inj (hy₂.symm.trans hy')
          refine Or.inr ⟨hyoung.waits honward.context
            (hwaits fun heq => hgf (Option.some.inj heq)), Moment.machine?_aside (fun m' heq => ?_) hy'⟩
          rcases World.active_conclude g (w.step g z (m.heed z)) with hnone | ⟨m'', hsome⟩
          · rw [hnone] at heq
            cases heq
          · rw [hsome] at heq
            injection heq with heq
            injection heq with heq
            exact hgf heq

/-! ## Moments -/

/-- A fiber that is made in a move has not had a turn. -/
theorem Move.young {x x' : Moment σ} (h : Move x x') (hx : x.Lawful) (hroot : x.world.Rooted)
    {f : Key .fiber} {y' : Fiber σ} (hy' : x'.world.fibers.get? f = some y') :
    (∃ y, x.world.fibers.get? f = some y) ∨
      World.Young y' ∧ x'.machine? f = y'.phase.machine? := by
  obtain ⟨w, active⟩ := x
  cases active with
  | some gm =>
      obtain ⟨g, m⟩ := gm
      cases h with
      | advance => exact World.young_advance hx hroot hy'
  | none =>
      obtain ⟨timers, -, ⟨g, token, r, -, rfl⟩ | ⟨w', rfl, hchanges⟩⟩ := World.quiet_cases h
      · left
        rcases World.awaken_cases { w with timers } g token r with heq | ⟨z, m, c, hz, -, -, -, heq⟩
        · rw [heq] at hy'
          exact ⟨y', hy'⟩
        · rw [heq, Store.get?_set] at hy'
          split at hy'
          · obtain ⟨y, hy, -⟩ := Option.map_eq_some_iff.mp hy'
            exact ⟨y, hy⟩
          · exact ⟨y', hy'⟩
      · have hlicensed := hchanges w.law trivial hx.licensed.world
        rcases World.Changes.young hlicensed (fun g hg => by cases hg) hroot f y' hy' with hold | hyoung
        · exact Or.inl hold
        · exact Or.inr ⟨hyoung, Moment.machine?_aside (fun _ heq => by cases heq) hy'⟩

/-- The masks of every fiber that is not done fit its machine. -/
structure Moment.Fitting (x : Moment σ) : Prop where
  root : x.world.Rooted
  fits : ∀ f y m, x.world.fibers.get? f = some y → x.machine? f = some m →
    y.Fits m.masks ∧ y.done.outcome? = none

/-- What becomes of the masks of a fiber in its own step. -/
theorem World.fits_step {w : World σ} {f : Key .fiber} {y : Fiber σ} {m : Machine σ}
    (hx : Moment.Lawful ⟨w, some (f, m)⟩) (hy : w.fibers.get? f = some y) (hfits : y.Fits m.masks) :
    ∃ y', (w.step f y (m.heed y)).1.fibers.get? f = some y' ∧
      y'.Fits (w.step f y (m.heed y)).2.machine.masks := by
  by_cases hworks : Moment.Works ⟨w, some (f, m)⟩ f y m
  · rw [heed_of_free hworks.free]
    obtain ⟨-, ⟨y', hy', -, hfits'⟩, -⟩ := treads_step hx hworks hfits
    exact ⟨y', hy', hfits'⟩
  · rcases step_idle hy hworks with ⟨e, -, hstep⟩ | ⟨p, hstep⟩ | hstep
    · obtain ⟨y', hy', heq⟩ := get?_leave hy e
      rw [hstep]
      refine ⟨y', hy', ?_⟩
      rw [heq]
      exact ⟨hfits.bottom, rfl, nofun, hfits.ordered⟩
    · rw [hstep]
      exact ⟨y, hy, hfits⟩
    · rw [hstep]
      exact ⟨_, get?_tired hy, hfits.of_eq rfl rfl⟩

/-- After its own step the masks of a fiber fit what is left of its machine. -/
theorem World.fits_advance {w : World σ} {f : Key .fiber} {y y' : Fiber σ} {m m' : Machine σ}
    (hx : Moment.Lawful ⟨w, some (f, m)⟩) (hy : w.fibers.get? f = some y) (hfits : y.Fits m.masks)
    (hpending : y.done.outcome? = none) (hy' : (w.advance f m).world.fibers.get? f = some y')
    (hm' : (w.advance f m).machine? f = some m') : y'.Fits m'.masks ∧ y'.done.outcome? = none := by
  have hadvance : w.advance f m = World.conclude f (w.step f y (m.heed y)) := by
    simp only [World.advance, hy]
  rw [hadvance] at hy' hm'
  obtain ⟨y₁, hy₁, hfits₁⟩ := World.fits_step hx hy hfits
  obtain ⟨y₀, hy₀, hlater, -⟩ := (World.step_changes hx y).grows.fibers f y hy
  obtain rfl := Option.some.inj (hy₀.symm.trans hy₁)
  obtain ⟨y₂, hy₂, heq, ⟨m₂, hm₂, houtcome, hmasks, -⟩ | ⟨-, hnone⟩⟩ := World.get?_conclude hy₁
  · obtain rfl := Option.some.inj (hy₂.symm.trans hy')
    obtain rfl := Option.some.inj (hm₂.symm.trans hm')
    refine ⟨?_, houtcome.trans (hlater.outcome.trans hpending)⟩
    rw [hmasks]
    exact hfits₁.of_eq (by rw [heq]) (by rw [heq])
  · rw [hnone] at hm'
    cases hm'

/-- What others do to a fiber keeps its masks fitting. -/
theorem Move.fits_aside {x x' : Moment σ} (h : Move x x') (hx : x.Lawful) (hfit : x.Fitting)
    {f : Key .fiber} (haside : ∀ m, x.active ≠ some (f, m)) {y y' : Fiber σ} {m' : Machine σ}
    (hy : x.world.fibers.get? f = some y) (hy' : x'.world.fibers.get? f = some y')
    (hm' : x'.machine? f = some m') : y'.Fits m'.masks ∧ y'.done.outcome? = none := by
  obtain ⟨y₁, hy₁, -, hstays, hmachine⟩ := h.aside hx haside hy
  obtain rfl := Option.some.inj (hy₁.symm.trans hy')
  obtain ⟨m, hm, hsame⟩ : ∃ m, x.machine? f = some m ∧ m'.masks = m.masks := by
    rcases hmachine with heq | ⟨t, m, c, hphase, -, hresumed⟩
    · exact ⟨m', heq ▸ hm', rfl⟩
    · refine ⟨m, ?_, ?_⟩
      · rw [Moment.machine?_aside haside hy, hphase]
        rfl
      · rw [Moment.machine?_of_active hresumed] at hm'
        obtain rfl := Option.some.inj hm'
        rfl
  obtain ⟨hfits, hpending⟩ := hfit.fits f y m hy hm
  exact ⟨hsame ▸ hfits.aside hstays, hstays.outcome.trans hpending⟩

/-- Every move keeps the masks fitting. -/
theorem Move.fitting {x x' : Moment σ} (h : Move x x') (hx : x.Lawful) (hfit : x.Fitting) :
    x'.Fitting := by
  obtain ⟨actor, hmove⟩ := h.onward hx
  have hold : ∀ {f y y'}, x.world.fibers.get? f = some y → x'.world.fibers.get? f = some y' →
      y.Onward y' := by
    intro f y y' hy hy'
    obtain ⟨y₁, hy₁, honward, -⟩ := hmove.fibers f y hy
    obtain rfl := Option.some.inj (hy₁.symm.trans hy')
    exact honward
  refine ⟨fun f y' hy' => ?_, fun f y' m' hy' hm' => ?_⟩
  · rcases h.young hx hfit.root hy' with ⟨y, hy⟩ | ⟨hyoung, -⟩
    · rw [(hold hy hy').context]
      exact hfit.root f y hy
    · exact hyoung.context
  · rcases h.young hx hfit.root hy' with ⟨y, hy⟩ | ⟨hyoung, hmachine⟩
    · -- its own step, or what others do
      by_cases hactive : ∃ m, x.active = some (f, m)
      · obtain ⟨m, hactive⟩ := hactive
        obtain ⟨hfits, hpending⟩ := hfit.fits f y m hy (Moment.machine?_of_active hactive)
        obtain ⟨w, active⟩ := x
        obtain rfl : active = some (f, m) := hactive
        cases h with
        | advance => exact World.fits_advance hx hy hfits hpending hy' hm'
      · exact h.fits_aside hx hfit (fun m heq => hactive ⟨m, heq⟩) hy hy' hm'
    · obtain ⟨p, hp⟩ := hyoung.machine
      rw [hmachine, hp] at hm'
      obtain rfl := Option.some.inj hm'
      exact ⟨hyoung.fits, hyoung.pending⟩

/-- In every moment of a run the masks fit. -/
theorem Run.fitting (r : Run σ) (k : Nat) : (r.moment k).Fitting := by
  induction k with
  | zero =>
      rw [r.start]
      exact ⟨fun f y h => (by cases h), fun f y m h => by cases h⟩
  | succ k ih => exact (r.move k).fitting (r.lawful k) ih

end Fibers
