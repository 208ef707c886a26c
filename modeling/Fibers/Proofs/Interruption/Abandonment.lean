import Fibers.Proofs.Finalizers.Protection
import Fibers.Proofs.Interruption.Hearing
import Fibers.Proofs.Run.Glides
import Fibers.Proofs.Scopes.Discipline

set_option autoImplicit false

/-! # Abandoned programs

A fiber whose scope is not open any more leaves its program at the first step of its turns in which it
can be interrupted. What it had left to do is dropped, and makes no difference from then on. What it
does instead is known (`Departs`): it claims the finalizers of its scope and runs them, unless
somebody else has claimed them, waits until the scope is closed, and ends with its exit.
-/

namespace Fibers

variable {σ : Type} {r : Run σ} {s : Key .scope} {f : Key .fiber}

/-! ## Steps on the way out -/

namespace World

/-- A fiber on its way out stays so. -/
theorem exiting_step {w : World σ} {y : Fiber σ} {m : Machine σ}
    (hx : Moment.Lawful ⟨w, some (f, m)⟩) (hy : w.fibers.get? f = some y) (hfits : y.Fits m.masks)
    (hexiting : m.exiting = true) : (w.step f y m).2.machine.exiting = true := by
  by_cases hworks : Moment.Works ⟨w, some (f, m)⟩ f y m
  · exact (treads_step hx hworks hfits).1.trans hexiting
  · have hheed : m.heed y = m := heed_of_free (Or.inl hexiting)
    rw [← hheed]
    rcases step_idle hy hworks with ⟨e, -, hstep⟩ | ⟨p, hstep⟩ | hstep
    · rw [hstep]
      rfl
    · rw [hstep]
      exact hexiting
    · rw [hstep]
      exact hexiting

/-- A fiber that ends has no machine any more, and has the exit. -/
theorem conclude_done {w : World σ} {y : Fiber σ} (hy : w.fibers.get? f = some y)
    (hpending : y.done.outcome? = none) (m : Machine σ) (e : AnyExit) :
    (conclude f (w, ⟨m, .done e⟩)).machine? f = none ∧
      (conclude f (w, ⟨m, .done e⟩)).world.exitOf f = some e := by
  obtain ⟨c, hc, houtcome⟩ := get?_finishFiber_self hy e
  refine ⟨?_, ?_⟩
  · show (w.finishFiber f e).parked? f = none
    rw [parked?, hc]
    rfl
  · show (w.finishFiber f e).exitOf f = some e
    rw [exitOf, hc, Option.bind_some, Fiber.exit?, houtcome hpending]
    rfl

/-- The frame under the close of a scope that a fiber on its way out sees through. -/
def departure (s : Key .scope) : List (Waiting σ) := [.map (.next (Program.waitScope s))]

/-- A value that comes down to that frame has the fiber wait for the exit of the scope. A failure ends
the fiber. -/
theorem unwind_departure {w : World σ} {y : Fiber σ} (hy : w.fibers.get? f = some y)
    (hpending : y.done.outcome? = none) (x : AnyExit) :
    (∃ v, x = .success v ∧ (conclude f (unwind f true x (departure s) w)).machine? f =
        some ⟨.instruct (Program.waitScope s), [], true⟩) ∨
      ∃ c, x = .failure c ∧ (conclude f (unwind f true x (departure s) w)).machine? f = none ∧
        (conclude f (unwind f true x (departure s) w)).world.exitOf f = some (.failure c) := by
  cases x with
  | success v => exact Or.inl ⟨v, rfl, Moment.machine?_active⟩
  | failure c => exact Or.inr ⟨c, rfl, conclude_done hy hpending _ (.failure c)⟩

/-- Above it is the frame of a mask: it comes off first. -/
theorem unwind_masked_departure {w : World σ} {y : Fiber σ} (hy : w.fibers.get? f = some y)
    (hpending : y.done.outcome? = none) (x : AnyExit) :
    (conclude f (unwind f true x (.restore .interruptible :: departure s) w)).machine? f =
        some ⟨.ofExit x, departure s, true⟩ ∨
      ∃ w' y', w'.fibers.get? f = some y' ∧ y'.done.outcome? = none ∧
        unwind f true x (.restore .interruptible :: departure s) w =
          unwind f true x (departure s) w' := by
  have hgrows : Grows (some f) w (w.restore f .interruptible).1 :=
    (changes_restore (L := .all) w f .interruptible).grows
  obtain ⟨y', hy', hlater, -⟩ := hgrows.fibers f y hy
  rcases hr : w.restore f .interruptible with ⟨w', left⟩
  rw [hr] at hy'
  cases left with
  | true =>
      left
      have hstep : unwind f true x (.restore .interruptible :: departure s) w =
          (w', { machine := ⟨.ofExit x, departure s, true⟩ }) := by
        cases x with
        | success v => simp only [unwind, unwindValue, hr, Control.ofExit]
        | failure c => simp only [unwind, unwindFailure, hr, Control.ofExit]
      rw [hstep]
      exact Moment.machine?_active
  | false =>
      refine Or.inr ⟨w', y', hy', hlater.outcome.trans hpending, ?_⟩
      cases x with
      | success v => simp only [unwind, unwindValue, hr]
      | failure c => simp only [unwind, unwindFailure, hr]

end World

/-- A fiber on its way out stays so, or it is done. -/
theorem Run.exiting_succ {k : Nat} {m m' : Machine σ} (hm : (r.moment k).machine? f = some m)
    (hexiting : m.exiting = true) (hm' : (r.moment (k + 1)).machine? f = some m') :
    m'.exiting = true := by
  rcases Moment.machine?_cases hm with hactive | ⟨haside, y, hy, hphase⟩
  · obtain ⟨y, hy, -⟩ := r.turned k f m hactive
    have hx := r.lawful_of_turn hactive
    have hfits := ((r.fitting k).fits f y m hy hm).1
    rw [Run.advance_of_turn hactive, World.advance_of_free hy (Or.inl hexiting)] at hm'
    obtain ⟨y₁, hy₁, -⟩ := (World.step_changes hx y).grows.fibers f y hy
    rw [World.heed_of_free (Or.inl hexiting)] at hy₁
    obtain ⟨-, -, -, ⟨m₁, hm₁, -, -, hsame⟩ | ⟨-, hnone⟩⟩ := World.get?_conclude hy₁
    · obtain rfl := Option.some.inj (hm₁.symm.trans hm')
      exact hsame.trans (World.exiting_step hx hy hfits hexiting)
    · rw [hnone] at hm'
      cases hm'
  · obtain ⟨y', hy', -, -, hmachine⟩ := (r.move k).aside (r.lawful k) haside hy
    rcases hmachine with heq | ⟨t, m₀, c, hsuspended, -, hresumed⟩
    · obtain rfl := Option.some.inj ((heq.trans hm).symm.trans hm')
      exact hexiting
    · rw [hsuspended] at hphase
      obtain rfl : m₀ = m := Option.some.inj hphase
      obtain rfl := Option.some.inj ((Moment.machine?_of_active hresumed).symm.trans hm')
      exact hexiting

/-- A fiber on its way out does its step, or stays about to. -/
theorem Run.works_or_rests {k : Nat} {m : Machine σ} (hm : (r.moment k).machine? f = some m)
    (hexiting : m.exiting = true)
    (hwork : (∃ p, m.control = .instruct p) ∨ ∃ e, m.control = .ofExit e)
    (hminds : m.control.Minds fun _ => False) :
    (∃ y, (r.moment k).Works f y m) ∨ (r.moment (k + 1)).machine? f = some m := by
  rcases Run.works_or_stays hm hwork hminds with hworks | hstays | ⟨y, hleaves⟩
  · exact Or.inl hworks
  · exact Or.inr hstays
  · -- who is on the way out already does not leave once more
    obtain ⟨-, -, hinside, -⟩ := hleaves
    rw [hexiting] at hinside
    cases hinside

theorem Run.rests_or_glides {k : Nat} {m m' : Machine σ} (hm : (r.moment k).machine? f = some m)
    (hexiting : m.exiting = true) (hglide : m.glide? = some m') :
    (r.moment (k + 1)).machine? f = some m ∨ (r.moment (k + 1)).machine? f = some m' := by
  rcases Run.works_or_rests hm hexiting (Machine.work_of_glide hglide) (Machine.minds_of_glide hglide)
    with ⟨y, hworks⟩ | hstays
  · right
    rw [Run.advance_of_turn hworks.turn, World.advance_glide hworks.here hglide]
    exact Moment.machine?_active
  · exact Or.inl hstays

/-! ## The way out -/

/-- The fiber `f` works on the failure `c`. -/
def Moment.Fails (x : Moment σ) (f : Key .fiber) (c : AnyCause) : Prop :=
  ∃ y m, x.Works f y m ∧ m.control = .failure c

/-- How far a fiber that left its program at `l` has come at `k` with the close of its scope `s`. It is
about to claim the finalizers; or it has claimed them and is above the frames that wait for the end of
the program that runs and publishes them; or it is back from there, or waits for the exit of the scope, or
has got it; or it is done, with that exit or with a failure that came out of the close. -/
inductive Run.Departs (r : Run σ) (s : Key .scope) (f : Key .fiber) (l k : Nat) : Prop
  | turns : (r.moment k).machine? f = some ⟨.instruct (Program.awaitScope s), [], true⟩ →
      Run.Departs r s f l k
  | finishes : (r.moment k).machine? f =
        some ⟨.instruct (Program.finishScope s), World.departure s, true⟩ → Run.Departs r s f l k
  | claims : (r.moment k).machine? f = some ⟨.instruct (.duty (.finish s)),
        .restore .interruptible :: World.departure s, true⟩ → Run.Departs r s f l k
  | closes {i : Nat} {sc : Scope (Finalizer σ)} {e : AnyExit} {fins : List (Nat × Finalizer σ)} :
      l < i → (r.moment i).Claims s f →
      ((r.moment i).world.scope s).claim? = some (sc, e, fins) →
      (r.moment (i + 1)).machine? f = some ⟨.instruct (.flatMap (World.finalizers e
        (fins.map fun fin => (⟨s, fin.1⟩, fin.2)) sc.strategy) (.sequel (.publish s))),
        .restore .interruptible :: World.departure s, true⟩ →
      r.Keeps f i (.restore .interruptible :: World.departure s) k → Run.Departs r s f l k
  | returns {c : Control σ} {st : List (Waiting σ)} :
      (r.moment k).machine? f = some ⟨c, st, true⟩ → (c = .instruct .unit ∨ ∃ x, c = .ofExit x) →
      st = .restore .interruptible :: World.departure s ∨ st = World.departure s →
      Run.Departs r s f l k
  | waits : (r.moment k).machine? f = some ⟨.instruct (Program.waitScope s), [], true⟩ →
      Run.Departs r s f l k
  | hears {e : AnyExit} {c : Control σ} : (r.moment k).machine? f = some ⟨c, [], true⟩ →
      c = .instruct (.succeed (.exit e)) ∨ c = .value (.exit e) →
      (∀ j, k ≤ j → ((r.moment j).world.scope s).exit? = some e) → Run.Departs r s f l k
  | ends {e : AnyExit} : (r.moment k).machine? f = none → (r.moment k).world.exitOf f = some e →
      ((∀ j, k ≤ j → ((r.moment j).world.scope s).exit? = some e) ∨
        ∃ c j, e = .failure c ∧ l < j ∧ j < k ∧ (r.moment j).Fails f c) → Run.Departs r s f l k

namespace Run

/-- A fiber that is not done has no exit. -/
theorem pending_of_machine {k : Nat} {y : Fiber σ} {m : Machine σ}
    (hy : (r.moment k).world.fibers.get? f = some y) (hm : (r.moment k).machine? f = some m) :
    y.done.outcome? = none := ((r.fitting k).fits f y m hy hm).2

/-- An exit has come down to the frame under the close. -/
theorem departs_of_unwind {l k : Nat} {w : World σ} {y : Fiber σ} {x : AnyExit} (hlk : l < k)
    (hy : w.fibers.get? f = some y) (hpending : y.done.outcome? = none)
    (hfails : ∀ c, x = .failure c → (r.moment k).Fails f c)
    (hnext : r.moment (k + 1) = World.conclude f (World.unwind f true x (World.departure s) w)) :
    r.Departs s f l (k + 1) := by
  rcases World.unwind_departure (s := s) hy hpending x with ⟨v, -, hm⟩ | ⟨c, rfl, hnone, hexit⟩
  · rw [← hnext] at hm
    exact .waits hm
  · rw [← hnext] at hnone hexit
    exact .ends hnone hexit (Or.inr ⟨c, k, rfl, hlk, Nat.lt_succ_self k, hfails c rfl⟩)

/-- An exit has come down to the frames that the close stands on. -/
theorem departs_of_unwind_masked {l k : Nat} {w : World σ} {y : Fiber σ} {x : AnyExit} (hlk : l < k)
    (hy : w.fibers.get? f = some y) (hpending : y.done.outcome? = none)
    (hfails : ∀ c, x = .failure c → (r.moment k).Fails f c)
    (hnext : r.moment (k + 1) = World.conclude f
      (World.unwind f true x (.restore .interruptible :: World.departure s) w)) :
    r.Departs s f l (k + 1) := by
  rcases World.unwind_masked_departure (s := s) hy hpending x with hm | ⟨w', y', hy', hpending', heq⟩
  · rw [← hnext] at hm
    exact .returns hm (Or.inr ⟨x, rfl⟩) (Or.inr rfl)
  · rw [heq] at hnext
    exact departs_of_unwind hlk hy' hpending' hfails hnext

/-- A fiber on its way out that keeps some frames is still on its way out. -/
theorem exiting_of_keeps {i k : Nat} {T : List (Waiting σ)} {m m' : Machine σ}
    (hkeeps : r.Keeps f i T k) (hm : (r.moment (i + 1)).machine? f = some m) (hexiting : m.exiting = true)
    (hm' : (r.moment k).machine? f = some m') : m'.exiting = true := by
  obtain ⟨hik, hkeeps⟩ := hkeeps
  -- as long as it has frames on its stack the fiber is not done
  induction hik generalizing m' with
  | refl =>
      obtain rfl := Option.some.inj (hm.symm.trans hm')
      exact hexiting
  | @step k hik ih =>
      obtain ⟨m₁, hm₁, -⟩ := hkeeps k hik (Nat.le_succ k)
      exact exiting_succ hm₁ (ih hm₁ fun l hil hlk => hkeeps l hil (Nat.le_succ_of_le hlk)) hm'

/-- Above the frames that the close stands on the fiber stays there, or an exit comes down to them. -/
theorem departs_of_above {l k : Nat} {m : Machine σ} (hlk : l < k)
    (hm : (r.moment k).machine? f = some m) (hexiting : m.exiting = true)
    (hstack : .restore .interruptible :: World.departure s <:+ m.stack) :
    (∃ m', (r.moment (k + 1)).machine? f = some m' ∧
        .restore .interruptible :: World.departure s <:+ m'.stack) ∨ r.Departs s f l (k + 1) := by
  rcases above_or_meets hm (List.cons_ne_nil _ _) hstack with
    habove | ⟨y, hleaves⟩ | ⟨y, x, w, hworks, hcontrol, hdown, hnext⟩
  · exact Or.inl habove
  · -- who is on the way out already does not leave once more
    obtain ⟨-, -, hinside, -⟩ := hleaves
    rw [hexiting] at hinside
    cases hinside
  · right
    obtain ⟨y', hy', hlater, -⟩ := hdown.grows.fibers f y hworks.fiber
    rw [hexiting] at hnext
    refine departs_of_unwind_masked hlk hy'
      (hlater.outcome.trans (pending_of_machine hworks.fiber hm)) (fun c hc => ?_) hnext
    rw [hc] at hcontrol
    exact ⟨y, m, hworks, hcontrol⟩

/-- The claim of the finalizers, or the step that finds that somebody else has claimed them. -/
theorem departs_of_claims {l k : Nat} (hlk : l < k) (hm : (r.moment k).machine? f =
      some ⟨.instruct (.duty (.finish s)), .restore .interruptible :: World.departure s, true⟩) :
    r.Departs s f l (k + 1) := by
  rcases works_or_rests hm rfl (Or.inl ⟨_, rfl⟩) trivial with ⟨y, hworks⟩ | hstays
  · cases hclaim : ((r.moment k).world.scope s).claim? with
    | some claimed =>
        obtain ⟨sc, e, fins⟩ := claimed
        have hclaims : (r.moment k).Claims s f := ⟨y, _, hworks, rfl, by rw [hclaim]; rfl⟩
        obtain ⟨hactive, -⟩ := (r.move k).claim_next hworks rfl hclaim
        have hm' := Moment.machine?_of_active hactive
        refine .closes hlk hclaims hclaim hm' ⟨Nat.lt_succ_self k, fun j hkj hjk => ?_⟩
        obtain rfl : j = k + 1 := Nat.le_antisymm hjk hkj
        exact ⟨_, hm', List.suffix_refl _⟩
    | none =>
        -- somebody else has claimed them, and there is nothing to run
        have hnone : (((r.moment k).world.count f).scope s).claim? = none := hclaim
        have hattend : ((r.moment k).world.count f).attend (.finish s) =
            ((r.moment k).world.count f, .ok .unit) := by
          rw [World.attend, hnone]
        refine .returns (c := .instruct .unit) ?_ (Or.inl rfl) (Or.inl rfl)
        rw [Run.advance_of_turn hworks.turn, World.advance_duty hworks.here rfl hattend]
        exact Moment.machine?_active
  · exact .claims hstays

/-- A fiber that is back from the close. -/
theorem departs_of_returns {l k : Nat} {c : Control σ} {st : List (Waiting σ)} (hlk : l < k)
    (hm : (r.moment k).machine? f = some ⟨c, st, true⟩)
    (hc : c = .instruct .unit ∨ ∃ x, c = .ofExit x)
    (hst : st = .restore .interruptible :: World.departure s ∨ st = World.departure s) :
    r.Departs s f l (k + 1) := by
  rcases hc with rfl | ⟨x, rfl⟩
  · rcases rests_or_glides hm rfl rfl with hm' | hm'
    · exact .returns hm' (Or.inl rfl) hst
    · exact .returns hm' (Or.inr ⟨.success .unit, rfl⟩) hst
  · rcases works_or_rests hm rfl (Or.inr ⟨x, rfl⟩) (by cases x <;> trivial) with ⟨y, hworks⟩ | hstays
    · have hpending := pending_of_machine hworks.fiber hm
      have hfails : ∀ c, x = .failure c → (r.moment k).Fails f c := by
        rintro c rfl
        exact ⟨y, _, hworks, rfl⟩
      have hnext := Run.advance_of_turn hworks.turn
      rw [World.advance_unwind hworks.here rfl] at hnext
      have hget := World.get?_count hworks.fiber
      rcases hst with rfl | rfl
      · exact departs_of_unwind_masked hlk hget hpending hfails hnext
      · exact departs_of_unwind hlk hget hpending hfails hnext
    · exact .returns hstays (Or.inr ⟨x, rfl⟩) hst

/-- A fiber that waits for the exit of the scope. -/
theorem departs_of_waits {l k : Nat}
    (hm : (r.moment k).machine? f = some ⟨.instruct (Program.waitScope s), [], true⟩) :
    r.Departs s f l (k + 1) := by
  obtain ⟨log, hlog⟩ := r.exists_records s
  rcases hlog.waiter hm rfl with ⟨y, hleaves⟩ | ⟨c, hm', rfl | ⟨e, rfl, hexit⟩⟩
  · cases hleaves.2.2.1
  · exact .waits hm'
  · exact .hears hm' (Or.inl rfl) fun j hj => hexit j hj

/-- A fiber that has got the exit of its scope. -/
theorem departs_of_hears {l k : Nat} {e : AnyExit} {c : Control σ}
    (hm : (r.moment k).machine? f = some ⟨c, [], true⟩)
    (hc : c = .instruct (.succeed (.exit e)) ∨ c = .value (.exit e))
    (hexit : ∀ j, k ≤ j → ((r.moment j).world.scope s).exit? = some e) :
    r.Departs s f l (k + 1) := by
  have hlater : ∀ j, k + 1 ≤ j → ((r.moment j).world.scope s).exit? = some e := fun j hj =>
    hexit j (Nat.le_of_succ_le hj)
  rcases hc with rfl | rfl
  · rcases rests_or_glides hm rfl rfl with hm' | hm'
    · exact .hears hm' (Or.inl rfl) hlater
    · exact .hears hm' (Or.inr rfl) hlater
  · rcases works_or_rests hm rfl (Or.inr ⟨.success (.exit e), rfl⟩) trivial with ⟨y, hworks⟩ | hstays
    · have hpending := pending_of_machine hworks.fiber hm
      have hnext : r.moment (k + 1) = World.conclude f ((r.moment k).world.count f,
          ⟨{ control := .value (.exit e), exiting := true }, .done e⟩) := by
        rw [Run.advance_of_turn hworks.turn,
          World.advance_unwind (e := .success (.exit e)) hworks.here rfl]
        rfl
      obtain ⟨hnone, hends⟩ := World.conclude_done (World.get?_count hworks.fiber) hpending
        { control := .value (.exit e), exiting := true } e
      rw [← hnext] at hnone hends
      exact .ends hnone hends (Or.inl hlater)
    · exact .hears hstays (Or.inr rfl) hlater

/-- A fiber that is done stays so, with its exit. -/
theorem exitOf_later {k l : Nat} (hkl : k ≤ l) {e : AnyExit}
    (hexit : (r.moment k).world.exitOf f = some e) :
    (r.moment l).machine? f = none ∧ (r.moment l).world.exitOf f = some e := by
  obtain ⟨y, hy, hye⟩ := Option.bind_eq_some_iff.mp hexit
  obtain ⟨o, ho, hoe⟩ := Option.map_eq_some_iff.mp hye
  obtain ⟨y', hy', honward⟩ := r.onward hkl hy
  have houtcome := honward.outcome o ho
  refine ⟨?_, ?_⟩
  · cases hm : (r.moment l).machine? f with
    | none => rfl
    | some m =>
        rw [pending_of_machine hy' hm] at houtcome
        cases houtcome
  · rw [World.exitOf, hy', Option.bind_some, Fiber.exit?, houtcome, Option.map_some, hoe]

/-- The next moment on the way out. -/
theorem Departs.succ {l k : Nat} (h : r.Departs s f l k) (hlk : l < k) : r.Departs s f l (k + 1) := by
  cases h with
  | turns hm => exact (rests_or_glides hm rfl rfl).elim .turns .finishes
  | finishes hm =>
      rcases works_or_rests hm rfl (Or.inl ⟨_, rfl⟩) trivial with ⟨y, hworks⟩ | hstays
      · refine .claims ?_
        rw [Run.advance_of_turn hworks.turn, World.advance_mask hworks.here rfl]
        exact Moment.machine?_active
      · exact .finishes hstays
  | claims hm => exact departs_of_claims hlk hm
  | closes hli hclaims hclaim hstart hkeeps =>
      obtain ⟨m, hm, hstack⟩ := hkeeps.2 k hkeeps.1 (Nat.le_refl k)
      rcases departs_of_above hlk hm (exiting_of_keeps hkeeps hstart rfl hm) hstack with
        ⟨m', hm', hsuffix⟩ | hdeparts
      · exact .closes hli hclaims hclaim hstart (hkeeps.succ hm' hsuffix)
      · exact hdeparts
  | returns hm hc hst => exact departs_of_returns hlk hm hc hst
  | waits hm => exact departs_of_waits hm
  | hears hm hc hexit => exact departs_of_hears hm hc hexit
  | @ends e hnone hexit hreason =>
      obtain ⟨hnone', hexit'⟩ := exitOf_later (Nat.le_succ k) hexit
      refine .ends hnone' hexit' (hreason.imp (fun h j hj => h j (Nat.le_of_succ_le hj)) ?_)
      rintro ⟨c, j, rfl, hlj, hjk, hfails⟩
      exact ⟨c, j, rfl, hlj, Nat.lt_succ_of_lt hjk, hfails⟩

/-- On its way out a fiber works on nothing of its program. -/
theorem Departs.exiting {l k : Nat} {m : Machine σ} (h : r.Departs s f l k)
    (hm : (r.moment k).machine? f = some m) : m.exiting = true := by
  have hknown : ∀ {m₀ : Machine σ}, (r.moment k).machine? f = some m₀ → m₀.exiting = true →
      m.exiting = true := fun hm₀ hexiting => Option.some.inj (hm₀.symm.trans hm) ▸ hexiting
  cases h with
  | turns hm₀ => exact hknown hm₀ rfl
  | finishes hm₀ => exact hknown hm₀ rfl
  | claims hm₀ => exact hknown hm₀ rfl
  | closes _ _ _ hstart hkeeps => exact exiting_of_keeps hkeeps hstart rfl hm
  | returns hm₀ => exact hknown hm₀ rfl
  | waits hm₀ => exact hknown hm₀ rfl
  | hears hm₀ => exact hknown hm₀ rfl
  | ends hnone =>
      rw [hnone] at hm
      cases hm

/-- A fiber that has left its program is on its way out ever after. -/
theorem departs_of_leaves {l k : Nat} {y : Fiber σ} {m : Machine σ} (h : (r.moment l).Leaves f y m)
    (hlk : l < k) : r.Departs y.scope f l k := by
  induction hlk with
  | refl => exact .turns (machine_of_leaves h)
  | @step k hlk ih => exact ih.succ hlk

/-! ## Abandonment -/

/-- A fiber whose scope is not open is told, and stays so. -/
theorem terminating_of_shut {k l : Nat} (hkl : k ≤ l) {y y' : Fiber σ}
    (hy : (r.moment k).world.fibers.get? f = some y)
    (hshut : ((r.moment k).world.scope y.scope).isOpen = false)
    (hy' : (r.moment l).world.fibers.get? f = some y') : y'.terminating = true := by
  have hterm : y.terminating = true := by
    cases hterm : y.terminating with
    | true => rfl
    | false =>
        -- who has not been told is on the hooks of an open scope
        obtain ⟨sc, fs, hooks, n, hsc, hstate, -⟩ := (r.lawful k).hooked f y hy id hterm
        rw [World.scope_of_get hsc, Scope.isOpen, hstate] at hshut
        cases hshut
  obtain ⟨y₁, hy₁, honward⟩ := r.onward hkl hy
  obtain rfl := Option.some.inj (hy₁.symm.trans hy')
  exact honward.terminating hterm

/-- A fiber that has not had a turn yet, and is told, is as it was or has left its program. -/
theorem starts_or_departs {k l : Nat} (hkl : k ≤ l) {y : Fiber σ} {p : Program σ}
    (hy : (r.moment k).world.fibers.get? f = some y)
    (hm : (r.moment k).machine? f = some { control := .start p })
    (hshut : ((r.moment k).world.scope y.scope).isOpen = false) :
    (r.moment l).machine? f = some { control := .start p } ∨
      ∃ j s, j < l ∧ r.Departs s f j l := by
  induction hkl with
  | refl => exact Or.inl hm
  | @step l hkl ih =>
      rcases ih with hm | ⟨j, s, hjl, hdeparts⟩
      · obtain ⟨y', hy', -⟩ := r.onward hkl hy
        rcases Moment.machine?_cases hm with hactive | ⟨haside, y₁, hy₁, hphase⟩
        · have hfits := ((r.fitting l).fits f y' _ hy' hm).1
          have hmust : y'.mustLeave = true := by
            rw [Fiber.mustLeave, terminating_of_shut hkl hy hshut hy', hfits.interruptible]
            rfl
          -- told and without a mask, it leaves in the first turn it gets
          exact Or.inr ⟨l, y'.scope, Nat.lt_succ_self l,
            departs_of_leaves ⟨hactive, hy', rfl, hmust⟩ (Nat.lt_succ_self l)⟩
        · obtain ⟨-, -, -, -, hmachine⟩ := (r.move l).aside (r.lawful l) haside hy₁
          left
          rcases hmachine with heq | hresumes
          · exact heq.trans hm
          · exact Moment.machine?_of_active (hresumes.proceed (r.attentive l) hy₁ hphase trivial)
      · exact Or.inr ⟨j, s, Nat.lt_succ_of_lt hjl, hdeparts.succ hjl⟩

/-- The fiber `f`, which is `y` at `l`, abandons its program there: the step that it takes is the same
whatever it has left to do, and from then on it is on its way out. -/
structure Abandons (r : Run σ) (f : Key .fiber) (l : Nat) (y : Fiber σ) : Prop where
  drops : ∀ m : Machine σ, m.exiting = false → (r.moment l).world.advance f m = r.moment (l + 1)
  departs : ∀ k, l < k → r.Departs y.scope f l k

/-- What becomes of the program of the fiber `f` once its scope is not open any more. -/
structure Abandonment (r : Run σ) (f : Key .fiber) : Prop where
  /-- It is abandoned in the first turn in which the fiber can be interrupted. -/
  abandons : ∀ {k l y y' m}, (r.moment k).world.fibers.get? f = some y →
    ((r.moment k).world.scope y.scope).isOpen = false → k ≤ l →
    (r.moment l).active = some (f, m) → (r.moment l).world.fibers.get? f = some y' →
    m.exiting = false → y'.interruptible = true → r.Abandons f l y'
  /-- If it has not started it never does. -/
  never_starts : ∀ {k l y y' p m}, (r.moment k).world.fibers.get? f = some y →
    ((r.moment k).world.scope y.scope).isOpen = false → k ≤ l →
    (r.moment k).machine? f = some { control := .start p } → (r.moment l).Works f y' m →
    m.exiting = true

/-- An interrupted program is abandoned. -/
theorem abandonment (r : Run σ) (f : Key .fiber) : r.Abandonment f where
  abandons := by
    intro k l y y' m hy hshut hkl hactive hy' hinside hopen
    have hmust : y'.mustLeave = true := by
      rw [Fiber.mustLeave, terminating_of_shut hkl hy hshut hy', hopen]
      rfl
    -- the step does not look at what is left to do: it is the same for every machine
    have hleaves : ∀ m : Machine σ, m.exiting = false →
        Moment.Leaves ⟨(r.moment l).world, some (f, m)⟩ f y' m :=
      fun m hinside => ⟨rfl, hy', hinside, hmust⟩
    refine ⟨fun m' hinside' => ?_, fun k hlk =>
      departs_of_leaves ⟨hactive, hy', hinside, hmust⟩ hlk⟩
    rw [advance_of_turn hactive, World.advance_leave (hleaves m' hinside'),
      World.advance_leave (hleaves m hinside)]
  never_starts := by
    intro k l y y' p m hy hshut hkl hm hworks
    have hm' := Moment.machine?_of_active hworks.turn
    rcases starts_or_departs hkl hy hm hshut with hstart | ⟨j, s, -, hdeparts⟩
    · obtain rfl := Option.some.inj (hm'.symm.trans hstart)
      rcases hworks.work with ⟨p, hp⟩ | ⟨e, he⟩
      · cases hp
      · cases e <;> cases he
    · exact hdeparts.exiting hm'

end Run

/-- A program that was interrupted while it was masked is abandoned when the mask comes off, and its
fiber ends with the interruption. -/
theorem shy_abandonment : (∃ y, shyRun.Abandons ⟨0⟩ 7 y) ∧
    (shyRun.moment 19).world.exitOf ⟨0⟩ = some (.failure (.interrupt .nobody)) :=
  ⟨⟨_, (shyRun.abandonment ⟨0⟩).abandons (k := 7) rfl rfl (Nat.le_refl 7) rfl rfl rfl rfl⟩, rfl⟩

end Fibers
