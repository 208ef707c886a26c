import Fibers.Proofs.Run.Moves

set_option autoImplicit false

/-! # Following a fiber through a run

Every moment of a run is lawful. A fiber whose turn it is not keeps its stacks and its machine: at
most it is started, resumed with a program to go on with, or told that its scope is closing.
-/

namespace Fibers

variable {σ : Type} {L : Licence}

/-! ## The machine of a fiber -/

/-- The machine that a phase keeps. -/
def Phase.machine? : Phase σ → Option (Machine σ)
  | .notStarted m => some m
  | .running => none
  | .suspended _ m => some m
  | .done _ => none

/-- The machine of a fiber that stands aside. -/
def World.parked? (w : World σ) (f : Key .fiber) : Option (Machine σ) :=
  (w.fibers.get? f).bind fun x => x.phase.machine?

/-- The machine of a fiber, put aside or in its turn. -/
def Moment.machine? (x : Moment σ) (f : Key .fiber) : Option (Machine σ) :=
  match x.active with
  | some (g, m) => if g = f then some m else x.world.parked? f
  | none => x.world.parked? f

theorem Moment.machine?_active {w : World σ} {f : Key .fiber} {m : Machine σ} :
    (⟨w, some (f, m)⟩ : Moment σ).machine? f = some m := if_pos rfl

theorem Moment.machine?_of_active {x : Moment σ} {f : Key .fiber} {m : Machine σ}
    (h : x.active = some (f, m)) : x.machine? f = some m := by
  unfold Moment.machine?
  rw [h]
  exact if_pos rfl

theorem Moment.machine?_of_ne {x : Moment σ} {f : Key .fiber}
    (h : ∀ m, x.active ≠ some (f, m)) : x.machine? f = x.world.parked? f := by
  unfold Moment.machine?
  split
  · rename_i g m heq
    rw [if_neg]
    rintro rfl
    exact h m heq
  · rfl

/-- A fiber that is aside has the machine that was put aside. -/
theorem Moment.machine?_aside {x : Moment σ} {f : Key .fiber} {y : Fiber σ}
    (haside : ∀ m, x.active ≠ some (f, m)) (hy : x.world.fibers.get? f = some y) :
    x.machine? f = y.phase.machine? := by
  rw [machine?_of_ne haside, World.parked?, hy, Option.bind_some]

/-- A machine is that of the fiber whose turn it is, or it was put aside. -/
theorem Moment.machine?_cases {x : Moment σ} {f : Key .fiber} {m : Machine σ}
    (h : x.machine? f = some m) : x.active = some (f, m) ∨ (∀ m', x.active ≠ some (f, m')) ∧
      ∃ y, x.world.fibers.get? f = some y ∧ y.phase.machine? = some m := by
  by_cases hactive : ∃ m', x.active = some (f, m')
  · obtain ⟨m', hactive⟩ := hactive
    obtain rfl : m' = m := Option.some.inj ((Moment.machine?_of_active hactive).symm.trans h)
    exact Or.inl hactive
  · have haside : ∀ m', x.active ≠ some (f, m') := fun m' heq => hactive ⟨m', heq⟩
    rw [Moment.machine?_of_ne haside, World.parked?] at h
    exact Or.inr ⟨haside, Option.bind_eq_some_iff.mp h⟩

/-- The machines of fibers keep to what their moment keeps to. -/
theorem Moment.Licensed.machine {x : Moment σ} (h : x.Licensed L) {f : Key .fiber} {m : Machine σ}
    (hm : x.machine? f = some m) (hf : ¬ L.exempt f) : m.Licensed L := by
  rcases Moment.machine?_cases hm with hactive | ⟨-, y, hy, hphase⟩
  · exact h.active f m hactive hf
  · have hlicensed := h.world.machines f y hy hf
    cases hp : y.phase with
    | running =>
        rw [hp] at hphase
        cases hphase
    | done e =>
        rw [hp] at hphase
        cases hphase
    | notStarted m' =>
        rw [hp] at hphase hlicensed
        obtain rfl : m' = m := Option.some.inj hphase
        exact hlicensed
    | suspended t m' =>
        rw [hp] at hphase hlicensed
        obtain rfl : m' = m := Option.some.inj hphase
        exact hlicensed

theorem Fiber.Waits.machine? {x x' : Fiber σ} (h : x.Waits x') :
    x'.phase.machine? = x.phase.machine? := by
  rcases h.phase with ⟨hp, -⟩ | ⟨m, hp, hp', -⟩
  · rw [hp]
  · rw [hp, hp']
    rfl

/-- The end of a step leaves the turn to the same fiber, or to nobody. -/
theorem World.active_conclude (f : Key .fiber) (stepped : World σ × Stepped σ) :
    (World.conclude f stepped).active = none ∨
      ∃ m, (World.conclude f stepped).active = some (f, m) := by
  obtain ⟨w, m, d⟩ := stepped
  cases d with
  | proceed => exact Or.inr ⟨m, rfl⟩
  | yield =>
      simp only [World.conclude]
      split
      · exact Or.inl rfl
      · exact Or.inl rfl
  | await a release =>
      simp only [World.conclude]
      split
      · exact Or.inl rfl
      · split
        · exact Or.inl rfl
        · exact Or.inr ⟨_, rfl⟩
  | done e => exact Or.inl rfl

theorem World.active_advance (w : World σ) (f : Key .fiber) (m : Machine σ) :
    (w.advance f m).active = none ∨ ∃ m', (w.advance f m).active = some (f, m') := by
  unfold World.advance
  split
  · exact Or.inl rfl
  · exact World.active_conclude f _

/-! ## Lawful moves -/

namespace World

/-- Elementary changes from outside any fiber leave the world lawful, if they bring in nothing
that the world does not have in store. -/
theorem lawful_of_changes {w w' : World σ} (hx : Moment.Lawful ⟨w, none⟩)
    (h : ∀ L, w.law ≤ L → Changes L none w w') :
    Moment.Lawful ⟨w', none⟩ ∧ Onward none w w' := by
  have hchanges := h w.law ⟨fun _ h => h, fun _ h => h, fun _ h => h, id⟩
  have hgrows : Grows none w w' := hchanges.grows
  have hle : w.law ≤ { w.law with hold := Issued w' } :=
    ⟨fun _ h => h, fun _ h => h, fun _ h => h.mono hgrows.scopes, id⟩
  have hle' : { w.law with hold := Issued w' } ≤ w'.law :=
    ⟨fun _ h => h.mono hgrows.scopes, fun _ h => h.mono hgrows.scopes, fun _ h => h, id⟩
  have hw : w.Licensed { w.law with hold := Issued w' } :=
    hx.licensed.world.mono hle fun _ h => h
  have hw' := (h _ hle).licensed (fun _ _ h => h) hw
  exact ⟨⟨⟨hw'.mono hle' fun _ h => h, fun g m h => by cases h⟩,
    hchanges.hooked (fun _ h => h) hx.hooked⟩, hgrows.onward⟩

/-- A world with other tasks. -/
theorem lawful_timers {w : World σ} {timers : Timers (Task σ)} (hx : Moment.Lawful ⟨w, none⟩)
    (h : ∀ u ∈ timers.live, u ∈ w.timers.live) : Moment.Lawful ⟨{ w with timers }, none⟩ :=
  ⟨⟨licensed_timers hx.licensed.world h, fun g m h => by cases h⟩,
    HookedBut.of_eq hx.hooked rfl rfl⟩

theorem lawful_awaken {w : World σ} (hx : Moment.Lawful ⟨w, none⟩) {f : Key .fiber}
    {token : Nat} {r : Resume σ} (hr : ∀ p, r = .program p → p.Licensed w.law) :
    (w.awaken f token r).Lawful := by
  have hscopes := (onward_awaken w f token r).scopes
  have hlicensed : (w.awaken f token r).Licensed w.law := licensed_awaken hx.licensed.world hr
  refine ⟨⟨hlicensed.world.mono (law_mono hscopes) fun _ h => h, fun g m h hg =>
    (hlicensed.active g m h hg).mono (law_mono hscopes)⟩, ?_⟩
  unfold awaken
  split
  · exact hx.hooked
  · split
    · split
      · exact hx.hooked
      · cases r with
        | proceed => exact hooked_running hx.hooked f
        | program p => exact hooked_running hx.hooked f
        | terminate =>
            dsimp only
            split
            · exact hx.hooked
            · exact hooked_running hx.hooked f
    · exact hx.hooked

/-- A move between turns takes tasks out of the queue and resumes a fiber that one of them is for,
or it comes down to elementary changes under any licence to forget that the world keeps to. -/
theorem quiet_cases {w : World σ} {x' : Moment σ} (h : Move ⟨w, none⟩ x') :
    ∃ timers : Timers (Task σ), (∀ u ∈ timers.live, u ∈ w.timers.live) ∧
      ((∃ f token r, w.Queued ⟨f, token⟩ r ∧ x' = World.awaken { w with timers } f token r) ∨
        ∃ w', x' = ⟨w', none⟩ ∧
          ∀ L, L.forget → w.Licensed L → Changes L none { w with timers } w') := by
  cases h with
  | @task w t timers ht hlive =>
      refine ⟨timers, hlive, ?_⟩
      cases htask : t.task with
      | resume f token r => exact Or.inl ⟨f, token, r, ⟨t, ht, htask⟩, rfl⟩
      | ring f =>
          exact Or.inr ⟨_, rfl, fun L _ _ =>
            (elsewhere_resolve (L := L) { w with timers } f .succeed).changes (tallies_settle _ f _)⟩
      | run act =>
          refine Or.inr ⟨_, rfl, fun L _ hL => ?_⟩
          have hact : act.Licensed L := by
            have hlicensed := hL.tasks t ht
            rw [htask] at hlicensed
            exact hlicensed
          exact (sound_run hact { w with timers }).changes
  | @pass w timers hlive => exact ⟨timers, hlive, Or.inr ⟨_, rfl, fun L _ _ => .refl _⟩⟩
  | @errand w e others he hothers =>
      exact ⟨w.timers, fun _ hu => hu, Or.inr ⟨_, rfl, fun L _ hL =>
        (elsewhere_runErrand (hL.errands e he) hothers).changes (tallies_settle _ _ _)⟩⟩
  | @root w p hp =>
      exact ⟨w.timers, fun _ hu => hu, Or.inr ⟨_, rfl, fun L hforget _ =>
        changes_runFiber w fun _ => hp.mono (Licence.none_le hforget)⟩⟩
  | @act w e a ha =>
      exact ⟨w.timers, fun _ hu => hu, Or.inr ⟨_, rfl, fun L hforget _ =>
        (sound_run (ha.mono (Licence.none_le hforget)) w).changes⟩⟩

/-- A move between turns that comes down to elementary changes, after some tasks are taken out. -/
theorem quiet_of_changes {w w' : World σ} {timers : Timers (Task σ)}
    (hx : Moment.Lawful ⟨w, none⟩) (hlive : ∀ u ∈ timers.live, u ∈ w.timers.live)
    (h : ∀ L, L.forget → w.Licensed L → Changes L none { w with timers } w') :
    Moment.Lawful ⟨w', none⟩ ∧ Onward none w w' := by
  obtain ⟨hlawful, honward⟩ := lawful_of_changes (lawful_timers hx hlive) fun L hL =>
    h L (hL.2.2.2 trivial) (hx.licensed.world.mono hL fun _ => False.elim)
  have hbefore : Onward none w { w with timers } := onward_of_eq rfl rfl
  exact ⟨hlawful, hbefore.trans honward⟩

theorem quiet_lawful {w : World σ} {x' : Moment σ} (hx : Moment.Lawful ⟨w, none⟩)
    (h : Move ⟨w, none⟩ x') : x'.Lawful := by
  obtain ⟨timers, hlive, ⟨f, token, r, ⟨t, ht, htask⟩, rfl⟩ | ⟨w', rfl, hchanges⟩⟩ := quiet_cases h
  · refine lawful_awaken (lawful_timers hx hlive) fun p hp => ?_
    subst hp
    have hlicensed := hx.licensed.world.tasks t ht
    rw [htask] at hlicensed
    exact hlicensed
  · exact (quiet_of_changes hx hlive hchanges).1

end World

/-- Every move leads from a lawful moment to a lawful one. -/
theorem Move.lawful {x x' : Moment σ} (h : Move x x') (hx : x.Lawful) : x'.Lawful := by
  obtain ⟨w, active⟩ := x
  cases active with
  | none => exact World.quiet_lawful hx h
  | some fm =>
      cases h with
      | advance => exact (World.advance_lawful hx).1

/-- Every move goes forward. -/
theorem Move.onward {x x' : Moment σ} (h : Move x x') (hx : x.Lawful) :
    ∃ actor, World.Onward actor x.world x'.world := by
  obtain ⟨w, active⟩ := x
  cases active with
  | none =>
      obtain ⟨timers, hlive, ⟨f, token, r, -, rfl⟩ | ⟨w', rfl, hchanges⟩⟩ := World.quiet_cases h
      · have hbefore : World.Onward (some f) w { w with timers } := World.onward_of_eq rfl rfl
        exact ⟨some f, hbefore.trans (World.onward_awaken _ f token r)⟩
      · exact ⟨none, (World.quiet_of_changes hx hlive hchanges).2⟩
  | some fm =>
      obtain ⟨f, m⟩ := fm
      cases h with
      | advance => exact ⟨some f, (World.advance_lawful hx).2⟩

/-- Every moment of a run is lawful. -/
theorem Run.lawful (r : Run σ) (k : Nat) : (r.moment k).Lawful := by
  induction k with
  | zero =>
      rw [r.start]
      refine ⟨⟨⟨?_, ?_, ?_, ?_, ?_, ?_⟩, fun f m h => by cases h⟩, ?_⟩
      · intro f x hx
        cases hx
      · intro s sc hs
        cases hs
      · intro s sc h hs
        cases hs
      · intro f c hc
        cases hc
      · intro t ht
        cases ht
      · intro e he
        cases he
      · intro f x hx
        cases hx
  | succ k ih => exact (r.move k).lawful ih

/-- In the turn of a fiber the next moment is the one after its step. -/
theorem Run.advance_of_turn {r : Run σ} {k : Nat} {f : Key .fiber} {m : Machine σ}
    (h : (r.moment k).active = some (f, m)) :
    r.moment (k + 1) = (r.moment k).world.advance f m := by
  have hmove := r.move k
  rcases hx : r.moment k with ⟨w, active⟩
  rw [hx] at h hmove
  obtain rfl : active = some (f, m) := h
  generalize r.moment (k + 1) = x' at hmove
  cases hmove with
  | advance => rfl

/-- If the fiber is there, that is the end of its step. -/
theorem Run.conclude_of_turn {r : Run σ} {k : Nat} {f : Key .fiber} {y : Fiber σ} {m : Machine σ}
    (h : (r.moment k).active = some (f, m)) (hy : (r.moment k).world.fibers.get? f = some y) :
    r.moment (k + 1) = World.conclude f ((r.moment k).world.step f y (m.heed y)) := by
  rw [Run.advance_of_turn h]
  simp only [World.advance, hy]

/-- Every moment is lawful, who has the turn being known. -/
theorem Run.lawful_of_turn {r : Run σ} {k : Nat} {f : Key .fiber} {m : Machine σ}
    (h : (r.moment k).active = some (f, m)) :
    Moment.Lawful ⟨(r.moment k).world, some (f, m)⟩ := by
  rw [← h]
  exact r.lawful k

/-- What a fiber is goes forward in a run. -/
theorem Run.onward (r : Run σ) {j k : Nat} (hjk : j ≤ k) {f : Key .fiber} {y : Fiber σ}
    (hy : (r.moment j).world.fibers.get? f = some y) :
    ∃ y', (r.moment k).world.fibers.get? f = some y' ∧ y.Onward y' := by
  induction hjk with
  | refl => exact ⟨y, hy, .refl y⟩
  | @step k _ ih =>
      obtain ⟨y', hy', honward⟩ := ih
      obtain ⟨actor, hmove⟩ := (r.move k).onward (r.lawful k)
      obtain ⟨y'', hy'', honward', -⟩ := hmove.fibers f y' hy'
      exact ⟨y'', hy'', honward.trans honward'⟩

/-- The scopes go forward in a run. -/
theorem Run.scopesLater (r : Run σ) {j k : Nat} (hjk : j ≤ k) :
    World.ScopesLater (r.moment j).world (r.moment k).world := by
  induction hjk with
  | refl => exact fun s sc h => ⟨sc, h, .refl sc⟩
  | @step k _ ih =>
      obtain ⟨actor, hmove⟩ := (r.move k).onward (r.lawful k)
      intro s sc hsc
      obtain ⟨sc', hsc', hlater⟩ := ih s sc hsc
      obtain ⟨sc'', hsc'', hlater'⟩ := hmove.scopes s sc' hsc'
      exact ⟨sc'', hsc'', hlater.trans hlater'⟩

/-! ## A fiber aside -/

/-- A resumption does nothing, or it begins the turn of a fiber that was suspended under the
token: with its machine as it was, or with the program that it waited for. -/
theorem World.awaken_cases (w : World σ) (f : Key .fiber) (token : Nat) (r : Resume σ) :
    w.awaken f token r = ⟨w, none⟩ ∨ ∃ y m c, w.fibers.get? f = some y ∧
      y.phase = .suspended token m ∧ (c = m.control ∨ ∃ p, r = .program p ∧ c = .instruct p) ∧
      (r = .terminate → m.exiting = false ∧ y.interruptible = true) ∧
      w.awaken f token r =
        ⟨{ w with fibers := w.fibers.set f { y with phase := .running } },
          some (f, { m with control := c })⟩ := by
  unfold awaken
  cases hget : w.fibers.get? f with
  | none => exact Or.inl rfl
  | some y =>
      dsimp only
      cases hphase : y.phase with
      | notStarted m => exact Or.inl rfl
      | running => exact Or.inl rfl
      | done e => exact Or.inl rfl
      | suspended current m =>
          dsimp only
          by_cases htoken : current = token
          · subst htoken
            rw [if_neg fun h => h rfl, modifyFiber, Store.modify_eq_set _ hget]
            cases r with
            | proceed =>
                exact Or.inr ⟨y, m, m.control, rfl, hphase, Or.inl rfl, (fun h => by cases h), rfl⟩
            | program p =>
                exact Or.inr ⟨y, m, .instruct p, rfl, hphase, Or.inr ⟨p, rfl, rfl⟩,
                  (fun h => by cases h), rfl⟩
            | terminate =>
                dsimp only
                split
                · exact Or.inl rfl
                · rename_i hdeaf
                  simp only [Bool.or_eq_true, Bool.not_eq_true', not_or, Bool.not_eq_true,
                    Bool.not_eq_false] at hdeaf
                  exact Or.inr ⟨y, m, m.control, rfl, hphase, Or.inl rfl, fun _ => hdeaf, rfl⟩
          · rw [if_pos htoken]
            exact Or.inl rfl

/-- A fiber that was suspended is resumed: where it was, or with a program that a task brings. -/
def Moment.Resumes (x x' : Moment σ) (f : Key .fiber) (y : Fiber σ) : Prop :=
  ∃ t m c, y.phase = .suspended t m ∧
    (c = m.control ∨ ∃ p, x.world.Queued ⟨f, t⟩ (.program p) ∧ c = .instruct p) ∧
      x'.active = some (f, { m with control := c })

/-- What becomes of a fiber in a move that is not its own: it keeps its stacks, and its machine but
for what it goes on with when it is resumed. -/
theorem Move.aside {x x' : Moment σ} (h : Move x x') (hx : x.Lawful) {f : Key .fiber}
    {y : Fiber σ} (haside : ∀ m, x.active ≠ some (f, m)) (hy : x.world.fibers.get? f = some y) :
    ∃ y', x'.world.fibers.get? f = some y' ∧ y.Onward y' ∧ y.Aside y' ∧
      (x'.machine? f = x.machine? f ∨ x.Resumes x' f y) := by
  obtain ⟨w, active⟩ := x
  have hparked := Moment.machine?_of_ne haside
  cases active with
  | some gm =>
      obtain ⟨g, m⟩ := gm
      have hgf : g ≠ f := fun heq => haside m (by rw [heq])
      cases h with
      | advance =>
          obtain ⟨y', hy', honward, hwaits⟩ := (World.advance_lawful hx).2.fibers f y hy
          have hwait : y.Waits y' := hwaits fun heq => hgf (Option.some.inj heq)
          refine ⟨y', hy', honward, hwait.aside, Or.inl ?_⟩
          have hne : ∀ m', (w.advance g m).active ≠ some (f, m') := by
            intro m' heq
            rcases World.active_advance w g m with hnone | ⟨m'', hsome⟩
            · rw [hnone] at heq
              cases heq
            · rw [hsome] at heq
              injection heq with heq
              injection heq with heq
              exact hgf heq
          rw [hparked, Moment.machine?_of_ne hne, World.parked?, World.parked?, hy, hy',
            Option.bind_some, Option.bind_some, hwait.machine?]
  | none =>
      obtain ⟨timers, hlive, ⟨g, token, r, hqueued, rfl⟩ | ⟨w', rfl, hchanges⟩⟩ :=
        World.quiet_cases h
      · have hy₁ : ({ w with timers } : World σ).fibers.get? f = some y := hy
        have hstay : (⟨{ w with timers }, none⟩ : Moment σ).machine? f =
            (⟨w, none⟩ : Moment σ).machine? f := rfl
        rcases World.awaken_cases { w with timers } g token r with
          heq | ⟨z, m, c, hz, hphase, hc, -, heq⟩
        · rw [heq]
          exact ⟨y, hy, .refl y, .refl y, Or.inl hstay⟩
        · rw [heq]
          -- only the fiber that is resumed changes, and of it only that it runs now
          by_cases hgf : g = f
          · subst hgf
            obtain rfl : z = y := Option.some.inj (hz.symm.trans hy)
            refine ⟨{ z with phase := .running }, ?_, ⟨rfl, rfl, id, fun _ => id⟩,
              ⟨rfl, rfl, rfl, rfl, rfl, rfl, .of_eq rfl⟩, Or.inr ⟨token, m, c, hphase, ?_, rfl⟩⟩
            · rw [Store.get?_set, if_pos rfl, hy]
              rfl
            · refine hc.imp_right ?_
              rintro ⟨p, rfl, hp⟩
              exact ⟨p, hqueued, hp⟩
          · refine ⟨y, by rw [Store.get?_set, if_neg hgf, hy], .refl y, .refl y, Or.inl ?_⟩
            have hne : ∀ m', (⟨{ w with timers, fibers := w.fibers.set g { z with phase := .running } },
                some (g, { m with control := c })⟩ : Moment σ).active ≠ some (f, m') := by
              intro m' h
              injection h with h
              injection h with h
              exact hgf h
            rw [hparked, Moment.machine?_of_ne hne, World.parked?, World.parked?, hy,
              Store.get?_set, if_neg hgf, hy]
      · obtain ⟨-, honward⟩ := World.quiet_of_changes hx hlive hchanges
        obtain ⟨y', hy', honward', hwaits⟩ := honward.fibers f y hy
        have hwait : y.Waits y' := hwaits fun heq => by cases heq
        refine ⟨y', hy', honward', hwait.aside, Or.inl ?_⟩
        have hne : ∀ m', (⟨w', none⟩ : Moment σ).active ≠ some (f, m') := fun m' heq => by cases heq
        rw [hparked, Moment.machine?_of_ne hne, World.parked?, World.parked?, hy, hy',
          Option.bind_some, Option.bind_some, hwait.machine?]

end Fibers
