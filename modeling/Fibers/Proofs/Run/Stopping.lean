import Fibers.Proofs.Run.Schedule
import Fibers.Proofs.Run.Track
import Fibers.Proofs.Timers.Until

set_option autoImplicit false

/-! # When a program that is run to its exit stops

A system is driven until a fiber is done. The exit that is returned is the one that the fiber published, and it
is returned if and only if the fiber is done at some time and no task is due at some later time. If the tasks
run out first, the program has stalled.
-/

namespace Fibers

variable {σ : Type}

namespace World

variable {w w' : World σ} {f : Key .fiber} {fuel fuel' : Nat}

/-! ## More fuel -/

theorem turn_more {m : Machine σ} (h : turn fuel f m w = (w', .finished ())) (hfuel : fuel ≤ fuel') :
    turn fuel' f m w = (w', .finished ()) := by
  induction fuel generalizing f m w fuel' with
  | zero => cases h
  | succ fuel ih =>
      obtain ⟨fuel', rfl⟩ : ∃ n, fuel' = n + 1 := ⟨fuel' - 1, by omega⟩
      rw [turn_succ] at h ⊢
      rcases hadvance : w.advance f m with ⟨w₁, active⟩
      rw [hadvance] at h
      cases active with
      | none => exact h
      | some gm => exact ih h (Nat.le_of_succ_le_succ hfuel)

theorem resume_more {token : Nat} {r : Resume σ} (h : w.resume fuel f token r = (w', .finished ()))
    (hfuel : fuel ≤ fuel') : w.resume fuel' f token r = (w', .finished ()) := by
  unfold resume at h ⊢
  cases hget : w.fibers.get? f with
  | none =>
      rw [hget] at h
      exact h
  | some fiber =>
      rw [hget] at h
      dsimp only at h ⊢
      cases hphase : fiber.phase with
      | notStarted m => rwa [hphase] at h
      | running => rwa [hphase] at h
      | done e => rwa [hphase] at h
      | suspended current m =>
          rw [hphase] at h
          dsimp only at h ⊢
          split at h
          · rename_i hne
            rwa [if_pos hne]
          · rename_i hne
            rw [if_neg hne]
            cases r with
            | proceed => exact turn_more h hfuel
            | program p => exact turn_more h hfuel
            | terminate =>
                dsimp only at h ⊢
                split at h
                · rename_i hdeaf
                  rwa [if_pos hdeaf]
                · rename_i hdeaf
                  rw [if_neg hdeaf]
                  exact turn_more h hfuel

theorem perform_more {task : Task σ} (h : perform fuel task w = (w', .finished ())) (hfuel : fuel ≤ fuel') :
    perform fuel' task w = (w', .finished ()) := by
  cases task with
  | resume f token r => exact resume_more h hfuel
  | ring f => exact h
  | run act => exact h

/-- What comes to its end with some fuel does with more. -/
theorem host_within (hfuel : fuel ≤ fuel') : (host fuel : Host (World σ) (Task σ)).Within (host fuel') where
  timers := rfl
  withTimers := rfl
  await := rfl
  perform h := perform_more h hfuel

/-! ## Driving is a row of moves -/

theorem reaches_step (h : (host fuel).Step w w') : Reaches ⟨w, none⟩ ⟨w', none⟩ := by
  rcases h with ⟨hpop, hperform⟩ | ⟨-, -, hawait⟩
  · obtain ⟨t, rfl, hdraws⟩ := Timers.draws_popDue hpop
    exact (reaches_perform hdraws hperform).reaches.tail (.pass fun u hu => hu)
  · exact (reaches_await hawait).reaches

theorem reaches_steps (h : (host fuel).Steps w w') : Reaches ⟨w, none⟩ ⟨w', none⟩ := by
  induction h with
  | refl => exact .refl
  | tail _ hstep ih => exact ih.trans (reaches_step hstep)

theorem exitOf_of_onward {actor : Option (Key .fiber)} (h : Onward actor w w') {e : AnyExit}
    (he : w.exitOf f = some e) : w'.exitOf f = some e := by
  obtain ⟨y, hy, hye⟩ := Option.bind_eq_some_iff.mp he
  obtain ⟨o, ho, hoe⟩ := Option.map_eq_some_iff.mp hye
  obtain ⟨y', hy', honward, -⟩ := h.fibers f y hy
  rw [exitOf, hy', Option.bind_some, Fiber.exit?, honward.outcome o ho, Option.map_some, hoe]

end World

theorem Moment.Lawful.of_reaches {x x' : Moment σ} (hx : x.Lawful) (h : Reaches x x') : x'.Lawful := by
  induction h with
  | refl => exact hx
  | tail _ hmove ih => exact hmove.lawful ih

/-- A fiber that is done stays so, whatever moves are made. -/
theorem Moment.Lawful.exitOf_of_reaches {x x' : Moment σ} (hx : x.Lawful) (h : Reaches x x')
    {f : Key .fiber} {e : AnyExit} (he : x.world.exitOf f = some e) : x'.world.exitOf f = some e := by
  induction h with
  | refl => exact he
  | tail hbefore hmove ih =>
      obtain ⟨actor, honward⟩ := hmove.onward (hx.of_reaches hbefore)
      exact World.exitOf_of_onward honward ih

namespace World

/-- The exit of a program that has stalled. -/
def stalled : AnyExit := .die "fiber is suspended and no task can resume it"

/-- When running a program to its exit returns, and with which exit. -/
def RunsTo (w : World σ) (p : Program σ) : Prop :=
  ∀ e, (∃ fuel w', runExit fuel w p = (w', .finished e)) ↔
    (∃ fuel w₁ w₂, (host fuel).Steps (w.runFiber p).1 w₁ ∧ w₁.exitOf (w.runFiber p).2 = some e ∧
      (host fuel).Steps w₁ w₂ ∧ (host fuel).Quiet w₂) ∨
    (e = stalled ∧ ∃ fuel w', (host fuel).Steps (w.runFiber p).1 w' ∧ (host fuel).Exhausted w' ∧
      w'.exitOf (w.runFiber p).2 = none)

theorem runExit_eq (fuel : Nat) (w : World σ) (p : Program σ) : runExit fuel w p =
    match (host fuel).driveUntil fuel (fun w' => (w'.exitOf (w.runFiber p).2).isSome) (w.runFiber p).1 with
    | (w', .finished true) =>
        (w', .finished ((w'.exitOf (w.runFiber p).2).getD (.die "fiber finished without an exit")))
    | (w', .finished false) => (w', .finished stalled)
    | (w', .panicked d) => (w', .panicked d)
    | (w', .unfinished) => (w', .unfinished) := rfl

/-- Running a program to its exit returns the exit of its fiber if and only if the fiber is done at some time
and no task is due at a later one; it returns that the program has stalled if and only if the tasks run out
while the fiber is not done. -/
theorem runsTo {w : World σ} {p : Program σ} (hx : Moment.Lawful ⟨(w.runFiber p).1, none⟩) : w.RunsTo p := by
  intro e
  constructor
  · rintro ⟨fuel, w', h⟩
    rw [runExit_eq] at h
    split at h
    · rename_i w₁ hdrive
      obtain ⟨hw, he⟩ := Prod.mk.inj h
      have hends := Host.ends_of_untilLoop hdrive
      obtain ⟨x, hx⟩ := Option.isSome_iff_exists.mp hends.shows
      rw [hx, Option.getD_some] at he
      cases he
      exact Or.inl ⟨fuel, w₁, w₁, hends.steps, hx, .refl, hends.quiet⟩
    · rename_i w₁ hdrive
      obtain ⟨hw, he⟩ := Prod.mk.inj h
      have hends := Host.ends_of_untilLoop hdrive
      cases he
      exact Or.inr ⟨rfl, fuel, w₁, hends.steps, hends.exhausted rfl,
        Option.not_isSome_iff_eq_none.mp (Bool.eq_false_iff.mp hends.shows)⟩
    · cases (Prod.mk.inj h).2
    · cases (Prod.mk.inj h).2
  · rintro (⟨fuel, w₁, w₂, hdone, he, hlater, hquiet⟩ | ⟨rfl, fuel, w', hsteps, hout, hnone⟩)
    · have hsteps : (host fuel).Steps (w.runFiber p).1 w₂ := hdone.trans hlater
      have he₂ := (hx.of_reaches (reaches_steps hdone)).exitOf_of_reaches (reaches_steps hlater) he
      have hshows : (w₂.exitOf (w.runFiber p).2).isSome = true := Option.isSome_of_eq_some he₂
      obtain ⟨w', enough, hreturns⟩ :=
        Host.exists_returns_true (fun w' => (w'.exitOf (w.runFiber p).2).isSome) hsteps hquiet hshows
      -- the drive stops at the first quiet state, from which the fiber has the same exit on
      have hends := Host.ends_of_untilLoop (hreturns enough enough (Nat.le_refl _) (Nat.le_refl _))
      obtain ⟨e', he'⟩ := Option.isSome_iff_exists.mp hends.shows
      have he'₂ := (hx.of_reaches (reaches_steps hends.steps)).exitOf_of_reaches
        (reaches_steps (hends.first w₂ hsteps hquiet hshows)) he'
      obtain rfl : e' = e := Option.some.inj (he'₂.symm.trans he₂)
      have hdrive := (host_within (Nat.le_max_left fuel enough)).untilLoop
        (hreturns (max fuel enough) (max fuel enough) (Nat.le_max_right _ _) (Nat.le_max_right _ _))
      refine ⟨max fuel enough, w', ?_⟩
      rw [runExit_eq, Host.driveUntil, hdrive]
      simp only [he', Option.getD_some]
    · have hnever : ∀ t, (host fuel).Steps (w.runFiber p).1 t → (host fuel).Quiet t →
          (t.exitOf (w.runFiber p).2).isSome = false := by
        intro t ht _
        refine Option.isSome_eq_false_iff.mpr (Option.isNone_iff_eq_none.mpr ?_)
        by_contra hsome
        obtain ⟨e, he⟩ := Option.ne_none_iff_exists'.mp hsome
        have he' := (hx.of_reaches (reaches_steps ht)).exitOf_of_reaches
          (reaches_steps (hout.steps_of_steps hsteps ht)) he
        rw [hnone] at he'
        cases he'
      obtain ⟨enough, hreturns⟩ := Host.returns_false_of_steps hsteps hout hnever
      have hdrive := (host_within (Nat.le_max_left fuel enough)).untilLoop
        (hreturns (max fuel enough) (max fuel enough) (Nat.le_max_right _ _) (Nat.le_max_right _ _))
      refine ⟨max fuel enough, w', ?_⟩
      rw [runExit_eq, Host.driveUntil, hdrive]

end World

/-- Running a program to its exit, at any time when nobody has the turn, returns the exit of every fiber that is
done if there is a later time at which no task is due. This is so because any drive of any system stops at the
first such time at which its condition holds. -/
theorem Run.runs_until_quiet (r : Run σ) {k : Nat} {w : World σ} (hw : r.moment k = ⟨w, none⟩) {p : Program σ}
    (hp : p.Licensed .none) :
    w.RunsTo p ∧ ∀ {S τ : Type} (host : Host S τ) (done : S → Bool) (s : S), host.Stops done s := by
  have hmove : Move ⟨w, none⟩ ⟨(w.runFiber p).1, none⟩ := .root hp
  have hlawful : Moment.Lawful ⟨w, none⟩ := hw ▸ r.lawful k
  exact ⟨World.runsTo (hmove.lawful hlawful), fun host done s => host.stops done s⟩

/-- A new system on virtual time. -/
def blank : World Nat := .new { Config.standard with clock := .virtual } .empty 0

/-- A program that yields is run to its exit there. -/
theorem blank_stops :
    blank.RunsTo .yieldNow ∧ (World.host 20).Stops (fun w : World Nat => w.roots.isEmpty) blank ∧
      ∃ w', World.runExit 20 blank .yieldNow = (w', .finished (.success .unit)) := by
  have hp : (Program.yieldNow : Program Nat).Licensed .none := .yieldNow
  have hexit : ∃ w', World.runExit 20 blank .yieldNow = (w', .finished (.success .unit)) := ⟨_, rfl⟩
  obtain ⟨hruns, hstops⟩ :=
    Run.runs_until_quiet (.inOrder { Config.standard with clock := .virtual } 0 .yieldNow hp) (k := 0) (w := blank) rfl hp
  exact ⟨hruns, hstops _ _ _, hexit⟩

end Fibers
