import Fibers.Proofs.Stacks.Heights

set_option autoImplicit false

/-! # Above some frames

A fiber whose machine has some frames `T` at the bottom does not look at them until an exit comes down to
them: up to there its steps are those of the machine without them, with `T` put back below
(`World.step_onto`). So whatever the fiber pushes in between it pushes above `T`, and once the frames above
`T` have popped what they pop the stacks are what they were before (`Run.Above.builds`).
-/

namespace Fibers

variable {σ : Type}

/-- The machine with the frames `T` below its own. -/
def Machine.onto (m : Machine σ) (T : List (Waiting σ)) : Machine σ := { m with stack := m.stack ++ T }

/-- The step with the frames `T` below those of its machine. -/
def Stepped.onto (s : Stepped σ) (T : List (Waiting σ)) : Stepped σ := { s with machine := s.machine.onto T }

namespace World

variable {w : World σ} {f : Key .fiber} {T : List (Waiting σ)}

/-! ## A step -/

theorem enter_onto (f : Key .fiber) (m : Machine σ) (T : List (Waiting σ))
    (called : World σ × Except Defect (Program σ)) :
    enter f (m.onto T) called = ((enter f m called).1, (enter f m called).2.onto T) := by
  obtain ⟨w, _ | _⟩ := called <;> rfl

/-- An instruction does not look at the stack. -/
theorem instruct_onto (w : World σ) (f : Key .fiber) (y : Fiber σ) (m : Machine σ) (T : List (Waiting σ))
    (p : Program σ) :
    w.instruct f y (m.onto T) p = ((w.instruct f y m p).1, (w.instruct f y m p).2.onto T) := by
  cases p with
  | lazy thunk =>
      simp only [instruct]
      split
      · rfl
      · exact enter_onto f m T _
  | async reg =>
      simp only [instruct]
      split
      · rfl
      · rfl
      · rfl
      · exact enter_onto f m T _
  | fork p params =>
      simp only [instruct]
      split
      · rfl
      · exact enter_onto f m T _
  | raceAll ps =>
      cases ps with
      | nil => rfl
      | cons p rest => exact enter_onto f m T _
  | zipAll ps =>
      cases ps with
      | nil => rfl
      | cons p rest => exact enter_onto f m T _
  | defer make => exact enter_onto f m T _
  | access g => exact enter_onto f m T _
  | duty d => exact enter_onto f m T _
  | succeed v => rfl
  | failCause c => rfl
  | flatMap p k => rfl
  | fold p h k => rfl
  | provide p s => rfl
  | ensuring p fin => rfl
  | fiberContext => rfl
  | fiberScope => rfl
  | fiberTrace => rfl
  | join child => rfl
  | mask p interruptible => rfl
  | withConcurrency p level => rfl
  | addFrame p frame => rfl
  | wait a => rfl
  | yieldNow => rfl

/-- An exit that meets a frame that does something does not get to those below it. -/
theorem unwind_onto {e : AnyExit} {pre : List (Waiting σ)} (h : (descend f e.isFailure pre w).2 ≠ [])
    (exiting : Bool) (T : List (Waiting σ)) :
    unwind f exiting e (pre ++ T) w =
      ((unwind f exiting e pre w).1, (unwind f exiting e pre w).2.onto T) := by
  have hstop := descend_descend f e.isFailure pre w
  rw [unwind_descend, descend_append, if_neg h, unwind_descend f exiting e pre w]
  rcases hpass : descend f e.isFailure pre w with ⟨w', met⟩
  rw [hpass] at hstop h
  cases met with
  | nil => exact absurd rfl h
  | cons x below =>
      have hpassed : ∀ w'', descend f e.isFailure below w'' ≠ (w', x :: below) := fun w'' =>
        descend_ne_cons f _ x below w'' w'
      have henter : ∀ (control : Control σ) (called : World σ × Except Defect (Program σ)),
          enter f ⟨control, below ++ T, exiting⟩ called =
            ((enter f ⟨control, below, exiting⟩ called).1, (enter f ⟨control, below, exiting⟩ called).2.onto T) :=
        fun control called => enter_onto f ⟨control, below, exiting⟩ T called
      cases x with
      | map k =>
          cases e with
          | success v => exact henter _ _
          | failure c => exact absurd hstop (hpassed w')
      | fold h k =>
          cases e with
          | success v => exact henter _ _
          | failure c => exact henter _ _
      | restore r =>
          rcases hr : w'.restore f r with ⟨w'', left⟩
          cases left with
          | false =>
              simp only [descend, hr] at hstop
              exact absurd hstop (hpassed w'')
          | true =>
              cases e with
              | success v =>
                  simp only [unwind, List.cons_append, unwindValue, hr]
                  rfl
              | failure c =>
                  simp only [unwind, List.cons_append, unwindFailure, hr]
                  rfl
      | release h => exact absurd hstop (hpassed _)
      | finalizer ho fin =>
          rcases hc : w'.claimFinalizer ho with ⟨w'', won⟩
          cases won with
          | false =>
              simp only [descend, hc] at hstop
              exact absurd hstop (hpassed w'')
          | true =>
              -- the finalizer runs over the frames that are left, and over those below
              have hrun := enter_onto f ⟨.ofExit e, .restore .interruptible :: .resumeWith e :: below, exiting⟩ T
                ((w''.modifyFiber f fun fiber => { fiber with masks := fiber.masks.push false }).finalizeWith fin e)
              cases e with
              | success v =>
                  simp only [unwind, List.cons_append, unwindValue, hc]
                  exact hrun
              | failure c =>
                  simp only [unwind, List.cons_append, unwindFailure, hc]
                  exact hrun
      | resumeWith saved =>
          cases e with
          | success v => rfl
          | failure c => rfl

/-- A step in which no exit comes down to the frames `T` is that of the machine above them. -/
theorem step_onto {y : Fiber σ} {m : Machine σ} (hworks : Moment.Works ⟨w, some (f, m.onto T)⟩ f y (m.onto T))
    (hreach : ∀ e, m.control = .ofExit e → (descend f e.isFailure m.stack (w.count f)).2 ≠ []) :
    w.step f y (m.onto T) = ((w.step f y m).1, (w.step f y m).2.onto T) := by
  rcases hworks.work with ⟨p, hp⟩ | ⟨e, he⟩
  · have hp' : m.control = .instruct p := hp
    rw [step_instruct hp hworks.budget, step_instruct hp' hworks.budget]
    exact instruct_onto _ f y m T p
  · have he' : m.control = .ofExit e := he
    rw [step_unwind he hworks.budget, step_unwind he' hworks.budget]
    exact unwind_onto (hreach e he') m.exiting T

/-- So it brings and takes what is on the piles together with the frames above them. -/
theorem builds_onto {y : Fiber σ} {m : Machine σ} {b : Card}
    (hworks : Moment.Works ⟨w, some (f, m.onto T)⟩ f y (m.onto T))
    (hreach : ∀ e, m.control = .ofExit e → (descend f e.isFailure m.stack (w.count f)).2 ≠ [])
    (h : b.Builds m.stack y.card) :
    ∃ c pre, (w.step f y (m.onto T)).1.roster.cards.get? f = some c ∧
      (w.step f y (m.onto T)).2.machine.stack = pre ++ T ∧ b.Builds pre c := by
  have hfree : m.exiting = true ∨ y.mustLeave = false := hworks.free
  have habove : Moment.Works ⟨w, some (f, m)⟩ f y m :=
    ⟨rfl, hworks.fiber, hfree, hworks.budget, hworks.work⟩
  obtain ⟨c, hc, hbuilds⟩ := builds_step habove h
  rw [heed_of_free hfree] at hc hbuilds
  rw [step_onto hworks hreach]
  exact ⟨c, _, hc, rfl, hbuilds⟩

/-- A fiber whose exit gets past some frames has popped what they pop. -/
theorem get?_descend {y : Fiber σ} {failed : Bool} {pre : List (Waiting σ)} (hy : w.fibers.get? f = some y)
    (hpast : (descend f failed pre w).2 = []) :
    ∃ z, (descend f failed pre w).1.fibers.get? f = some z ∧ z.card = y.card.pop pre := by
  obtain ⟨gone, hgone, hroster⟩ := roster_descend f failed pre w
  rw [hpast, List.append_nil] at hgone
  subst hgone
  refine get_of_card ?_
  rw [hroster, Roster.get?_modify_of_some (card_of_get hy), if_pos rfl]

end World

/-! ## In a run -/

/-- An exit of the fiber `f` comes down to the frames `T`, and what the fiber is there is `z`. -/
structure Moment.Arrives (x : Moment σ) (f : Key .fiber) (T : List (Waiting σ)) (m : Machine σ) (e : AnyExit)
    (z : Fiber σ) : Prop where
  lands : x.Lands f T m e
  fiber : ∃ pre, m.stack = pre ++ T ∧
    (World.descend f e.isFailure pre (x.world.count f)).1.fibers.get? f = some z

/-- From the moment `j` to the moment `k` the fiber `f` is at work above the frames `T`: it does not leave its
program, and no exit comes down to them. -/
structure Run.Above (r : Run σ) (f : Key .fiber) (T : List (Waiting σ)) (j k : Nat) : Prop where
  le : j ≤ k
  enters : ∃ m, (r.moment j).Carries f T m
  stays : ∀ i, j ≤ i → i < k → ∀ y m, ¬ (r.moment i).Leaves f y m
  above : ∀ i, j ≤ i → i < k → ∀ m e, ¬ (r.moment i).Lands f T m e

variable {r : Run σ} {f : Key .fiber} {T : List (Waiting σ)} {b : Card} {j k : Nat}

/-- An exit that comes down to some frames meets the fiber there. -/
theorem Moment.Lands.arrives {x : Moment σ} {m : Machine σ} {e : AnyExit} (h : x.Lands f T m e) :
    ∃ z, x.Arrives f T m e z := by
  obtain ⟨y, hworks⟩ := h.works
  obtain ⟨pre, hstack, hpast⟩ := h.past
  obtain ⟨z, hz, -⟩ := World.get?_descend (World.get?_count hworks.fiber) hpast
  exact ⟨z, h, pre, hstack, hz⟩

/-- By then the fiber has popped what the frames above pop. -/
theorem Moment.Arrives.card {x : Moment σ} {y z : Fiber σ} {m : Machine σ} {e : AnyExit}
    {pre : List (Waiting σ)} (h : x.Arrives f T m e z) (hy : x.world.fibers.get? f = some y)
    (hstack : m.stack = pre ++ T) : z.card = y.card.pop pre := by
  obtain ⟨pre', hpre', hz⟩ := h.fiber
  obtain ⟨pre'', hpre'', hpast⟩ := h.lands.past
  obtain rfl : pre' = pre := (List.append_left_inj T).mp (hpre'.symm.trans hstack)
  obtain rfl : pre'' = pre' := (List.append_left_inj T).mp (hpre''.symm.trans hstack)
  obtain ⟨z', hz', hcard⟩ := World.get?_descend (World.get?_count hy) hpast
  obtain rfl := Option.some.inj (hz'.symm.trans hz)
  exact hcard

/-- The fiber `f` carries the frames `T`, and what it has pushed since its card was `b` came together with the
frames above them. -/
structure Run.Pushes (r : Run σ) (f : Key .fiber) (T : List (Waiting σ)) (b : Card) (k : Nat) (y : Fiber σ)
    (m : Machine σ) : Prop where
  fiber : (r.moment k).world.fibers.get? f = some y
  carries : (r.moment k).Carries f T m
  builds : ∃ pre, m.stack = pre ++ T ∧ b.Builds pre y.card

/-- It still did after the fiber's own move. -/
theorem Run.Pushes.advance {y y' : Fiber σ} {m m' : Machine σ} (h : r.Pushes f T b k y m)
    (hactive : (r.moment k).active = some (f, m)) (hleaves : ∀ y m, ¬ (r.moment k).Leaves f y m)
    (hlands : ∀ m e, ¬ (r.moment k).Lands f T m e)
    (hy' : (r.moment (k + 1)).world.fibers.get? f = some y') (hcarries : (r.moment (k + 1)).Carries f T m') :
    r.Pushes f T b (k + 1) y' m' := by
  obtain ⟨hy, ⟨-, -, hcontrol⟩, pre, hstack, hbuilds⟩ := h
  have hnext := Run.conclude_of_turn hactive hy
  obtain ⟨c, pre', hc, hstack', hbuilds'⟩ : ∃ c pre',
      ((r.moment k).world.step f y (m.heed y)).1.roster.cards.get? f = some c ∧
      ((r.moment k).world.step f y (m.heed y)).2.machine.stack = pre' ++ T ∧ b.Builds pre' c := by
    by_cases hworks : (r.moment k).Works f y m
    · obtain ⟨control, stack, exiting⟩ := m
      obtain rfl : stack = pre ++ T := hstack
      rw [World.heed_of_free hworks.free]
      refine World.builds_onto (m := ⟨control, pre, exiting⟩) hworks.here (fun e he hpast => ?_) hbuilds
      exact hlands _ e ⟨⟨y, hworks⟩, he, pre, rfl, hpast⟩
    · rcases World.step_idle hy (fun h => hworks ⟨hactive, hy, h.free, h.budget, h.work⟩) with
        ⟨e, ⟨hexiting, hmust⟩ | hleave, -⟩ | ⟨p, hstep⟩ | hstep
      · exact absurd ⟨hactive, hy, hexiting, hmust⟩ (hleaves y m)
      · exact absurd hleave (hcontrol e)
      · rw [hstep]
        exact ⟨_, pre, World.card_of_get hy, hstack, hbuilds⟩
      · rw [hstep]
        exact ⟨_, pre, World.card_of_get (World.get?_tired hy), hstack, hbuilds⟩
  refine ⟨hy', hcarries, ?_⟩
  have hm' := hcarries.machine
  rw [hnext] at hy' hm'
  obtain ⟨rfl, -, release, hrelease, hhandle⟩ := World.card_conclude hc hy' hm'
  exact ⟨release ++ pre', by rw [hrelease, hstack', List.append_assoc], hbuilds'.append (hhandle _)⟩

/-- Until an exit comes down to the frames `T`, what a fiber has pushed above them came together with the frames
above them. -/
theorem Run.Above.pushes (h : r.Above f T j k) {x : Fiber σ} {n : Machine σ} {above : List (Waiting σ)}
    (hx : (r.moment j).world.fibers.get? f = some x) (hn : (r.moment j).machine? f = some n)
    (hstack : n.stack = above ++ T) : ∃ y m, r.Pushes f T (x.card.pop above) k y m := by
  obtain ⟨hjk, ⟨m, hcarries⟩, hstays, habove⟩ := h
  obtain rfl := Option.some.inj (hcarries.machine.symm.trans hn)
  induction hjk with
  | refl =>
      obtain ⟨z, -, -, hbuilds⟩ := r.grounded j hx hn
      rw [hstack] at hbuilds
      exact ⟨x, m, hx, hcarries, above, hstack, hbuilds.split.2⟩
  | @step k hjk ih =>
      obtain ⟨y, m, hpushes⟩ := ih (fun i hji hik => hstays i hji (Nat.lt_succ_of_lt hik))
        fun i hji hik => habove i hji (Nat.lt_succ_of_lt hik)
      have hleaves := hstays k hjk (Nat.lt_succ_self k)
      have hlands := habove k hjk (Nat.lt_succ_self k)
      obtain ⟨y', hy', -⟩ := r.onward (Nat.le_succ k) hpushes.fiber
      obtain ⟨m', hcarries', -⟩ | ⟨z, hleft⟩ | ⟨e, hlanded⟩ := Run.carries_or_lands hpushes.carries
      · refine ⟨y', m', ?_⟩
        rcases Moment.machine?_cases hpushes.carries.machine with hactive | ⟨haside, -⟩
        · exact hpushes.advance hactive hleaves hlands hy' hcarries'
        · obtain ⟨pre, hpre, hbuilds⟩ := hpushes.builds
          obtain ⟨hcard, n', hn', hsame, -⟩ := Run.same_of_aside haside hpushes.fiber hy' hcarries'.machine
          obtain rfl := Option.some.inj (hpushes.carries.machine.symm.trans hn')
          exact ⟨hy', hcarries', pre, hsame.trans hpre, hcard ▸ hbuilds⟩
      · exact absurd hleft (hleaves z m)
      · exact absurd hlanded (hlands m e)

end Fibers
