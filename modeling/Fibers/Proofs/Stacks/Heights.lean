import Fibers.Proofs.Run.Births
import Fibers.Proofs.Interruption.Wearing
import Fibers.Proofs.Traces.Logical

set_option autoImplicit false

/-! # Heights of the stacks

What a fiber pushes on one of its four stacks and the frame that pops it later come in the same step, and go
in the same step. So the stacks can be built up from those that the fiber was made with, frame by frame from
the bottom of its machine's stack (`Run.grounded`): nothing is on them that no frame pops, but for the mask
that a fiber puts on for good when it leaves its program.
-/

namespace Fibers

variable {σ : Type}

/-- How high one of the four stacks of a fiber is, with what the fiber was made with. -/
def Fiber.height (y : Fiber σ) : Restore → Nat
  | .interruptible => y.masks.pushed.length + 1
  | .semaphore => y.semaphores.pushed.length + 1
  | .services => y.services.pushed.length + 1
  | .label => y.frames.length

/-- Whether a frame pops the stack `s`. -/
def Waiting.pops (s : Restore) : Waiting σ → Bool
  | .restore r => r == s
  | _ => false

/-- The number of frames that pop the stack `s`. -/
def popsOf (s : Restore) (stack : List (Waiting σ)) : Nat := stack.countP (Waiting.pops s)

namespace Card

/-! ## With nothing on the piles -/

theorem bare_restore (c : Card) (s : Restore) : (c.restore s).bare = c.bare := by
  cases s <;> rfl

theorem left_bare (c : Card) : c.bare.left = c.left := rfl

theorem height_bare (c : Card) (s : Restore) : c.bare.height s = 0 := by
  cases s <;> rfl

/-- A child has nothing on its piles. -/
theorem Begets.bare {c d : Card} (h : c.Begets d) : d.bare = d := by
  obtain ⟨context, scope, ⟨semaphore, pushed⟩, masks, services, inherited, labels, pending, vowed⟩ := d
  obtain ⟨-, -, -, hlabels, hsemaphores, hmasks, hservices, -, -⟩ := h
  obtain rfl : labels = [] := hlabels
  obtain rfl : pushed = [] := hsemaphores
  obtain rfl : masks = ⟨context.interruptible, []⟩ := hmasks
  obtain rfl : services = ⟨c.services.top, []⟩ := hservices
  rfl

/-! ## Frame by frame -/

/-- A frame pops its own pile only. -/
theorem height_restore_of_ne (c : Card) {r s : Restore} (hrs : r ≠ s) : (c.restore r).height s = c.height s := by
  cases r <;> cases s <;> first | rfl | exact absurd rfl hrs

theorem Raises.pop {x : Waiting σ} {c d : Card} (h : Raises x c d) (xs : List (Waiting σ)) :
    d.pop (x :: xs) = c.pop xs := by
  cases x with
  | restore r => exact congrArg (Card.pop · xs) h.1
  | map k => exact congrArg (Card.pop · xs) h
  | fold h' k => exact congrArg (Card.pop · xs) h
  | finalizer h' fin => exact congrArg (Card.pop · xs) h
  | resumeWith e => exact congrArg (Card.pop · xs) h
  | release h' => exact congrArg (Card.pop · xs) h

theorem Raises.bare {x : Waiting σ} {c d : Card} (h : Raises x c d) : d.bare = c.bare := by
  cases x with
  | restore r => exact (bare_restore d r).symm.trans (congrArg Card.bare h.1)
  | map k => exact congrArg Card.bare h
  | fold h' k => exact congrArg Card.bare h
  | finalizer h' fin => exact congrArg Card.bare h
  | resumeWith e => exact congrArg Card.bare h
  | release h' => exact congrArg Card.bare h

/-- A frame that pops a pile comes with one thing on it, and with nothing on the others. -/
theorem Raises.height {x : Waiting σ} {c d : Card} (h : Raises x c d) (s : Restore) :
    d.height s = c.height s + if x.pops s then 1 else 0 := by
  cases x with
  | restore r =>
      obtain ⟨rfl, hheight⟩ := h
      by_cases hrs : r = s
      · subst hrs
        simpa [Waiting.pops] using hheight
      · simp [Waiting.pops, hrs, height_restore_of_ne d hrs]
  | map k => exact congrArg (Card.height · s) h
  | fold h' k => exact congrArg (Card.height · s) h
  | finalizer h' fin => exact congrArg (Card.height · s) h
  | resumeWith e => exact congrArg (Card.height · s) h
  | release h' => exact congrArg (Card.height · s) h

namespace Builds

variable {b c d : Card} {xs ys : List (Waiting σ)}

theorem bare (h : c.Builds xs d) : d.bare = c.bare := by
  induction h with
  | nil => rfl
  | cons _ hraises ih => exact hraises.bare.trans ih

/-- On each pile lies one thing for every frame that pops it. -/
theorem height (h : c.Builds xs d) (s : Restore) : d.height s = c.height s + popsOf s xs := by
  induction h with
  | nil => rfl
  | @cons x xs d e _ hraises ih =>
      rw [hraises.height s, ih, popsOf, popsOf, List.countP_cons, Nat.add_assoc]

theorem append (h : c.Builds xs d) (h' : d.Builds ys b) : c.Builds (ys ++ xs) b := by
  induction h' with
  | nil => exact h
  | cons _ hraises ih => exact .cons ih hraises

/-- What came with the frames above some others came onto what those came with. -/
theorem split (h : c.Builds (xs ++ ys) d) : c.Builds ys (d.pop xs) ∧ (d.pop xs).Builds xs d := by
  induction xs generalizing d with
  | nil => exact ⟨h, .nil⟩
  | cons x xs ih =>
      cases h with
      | @cons _ _ e _ hbelow hraises =>
          obtain ⟨hlow, hhigh⟩ := ih hbelow
          rw [hraises.pop xs]
          exact ⟨hlow, .cons hhigh hraises⟩

end Builds

/-- What the piles of a fiber stand on: nothing while it is at work on its program, and afterwards the mask that
it has put on for good. -/
def ground (c : Card) (exiting : Bool) : Card := if exiting then c.left else c

theorem bare_ground (c : Card) (exiting : Bool) : (c.ground exiting).bare = c.bare := by
  cases exiting <;> rfl

theorem height_ground {c : Card} (hc : c.bare = c) (exiting : Bool) (s : Restore) :
    (c.ground exiting).height s = if s = .interruptible ∧ exiting then 1 else 0 := by
  rw [← hc]
  cases exiting <;> cases s <;> rfl

end Card

/-- A fiber that has on the bottom of its stacks what another has, and the other nothing else. -/
theorem Fiber.height_of_bare {y z : Fiber σ} (h : y.card.bare = z.card) (s : Restore) :
    y.height s = z.height s + y.card.height s := by
  have hempty : ∀ s, z.card.height s = 0 := fun s => h ▸ Card.height_bare y.card s
  have hinherited : y.inherited = z.inherited := congrArg Card.inherited h
  cases s with
  | interruptible =>
      have hz : z.masks.pushed.length = 0 := hempty .interruptible
      show y.masks.pushed.length + 1 = z.masks.pushed.length + 1 + y.masks.pushed.length
      omega
  | semaphore =>
      have hz : z.semaphores.pushed.length = 0 := hempty .semaphore
      show y.semaphores.pushed.length + 1 = z.semaphores.pushed.length + 1 + y.semaphores.pushed.length
      omega
  | services =>
      have hz : z.services.pushed.length = 0 := hempty .services
      show y.services.pushed.length + 1 = z.services.pushed.length + 1 + y.services.pushed.length
      omega
  | label =>
      have hz : z.labels.length = 0 := hempty .label
      show y.frames.length = z.frames.length + y.labels.length
      simp only [Fiber.frames, hinherited, List.length_append, List.length_reverse, hz, Nat.add_zero]

/-! ## In a step -/

namespace World

variable {w : World σ} {f : Key .fiber} {y : Fiber σ} {m : Machine σ} {b : Card}

/-- A step that works brings and takes what is on the piles together with the frames. -/
theorem builds_step (hworks : Moment.Works ⟨w, some (f, m)⟩ f y m) (h : b.Builds m.stack y.card) :
    ∃ c, (w.step f y (m.heed y)).1.roster.cards.get? f = some c ∧
      b.Builds (w.step f y (m.heed y)).2.machine.stack c := by
  have hy : w.fibers.get? f = some y := hworks.fiber
  have hcard := card_of_get hy
  have hown := Roster.get?_modify_of_some hcard
  rcases piles_step hworks with
    ⟨hstack, hbears⟩ | @⟨p, frame, -, hstack, hroster⟩ | ⟨gone, left, pushed, c', hgone, hstack, hbuilds, -, hroster⟩
  · exact ⟨y.card, hbears.get? hcard, hstack ▸ h⟩
  · refine ⟨y.card.labelled frame, by rw [hroster, hown, if_pos rfl], ?_⟩
    rw [hstack]
    exact .cons h ⟨rfl, rfl⟩
  · refine ⟨c', by rw [hroster, hown, if_pos rfl], ?_⟩
    rw [hgone] at h
    rw [hstack]
    exact h.split.1.append hbuilds

/-- The end of a step leaves the card of a fiber that is not done alone, and its stack but for a handle. -/
theorem card_conclude {s : World σ × Stepped σ} {c : Card} {y' : Fiber σ} {m' : Machine σ}
    (hc : s.1.roster.cards.get? f = some c) (hy' : (conclude f s).world.fibers.get? f = some y')
    (hm' : (conclude f s).machine? f = some m') :
    y'.card = c ∧ m'.exiting = s.2.machine.exiting ∧
      ∃ release, m'.stack = release ++ s.2.machine.stack ∧ ∀ d : Card, d.Builds release d := by
  obtain ⟨z, hz, -⟩ := get_of_card hc
  -- a fiber that is done has no machine
  have hdone : ∀ e, s.2.decision ≠ .done e := by
    intro e he
    obtain ⟨w', n, decision⟩ := s
    obtain rfl : decision = .done e := he
    rw [machine?_done w' n hz e] at hm'
    cases hm'
  have hcard := card_of_get hy'
  rw [roster_conclude hdone, hc] at hcard
  obtain ⟨m, hm, hexiting, hstack, -⟩ := machine?_conclude ⟨z, hz⟩ hdone
  obtain rfl := Option.some.inj (hm.symm.trans hm')
  refine ⟨(Option.some.inj hcard).symm, hexiting, ?_⟩
  rcases hstack with heq | ⟨a, h, -, heq⟩
  · exact ⟨[], heq, fun _ => .nil⟩
  · exact ⟨[.release h], heq, fun _ => .cons .nil rfl⟩

/-- What a fiber is made with carries its piles through a step: while it is at work on its program with the
frames that pop them, and afterwards with the mask that it puts on for good. -/
theorem grounded_step {d : Card} (hx : Moment.Lawful ⟨w, some (f, m)⟩) (hy : w.fibers.get? f = some y)
    (hfits : y.Fits m.masks) (h : (d.ground m.exiting).Builds m.stack y.card) :
    ∃ c, (w.step f y (m.heed y)).1.roster.cards.get? f = some c ∧
      (d.ground (w.step f y (m.heed y)).2.machine.exiting).Builds (w.step f y (m.heed y)).2.machine.stack c := by
  by_cases hworks : Moment.Works ⟨w, some (f, m)⟩ f y m
  · have hexiting : (w.step f y (m.heed y)).2.machine.exiting = m.exiting := by
      rw [heed_of_free hworks.free]
      exact (treads_step hx hworks hfits).1
    rw [hexiting]
    exact builds_step hworks h
  · rcases step_idle hy hworks with ⟨e, -, hstep⟩ | ⟨p, hstep⟩ | hstep
    · obtain ⟨y', hy', hleft⟩ := get?_leave hy e
      have hcard : y'.card = d.ground true := by
        calc y'.card = y.card.bare.left := by rw [hleft]; rfl
          _ = d.left := by rw [h.bare, Card.bare_ground, Card.left_bare]
      rw [hstep]
      exact ⟨_, card_of_get hy', hcard ▸ .nil⟩
    · rw [hstep]
      exact ⟨_, card_of_get hy, h⟩
    · rw [hstep]
      exact ⟨_, card_of_get (get?_tired hy), h⟩

end World

/-! ## In a run -/

variable {r : Run σ} {f : Key .fiber} {k : Nat}

/-- In some move of the run the fiber `f` is made, as `y`. -/
def Run.Made (r : Run σ) (f : Key .fiber) (y : Fiber σ) : Prop :=
  ∃ j, (r.moment j).world.fibers.get? f = none ∧ (r.moment (j + 1)).world.fibers.get? f = some y

/-- A fiber is made once. -/
theorem Run.Made.unique {y z : Fiber σ} (hy : r.Made f y) (hz : r.Made f z) : y = z := by
  obtain ⟨i, hi, hi'⟩ := hy
  obtain ⟨j, hj, hj'⟩ := hz
  have hnone : ∀ {i}, (r.moment i).world.fibers.get? f = none →
      (r.moment i).world.roster.cards.get? f = none := fun h => by rw [World.get?_cards, h, Option.map_none]
  obtain rfl := Run.made_once (hnone hi) (World.card_of_get hi') (hnone hj) (World.card_of_get hj')
  exact Option.some.inj (hi'.symm.trans hj')

/-- A fiber is made with nothing on its stacks. -/
theorem Moment.Born.bare {x x' : Moment σ} {c : Card} (h : x.Born x' f c)
    (hc : x'.world.roster.cards.get? f = some c) : c.bare = c := by
  cases h with
  | @root p _ hnext hkey _ _ _ _ =>
      obtain ⟨d, -, -, -, -, hbare, -, -, hkey', hroster⟩ := World.roster_runFiber x.world p
      rw [hnext, hroster, ← hkey, hkey'] at hc
      obtain rfl : d = c := Option.some.inj ((Store.get?_add _ _ _).trans (if_pos rfl) |>.symm.trans hc)
      exact hbare
  | fork _ _ hbegets => exact hbegets.bare

/-- What is on the stacks of a fiber came onto what it was made with, together with the frames of its machine. -/
def Run.Grounded (r : Run σ) (f : Key .fiber) (y : Fiber σ) (m : Machine σ) : Prop :=
  ∃ z, r.Made f z ∧ z.card.bare = z.card ∧ (z.card.ground m.exiting).Builds m.stack y.card

/-- It still did after the fiber's own move. -/
theorem Run.Grounded.advance {y y' : Fiber σ} {m m' : Machine σ} (h : r.Grounded f y m)
    (hactive : (r.moment k).active = some (f, m)) (hy : (r.moment k).world.fibers.get? f = some y)
    (hy' : (r.moment (k + 1)).world.fibers.get? f = some y') (hm' : (r.moment (k + 1)).machine? f = some m') :
    r.Grounded f y' m' := by
  obtain ⟨z, hmade, hbare, hbuilds⟩ := h
  have hnext := Run.conclude_of_turn hactive hy
  have hfits := ((r.fitting k).fits f y m hy (Moment.machine?_of_active hactive)).1
  obtain ⟨c, hc, hstep⟩ := World.grounded_step (Run.lawful_of_turn hactive) hy hfits hbuilds
  rw [hnext] at hy' hm'
  obtain ⟨rfl, hexiting, release, hstack, hrelease⟩ := World.card_conclude hc hy' hm'
  refine ⟨z, hmade, hbare, ?_⟩
  rw [hexiting, hstack]
  exact hstep.append (hrelease _)

/-- What others do leaves the stacks of a fiber alone, and the frames of its machine. -/
theorem Run.same_of_aside {y y' : Fiber σ} {m' : Machine σ} (haside : ∀ m, (r.moment k).active ≠ some (f, m))
    (hy : (r.moment k).world.fibers.get? f = some y) (hy' : (r.moment (k + 1)).world.fibers.get? f = some y')
    (hm' : (r.moment (k + 1)).machine? f = some m') :
    y'.card = y.card ∧
      ∃ m, (r.moment k).machine? f = some m ∧ m'.stack = m.stack ∧ m'.exiting = m.exiting := by
  obtain ⟨c, hc, -, -, hsame⟩ := (r.move k).deals.kept f y.card (World.card_of_get hy)
  refine ⟨(Option.some.inj ((World.card_of_get hy').symm.trans hc)).trans (hsame haside), ?_⟩
  obtain ⟨y₁, hy₁, -, -, hmachine⟩ := (r.move k).aside (r.lawful k) haside hy
  rcases hmachine with heq | ⟨t, m, c, hphase, -, hresumed⟩
  · exact ⟨m', heq ▸ hm', rfl, rfl⟩
  · -- it is resumed with the stack that it was put aside with
    have hm : (r.moment k).machine? f = some m := by
      rw [Moment.machine?_aside haside hy, hphase]
      rfl
    obtain rfl := Option.some.inj ((Moment.machine?_of_active hresumed).symm.trans hm')
    exact ⟨m, hm, rfl, rfl⟩

/-- In every moment of a run what is on the stacks of a fiber came together with the frames of its machine. -/
theorem Run.grounded (r : Run σ) (k : Nat) : ∀ {f : Key .fiber} {y : Fiber σ} {m : Machine σ},
    (r.moment k).world.fibers.get? f = some y → (r.moment k).machine? f = some m → r.Grounded f y m := by
  induction k with
  | zero =>
      intro f y m hy
      rw [r.start] at hy
      cases hy
  | succ k ih =>
      intro f y' m' hy' hm'
      rcases (r.move k).deals.dealt f y'.card (World.card_of_get hy') with ⟨d, hd⟩ | ⟨hnone, hborn⟩
      · obtain ⟨y, hy, -⟩ := World.get_of_card hd
        by_cases hactive : ∃ m, (r.moment k).active = some (f, m)
        · obtain ⟨m, hactive⟩ := hactive
          exact (ih hy (Moment.machine?_of_active hactive)).advance hactive hy hy' hm'
        · obtain ⟨hcard, m, hm, hstack, hexiting⟩ :=
            Run.same_of_aside (fun m hm => hactive ⟨m, hm⟩) hy hy' hm'
          obtain ⟨z, hmade, hbare, hbuilds⟩ := ih hy hm
          refine ⟨z, hmade, hbare, ?_⟩
          rw [hcard, hstack, hexiting]
          exact hbuilds
      · -- a fiber that is new has neither frames nor anything on its stacks
        rcases (r.move k).young (r.lawful k) (r.fitting k).root hy' with ⟨y, hy⟩ | ⟨hyoung, hmachine⟩
        · rw [World.card_of_get hy] at hnone
          cases hnone
        · obtain ⟨p, hp⟩ := hyoung.machine
          obtain rfl := Option.some.inj (hm'.symm.trans (hmachine.trans hp))
          have hnew : (r.moment k).world.fibers.get? f = none := by
            rw [World.get?_cards] at hnone
            exact Option.map_eq_none_iff.mp hnone
          exact ⟨y', ⟨k, hnew, hy'⟩, hborn.bare (World.card_of_get hy'), .nil⟩

end Fibers
