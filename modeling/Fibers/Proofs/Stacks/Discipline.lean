import Fibers.Proofs.Stacks.Locality
import Fibers.Proofs.Run.Schedule

set_option autoImplicit false

/-! # The discipline of the stacks

The frames of a machine and the four stacks of its fiber are kept apart. Regions and finalizers push on both,
exits pop both, and either may stop half-way, where a mask is lifted or a function panics. They stay in step
all the same (`Run.stack_discipline`). So no pop finds a stack as low as it was when the fiber was made, and
what a region pushes is gone when it is over, and nothing else.
-/

namespace Fibers

variable {σ : Type} {r : Run σ} {f : Key .fiber} {k : Nat} {m : Machine σ} {y z : Fiber σ}

/-- The fiber `y`, made as `z`, has on the bottom of its stacks what it was made with, and above it one thing
for each frame that pops the stack, and for the mask that a fiber puts on when it leaves its program. -/
structure Fiber.Stacked (z y : Fiber σ) (stack : List (Waiting σ)) (exiting : Bool) : Prop where
  bottom : y.card.bare = z.card
  height : ∀ s, y.height s = z.height s + popsOf s stack + if s = .interruptible ∧ exiting then 1 else 0

/-- What holds of the fiber `f` with the machine `m`, which is `y` and was made as `z`. Its stacks are as high as
its frames say, and so they are wherever an exit of it comes down to in its step. A frame that pops a stack
meets one that is higher than it was made, and takes one thing off. And while the fiber is at work above some
frames, popping what is above them brings back what was there before, and an exit that comes down to them finds
that. -/
structure Run.Disciplined (r : Run σ) (f : Key .fiber) (k : Nat) (m : Machine σ) (y z : Fiber σ) : Prop where
  stacked : z.Stacked y m.stack m.exiting
  arrives : ∀ T e, (r.moment k).Lands f T m e → ∃ x, (r.moment k).Arrives f T m e x
  there : ∀ T e x, (r.moment k).Arrives f T m e x → z.Stacked x T m.exiting
  guarded : ∀ s T e x, (r.moment k).Arrives f (.restore s :: T) m e x →
    z.height s < x.height s ∧ (x.restore s).height s + 1 = x.height s
  restored : ∀ j T x n above, r.Above f T j k → (r.moment j).world.fibers.get? f = some x →
    (r.moment j).machine? f = some n → n.stack = above ++ T →
    (∃ pre, m.stack = pre ++ T ∧ y.card.pop pre = x.card.pop above) ∧
      ∀ e x', (r.moment k).Arrives f T m e x' → x'.card = x.card.pop above

/-- Frames that brought what is on the stacks tell their heights. -/
theorem Fiber.Stacked.of_builds {stack : List (Waiting σ)} {exiting : Bool} (hbare : z.card.bare = z.card)
    (h : (z.card.ground exiting).Builds stack y.card) : z.Stacked y stack exiting := by
  have hbottom : y.card.bare = z.card := by rw [h.bare, Card.bare_ground, hbare]
  refine ⟨hbottom, fun s => ?_⟩
  rw [Fiber.height_of_bare hbottom, h.height s, Card.height_ground hbare]
  omega

/-- A frame that pops a stack finds something on it. -/
theorem Fiber.Stacked.guarded {s : Restore} {T : List (Waiting σ)} {exiting : Bool}
    (h : z.Stacked y (.restore s :: T) exiting) :
    z.height s < y.height s ∧ (y.restore s).height s + 1 = y.height s := by
  have hlower : z.height s < y.height s := by
    rw [h.height s, popsOf, List.countP_cons_of_pos (by simp [Waiting.pops])]
    omega
  have hpushed := Fiber.height_of_bare h.bottom s
  refine ⟨hlower, ?_⟩
  have hpopped : (y.restore s).card.bare = z.card := by
    rw [World.card_restore, Card.bare_restore, h.bottom]
  have htail : (y.card.restore s).height s + 1 = y.card.height s := by
    have hpos : 0 < y.card.height s := by omega
    cases s <;> simp only [Card.height, Card.restore, Stack.pop, List.length_tail] at hpos ⊢ <;> omega
  rw [Fiber.height_of_bare hpopped s, World.card_restore]
  omega

/-- At every moment of a run the stacks of a fiber are in step with the frames of its machine, whatever the
fiber has been through: the fiber was made once, and since then nothing has come onto its stacks or gone from
them without a frame, but for the mask that it puts on when it leaves its program. -/
theorem Run.stack_discipline (r : Run σ) (hm : (r.moment k).machine? f = some m) :
    ∃ y z, (r.moment k).world.fibers.get? f = some y ∧ (∀ z', r.Made f z' ↔ z' = z) ∧
      r.Disciplined f k m y z := by
  obtain ⟨y, hy⟩ : ∃ y, (r.moment k).world.fibers.get? f = some y := by
    rcases Moment.machine?_cases hm with hactive | ⟨-, y, hy, -⟩
    · exact (r.turned k f m hactive).imp fun _ h => h.1
    · exact ⟨y, hy⟩
  obtain ⟨z, hmade, hbare, hbuilds⟩ := r.grounded k hy hm
  have hthere : ∀ T e x, (r.moment k).Arrives f T m e x → z.Stacked x T m.exiting := by
    intro T e x harrives
    obtain ⟨pre, hstack, -⟩ := harrives.fiber
    rw [hstack] at hbuilds
    refine .of_builds hbare ?_
    rw [harrives.card hy hstack]
    exact hbuilds.split.1
  refine ⟨y, z, hy, fun z' => ⟨fun h => h.unique hmade, fun h => h ▸ hmade⟩, ?_⟩
  exact {
    stacked := .of_builds hbare hbuilds
    arrives := fun T e hlands => hlands.arrives
    there := hthere
    guarded := fun s T e x harrives => (hthere _ e x harrives).guarded
    restored := by
      intro j T x n above habove hx hn hstack
      obtain ⟨y', m', hy', hcarries, pre, hpre, hpushed⟩ := habove.pushes hx hn hstack
      obtain rfl := Option.some.inj (hy'.symm.trans hy)
      obtain rfl := Option.some.inj (hcarries.machine.symm.trans hm)
      refine ⟨⟨pre, hpre, hpushed.pop⟩, fun e x' harrives => ?_⟩
      rw [harrives.card hy hpre, hpushed.pop] }

/-- A program that panics inside a region of each kind. -/
def nested : Program Nat :=
  .provide (.mask (.withConcurrency (.addFrame (.defer (.panic "boom")) (.label "a")) 2) false) .empty

theorem licensed_nested : nested.Licensed .none := .provide (.mask (.withConcurrency (.addFrame (.defer .panic))))

/-- When the panic is caught each stack is higher by one than the fiber was made with. -/
theorem nested_disciplined :
    let r : Run Nat := .inOrder { Config.standard with clock := .virtual } 0 nested licensed_nested
    ∃ m y z, (r.moment 8).active = some (⟨0⟩, m) ∧ (r.moment 8).world.fibers.get? ⟨0⟩ = some y ∧
      (∀ z', r.Made ⟨0⟩ z' ↔ z' = z) ∧ r.Disciplined ⟨0⟩ 8 m y z ∧ (∃ c, m.control = .failure c) ∧
      ∀ s, y.height s = z.height s + 1 := by
  intro r
  obtain ⟨m, hactive, hcontrol, hexiting, hpops⟩ : ∃ m, (r.moment 8).active = some (⟨0⟩, m) ∧
      (∃ c, m.control = .failure c) ∧ m.exiting = false ∧ ∀ s, popsOf s m.stack = 1 :=
    ⟨_, rfl, ⟨_, rfl⟩, rfl, fun s => by cases s <;> rfl⟩
  obtain ⟨y, z, hy, hmade, hdisciplined⟩ := r.stack_discipline (Moment.machine?_of_active hactive)
  refine ⟨m, y, z, hactive, hy, hmade, hdisciplined, hcontrol, fun s => ?_⟩
  rw [hdisciplined.stacked.height s, hpops s, hexiting, if_neg (fun h => Bool.noConfusion h.2)]

end Fibers
