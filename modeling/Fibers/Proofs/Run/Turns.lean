import Fibers.Proofs.Run.Track

set_option autoImplicit false

/-! # When a fiber works

A fiber works in a move if it is its turn, it does not have to leave its program, and it has not
done its number of steps: it then works on an instruction, or lets an exit down its stack. In every
other move it keeps its masks and its stack, unless it leaves its program and drops the stack.
-/

namespace Fibers

variable {σ : Type}

/-- The fiber `f`, with what it is and its machine, works on its program. -/
structure Moment.Works (x : Moment σ) (f : Key .fiber) (y : Fiber σ) (m : Machine σ) : Prop where
  turn : x.active = some (f, m)
  fiber : x.world.fibers.get? f = some y
  free : m.exiting = true ∨ y.mustLeave = false
  budget : y.ops < y.context.limits.maxOps
  work : (∃ p, m.control = .instruct p) ∨ ∃ e, m.control = .ofExit e

/-- Who has the turn is known of a fiber that works. -/
theorem Moment.Works.here {x : Moment σ} {f : Key .fiber} {y : Fiber σ} {m : Machine σ}
    (h : x.Works f y m) : Moment.Works ⟨x.world, some (f, m)⟩ f y m :=
  ⟨rfl, h.fiber, h.free, h.budget, h.work⟩

/-- A fiber that has to leave its program drops it. -/
def Moment.Leaves (x : Moment σ) (f : Key .fiber) (y : Fiber σ) (m : Machine σ) : Prop :=
  x.active = some (f, m) ∧ x.world.fibers.get? f = some y ∧ m.exiting = false ∧ y.mustLeave = true

theorem Moment.Works.not_leaves {x : Moment σ} {f : Key .fiber} {y z : Fiber σ} {m n : Machine σ}
    (h : x.Works f y m) : ¬ x.Leaves f z n := by
  rintro ⟨hactive, hfiber, hexiting, hleave⟩
  obtain ⟨⟩ : some (f, m) = some (f, n) := h.turn.symm.trans hactive
  obtain rfl : y = z := Option.some.inj (h.fiber.symm.trans hfiber)
  rcases h.free with hfree | hfree
  · rw [hexiting] at hfree
    cases hfree
  · rw [hleave] at hfree
    cases hfree

/-- A fiber that does not have to leave its program in its turn is free to work. -/
theorem Moment.free_of_not_leaves {x : Moment σ} {f : Key .fiber} {y : Fiber σ} {m : Machine σ}
    (hactive : x.active = some (f, m)) (hy : x.world.fibers.get? f = some y)
    (h : ¬ x.Leaves f y m) : m.exiting = true ∨ y.mustLeave = false := by
  by_contra hnot
  simp only [not_or, Bool.not_eq_true, Bool.not_eq_false] at hnot
  exact h ⟨hactive, hy, hnot⟩

namespace World

/-- A world in which a fiber has counted a step. -/
def count (w : World σ) (f : Key .fiber) : World σ :=
  w.modifyFiber f fun fiber => { fiber with ops := fiber.ops + 1 }

theorem get?_count {w : World σ} {f : Key .fiber} {y : Fiber σ} (hy : w.fibers.get? f = some y) :
    (w.count f).fibers.get? f = some { y with ops := y.ops + 1 } := by
  rw [count, modifyFiber, Store.get?_modify, if_pos rfl, hy, Option.map_some]

theorem heed_of_free {m : Machine σ} {y : Fiber σ} (h : m.exiting = true ∨ y.mustLeave = false) :
    m.heed y = m := by
  unfold Machine.heed
  rw [if_neg]
  rintro hleave
  simp only [Bool.and_eq_true, Bool.not_eq_true'] at hleave
  rcases h with h | h
  · rw [h] at hleave
    exact Bool.noConfusion hleave.1
  · rw [h] at hleave
    exact Bool.noConfusion hleave.2

/-- The step of a fiber that works is one of its own machine. -/
theorem advance_of_free {w : World σ} {f : Key .fiber} {y : Fiber σ} {m : Machine σ}
    (hy : w.fibers.get? f = some y) (h : m.exiting = true ∨ y.mustLeave = false) :
    w.advance f m = conclude f (w.step f y m) := by
  simp only [advance, hy, heed_of_free h]

/-- The step of a fiber that works on an instruction. -/
theorem step_instruct {w : World σ} {f : Key .fiber} {y : Fiber σ} {m : Machine σ} {p : Program σ}
    (hm : m.control = .instruct p) (hbudget : y.ops < y.context.limits.maxOps) :
    w.step f y m = (w.count f).instruct f y m p := by
  simp only [step, hm, if_neg (Nat.not_le.mpr hbudget)]
  rfl

/-- The step of a fiber that lets an exit down its stack. -/
theorem step_unwind {w : World σ} {f : Key .fiber} {y : Fiber σ} {m : Machine σ} {e : AnyExit}
    (hm : m.control = .ofExit e) (hbudget : y.ops < y.context.limits.maxOps) :
    w.step f y m = unwind f m.exiting e m.stack (w.count f) := by
  cases e with
  | success v =>
      have hm' : m.control = .value v := hm
      simp only [step, hm', if_neg (Nat.not_le.mpr hbudget)]
      rfl
  | failure c =>
      have hm' : m.control = .failure c := hm
      simp only [step, hm', if_neg (Nat.not_le.mpr hbudget)]
      rfl

theorem world_enter (f : Key .fiber) (m : Machine σ) (called : World σ × Except Defect (Program σ)) :
    (enter f m called).1 = called.1 := by
  obtain ⟨w', _ | _⟩ := called <;> rfl

/-- Going on with what a call gave back keeps the stack. -/
theorem stack_enter (f : Key .fiber) (m : Machine σ) (called : World σ × Except Defect (Program σ)) :
    (enter f m called).2.machine.stack = m.stack := by
  obtain ⟨w', _ | _⟩ := called <;> rfl

/-- A fiber that works on an instruction. -/
theorem advance_instruct {w : World σ} {f : Key .fiber} {y : Fiber σ} {m : Machine σ}
    {p : Program σ} (h : Moment.Works ⟨w, some (f, m)⟩ f y m) (hm : m.control = .instruct p) :
    w.advance f m = conclude f ((w.count f).instruct f y m p) := by
  rw [advance_of_free h.fiber h.free, step_instruct hm h.budget]

/-- A fiber that lets an exit down its stack. -/
theorem advance_unwind {w : World σ} {f : Key .fiber} {y : Fiber σ} {m : Machine σ}
    {e : AnyExit} (h : Moment.Works ⟨w, some (f, m)⟩ f y m) (hm : m.control = .ofExit e) :
    w.advance f m = conclude f (unwind f m.exiting e m.stack (w.count f)) := by
  rw [advance_of_free h.fiber h.free, step_unwind hm h.budget]

/-- The step of a fiber that does a duty. -/
theorem advance_duty {w w' : World σ} {f : Key .fiber} {y : Fiber σ} {m : Machine σ} {d : Duty σ}
    {p : Program σ} (hworks : Moment.Works ⟨w, some (f, m)⟩ f y m)
    (hcontrol : m.control = .instruct (.duty d)) (hattend : (w.count f).attend d = (w', .ok p)) :
    w.advance f m = ⟨w', some (f, { m with control := .instruct p })⟩ := by
  rw [advance_instruct hworks hcontrol, instruct, hattend]
  rfl

/-- The step in which interruption is put off. -/
theorem advance_mask {w : World σ} {f : Key .fiber} {y : Fiber σ} {m : Machine σ} {p : Program σ}
    (hworks : Moment.Works ⟨w, some (f, m)⟩ f y m) (hcontrol : m.control = .instruct (.mask p false)) :
    w.advance f m = ⟨(w.count f).modifyFiber f fun fiber =>
      { fiber with masks := fiber.masks.push false },
      some (f, { m with control := .instruct p, stack := .restore .interruptible :: m.stack })⟩ := by
  rw [advance_instruct hworks hcontrol]
  rfl

/-- A fiber that has to leave its program does so at once. -/
theorem advance_leave {w : World σ} {f : Key .fiber} {y : Fiber σ} {m : Machine σ}
    (h : Moment.Leaves ⟨w, some (f, m)⟩ f y m) :
    w.advance f m = conclude f (w.leave f y none) := by
  obtain ⟨-, hfiber, hexiting, hleave⟩ := h
  have hfiber' : w.fibers.get? f = some y := hfiber
  have hheed : m.heed y = { m with control := .leave none, stack := [] } := by
    unfold Machine.heed
    rw [if_pos]
    rw [hexiting, hleave]
    rfl
  simp only [advance, hfiber', hheed, step]

/-- A fiber put aside is found with its machine. -/
theorem get?_park {w : World σ} {f : Key .fiber} {x : Fiber σ} (y : Fiber σ) (m : Machine σ)
    (hx : w.fibers.get? f = some x) : (w.park f y m).1.fibers.get? f = some (y.park m).1 := by
  have hset : (w.fibers.set f (y.park m).1).get? f = some (y.park m).1 := Store.get?_set_of_some hx
  unfold park
  dsimp only
  split
  · exact hset
  · exact hset

/-- The token of a fiber put aside is the next one. -/
theorem snd_park (w : World σ) (f : Key .fiber) (y : Fiber σ) (m : Machine σ) :
    (w.park f y m).2 = y.nextToken := by
  unfold park
  dsimp only
  split
  · rfl
  · rfl

/-- A fiber that ends is done, and otherwise as it was. If it was not done before, that is its exit. -/
theorem get?_finishFiber_self {w : World σ} {f : Key .fiber} {y : Fiber σ}
    (hy : w.fibers.get? f = some y) (e : AnyExit) :
    ∃ c, (w.finishFiber f e).fibers.get? f = some { y with phase := .done e, done := c } ∧
      (y.done.outcome? = none → c.outcome? = some (.resolved e)) := by
  have hset : ∀ c, (w.fibers.set f { y with phase := .done e, done := c }).get? f =
      some { y with phase := .done e, done := c } := fun c => Store.get?_set_of_some hy
  unfold finishFiber
  simp only [hy, modifyFiber, Store.modify_eq_set _ hy]
  split
  · rename_i hnone
    refine ⟨_, hset y.done, fun hpending => ?_⟩
    have hsome := Cell.settle?_isSome y.done (.resolved e)
    rw [hnone, Cell.isPending, hpending] at hsome
    cases hsome
  · rename_i cell watchers hsome
    refine ⟨cell, ?_, fun _ => Cell.outcome?_settle hsome⟩
    rw [foldl_keeps fibers _ (fun w o => fibers_notifyDone f e w o)]
    exact hset cell

/-- What has happened to what a fiber waits for depends on what fibers and scopes have published, and on
how futures and contests have settled. -/
theorem settledProgram?_congr {w w' : World σ} (hfutures : w'.futures = w.futures)
    (hscopes : w'.scopes = w.scopes) (htallies : w'.tallies = w.tallies)
    (hexits : ∀ g, (w'.fibers.get? g).bind Fiber.exit? = (w.fibers.get? g).bind Fiber.exit?)
    (a : Awaited) : w'.settledProgram? a = w.settledProgram? a := by
  cases a with
  | future g => simp only [settledProgram?, future, hfutures]
  | done g => simp only [settledProgram?, hexits]
  | closed s => simp only [settledProgram?, scope, hscopes]
  | decided t => simp only [settledProgram?, tally, htallies]

/-- Putting the machine of a fiber aside makes nothing happen. -/
theorem settledProgram?_park {w : World σ} {f : Key .fiber} {y z : Fiber σ}
    (hy : w.fibers.get? f = some y) (hdone : z.done = y.done) (m : Machine σ) (a : Awaited) :
    (w.park f z m).1.settledProgram? a = w.settledProgram? a := by
  have hset : ∀ g, ((w.fibers.set f (z.park m).1).get? g).bind Fiber.exit? =
      (w.fibers.get? g).bind Fiber.exit? := by
    intro g
    rw [Store.get?_set]
    split
    · rename_i heq
      subst heq
      rw [hy]
      simp only [Option.map_some, Option.bind_some, Fiber.exit?, Fiber.park, hdone]
    · rfl
  unfold park
  dsimp only
  split
  · refine settledProgram?_congr ?_ ?_ ?_ hset a <;> rfl
  · refine settledProgram?_congr ?_ ?_ ?_ hset a <;> rfl

/-- Neither does counting a step. -/
theorem settledProgram?_count {w : World σ} {f : Key .fiber} {y : Fiber σ}
    (hy : w.fibers.get? f = some y) (a : Awaited) :
    (w.count f).settledProgram? a = w.settledProgram? a := by
  have hexits : ∀ g, ((w.count f).fibers.get? g).bind Fiber.exit? = (w.fibers.get? g).bind Fiber.exit? := by
    intro g
    by_cases hfg : f = g
    · subst hfg
      rw [get?_count hy, hy]
      rfl
    · rw [count, modifyFiber, Store.get?_modify, if_neg hfg]
  refine settledProgram?_congr ?_ ?_ ?_ hexits a <;> rfl

/-- A fiber that comes to wait for what has not happened is put aside. -/
theorem conclude_await {w : World σ} {f : Key .fiber} {y : Fiber σ} {a : Awaited}
    (hy : w.fibers.get? f = some y) (hnone : w.settledProgram? a = none) (m : Machine σ)
    (release : Option Handle) : conclude f (w, ⟨m, .await a release⟩) =
      ⟨(w.park f { y with ops := 0 } (m.holding release)).1.subscribe ⟨f, y.nextToken⟩ a, none⟩ := by
  have hparked := settledProgram?_park (z := { y with ops := 0 }) hy rfl (m.holding release) a
  simp only [conclude, hy]
  rw [hparked, hnone, snd_park]

/-- A fiber that has done its number of steps yields. -/
theorem step_tired {w : World σ} {f : Key .fiber} {y : Fiber σ} {m : Machine σ}
    (hwork : (∃ p, m.control = .instruct p) ∨ ∃ e, m.control = .ofExit e)
    (hbudget : y.context.limits.maxOps ≤ y.ops) :
    w.step f y m = (w.modifyFiber f fun fiber => { fiber with ops := 0 }, ⟨m, .yield⟩) := by
  obtain ⟨control, stack, exiting⟩ := m
  rcases hwork with ⟨p, hp⟩ | ⟨e, he⟩
  · obtain rfl : control = .instruct p := hp
    simp only [step, if_pos hbudget]
  · cases e with
    | success v =>
        obtain rfl : control = .value v := he
        simp only [step, if_pos hbudget]
    | failure c =>
        obtain rfl : control = .failure c := he
        simp only [step, if_pos hbudget]

/-- What the step of a fiber that does not work can be: it leaves its program, starts it, or yields. -/
theorem step_idle {w : World σ} {f : Key .fiber} {y : Fiber σ} {m : Machine σ}
    (hy : w.fibers.get? f = some y) (hidle : ¬ Moment.Works ⟨w, some (f, m)⟩ f y m) :
    (∃ e, (m.exiting = false ∧ y.mustLeave = true ∨ m.control = .leave e) ∧
        w.step f y (m.heed y) = w.leave f y e) ∨
      (∃ p, w.step f y (m.heed y) = (w, { machine := { m with control := .instruct p } })) ∨
      w.step f y (m.heed y) =
        (w.modifyFiber f fun fiber => { fiber with ops := 0 }, ⟨m, .yield⟩) := by
  by_cases hleaves : Moment.Leaves ⟨w, some (f, m)⟩ f y m
  · obtain ⟨-, -, hexiting, hmust⟩ := hleaves
    have hheed : m.heed y = { m with control := .leave none, stack := [] } := by
      simp only [Machine.heed, hexiting, hmust, Bool.not_false, Bool.and_self, if_true]
    exact Or.inl ⟨none, Or.inl ⟨hexiting, hmust⟩, by simp only [hheed, step]⟩
  · have hfree := Moment.free_of_not_leaves rfl hy hleaves
    rw [heed_of_free hfree]
    have htired : ((∃ p, m.control = .instruct p) ∨ ∃ e, m.control = .ofExit e) → w.step f y m =
        (w.modifyFiber f fun fiber => { fiber with ops := 0 }, ⟨m, .yield⟩) := fun hwork =>
      step_tired hwork (Nat.le_of_not_lt fun hbudget => hidle ⟨rfl, hy, hfree, hbudget, hwork⟩)
    cases hcontrol : m.control with
    | start p => exact Or.inr (Or.inl ⟨p, by simp only [step, hcontrol]⟩)
    | leave e => exact Or.inl ⟨e, Or.inr rfl, by simp only [step, hcontrol]⟩
    | instruct p => exact Or.inr (Or.inr (htired (Or.inl ⟨p, hcontrol⟩)))
    | value v => exact Or.inr (Or.inr (htired (Or.inr ⟨.success v, hcontrol⟩)))
    | failure c => exact Or.inr (Or.inr (htired (Or.inr ⟨.failure c, hcontrol⟩)))

/-- A fiber that leaves its program drops its masks, for one that stays. -/
theorem get?_leave {w : World σ} {f : Key .fiber} {y : Fiber σ} (hy : w.fibers.get? f = some y)
    (e : Option AnyExit) : ∃ y', (w.leave f y e).1.fibers.get? f = some y' ∧
      y' = { y.unwind with masks := y.unwind.masks.push false } := by
  simp only [leave, modifyFiber, Store.modify_eq_set _ hy]
  exact ⟨_, Store.get?_set_of_some hy, rfl⟩

/-- A fiber that yields starts to count its steps anew. -/
theorem get?_tired {w : World σ} {f : Key .fiber} {y : Fiber σ} (hy : w.fibers.get? f = some y) :
    (w.modifyFiber f fun fiber => { fiber with ops := 0 }).fibers.get? f =
      some { y with ops := 0 } := by
  rw [modifyFiber, Store.get?_modify, if_pos rfl, hy, Option.map_some]

/-- It is put aside. -/
theorem advance_tired {w : World σ} {f : Key .fiber} {y : Fiber σ} {m : Machine σ}
    (hy : w.fibers.get? f = some y) (hfree : m.exiting = true ∨ y.mustLeave = false)
    (hwork : (∃ p, m.control = .instruct p) ∨ ∃ e, m.control = .ofExit e)
    (hbudget : y.context.limits.maxOps ≤ y.ops) :
    (w.advance f m).active = none ∧
      (w.advance f m).world.fibers.get? f = some ({ y with ops := 0 }.park m).1 := by
  have hreset : (w.modifyFiber f fun fiber => { fiber with ops := 0 }).fibers.get? f =
      some { y with ops := 0 } := by
    rw [modifyFiber, Store.get?_modify, if_pos rfl, hy, Option.map_some]
  simp only [advance, hy, heed_of_free hfree, step_tired hwork hbudget, conclude, hreset]
  exact ⟨trivial, get?_park _ m hreset⟩

/-- It keeps its machine. -/
theorem machine?_tired {w : World σ} {f : Key .fiber} {y : Fiber σ} {m : Machine σ}
    (hy : w.fibers.get? f = some y) (hfree : m.exiting = true ∨ y.mustLeave = false)
    (hwork : (∃ p, m.control = .instruct p) ∨ ∃ e, m.control = .ofExit e)
    (hbudget : y.context.limits.maxOps ≤ y.ops) : (w.advance f m).machine? f = some m := by
  obtain ⟨hnone, hparked⟩ := advance_tired hy hfree hwork hbudget
  have hne : ∀ m', (w.advance f m).active ≠ some (f, m') := by
    intro m' heq
    rw [hnone] at heq
    cases heq
  rw [Moment.machine?_of_ne hne, parked?, hparked]
  rfl

end World

/-- A fiber with something on its stack that does not work keeps its masks and its stack, unless
it leaves its program. -/
theorem Move.rests {x x' : Moment σ} (h : Move x x') (hx : x.Lawful) {f : Key .fiber}
    {y : Fiber σ} {m : Machine σ} (hy : x.world.fibers.get? f = some y)
    (hm : x.machine? f = some m) (hstack : m.stack ≠ []) (hidle : ¬ x.Works f y m) :
    ∃ y', x'.world.fibers.get? f = some y' ∧ y.Onward y' ∧
      ((y'.masks = y.masks ∧ ∃ c, x'.machine? f = some { m with control := c }) ∨
        x.Leaves f y m ∧ ∃ m', x'.machine? f = some m' ∧ m'.stack = []) := by
  by_cases hactive : ∃ m', x.active = some (f, m')
  · obtain ⟨m', hactive⟩ := hactive
    obtain ⟨w, active⟩ := x
    obtain rfl : active = some (f, m') := hactive
    obtain rfl : m' = m := Option.some.inj (Moment.machine?_active.symm.trans hm)
    have hfiber : w.fibers.get? f = some y := hy
    cases h with
    | advance =>
        obtain ⟨y', hy', honward, -⟩ := (World.advance_lawful hx).2.fibers f y hy
        refine ⟨y', hy', honward, ?_⟩
        by_cases hleaves : Moment.Leaves ⟨w, some (f, m')⟩ f y m'
        · refine Or.inr ⟨hleaves, ?_⟩
          rw [World.advance_leave hleaves]
          exact ⟨_, Moment.machine?_active, rfl⟩
        · left
          have hfree := Moment.free_of_not_leaves rfl hy hleaves
          have hlicensed := hx.licensed.active f m' rfl id
          -- free and with a step to do, but idle: so its budget is used up
          have htired : ((∃ p, m'.control = .instruct p) ∨ ∃ e, m'.control = .ofExit e) →
              y'.masks = y.masks ∧
                ∃ c, (w.advance f m').machine? f = some { m' with control := c } := by
            intro hwork
            have hbudget : y.context.limits.maxOps ≤ y.ops := by
              by_contra hnot
              exact hidle ⟨rfl, hy, hfree, Nat.not_le.mp hnot, hwork⟩
            obtain ⟨-, hparked⟩ := World.advance_tired hfiber hfree hwork hbudget
            have heq : y' = _ := Option.some.inj (hy'.symm.trans hparked)
            exact ⟨by rw [heq]; rfl, m'.control, World.machine?_tired hfiber hfree hwork hbudget⟩
          cases hcontrol : m'.control with
          | start p =>
              have hstep : w.advance f m' = ⟨w, some (f, { m' with control := .instruct p })⟩ := by
                simp only [World.advance, hfiber, World.heed_of_free hfree, World.step, hcontrol,
                  World.conclude]
              rw [hstep] at hy' ⊢
              obtain rfl : y = y' := Option.some.inj (hfiber.symm.trans hy')
              exact ⟨rfl, _, Moment.machine?_active⟩
          | leave e => exact absurd (hlicensed.leaving e hcontrol) hstack
          | instruct p => exact htired (Or.inl ⟨p, hcontrol⟩)
          | value v => exact htired (Or.inr ⟨.success v, hcontrol⟩)
          | failure c => exact htired (Or.inr ⟨.failure c, hcontrol⟩)
  · have haside : ∀ m', x.active ≠ some (f, m') := fun m' heq => hactive ⟨m', heq⟩
    obtain ⟨y', hy', honward, hstays, hmachine⟩ := h.aside hx haside hy
    refine ⟨y', hy', honward, Or.inl ⟨hstays.masks, ?_⟩⟩
    rcases hmachine with heq | ⟨t, m', c, hphase, -, hc⟩
    · exact ⟨m.control, heq.trans hm⟩
    · have hm' : x.machine? f = some m' := by
        rw [Moment.machine?_aside haside hy, hphase]
        rfl
      obtain rfl : m = m' := Option.some.inj (hm.symm.trans hm')
      obtain ⟨w', active'⟩ := x'
      obtain rfl : active' = some (f, { m with control := c }) := hc
      exact ⟨c, Moment.machine?_active⟩

/-- What is left of a fiber that has left its program: it sees the closing of its scope through. -/
theorem Run.machine_of_leaves {r : Run σ} {k : Nat} {f : Key .fiber} {y : Fiber σ} {m : Machine σ}
    (h : (r.moment k).Leaves f y m) :
    (r.moment (k + 1)).machine? f = some ⟨.instruct (Program.awaitScope y.scope), [], true⟩ := by
  rw [Run.advance_of_turn h.1, World.advance_leave ⟨rfl, h.2⟩]
  exact Moment.machine?_active

/-! ## A fiber in its turn runs -/

/-- The fiber whose turn it is runs. -/
def Moment.Turned (x : Moment σ) : Prop :=
  ∀ f m, x.active = some (f, m) → ∃ y, x.world.fibers.get? f = some y ∧ y.phase = .running

/-- A fiber that runs is not put aside by elementary changes. -/
theorem World.running_of_grows {actor : Option (Key .fiber)} {w w' : World σ} {f : Key .fiber}
    {y : Fiber σ} (h : Grows actor w w') (hy : w.fibers.get? f = some y) (hrun : y.phase = .running) :
    ∃ y', w'.fibers.get? f = some y' ∧ y'.phase = .running := by
  obtain ⟨y', hy', hlater, -⟩ := h.fibers f y hy
  refine ⟨y', hy', ?_⟩
  rcases hlater.phase with ⟨hp, -⟩ | ⟨m, hp, -, -⟩
  · exact hp.trans hrun
  · rw [hrun] at hp
    cases hp

theorem World.turned_conclude {f : Key .fiber} {stepped : World σ × Stepped σ}
    (h : ∃ y, stepped.1.fibers.get? f = some y ∧ y.phase = .running) :
    (conclude f stepped).Turned := by
  obtain ⟨w, m, d⟩ := stepped
  obtain ⟨y, hy, hrun⟩ := h
  intro g m' hactive
  cases d with
  | proceed =>
      cases hactive
      exact ⟨y, hy, hrun⟩
  | yield =>
      simp only [conclude, show w.fibers.get? f = some y from hy] at hactive
      cases hactive
  | done e => cases hactive
  | await a release =>
      simp only [conclude, show w.fibers.get? f = some y from hy] at hactive ⊢
      split at hactive
      · cases hactive
      · cases hactive
        refine ⟨{ ({ y with ops := 0 }.park (m.holding release)).1 with phase := .running }, ?_, rfl⟩
        simp only [modifyFiber, Store.get?_modify, get?_park _ _ hy, if_pos, Option.map_some]

theorem Move.turned {x x' : Moment σ} (h : Move x x') (hx : x.Lawful) (hturned : x.Turned) :
    x'.Turned := by
  obtain ⟨w, active⟩ := x
  cases active with
  | some fm =>
      obtain ⟨f, m⟩ := fm
      cases h with
      | advance =>
          obtain ⟨y, hy, hrun⟩ := hturned f m rfl
          have hfiber : w.fibers.get? f = some y := hy
          simp only [World.advance, hfiber]
          exact World.turned_conclude
            (World.running_of_grows (World.step_changes hx y).grows hy hrun)
  | none =>
      obtain ⟨timers, -, ⟨f, token, r, -, rfl⟩ | ⟨w', rfl, -⟩⟩ := World.quiet_cases h
      · rcases World.awaken_cases { w with timers } f token r with
          heq | ⟨y, m, c, hy, -, -, -, heq⟩
        · rw [heq]
          intro g m hactive
          cases hactive
        · rw [heq]
          intro g m' hactive
          cases hactive
          exact ⟨{ y with phase := .running },
            Store.get?_set_of_some hy, rfl⟩
      · intro g m hactive
        cases hactive

/-- In every moment of a run the fiber whose turn it is runs. -/
theorem Run.turned (r : Run σ) (k : Nat) : (r.moment k).Turned := by
  induction k with
  | zero =>
      rw [r.start]
      intro f m hactive
      cases hactive
  | succ k ih => exact (r.move k).turned (r.lawful k) ih

end Fibers
