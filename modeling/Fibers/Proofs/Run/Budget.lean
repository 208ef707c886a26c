import Fibers.Proofs.Interruption.Wearing
import Fibers.Proofs.Run.Schedule

set_option autoImplicit false

/-! # How long a turn is

A fiber counts its steps, and when it has done as many as the platform allows it yields. A fiber that
waits starts to count anew. It does so too if what it waits for has happened already; but then it goes
on in the same turn. So a turn has at most the number of steps that the platform allows, and that number
again for every such wait.
-/

namespace Fibers

variable {σ : Type} {r : Run σ} {f : Key .fiber}

/-! ## Counting -/

/-- Whether a fiber that goes on with this counts a step. -/
def Control.counts : Control σ → Bool
  | .start _ => false
  | .leave _ => false
  | _ => true

/-- Whether the fiber `f` does a step that counts. -/
def Moment.counts (x : Moment σ) (f : Key .fiber) : Bool :=
  match x.active, x.world.fibers.get? f with
  | some (g, m), some y => g == f && (m.exiting || !y.mustLeave) &&
      decide (y.ops < y.context.limits.maxOps) && m.control.counts
  | _, _ => false

/-- Whether the fiber `f` waits for something that has happened already, and goes on at once. -/
def Moment.glances (x : Moment σ) (f : Key .fiber) : Bool :=
  match x.active, x.world.fibers.get? f with
  | some (g, m), some y => g == f && (x.world.step f y (m.heed y)).2.decision.awaits &&
      (x.world.advance f m).active.isSome
  | _, _ => false

/-- The steps that count among `n` moments from `i` on. -/
def Run.steps (r : Run σ) (f : Key .fiber) (i n : Nat) : Nat :=
  (List.range n).countP fun l => (r.moment (i + l)).counts f

/-- The waits among `n` moments from `i` on that do not end the turn. -/
def Run.glances (r : Run σ) (f : Key .fiber) (i n : Nat) : Nat :=
  (List.range n).countP fun l => (r.moment (i + l)).glances f

theorem Control.counts_iff {c : Control σ} :
    c.counts = true ↔ (∃ p, c = .instruct p) ∨ ∃ e, c = .ofExit e := by
  cases c with
  | start p => exact ⟨nofun, by rintro (⟨_, h⟩ | ⟨e, h⟩) <;> [cases h; cases e <;> cases h]⟩
  | leave e => exact ⟨nofun, by rintro (⟨_, h⟩ | ⟨e, h⟩) <;> [cases h; cases e <;> cases h]⟩
  | instruct p => exact ⟨fun _ => Or.inl ⟨p, rfl⟩, fun _ => rfl⟩
  | value v => exact ⟨fun _ => Or.inr ⟨.success v, rfl⟩, fun _ => rfl⟩
  | failure c => exact ⟨fun _ => Or.inr ⟨.failure c, rfl⟩, fun _ => rfl⟩

/-- The steps that count are those in which the fiber works. -/
theorem Moment.counts_iff {x : Moment σ} : x.counts f = true ↔ ∃ y m, x.Works f y m := by
  unfold counts
  constructor
  · intro h
    split at h
    · rename_i g m y hactive hy
      simp only [Bool.and_eq_true, Bool.or_eq_true, Bool.not_eq_true', decide_eq_true_eq, beq_iff_eq] at h
      obtain ⟨⟨⟨rfl, hfree⟩, hbudget⟩, hwork⟩ := h
      exact ⟨y, m, hactive, hy, hfree, hbudget, Control.counts_iff.mp hwork⟩
    · cases h
  · rintro ⟨y, m, hactive, hy, hfree, hbudget, hwork⟩
    rw [hactive, hy]
    simp only [beq_self_eq_true, Bool.true_and, Bool.and_eq_true, Bool.or_eq_true, Bool.not_eq_true',
      decide_eq_true_eq]
    exact ⟨⟨hfree, hbudget⟩, Control.counts_iff.mpr hwork⟩

theorem Run.steps_succ (r : Run σ) (f : Key .fiber) (i n : Nat) :
    r.steps f i (n + 1) = r.steps f i n + if (r.moment (i + n)).counts f then 1 else 0 := by
  rw [steps, List.range_succ, List.countP_append, List.countP_singleton]
  rfl

theorem Run.glances_succ (r : Run σ) (f : Key .fiber) (i n : Nat) :
    r.glances f i (n + 1) = r.glances f i n + if (r.moment (i + n)).glances f then 1 else 0 := by
  rw [glances, List.range_succ, List.countP_append, List.countP_singleton]
  rfl

/-! ## Waiting for what has happened -/

/-- A fiber goes on in the same turn after a wait if and only if what it waits for has happened. -/
theorem Moment.glances_iff {x : Moment σ} : x.glances f = true ↔ ∃ y m w z m' a release p,
    x.active = some (f, m) ∧ x.world.fibers.get? f = some y ∧
      x.world.step f y (m.heed y) = (w, ⟨m', .await a release⟩) ∧ w.fibers.get? f = some z ∧
      w.settledProgram? a = some p := by
  rcases x with ⟨v, active⟩
  unfold glances
  constructor
  · intro h
    split at h
    · rename_i g m y hactive hy
      simp only [Bool.and_eq_true, beq_iff_eq] at h
      obtain ⟨⟨rfl, hawaits⟩, hnext⟩ := h
      have hget : v.fibers.get? g = some y := hy
      simp only [World.advance, hget] at hnext
      rcases hstep : v.step g y (m.heed y) with ⟨w, m', d⟩
      simp only [hstep] at hawaits hnext
      cases d with
      | await a release =>
          cases hz : w.fibers.get? g with
          | none => simp only [World.conclude, hz, Option.isSome_none, Bool.false_eq_true] at hnext
          | some z =>
              simp only [World.conclude, hz,
                World.settledProgram?_park (z := { z with ops := 0 }) hz rfl] at hnext
              cases hsettled : w.settledProgram? a with
              | none => simp only [hsettled, Option.isSome_none, Bool.false_eq_true] at hnext
              | some p => exact ⟨y, m, w, z, m', a, release, p, hactive, hy, hstep, hz, hsettled⟩
      | proceed => cases hawaits
      | yield => cases hawaits
      | done e => cases hawaits
    · cases h
  · rintro ⟨y, m, w, z, m', a, release, p, hactive, hy, hstep, hz, hsettled⟩
    obtain rfl : active = some (f, m) := hactive
    have hget : v.fibers.get? f = some y := hy
    simp only [World.advance, hget, hstep, World.conclude, hz, Decision.awaits,
      World.settledProgram?_park (z := { z with ops := 0 }) hz rfl, hsettled, beq_self_eq_true,
      Option.isSome_some, Bool.and_self]

/-! ## What a step does to the count -/

/-- A step in which the fiber does not work leaves the count as it is, or it ends the turn and sets the
count to nothing. -/
theorem World.ops_idle {w : World σ} {y : Fiber σ} {m : Machine σ} (hy : w.fibers.get? f = some y)
    (hidle : ¬ Moment.Works ⟨w, some (f, m)⟩ f y m) :
    ∃ y', (w.step f y (m.heed y)).1.fibers.get? f = some y' ∧
      ((w.step f y (m.heed y)).2.decision = .proceed ∧ y'.ops = y.ops ∨
        (w.step f y (m.heed y)).2.decision = .yield ∧ y'.ops = 0) := by
  rcases step_idle hy hidle with ⟨e, -, hstep⟩ | ⟨p, hstep⟩ | hstep
  · obtain ⟨y', hy', heq⟩ := get?_leave hy e
    rw [hstep]
    exact ⟨y', hy', Or.inl ⟨rfl, by rw [heq]; rfl⟩⟩
  · rw [hstep]
    exact ⟨y, hy, Or.inl ⟨rfl, rfl⟩⟩
  · rw [hstep]
    exact ⟨_, get?_tired hy, Or.inr ⟨rfl, rfl⟩⟩

/-- What a fiber has counted after its own step: one step more if it worked, and nothing if it waits. If
it did not work, it is what it was before, or nothing after the end of the turn. -/
theorem Run.ops_succ {k : Nat} {y : Fiber σ} {m : Machine σ}
    (hactive : (r.moment k).active = some (f, m)) (hy : (r.moment k).world.fibers.get? f = some y) :
    ∃ y', (r.moment (k + 1)).world.fibers.get? f = some y' ∧ y'.context = y.context ∧
      ((r.moment k).Works f y m ∧
          y'.ops = (if ((r.moment k).world.step f y (m.heed y)).2.decision.awaits then 0 else y.ops + 1) ∨
        ¬ (r.moment k).Works f y m ∧
          (y'.ops = y.ops ∨ y'.ops = 0 ∧ (r.moment (k + 1)).active = none)) := by
  have hx := r.lawful_of_turn hactive
  have hfits := ((r.fitting k).fits f y m hy (Moment.machine?_of_active hactive)).1
  obtain ⟨y', hy', honward⟩ := r.onward (Nat.le_succ k) hy
  have hadvance := Run.conclude_of_turn hactive hy
  rw [hadvance] at hy' ⊢
  refine ⟨y', hy', honward.context, ?_⟩
  -- the step counts if the fiber works, and the end of the step sets the count to nothing if it waits
  by_cases hworks : (r.moment k).Works f y m
  · left
    refine ⟨hworks, ?_⟩
    rw [World.heed_of_free hworks.free] at hy' ⊢
    obtain ⟨-, ⟨y₁, hy₁, hops, -⟩, -⟩ := World.treads_step hx hworks.here hfits
    obtain ⟨y₂, hy₂, heq, -⟩ := World.get?_conclude hy₁
    obtain rfl := Option.some.inj (hy₂.symm.trans hy')
    rw [← hops]
    exact congrArg Fiber.ops heq
  · right
    refine ⟨hworks, ?_⟩
    obtain ⟨y₁, hy₁, hstep⟩ := World.ops_idle hy fun h => hworks { h with turn := hactive }
    obtain ⟨y₂, hy₂, heq, -⟩ := World.get?_conclude hy₁
    obtain rfl := Option.some.inj (hy₂.symm.trans hy')
    have hops : y₂.ops =
        if ((r.moment k).world.step f y (m.heed y)).2.decision.awaits then 0 else y₁.ops :=
      congrArg Fiber.ops heq
    rcases hstep with ⟨hdecision, hsame⟩ | ⟨hdecision, hzero⟩
    · rw [hdecision] at hops
      exact Or.inl (hops.trans hsame)
    · rw [hdecision] at hops
      refine Or.inr ⟨hops.trans hzero, ?_⟩
      rcases hs : (r.moment k).world.step f y (m.heed y) with ⟨w₁, m₁, d⟩
      rw [hs] at hdecision hy₁
      obtain rfl : d = .yield := hdecision
      have hget₁ : w₁.fibers.get? f = some y₁ := hy₁
      simp only [World.conclude, hget₁]

/-- No fiber has counted more than it may. -/
def Moment.Thrifty (x : Moment σ) : Prop :=
  ∀ f y, x.world.fibers.get? f = some y → y.ops ≤ y.context.limits.maxOps

theorem Run.thrifty (r : Run σ) (k : Nat) : (r.moment k).Thrifty := by
  induction k with
  | zero =>
      rw [r.start]
      exact fun f y hy => by cases hy
  | succ k ih =>
      intro f y' hy'
      rcases (r.move k).young (r.lawful k) (r.fitting k).root hy' with ⟨y, hy⟩ | ⟨hyoung, -⟩
      · have hbound := ih f y hy
        -- a fiber counts in its own step only, and it works only below the bound
        by_cases hactive : ∃ m, (r.moment k).active = some (f, m)
        · obtain ⟨m, hactive⟩ := hactive
          obtain ⟨y₁, hy₁, hcontext, hops⟩ := Run.ops_succ hactive hy
          obtain rfl := Option.some.inj (hy₁.symm.trans hy')
          rw [hcontext]
          rcases hops with ⟨hworks, hops⟩ | ⟨-, hsame | ⟨hzero, -⟩⟩
          · have hbudget := hworks.budget
            rw [hops]
            split <;> omega
          · omega
          · omega
        · obtain ⟨y₁, hy₁, honward, hstays, -⟩ := (r.move k).aside (r.lawful k)
            (fun m heq => hactive ⟨m, heq⟩) hy
          obtain rfl := Option.some.inj (hy₁.symm.trans hy')
          rw [hstays.ops, honward.context]
          exact hbound
      · rw [hyoung.ops]
        exact Nat.zero_le _

/-! ## The bound -/

/-- The fiber `f` has the turn at `n` moments from `i` on. Between two turns there is a moment at which
nobody has it, so this is one turn, or a part of one. -/
def Run.OneTurn (r : Run σ) (f : Key .fiber) (i n : Nat) : Prop :=
  ∀ l, l < n → ∃ m, (r.moment (i + l)).active = some (f, m)

theorem Run.OneTurn.init {i n : Nat} (h : r.OneTurn f i (n + 1)) : r.OneTurn f i n :=
  fun l hl => h l (Nat.lt_succ_of_lt hl)

/-- A step that does not work counts for nothing. -/
theorem Moment.not_counts {x : Moment σ} {y : Fiber σ} {m : Machine σ} (hactive : x.active = some (f, m))
    (hy : x.world.fibers.get? f = some y) (hidle : ¬ x.Works f y m) : x.counts f = false := by
  refine Bool.eq_false_iff.mpr fun hcounts => ?_
  obtain ⟨y', m', hworks⟩ := counts_iff.mp hcounts
  obtain ⟨-, rfl⟩ := Prod.mk.inj (Option.some.inj (hworks.turn.symm.trans hactive))
  obtain rfl := Option.some.inj (hworks.fiber.symm.trans hy)
  exact hidle hworks

/-- A wait after which the fiber still has the turn is one that does not end it. -/
theorem Moment.glances_of_awaits {x : Moment σ} {y : Fiber σ} {m : Machine σ}
    (hactive : x.active = some (f, m)) (hy : x.world.fibers.get? f = some y)
    (hawaits : (x.world.step f y (m.heed y)).2.decision.awaits = true) {g : Key .fiber}
    {m' : Machine σ} (hnext : (x.world.advance f m).active = some (g, m')) : x.glances f = true := by
  simp only [glances, hactive, hy, hawaits, hnext, beq_self_eq_true, Option.isSome_some, Bool.and_self]

/-- What a fiber has counted bounds the steps of its turn: they are the steps it has counted since the
last wait, and for every wait before that at most as many as the platform allows. -/
theorem Run.steps_le_ops {i n : Nat} {y : Fiber σ} (hy : (r.moment i).world.fibers.get? f = some y)
    (hturn : r.OneTurn f i n) :
    ∃ y', (r.moment (i + n)).world.fibers.get? f = some y' ∧ y'.context = y.context ∧
      r.steps f i n ≤ y.context.limits.maxOps * (r.glances f i n + 1) ∧
      ((∃ m, (r.moment (i + n)).active = some (f, m)) →
        r.steps f i n ≤ y.context.limits.maxOps * r.glances f i n + y'.ops) := by
  -- induction on the moments: the steps since the last wait are those in the count of the fiber
  induction n with
  | zero => exact ⟨y, hy, rfl, Nat.zero_le _, fun _ => Nat.zero_le _⟩
  | succ n ih =>
      obtain ⟨y₁, hy₁, hcontext, -, hops⟩ := ih hturn.init
      obtain ⟨m, hactive⟩ := hturn n (Nat.lt_succ_self n)
      have hsofar := hops ⟨m, hactive⟩
      have hthrifty : y₁.ops ≤ y.context.limits.maxOps := by
        rw [← hcontext]
        exact r.thrifty (i + n) f y₁ hy₁
      obtain ⟨y₂, hy₂, hsame, hstep⟩ := Run.ops_succ hactive hy₁
      refine ⟨y₂, hy₂, hsame.trans hcontext, ?_⟩
      rw [r.steps_succ, r.glances_succ, Nat.mul_add, Nat.mul_add, Nat.mul_one]
      rcases hstep with ⟨hworks, hops₂⟩ | ⟨hidle, hops₂⟩
      · rw [if_pos (Moment.counts_iff.mpr ⟨y₁, m, hworks⟩)]
        have hbudget : y₁.ops < y.context.limits.maxOps := hcontext ▸ hworks.budget
        refine ⟨by omega, fun ⟨m', hm'⟩ => ?_⟩
        split at hops₂
        · -- the count starts anew, and the wait pays for the steps before it
          rename_i hawaits
          have hglances : (r.moment (i + n)).glances f = true :=
            Moment.glances_of_awaits hactive hy₁ hawaits
              ((congrArg Moment.active (Run.advance_of_turn hactive)).symm.trans hm')
          rw [if_pos hglances]
          omega
        · omega
      · rw [if_neg (Bool.eq_false_iff.mp (Moment.not_counts hactive hy₁ hidle))]
        refine ⟨by omega, fun ⟨m', hm'⟩ => ?_⟩
        rcases hops₂ with hkept | ⟨-, hnone⟩
        · omega
        · cases hnone.symm.trans hm'

/-! ## A turn without an end -/

/-- A fiber that waits for a future which has been resolved goes on with its program at once, and it has
all its steps before it. -/
theorem World.advance_resolved {w : World σ} {y : Fiber σ} {m : Machine σ} {a : Key .future}
    {p : Program σ} (h : Moment.Works ⟨w, some (f, m)⟩ f y m)
    (hcontrol : m.control = .instruct (.wait (.future a)))
    (hsettled : w.settledProgram? (.future a) = some p) :
    ∃ w' y', w.advance f m = ⟨w', some (f, { m with control := .instruct p })⟩ ∧
      w'.settledProgram? (.future a) = some p ∧ w'.fibers.get? f = some y' ∧
      y'.ops = 0 ∧ y'.context = y.context ∧ y'.mustLeave = y.mustLeave := by
  have hget := get?_count h.fiber
  have hpark := get?_park { y with ops := 0 } m hget
  have hstill : ((w.count f).park f { y with ops := 0 } m).1.settledProgram? (.future a) = some p :=
    (settledProgram?_park (z := { y with ops := 0 }) hget rfl m _).trans hsettled
  refine ⟨((w.count f).park f { y with ops := 0 } m).1.modifyFiber f
      fun z => { z with phase := .running },
    { ({ y with ops := 0 }.park m).1 with phase := .running }, ?_, hstill, ?_, rfl, rfl, rfl⟩
  · rw [advance_instruct h hcontrol]
    simp only [instruct, conclude, hget, Machine.holding, hstill]
  · rw [modifyFiber, Store.get?_modify, if_pos rfl, hpark, Option.map_some]

/-- If what the future has been resolved with is the wait for it, then the fiber never comes to the end of
its turn: every step counts, and none of them brings it nearer to its bound. -/
theorem Run.endless {i : Nat} {y : Fiber σ} {m : Machine σ} {a : Key .future}
    (h : (r.moment i).Works f y m) (hcontrol : m.control = .instruct (.wait (.future a)))
    (hsettled : (r.moment i).world.settledProgram? (.future a) = some (.wait (.future a))) (n : Nat) :
    r.OneTurn f i n ∧ r.steps f i n = n := by
  -- the wait is answered with the same wait, and the count is nothing again
  have hstays (l : Nat) : (r.moment (i + l)).world.settledProgram? (.future a) =
      some (.wait (.future a)) ∧ ∃ z, (r.moment (i + l)).Works f z m := by
    induction l with
    | zero => exact ⟨hsettled, y, h⟩
    | succ l ih =>
        obtain ⟨hstill, z, hz⟩ := ih
        obtain ⟨w', z', hadvance, hstill', hz', hops, hcontext, hleave⟩ :=
          World.advance_resolved hz.here hcontrol hstill
        have hmoment : r.moment (i + (l + 1)) = ⟨w', some (f, m)⟩ := by
          rw [← Nat.add_assoc, Run.advance_of_turn hz.turn, hadvance, ← hcontrol]
        rw [hmoment]
        refine ⟨hstill', z', rfl, hz', hleave ▸ hz.free, ?_, hz.work⟩
        rw [hops, hcontext]
        exact Nat.zero_lt_of_lt hz.budget
  refine ⟨fun l _ => ⟨m, (hstays l).2.choose_spec.turn⟩, ?_⟩
  induction n with
  | zero => rfl
  | succ n ih => rw [r.steps_succ, ih, if_pos (Moment.counts_iff.mpr ⟨_, m, (hstays n).2.choose_spec⟩)]

/-- A program that resolves a future with the wait for it, and waits. -/
def restless : Program Nat :=
  .access fun _ => .call .newFuture fun a =>
    .resolve a (.wait (.future a)) fun _ => .program (.wait (.future a))

theorem licensed_restless : restless.Licensed .none :=
  .access fun _ => .call nofun fun _ => .resolve .wait fun _ => .program .wait

/-- The run of the program. -/
def restlessRun : Run Nat := .inOrder .standard 0 restless licensed_restless

/-! ## Turns are bounded but for such waits -/

/-- In a turn, a fiber does at most as many steps as the platform allows, and as many again for every
wait in it for something that has happened already. -/
theorem Run.turn_bounded {i n : Nat} {y : Fiber σ} (hy : (r.moment i).world.fibers.get? f = some y)
    (hturn : r.OneTurn f i n) :
    r.steps f i n ≤ y.context.limits.maxOps * (r.glances f i n + 1) := by
  obtain ⟨-, -, -, hbound, -⟩ := Run.steps_le_ops hy hturn
  exact hbound

/-- The first steps of the program keep to the bound. -/
theorem restless_bounded : restlessRun.OneTurn ⟨0⟩ 2 4 ∧ restlessRun.steps ⟨0⟩ 2 4 = 3 ∧
    restlessRun.steps ⟨0⟩ 2 4 ≤ Config.standard.maxOps * (restlessRun.glances ⟨0⟩ 2 4 + 1) := by
  have hturn : restlessRun.OneTurn ⟨0⟩ 2 4 := by
    intro l hl
    rcases l with _ | _ | _ | _ | l
    · exact ⟨_, rfl⟩
    · exact ⟨_, rfl⟩
    · exact ⟨_, rfl⟩
    · exact ⟨_, rfl⟩
    · omega
  have hget : (restlessRun.moment 2).world.fibers.get? ⟨0⟩ =
      some (((restlessRun.moment 2).world.fibers.get? ⟨0⟩).get rfl) := rfl
  exact ⟨hturn, by decide, Run.turn_bounded hget hturn⟩

/-- The fiber does more steps in one turn than any number, that of the platform among them. -/
theorem restless_endless : 1 ≤ restlessRun.config.maxOps ∧
    ∀ n, restlessRun.OneTurn ⟨0⟩ 4 n ∧ restlessRun.steps ⟨0⟩ 4 n = n := by
  refine ⟨by decide, Run.endless ⟨rfl, rfl, Or.inr rfl, by decide, Or.inl ⟨_, rfl⟩⟩ rfl rfl⟩

end Fibers
