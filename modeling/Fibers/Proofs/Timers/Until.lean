import Mathlib.Logic.Relation
import Fibers.Proofs.Timers.Desk

set_option autoImplicit false

/-! # Driving a queue until a condition holds

Tasks run one after the other, in the order of the queue, and time passes when none is due. The condition is
looked at only when no task is due: at the quiet moments of the system. So the drive returns true if and only
if a quiet moment comes at which the condition holds, and false if and only if the tasks run out before that.
Where a task sets another for the same instant without end, no quiet moment comes.
-/

namespace Fibers

namespace Host

variable {S τ : Type} {host : Host S τ} {done : S → Bool} {s s' a b q : S}

/-- No task is due. -/
def Quiet (host : Host S τ) (s : S) : Prop := (host.timers s).popDue? = none

/-- No task is left, and time is virtual. -/
def Exhausted (host : Host S τ) (s : S) : Prop :=
  (host.timers s).nextDeadline? = none ∧ (host.timers s).clock.isVirtual = true

/-- The next task that is due runs. -/
inductive Runs (host : Host S τ) : S → S → Prop where
  | mk {s s' : S} {task : τ} {rest : Timers τ} (hpop : (host.timers s).popDue? = some (task, rest))
      (hperform : host.perform task (host.withTimers s rest) = (s', .finished ())) :
      Runs host s (host.withTimers s' (host.timers s').countRun)

/-- Time passes, up to the next deadline if there is one. -/
inductive Waits (host : Host S τ) : S → S → Prop where
  | mk {s s' : S} (hquiet : host.Quiet s) (hleft : ¬ host.Exhausted s)
      (hawait : host.await (host.timers s).nextDeadline? s = some s') : Waits host s s'

/-- The system goes on in the order of its queue. -/
def Step (host : Host S τ) (s s' : S) : Prop := host.Runs s s' ∨ host.Waits s s'

/-- The states that a system comes to in the order of its queue. -/
def Steps (host : Host S τ) : S → S → Prop := Relation.ReflTransGen host.Step

theorem not_quiet_of_runs (h : host.Runs s a) : ¬ host.Quiet s := by
  obtain ⟨hpop, -⟩ := h
  rw [Quiet, hpop]
  exact nofun

theorem Runs.det (ha : host.Runs s a) (hb : host.Runs s b) : a = b := by
  obtain ⟨hpop, hperform⟩ := ha
  obtain ⟨hpop', hperform'⟩ := hb
  cases hpop.symm.trans hpop'
  cases hperform.symm.trans hperform'
  rfl

theorem Waits.det (ha : host.Waits s a) (hb : host.Waits s b) : a = b := by
  obtain ⟨-, -, hawait⟩ := ha
  obtain ⟨-, -, hawait'⟩ := hb
  exact Option.some.inj (hawait.symm.trans hawait')

/-- A system goes on in one way. -/
theorem Step.det (ha : host.Step s a) (hb : host.Step s b) : a = b := by
  rcases ha with ha | ha
  · rcases hb with hb | hb
    · exact ha.det hb
    · obtain ⟨hquiet, -, -⟩ := hb
      exact absurd hquiet (not_quiet_of_runs ha)
  · rcases hb with hb | hb
    · obtain ⟨hquiet, -, -⟩ := ha
      exact absurd hquiet (not_quiet_of_runs hb)
    · exact ha.det hb

/-- A system in which no task is left is quiet. -/
theorem Exhausted.quiet (h : host.Exhausted s) : host.Quiet s := by
  have hlive : (host.timers s).live = [] :=
    List.head?_eq_none_iff.mp (Option.map_eq_none_iff.mp h.1)
  rw [Quiet, Timers.popDue?, hlive]

/-- Nothing comes after it. -/
theorem Exhausted.not_step (h : host.Exhausted s) : ¬ host.Step s a := by
  rintro (hruns | ⟨-, hleft, -⟩)
  · exact not_quiet_of_runs hruns h.quiet
  · exact hleft h

theorem Exhausted.eq_of_steps (h : host.Exhausted s) (hsteps : host.Steps s a) : s = a := by
  rcases Relation.ReflTransGen.cases_head hsteps with heq | ⟨b, hstep, -⟩
  · exact heq
  · exact absurd hstep h.not_step

/-- Where the tasks have run out, a system has come to the end of its way. -/
theorem Exhausted.steps_of_steps (h : host.Exhausted q) (hq : host.Steps s q) (ha : host.Steps s a) :
    host.Steps a q := by
  have hunique : Relator.RightUnique host.Step := fun _ _ _ hb hc => Step.det hb hc
  rcases Relation.ReflTransGen.total_of_right_unique hunique hq ha with hqa | haq
  · rw [h.eq_of_steps hqa]
    exact .refl
  · exact haq

/-- What a system comes to from a quiet state other than itself, it comes to through a wait. -/
theorem Quiet.steps_of_waits (hwaits : host.Waits s a) (hsteps : host.Steps s b) (hne : s ≠ b) :
    host.Steps a b := by
  rcases Relation.ReflTransGen.cases_head hsteps with heq | ⟨c, hstep, hrest⟩
  · exact absurd heq hne
  · obtain rfl := Step.det (Or.inr hwaits) hstep
    exact hrest

/-- The first quiet state is on the way to every other. -/
theorem steps_of_quiet (hruns : Relation.ReflTransGen host.Runs s q) (hsteps : host.Steps s a)
    (hquiet : host.Quiet a) : host.Steps q a := by
  induction hruns using Relation.ReflTransGen.head_induction_on with
  | refl => exact hsteps
  | head hrun _ ih =>
      rcases Relation.ReflTransGen.cases_head hsteps with rfl | ⟨c, hstep, hrest⟩
      · exact absurd hquiet (not_quiet_of_runs hrun)
      · obtain rfl := Step.det (Or.inl hrun) hstep
        exact ih hrest

theorem steps_of_runs (hruns : Relation.ReflTransGen host.Runs s a) : host.Steps s a :=
  Relation.ReflTransGen.mono (fun _ _ h => Or.inl h) s a hruns

/-! ## A run of the tasks that are due -/

/-- A run of what is due that returns has come to the first quiet state. -/
theorem runs_of_runReadyFrom {fuel ran ran' : Nat}
    (h : host.runReadyFrom fuel ran s = (q, .finished ran')) :
    Relation.ReflTransGen host.Runs s q ∧ host.Quiet q := by
  induction fuel generalizing ran s with
  | zero => cases h
  | succ fuel ih =>
      unfold runReadyFrom at h
      split at h
      · rename_i hquiet
        cases h
        exact ⟨.refl, hquiet⟩
      · rename_i task rest hpop
        split at h
        · rename_i s₁ hperform
          obtain ⟨hruns, hquiet⟩ := ih h
          exact ⟨.head (.mk hpop hperform) hruns, hquiet⟩
        · cases h
        · cases h

theorem runReadyFrom_of_quiet (h : host.Quiet s) (fuel ran : Nat) :
    host.runReadyFrom (fuel + 1) ran s = (s, .finished ran) := by
  unfold runReadyFrom
  rw [show (host.timers s).popDue? = none from h]

theorem runReadyFrom_of_runs (h : host.Runs s a) (fuel ran : Nat) :
    host.runReadyFrom (fuel + 1) ran s = host.runReadyFrom fuel (ran + 1) a := by
  obtain ⟨hpop, hperform⟩ := h
  simp only [runReadyFrom, hpop, hperform]

/-- How much is counted makes no difference to where a run comes to, and neither does more fuel. -/
theorem runReadyFrom_returns {fuel ran ran' : Nat} (h : host.runReadyFrom fuel ran s = (q, .finished ran'))
    {fuel' : Nat} (hfuel : fuel ≤ fuel') (start : Nat) :
    ∃ total, host.runReadyFrom fuel' start s = (q, .finished total) := by
  induction fuel generalizing ran start fuel' s with
  | zero => cases h
  | succ fuel ih =>
      obtain ⟨fuel', rfl⟩ : ∃ n, fuel' = n + 1 := ⟨fuel' - 1, by omega⟩
      unfold runReadyFrom at h
      split at h
      · rename_i hquiet
        cases h
        exact ⟨start, runReadyFrom_of_quiet hquiet fuel' start⟩
      · rename_i task rest hpop
        split at h
        · rename_i s₁ hperform
          rw [runReadyFrom_of_runs (.mk hpop hperform)]
          exact ih h (Nat.le_of_succ_le_succ hfuel) (start + 1)
        · cases h
        · cases h

/-! ## A drive that returns -/

/-- Where a drive ends that gives an answer: at a quiet state, which is the first at which the condition
holds, or at which no task is left. -/
structure Ends (host : Host S τ) (done : S → Bool) (s : S) (answer : Bool) (s' : S) : Prop where
  steps : host.Steps s s'
  quiet : host.Quiet s'
  shows : done s' = answer
  exhausted : answer = false → host.Exhausted s'
  first : ∀ t, host.Steps s t → host.Quiet t → done t = true → host.Steps s' t

theorem ends_of_untilLoop {fuel rounds : Nat} {answer : Bool}
    (h : host.untilLoop fuel done rounds s = (s', .finished answer)) : host.Ends done s answer s' := by
  induction rounds generalizing s with
  | zero => cases h
  | succ rounds ih =>
      unfold untilLoop at h
      split at h
      · rename_i q ran hready
        obtain ⟨hruns, hquiet⟩ := runs_of_runReadyFrom hready
        have hsteps := steps_of_runs hruns
        have hfirst (t : S) (ht : host.Steps s t) (htquiet : host.Quiet t) : host.Steps q t :=
          steps_of_quiet hruns ht htquiet
        split at h
        · rename_i hdone
          cases h
          exact ⟨hsteps, hquiet, hdone, nofun, fun t ht htquiet _ => hfirst t ht htquiet⟩
        · rename_i hdone
          dsimp only at h
          split at h
          · rename_i hout
            cases h
            have hexhausted : host.Exhausted s' := by
              rw [Bool.and_eq_true, Option.isNone_iff_eq_none] at hout
              exact hout
            exact ⟨hsteps, hquiet, Bool.eq_false_iff.mpr hdone, fun _ => hexhausted,
              fun t ht htquiet _ => hfirst t ht htquiet⟩
          · rename_i hout
            split at h
            · cases h
            · rename_i s₁ hawait
              have hleft : ¬ host.Exhausted q := fun hexhausted => hout (by
                rw [Bool.and_eq_true, Option.isNone_iff_eq_none]
                exact hexhausted)
              have hwaits : host.Waits q s₁ := .mk hquiet hleft hawait
              have hends := ih h
              refine ⟨hsteps.trans (.head (Or.inr hwaits) hends.steps), hends.quiet, hends.shows,
                hends.exhausted, fun t ht htquiet htdone => ?_⟩
              have hne : q ≠ t := by
                rintro rfl
                exact hdone htdone
              exact hends.first t (Quiet.steps_of_waits hwaits (hfirst t ht htquiet) hne) htquiet htdone
      · cases h
      · cases h

/-! ## A drive that has to return -/

/-- With enough fuel, a drive ends in a state and gives an answer. -/
def Returns (host : Host S τ) (done : S → Bool) (s : S) (answer : Bool) (s' : S) : Prop :=
  ∃ enough, ∀ fuel rounds, enough ≤ fuel → enough ≤ rounds →
    host.untilLoop fuel done rounds s = (s', .finished answer)

/-- At a quiet state the condition is looked at. -/
theorem untilLoop_of_quiet (h : host.Quiet s) (fuel rounds : Nat) :
    host.untilLoop (fuel + 1) done (rounds + 1) s =
      if done s then (s, .finished true)
      else if (host.timers s).nextDeadline?.isNone && (host.timers s).clock.isVirtual then
        (s, .finished false)
      else match host.await (host.timers s).nextDeadline? s with
        | none => (s, .unfinished)
        | some s => host.untilLoop (fuel + 1) done rounds s := by
  cases hawait : host.await (host.timers s).nextDeadline? s <;>
    simp only [untilLoop, runReady, runReadyFrom_of_quiet h, hawait]

theorem ready_of_untilLoop {fuel rounds : Nat} {answer : Bool}
    (h : host.untilLoop fuel done (rounds + 1) s = (s', .finished answer)) :
    ∃ q ran, host.runReady fuel s = (q, .finished ran) := by
  unfold untilLoop at h
  split at h
  · rename_i q ran hready
    exact ⟨q, ran, hready⟩
  · cases h
  · cases h

/-- A drive goes on from where the tasks that are due have led. -/
theorem untilLoop_congr {fuel rounds ran ran' : Nat} (h : host.runReady fuel s = (q, .finished ran))
    (h' : host.runReady fuel a = (q, .finished ran')) :
    host.untilLoop fuel done (rounds + 1) s = host.untilLoop fuel done (rounds + 1) a := by
  rw [untilLoop, untilLoop, h, h']

theorem Returns.of_runs {answer : Bool} (h : host.Returns done a answer s') (hruns : host.Runs s a) :
    host.Returns done s answer s' := by
  obtain ⟨enough, h⟩ := h
  refine ⟨enough + 1, fun fuel rounds hfuel hrounds => ?_⟩
  obtain ⟨fuel, rfl⟩ : ∃ n, fuel = n + 1 := ⟨fuel - 1, by omega⟩
  obtain ⟨rounds, rfl⟩ : ∃ n, rounds = n + 1 := ⟨rounds - 1, by omega⟩
  have hshort := h fuel (rounds + 1) (by omega) (by omega)
  obtain ⟨q, ran, hready⟩ := ready_of_untilLoop hshort
  obtain ⟨_, hmore⟩ := runReadyFrom_returns hready (Nat.le_succ fuel) 0
  obtain ⟨_, hafter⟩ := runReadyFrom_returns hready (Nat.le_refl fuel) 1
  rw [← runReadyFrom_of_runs hruns fuel 0] at hafter
  rw [untilLoop_congr hafter hmore]
  exact h (fuel + 1) (rounds + 1) (by omega) (by omega)

theorem Returns.of_waits {answer : Bool} (h : host.Returns done a answer s') (hwaits : host.Waits s a)
    (hdone : done s = false) : host.Returns done s answer s' := by
  obtain ⟨enough, h⟩ := h
  obtain ⟨hquiet, hleft, hawait⟩ := hwaits
  refine ⟨enough + 1, fun fuel rounds hfuel hrounds => ?_⟩
  obtain ⟨fuel, rfl⟩ : ∃ n, fuel = n + 1 := ⟨fuel - 1, by omega⟩
  obtain ⟨rounds, rfl⟩ : ∃ n, rounds = n + 1 := ⟨rounds - 1, by omega⟩
  have hout : ¬ ((host.timers s).nextDeadline?.isNone && (host.timers s).clock.isVirtual) = true := by
    rw [Bool.and_eq_true, Option.isNone_iff_eq_none]
    exact hleft
  rw [untilLoop_of_quiet hquiet, hdone, if_neg Bool.false_ne_true, if_neg hout, hawait]
  exact h (fuel + 1) rounds (by omega) (by omega)

theorem returns_true (h : host.Quiet s) (hdone : done s = true) : host.Returns done s true s := by
  refine ⟨1, fun fuel rounds hfuel hrounds => ?_⟩
  obtain ⟨fuel, rfl⟩ : ∃ n, fuel = n + 1 := ⟨fuel - 1, by omega⟩
  obtain ⟨rounds, rfl⟩ : ∃ n, rounds = n + 1 := ⟨rounds - 1, by omega⟩
  rw [untilLoop_of_quiet h, if_pos hdone]

theorem returns_false (h : host.Exhausted s) (hdone : done s = false) : host.Returns done s false s := by
  refine ⟨1, fun fuel rounds hfuel hrounds => ?_⟩
  obtain ⟨fuel, rfl⟩ : ∃ n, fuel = n + 1 := ⟨fuel - 1, by omega⟩
  obtain ⟨rounds, rfl⟩ : ∃ n, rounds = n + 1 := ⟨rounds - 1, by omega⟩
  have hout : ((host.timers s).nextDeadline?.isNone && (host.timers s).clock.isVirtual) = true := by
    rw [Bool.and_eq_true, Option.isNone_iff_eq_none]
    exact h
  rw [untilLoop_of_quiet h.quiet, hdone, if_neg Bool.false_ne_true, if_pos hout]

/-- If the condition holds at a quiet state, the drive returns true. -/
theorem exists_returns_true (done : S → Bool) (hsteps : host.Steps s q) (hquiet : host.Quiet q) (hdone : done q = true) :
    ∃ s', host.Returns done s true s' := by
  induction hsteps using Relation.ReflTransGen.head_induction_on with
  | refl => exact ⟨q, returns_true hquiet hdone⟩
  | @head s a hstep _ ih =>
      obtain ⟨s', hreturns⟩ := ih
      rcases hstep with hruns | hwaits
      · exact ⟨s', hreturns.of_runs hruns⟩
      · cases hs : done s with
        | true =>
            obtain ⟨hquiet, -, -⟩ := hwaits
            exact ⟨s, returns_true hquiet hs⟩
        | false => exact ⟨s', hreturns.of_waits hwaits hs⟩

/-- If the tasks run out and the condition held at no quiet state, the drive returns false. -/
theorem returns_false_of_steps (hsteps : host.Steps s s') (hout : host.Exhausted s')
    (hnever : ∀ q, host.Steps s q → host.Quiet q → done q = false) : host.Returns done s false s' := by
  induction hsteps using Relation.ReflTransGen.head_induction_on with
  | refl => exact returns_false hout (hnever s' .refl hout.quiet)
  | @head s a hstep _ ih =>
      have hreturns := ih fun q hq => hnever q (.head hstep hq)
      rcases hstep with hruns | hwaits
      · exact hreturns.of_runs hruns
      · have hquiet : host.Quiet s := by
          obtain ⟨hquiet, -, -⟩ := hwaits
          exact hquiet
        exact hreturns.of_waits hwaits (hnever s .refl hquiet)

/-! ## When a drive returns -/

/-- A drive that has enough fuel to return returns the same with any more. -/
theorem driveUntil_of_returns {answer : Bool} (h : host.Returns done s answer s') :
    ∃ enough, ∀ fuel, enough ≤ fuel → host.driveUntil fuel done s = (s', .finished answer) := by
  obtain ⟨enough, h⟩ := h
  exact ⟨enough, fun fuel hfuel => h fuel fuel hfuel hfuel⟩

theorem driveUntil_true_iff : (∃ fuel s', host.driveUntil fuel done s = (s', .finished true)) ↔
    ∃ q, host.Steps s q ∧ host.Quiet q ∧ done q = true := by
  constructor
  · rintro ⟨fuel, s', h⟩
    have hends := ends_of_untilLoop h
    exact ⟨s', hends.steps, hends.quiet, hends.shows⟩
  · rintro ⟨q, hsteps, hquiet, hdone⟩
    obtain ⟨s', hreturns⟩ := exists_returns_true done hsteps hquiet hdone
    obtain ⟨enough, h⟩ := driveUntil_of_returns hreturns
    exact ⟨enough, s', h enough (Nat.le_refl _)⟩

theorem driveUntil_false_iff : (∃ fuel s', host.driveUntil fuel done s = (s', .finished false)) ↔
    ∃ q, host.Steps s q ∧ host.Exhausted q ∧ ∀ t, host.Steps s t → host.Quiet t → done t = false := by
  constructor
  · rintro ⟨fuel, s', h⟩
    have hends := ends_of_untilLoop h
    have hout := hends.exhausted rfl
    refine ⟨s', hends.steps, hout, fun t ht htquiet => Bool.eq_false_iff.mpr fun htdone => ?_⟩
    -- nothing comes after the end, so the state would be the end itself
    obtain rfl := hout.eq_of_steps (hends.first t ht htquiet htdone)
    exact Bool.false_ne_true (hends.shows.symm.trans htdone)
  · rintro ⟨q, hsteps, hout, hnever⟩
    obtain ⟨enough, h⟩ := driveUntil_of_returns (returns_false_of_steps hsteps hout hnever)
    exact ⟨enough, q, h enough (Nat.le_refl _)⟩

/-- What a drive of a system comes to: true if and only if the condition holds at a quiet state that the
system comes to in the order of its queue, and then at the first of them; false if and only if the tasks run
out before that. -/
structure Stops (host : Host S τ) (done : S → Bool) (s : S) : Prop where
  true_iff : (∃ fuel s', host.driveUntil fuel done s = (s', .finished true)) ↔
    ∃ q, host.Steps s q ∧ host.Quiet q ∧ done q = true
  false_iff : (∃ fuel s', host.driveUntil fuel done s = (s', .finished false)) ↔
    ∃ q, host.Steps s q ∧ host.Exhausted q ∧ ∀ t, host.Steps s t → host.Quiet t → done t = false
  ends : ∀ fuel answer s', host.driveUntil fuel done s = (s', .finished answer) →
    host.Ends done s answer s'

theorem stops (host : Host S τ) (done : S → Bool) (s : S) : host.Stops done s :=
  ⟨driveUntil_true_iff, driveUntil_false_iff, fun _ _ _ h => ends_of_untilLoop h⟩

end Host

/-! ## A task that sets itself again -/

namespace Desk

/-- One task says that all is done. The other sets itself again for the same instant. -/
def spin (first : Bool) (_ : Time) : Chore Bool Bool :=
  if first then .write true .done else .set 0 false fun _ => .done

/-- All is done, and what is left is a task that sets itself again. -/
def Spinning (d : Desk Bool Bool) : Prop :=
  d.board = true ∧ ∃ id number, d.timers.live = [⟨d.timers.now, id, ⟨number, false⟩⟩]

theorem Spinning.not_quiet {d : Desk Bool Bool} (h : d.Spinning) : ¬ (host spin).Quiet d := by
  obtain ⟨-, id, number, hlive⟩ := h
  intro hquiet
  have hpop : d.timers.popDue? = none := hquiet
  simp [Timers.popDue?, hlive] at hpop

theorem Spinning.step {d d' : Desk Bool Bool} (h : d.Spinning) (hstep : (host spin).Step d d') :
    d'.Spinning := by
  rcases hstep with ⟨hpop, hperform⟩ | ⟨hquiet, -, -⟩
  · obtain ⟨hboard, id, number, hlive⟩ := h
    obtain ⟨t, rest, hlive', -, rfl, rfl⟩ := Timers.popDue?_eq_some.mp hpop
    obtain ⟨rfl, rfl⟩ := List.cons.inj (hlive'.symm.trans hlive)
    cases hperform
    have hnow : d.timers.now.add 0 = d.timers.now := Time.ext (Nat.min_eq_left d.timers.now.nanos_le)
    refine ⟨hboard, d.timers.nextId, d.timers.nextId, ?_⟩
    exact congrArg (fun deadline => [(⟨deadline, _, _⟩ : Timer (Job Bool))]) hnow
  · exact absurd hquiet h.not_quiet

theorem Spinning.steps {d d' : Desk Bool Bool} (h : d.Spinning) (hsteps : (host spin).Steps d d') :
    d'.Spinning := by
  induction hsteps with
  | refl => exact h
  | tail _ hstep ih => exact ih.step hstep

/-- The condition holds after the first task, and from then on, but a drive until it holds does not return. -/
theorem spin_never_stops :
    let d := (((start .zero false).set 0 true).1.set 0 false).1
    (∃ a, (host spin).Runs d a ∧ ∀ b, (host spin).Steps a b → b.board = true) ∧
    ¬ ∃ fuel answer d', (host spin).driveUntil fuel Desk.board d = (d', .finished answer) := by
  intro d
  obtain ⟨a, hruns, ha⟩ : ∃ a, (host spin).Runs d a ∧ a.Spinning :=
    ⟨_, .mk rfl rfl, rfl, 1, 1, rfl⟩
  refine ⟨⟨a, hruns, fun b hb => (ha.steps hb).1⟩, fun ⟨fuel, answer, d', h⟩ => ?_⟩
  have hends := ((host spin).stops Desk.board d).ends fuel answer d' h
  rcases Relation.ReflTransGen.cases_head hends.steps with rfl | ⟨c, hstep, hsteps⟩
  · exact Host.not_quiet_of_runs hruns hends.quiet
  · obtain rfl := Host.Step.det (Or.inl hruns) hstep
    exact (ha.steps hsteps).not_quiet hends.quiet

end Desk

namespace Host

variable {S τ : Type} {host host' : Host S τ} {done : S → Bool} {s s' q : S}

/-! ## Hosts that go further -/

/-- A host whose tasks come to their ends in another one too, with the same outcome. -/
structure Within (host host' : Host S τ) : Prop where
  timers : host'.timers = host.timers
  withTimers : host'.withTimers = host.withTimers
  await : host'.await = host.await
  perform : ∀ {task : τ} {s s' : S}, host.perform task s = (s', .finished ()) →
    host'.perform task s = (s', .finished ())

theorem Within.runReadyFrom (h : host.Within host') {fuel ran ran' : Nat}
    (hreturns : host.runReadyFrom fuel ran s = (q, .finished ran')) :
    host'.runReadyFrom fuel ran s = (q, .finished ran') := by
  induction fuel generalizing ran s with
  | zero => cases hreturns
  | succ fuel ih =>
      unfold Host.runReadyFrom at hreturns ⊢
      rw [h.timers, h.withTimers]
      split at hreturns
      · exact hreturns
      · rename_i task rest hpop
        split at hreturns
        · rename_i s₁ hperform
          rw [h.perform hperform]
          exact ih hreturns
        · cases hreturns
        · cases hreturns

theorem Within.untilLoop (h : host.Within host') {fuel rounds : Nat} {answer : Bool}
    (hreturns : host.untilLoop fuel done rounds s = (s', .finished answer)) :
    host'.untilLoop fuel done rounds s = (s', .finished answer) := by
  induction rounds generalizing s with
  | zero => cases hreturns
  | succ rounds ih =>
      unfold Host.untilLoop at hreturns ⊢
      split at hreturns
      · rename_i q ran hready
        rw [runReady, h.runReadyFrom hready, h.timers, h.await]
        dsimp only
        split at hreturns
        · rename_i hdone
          rw [if_pos hdone]
          exact hreturns
        · rename_i hdone
          rw [if_neg hdone]
          dsimp only at hreturns
          split at hreturns
          · rename_i hout
            rw [if_pos hout]
            exact hreturns
          · rename_i hout
            rw [if_neg hout]
            split at hreturns
            · cases hreturns
            · exact ih hreturns
      · cases hreturns
      · cases hreturns

end Host

end Fibers
