import Fibers.Proofs.Rounds.Assembly
import Fibers.Proofs.Rounds.Play

set_option autoImplicit false

/-! # Up to the first scene

A fiber that is alone on its clock comes from its program to the first scene of the zip. It may have to yield
before each of its steps, but then it has the next turn (`Walker.Active.refreshes`). Until the zip is opened no
fiber is made, and the clock does not stand still for want of work (`Approaches`).
-/

namespace Fibers.Rounds

open World Direct

variable {σ : Type} {n : Nat} {w w₁ w' : World σ} {f : Key .fiber} {k : Walker σ} {x x' : Spot σ} {ops budget : Nat}

/-! ## Approaching -/

/-- In `N` ticks `y` comes of `x`; until then there is something to do all the time, and no fiber is made. -/
structure Approaches (x y : Moment σ) (N : Nat) : Prop where
  ends : Moment.tick^[N] x = y
  busy : ∀ j < N, ¬ (Moment.tick^[j] x).Rests
  nobody : ∀ j ≤ N, ∀ c, x.world.fibers.get? c = none → (Moment.tick^[j] x).world.fibers.get? c = none

namespace Approaches

variable {x y z : Moment σ} {N N' : Nat}

theorem refl (x : Moment σ) : Approaches x x 0 where
  ends := rfl
  busy := fun j hj => absurd hj (Nat.not_lt_zero j)
  nobody := fun j hj c hc => by
    rw [Nat.le_zero.mp hj]
    exact hc

/-- One tick. -/
theorem tick (hends : x.tick = y) (hbusy : ¬ x.Rests)
    (hnobody : ∀ c, x.world.fibers.get? c = none → y.world.fibers.get? c = none) : Approaches x y 1 where
  ends := hends
  busy := fun j hj => by
    rw [Nat.lt_one_iff.mp hj]
    exact hbusy
  nobody := fun j hj c hc => by
    rcases Nat.le_one_iff_eq_zero_or_eq_one.mp hj with rfl | rfl
    · exact hc
    · show x.tick.world.fibers.get? c = none
      rw [hends]
      exact hnobody c hc

theorem trans (h : Approaches x y N) (h' : Approaches y z N') : Approaches x z (N + N') := by
  have hlater : ∀ j, Moment.tick^[N + j] x = Moment.tick^[j] y := fun j => by
    rw [Nat.add_comm, Function.iterate_add_apply, h.ends]
  refine ⟨(hlater N').trans h'.ends, fun j hj => ?_, fun j hj c hc => ?_⟩
  · rcases Nat.lt_or_ge j N with hlt | hge
    · exact h.busy j hlt
    · obtain ⟨i, rfl⟩ := Nat.exists_eq_add_of_le hge
      rw [hlater]
      exact h'.busy i (by omega)
  · rcases Nat.le_or_ge j N with hle | hge
    · exact h.nobody j hle c hc
    · obtain ⟨i, rfl⟩ := Nat.exists_eq_add_of_le hge
      rw [hlater]
      refine h'.nobody i (by omega) c ?_
      rw [← h.ends]
      exact h.nobody N (le_refl N) c hc

end Approaches

theorem not_rests_of_active {w : World σ} {a : Key .fiber × Machine σ} : ¬ Moment.Rests ⟨w, some a⟩ :=
  fun h => by cases h.idle

/-- One step of a turn. -/
theorem Approaches.step {m : Machine σ} {y : Moment σ} (hadvance : w.advance f m = y)
    (hnobody : ∀ c, w.fibers.get? c = none → y.world.fibers.get? c = none) : Approaches ⟨w, some (f, m)⟩ y 1 :=
  .tick hadvance not_rests_of_active hnobody

/-! ## The queue -/

/-- A task that is due before all others comes first. -/
theorem insert_of_first {τ : Type} {t : Timer τ} {ts : List (Timer τ)}
    (h : ∀ u ∈ ts, t.deadline.nanos < u.deadline.nanos) : Timers.insert t ts = t :: ts := by
  cases ts with
  | nil => rfl
  | cons u rest =>
      have hbefore : t.before u = true := Timer.before_iff.mpr (Or.inl (h u List.mem_cons_self))
      simp only [Timers.insert, hbefore, if_true]

/-- From `w` to `w'` the fiber may have changed its own record and used up a number of the queue. -/
structure Walker.Lull (k : Walker σ) (w w' : World σ) : Prop where
  fibers : ∀ g, g ≠ k.fiber → w'.fibers.get? g = w.fibers.get? g
  scopes : ∀ s, w'.scopes.get? s = w.scopes.get? s
  live : w'.timers.live = w.timers.live
  now : w'.now = w.now
  nextId : w.timers.nextId ≤ w'.timers.nextId
  rest : w' = { w with
    fibers := w'.fibers
    scopes := w'.scopes
    timers := w'.timers }

theorem Walker.Lull.clear (h : k.Lull w w') {horizon : Nat} (hclear : Clear w.timers horizon) :
    Clear w'.timers horizon := by
  refine ⟨?_, ⟨?_, ?_⟩, ?_⟩
  · rw [h.live]
    exact hclear.ordered
  · rw [h.live]
    exact hclear.numbered.nodup
  · rw [h.live]
    exact fun t ht => lt_of_lt_of_le (hclear.numbered.below t ht) h.nextId
  · rw [h.live]
    exact hclear.later

/-- A fiber that is not there is another one. -/
theorem Walker.Active.ne (h : k.Active x ops w) {c : Key .fiber} (hc : w.fibers.get? c = none) : c ≠ k.fiber := by
  rintro rfl
  obtain ⟨token, hget⟩ := h.fiber
  rw [hget] at hc
  cases hc

/-- A fiber that is alone on its clock gets to its next step, if it has to yield before it. -/
theorem Walker.Active.refreshes (hk : k.Sound budget) (hbudget : 0 < budget) (h : k.Active x ops w) (hstays : Stays x)
    {p : Program σ} (hm : x.machine.control = .instruct p)
    (hlater : ∀ t ∈ w.timers.live, w.now.nanos < t.deadline.nanos) :
    ∃ N w' ops', Approaches ⟨w, some (k.fiber, x.machine)⟩ ⟨w', some (k.fiber, x.machine)⟩ N ∧ ops' < budget ∧
      k.Active x ops' w' ∧ k.Lull w w' := by
  by_cases hops : ops < budget
  · exact ⟨0, w, ops, .refl _, hops, h, ⟨fun _ _ => rfl, fun _ => rfl, rfl, rfl, le_refl _, rfl⟩⟩
  obtain ⟨w₁, task, hadvance, hprivate, hawaits⟩ := h.tired hk hstays (Or.inl ⟨p, hm⟩) (Nat.le_of_not_lt hops)
  have htimers : w₁.timers = w.timers := by rw [hprivate.rest]
  set t : Timer (Task σ) := ⟨w₁.timers.now.add 0, w₁.timers.nextId, task⟩ with ht
  have hdue : t.deadline = w.now := by
    show w₁.timers.now.add 0 = w.timers.now
    rw [htimers]
    exact Time.ext (Time.nanos_add_zero _)
  have hlive : (w₁.queue task).timers.live = t :: w.timers.live := by
    show Timers.insert t w₁.timers.live = _
    rw [htimers]
    exact insert_of_first fun u hu => by rw [hdue]; exact hlater u hu
  have hawaits' : k.Awaits x t ((w₁.queue task).withQueue w.timers.live) := (hawaits t rfl).congr rfl rfl
  obtain ⟨w', hbegin, hactive, hprivate'⟩ := hawaits'.begin
  obtain ⟨token₁, r₁, m₁, -, ⟨⟨next₁, hget₁⟩, -⟩, -⟩ := id hawaits'
  have hnow : (w₁.queue task).now = w.now := by
    show w₁.timers.now = w.timers.now
    rw [htimers]
  have htick : Moment.tick ⟨w₁.queue task, none⟩ = ⟨w', some (k.fiber, x.machine)⟩ := by
    simp only [Moment.tick, hlive]
    rw [if_pos (by rw [hdue, hnow]), hbegin]
  have htimers' : w'.timers = ((w₁.queue task).withQueue w.timers.live).timers := by rw [hprivate'.rest]
  have hlull : k.Lull w w' := by
    refine ⟨fun g hg => (hprivate'.fibers g hg).trans (hprivate.fibers g hg), fun s => ?_, by rw [htimers']; rfl, ?_,
      ?_, ?_⟩
    · by_cases hs : s = k.scope
      · rw [hs, hactive.scope, h.scope]
      · exact (hprivate'.scopes s hs).trans (hprivate.scopes s hs)
    · show w'.timers.now = _
      rw [htimers']
      exact hnow
    · rw [htimers']
      show w.timers.nextId ≤ w₁.timers.nextId + 1
      rw [htimers]
      exact Nat.le_succ _
    · rw [hprivate'.rest]
      show { w₁ with fibers := _, scopes := _, timers := _ } = _
      rw [hprivate.rest]
  have hnobody : ∀ c, w.fibers.get? c = none → w₁.fibers.get? c = none := fun c hc =>
    (hprivate.fibers c (h.ne hc)).trans hc
  refine ⟨2, w', 0, (Approaches.step hadvance hnobody).trans
    (.tick htick (fun hrests => ?_) fun c hc => ?_), hbudget, hactive, hlull⟩
  · have := hrests.later t (hlive ▸ List.mem_cons_self)
    rw [hdue, hnow] at this
    exact absurd this (lt_irrefl _)
  · rw [hprivate'.fibers c]
    · exact hc
    · rintro rfl
      exact Option.some_ne_none _ (hget₁.symm.trans hc)

/-! ## The steps before -/

namespace Walker

/-- A fiber that is about to work on `p`, its scope being as it was. -/
def before (k : Walker σ) (p : Program σ) (stack : List (Waiting σ)) : Spot σ :=
  { machine := ⟨.instruct p, stack, false⟩, state := k.nest.state, closed := k.nest.closed }

/-- The fiber under another semaphore. -/
def under (k : Walker σ) (s : Key .semaphore) : Walker σ :=
  { k with birth := { k.birth with semaphores := k.birth.semaphores.push s } }

/-- A fiber in the middle of its turn, with its scope. -/
def ofFiber (f : Key .fiber) (fiber : Fiber σ) (sc : Scope (Finalizer σ)) : Walker σ := ⟨f, fiber.scope, fiber, sc⟩

theorem active_ofFiber {fiber : Fiber σ} {sc : Scope (Finalizer σ)} (hcalm : Calm fiber)
    (hget : w.fibers.get? f = some fiber) (hsc : w.scopes.get? fiber.scope = some sc) (p : Program σ)
    (stack : List (Waiting σ)) :
    (ofFiber f fiber sc).Active ((ofFiber f fiber sc).before p stack) fiber.ops w := by
  refine ⟨⟨fiber.nextToken, hget.trans (congrArg some ?_)⟩, hsc⟩
  show fiber = { fiber with
    phase := .running
    terminating := false }
  rw [← hcalm.running, ← hcalm.terminating]

/-- The record of a fiber at such a spot. -/
theorem Active.calm (hk : k.Sound budget) (hbudget : 0 < budget) {p : Program σ} {stack : List (Waiting σ)}
    (h : k.Active (k.before p stack) ops w) :
    ∃ y, w.fibers.get? k.fiber = some y ∧ Calm y ∧ y.ops = ops ∧ y.scope = k.birth.scope ∧ y.context = k.birth.context ∧
      y.semaphores = k.birth.semaphores := by
  obtain ⟨token, hget⟩ := h.fiber
  exact ⟨_, hget, ⟨⟨hk.budget.symm ▸ hbudget, rfl⟩, rfl, hk.deferred⟩, rfl, rfl, rfl, rfl⟩

/-- The fiber makes the semaphore of the region and enters it. -/
theorem Active.enters_region (hk : k.Sound budget) {p : Program σ} {stack : List (Waiting σ)} {level : Nat}
    (h : k.Active (k.before (.withConcurrency p level) stack) ops w) (hops : ops < budget) {s : Key .semaphore}
    (hs : s = (w.semaphores.add (.withPermits level)).2) :
    ∃ w', w.advance k.fiber (k.before (.withConcurrency p level) stack).machine =
        ⟨w', some (k.fiber, ((k.under s).before p (.restore .semaphore :: stack)).machine)⟩ ∧
      (k.under s).Active ((k.under s).before p (.restore .semaphore :: stack)) (ops + 1) w' ∧
      (∀ g, g ≠ k.fiber → w'.fibers.get? g = w.fibers.get? g) ∧
      w' = { w with
        fibers := w'.fibers
        semaphores := (w.semaphores.add (.withPermits level)).1 } := by
  obtain ⟨y, token, rfl, hget, hbudget, hadvance⟩ := h.advance hk (Or.inr rfl)
  set w₁ : World σ := { w.count k.fiber with semaphores := (w.semaphores.add (.withPermits level)).1 } with hw₁
  have hcount : k.Active (k.before (.withConcurrency p level) stack) (ops + 1) w₁ := h.count.congr rfl rfl
  refine ⟨w₁.modifyFiber k.fiber fun fiber => { fiber with semaphores := fiber.semaphores.push s }, ?_, ⟨?_, h.scope⟩,
    fun g hg => ?_, rfl⟩
  · rw [hadvance, step_instruct (p := .withConcurrency p level) rfl (by rw [hbudget]; exact hops), hs]
    rfl
  · obtain ⟨token', hget'⟩ := hcount.fiber
    refine ⟨token', ?_⟩
    show (w₁.modifyFiber k.fiber _).fibers.get? k.fiber = _
    simp only [modifyFiber, Store.get?_modify, if_pos, hget', Option.map_some]
    rfl
  · exact ((private_modify w₁ _).fibers g hg).trans ((private_modify w _).fibers g hg)

end Walker

end Fibers.Rounds
