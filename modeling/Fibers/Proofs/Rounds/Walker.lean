import Fibers.Proofs.Detour.Departure
import Fibers.Proofs.Sleeping.Asleep

set_option autoImplicit false

/-! # Fibers on a fixed way

A `Walker` is a fiber together with the one scope that it works on. At every `Spot` of its way it is known what
its machine, its masks and the scope are like. Most steps concern the fiber and its scope alone and lead from
one spot to the next, whatever else there is in the world (`Moves`). A walker whose budget is spent yields, and
gets its next turn at the spot where it has yielded (`Walker.tired`, `Walker.begin`).
-/

namespace Fibers.Rounds

open World Direct

variable {σ : Type}

/-- What is fixed of a fiber on its way: its key and the record of its start, and the scope it works on. -/
structure Walker (σ : Type) where
  fiber : Key .fiber
  scope : Key .scope
  birth : Fiber σ
  nest : Scope (Finalizer σ)

/-- What a fiber and its scope are like at a point of the way. -/
structure Spot (σ : Type) where
  machine : Machine σ
  masks : List Bool := []
  terminating : Bool := false
  state : ScopeState (Finalizer σ)
  closed : Cell AnyExit Wake := .fresh
  parent : Bool := true

namespace Walker

variable (k : Walker σ)

/-- The record of the fiber at a spot. -/
def record (x : Spot σ) (ops token : Nat) (phase : Phase σ) : Fiber σ :=
  { k.birth with
    ops
    nextToken := token
    phase
    masks := ⟨k.birth.masks.bottom, x.masks ++ k.birth.masks.pushed⟩
    terminating := x.terminating }

/-- Its scope. -/
def nestAt (x : Spot σ) : Scope (Finalizer σ) :=
  { k.nest with
    state := x.state
    closed := x.closed
    parent := if x.parent then k.nest.parent else none }

/-- The fiber has its turn at a spot, with a number of steps of its budget done. -/
structure Active (x : Spot σ) (ops : Nat) (w : World σ) : Prop where
  fiber : ∃ token, w.fibers.get? k.fiber = some (k.record x ops token .running)
  scope : w.scopes.get? k.scope = some (k.nestAt x)

/-- The fiber is put aside with the machine `m`, and `token` resumes it. -/
structure Parked (x : Spot σ) (token : Nat) (m : Machine σ) (w : World σ) : Prop where
  fiber : ∃ next, w.fibers.get? k.fiber = some (k.record x 0 next (.suspended token m))
  scope : w.scopes.get? k.scope = some (k.nestAt x)

/-- A step from `w` to `w'` concerns the fiber and its scope alone. -/
structure Private (w w' : World σ) : Prop where
  fibers : ∀ g, g ≠ k.fiber → w'.fibers.get? g = w.fibers.get? g
  scopes : ∀ s, s ≠ k.scope → w'.scopes.get? s = w.scopes.get? s
  rest : w' = { w with
    fibers := w'.fibers
    scopes := w'.scopes }

/-- The fiber works within a budget, and no interruption was put off. -/
structure Sound (budget : Nat) : Prop where
  budget : k.birth.context.limits.maxOps = budget
  deferred : k.birth.deferred = []

variable {k} {w w₁ w' : World σ} {x x' : Spot σ} {ops budget token : Nat} {m : Machine σ}

/-! ## Private steps -/

theorem Private.refl (w : World σ) : k.Private w w := ⟨fun _ _ => rfl, fun _ _ => rfl, rfl⟩

theorem Private.trans (h : k.Private w w₁) (h' : k.Private w₁ w') : k.Private w w' := by
  refine ⟨fun g hg => (h'.fibers g hg).trans (h.fibers g hg),
    fun s hs => (h'.scopes s hs).trans (h.scopes s hs), ?_⟩
  rw [h'.rest, h.rest]

/-- A step that changes the record of the fiber alone. -/
theorem private_modify (w : World σ) (g : Fiber σ → Fiber σ) : k.Private w (w.modifyFiber k.fiber g) := by
  refine ⟨fun l hl => ?_, fun _ _ => rfl, rfl⟩
  simp only [modifyFiber, Store.get?_modify, if_neg hl.symm]

/-- A step that puts the fiber into another state. -/
theorem private_setFiber (w : World σ) (y : Fiber σ) :
    k.Private w { w with fibers := w.fibers.set k.fiber y } := by
  refine ⟨fun l hl => ?_, fun _ _ => rfl, rfl⟩
  show (w.fibers.set k.fiber y).get? l = _
  rw [Store.get?_set, if_neg hl.symm]

/-- A step that puts the scope into another state. -/
theorem private_setScope (w : World σ) (sc : Scope (Finalizer σ)) :
    k.Private w { w with scopes := w.scopes.set k.scope sc } := by
  refine ⟨fun _ _ => rfl, fun s hs => ?_, rfl⟩
  show (w.scopes.set k.scope sc).get? s = _
  rw [Store.get?_set, if_neg hs.symm]

/-- A change of the record that leads from one spot to another. -/
theorem Active.modify {ops' : Nat} {g : Fiber σ → Fiber σ} (h : k.Active x ops w)
    (hstate : k.nestAt x' = k.nestAt x)
    (hg : ∀ token, ∃ token', g (k.record x ops token .running) = k.record x' ops' token' .running) :
    k.Active x' ops' (w.modifyFiber k.fiber g) := by
  obtain ⟨token, hget⟩ := h.fiber
  obtain ⟨token', hg'⟩ := hg token
  refine ⟨⟨token', ?_⟩, hstate ▸ h.scope⟩
  simp only [modifyFiber, Store.get?_modify, if_pos, hget, Option.map_some, hg']

theorem Active.count (h : k.Active x ops w) : k.Active x (ops + 1) (w.count k.fiber) :=
  h.modify rfl fun token => ⟨token, rfl⟩

theorem Active.setScope (h : k.Active x ops w)
    (hrecord : ∀ token, k.record x' ops token .running = k.record x ops token .running) :
    k.Active x' ops { w with scopes := w.scopes.set k.scope (k.nestAt x') } := by
  obtain ⟨token, hget⟩ := h.fiber
  exact ⟨⟨token, (hrecord token).symm ▸ hget⟩, Store.get?_set_of_some h.scope⟩

theorem Active.scope_eq (h : k.Active x ops w) : w.scope k.scope = k.nestAt x := by
  rw [World.scope, h.scope, Option.getD_some]

/-- What a walker is like depends on its own record and its scope. -/
theorem Active.congr (h : k.Active x ops w) (hfiber : w'.fibers.get? k.fiber = w.fibers.get? k.fiber)
    (hscope : w'.scopes.get? k.scope = w.scopes.get? k.scope) : k.Active x ops w' :=
  ⟨h.fiber.imp fun _ => hfiber.trans, hscope.trans h.scope⟩

theorem Parked.congr (h : k.Parked x token m w) (hfiber : w'.fibers.get? k.fiber = w.fibers.get? k.fiber)
    (hscope : w'.scopes.get? k.scope = w.scopes.get? k.scope) : k.Parked x token m w' :=
  ⟨h.fiber.imp fun _ => hfiber.trans, hscope.trans h.scope⟩

/-- The machine alone differs between two spots. -/
def Shifts (x x' : Spot σ) : Prop := x' = { x with machine := x'.machine }

theorem Active.shift (h : k.Active x ops w) (hshift : Shifts x x') : k.Active x' ops w := by
  obtain ⟨token, hget⟩ := h.fiber
  obtain ⟨m, masks, terminating, state, closed, parent⟩ := x
  obtain ⟨m', masks', terminating', state', closed', parent'⟩ := x'
  unfold Shifts at hshift
  cases hshift
  exact ⟨⟨token, hget⟩, h.scope⟩

/-! ## Steps of a turn -/

/-- The fiber does not leave its program before it is told to. -/
def Stays (x : Spot σ) : Prop := x.machine.exiting = true ∨ x.terminating = false

/-- A step of the turn. -/
theorem Active.advance (hk : k.Sound budget) (h : k.Active x ops w) (hstays : Stays x) :
    ∃ y token, y = k.record x ops token .running ∧ w.fibers.get? k.fiber = some y ∧
      y.context.limits.maxOps = budget ∧
      w.advance k.fiber x.machine = conclude k.fiber (w.step k.fiber y x.machine) := by
  obtain ⟨token, hget⟩ := h.fiber
  refine ⟨_, token, rfl, hget, hk.budget, advance_of_free hget ?_⟩
  rcases hstays with hexiting | hcalm
  · exact Or.inl hexiting
  · right
    simp [Fiber.mustLeave, record, hcalm]

/-- From the spot `x` a step leads to `x'`; it concerns the walker alone. The step can be taken after `ops`
others if `can ops`. -/
def Moves (k : Walker σ) (can : Nat → Prop) (spent : Nat → Nat) (x x' : Spot σ) : Prop :=
  ∀ (w : World σ) (ops : Nat), k.Active x ops w → can ops →
    ∃ w', w.advance k.fiber x.machine = ⟨w', some (k.fiber, x'.machine)⟩ ∧ k.Active x' (spent ops) w' ∧
      k.Private w w'

/-- A step that counts, whose effect beyond the budget is `w'`. -/
theorem moves_of_instruct {p : Program σ} (hk : k.Sound budget) (hm : x.machine.control = .instruct p)
    (hstays : Stays x)
    (h : ∀ w ops y, k.Active x ops w → y.context = k.birth.context → y.scope = k.birth.scope →
      ∃ w', w.instruct k.fiber y x.machine p = (w', { machine := x'.machine }) ∧ k.Active x' ops w' ∧
        k.Private w w') : Moves k (· < budget) (· + 1) x x' := by
  intro w ops hactive hops
  obtain ⟨y, token, rfl, hget, hbudget, hadvance⟩ := hactive.advance hk hstays
  obtain ⟨w', hinstruct, hactive', hprivate⟩ :=
    h (w.count k.fiber) (ops + 1) (k.record x ops token .running) hactive.count rfl rfl
  refine ⟨w', ?_, hactive', (private_modify w _).trans hprivate⟩
  rw [hadvance, step_instruct hm (by rw [hbudget]; exact hops), hinstruct]
  rfl

theorem moves_of_unwind {e : AnyExit} (hk : k.Sound budget) (hm : x.machine.control = .ofExit e)
    (hstays : Stays x)
    (h : ∀ w ops, k.Active x ops w →
      ∃ w', World.unwind k.fiber x.machine.exiting e x.machine.stack w = (w', { machine := x'.machine }) ∧
        k.Active x' ops w' ∧ k.Private w w') : Moves k (· < budget) (· + 1) x x' := by
  intro w ops hactive hops
  obtain ⟨y, token, rfl, hget, hbudget, hadvance⟩ := hactive.advance hk hstays
  obtain ⟨w', hunwind, hactive', hprivate⟩ := h (w.count k.fiber) (ops + 1) hactive.count
  refine ⟨w', ?_, hactive', (private_modify w _).trans hprivate⟩
  rw [hadvance, step_unwind hm (by rw [hbudget]; exact hops), hunwind]
  rfl

/-- A step that changes the machine alone. -/
theorem moves_instruct {p : Program σ} (hk : k.Sound budget) (hm : x.machine.control = .instruct p)
    (hstays : Stays x) (hshift : Shifts x x')
    (h : ∀ (w : World σ) (y : Fiber σ), y.context = k.birth.context →
      w.instruct k.fiber y x.machine p = (w, { machine := x'.machine })) :
    Moves k (· < budget) (· + 1) x x' :=
  moves_of_instruct hk hm hstays fun w _ y hactive hy _ => ⟨w, h w y hy, hactive.shift hshift, .refl w⟩

theorem moves_unwind {e : AnyExit} (hk : k.Sound budget) (hm : x.machine.control = .ofExit e)
    (hstays : Stays x) (hshift : Shifts x x')
    (h : ∀ w : World σ, World.unwind k.fiber x.machine.exiting e x.machine.stack w =
      (w, { machine := x'.machine })) : Moves k (· < budget) (· + 1) x x' :=
  moves_of_unwind hk hm hstays fun w _ hactive => ⟨w, h w, hactive.shift hshift, .refl w⟩

/-! ## Masks and the scope -/

/-- Lifting the mask of a fiber to which no interruption was put off. -/
theorem restore_of_active (x' : Spot σ) (hk : k.Sound budget) (h : k.Active x ops w) {b : Bool} {rest : List Bool}
    (hmasks : x.masks = b :: rest)
    (hx : x' = { x with
      masks := rest
      machine := x'.machine })
    (hstays : x.terminating = false ∨ rest.head? = some false) :
    w.restore k.fiber .interruptible = (w.modifyFiber k.fiber (·.restore .interruptible), false) ∧
      k.Active x' ops (w.modifyFiber k.fiber (·.restore .interruptible)) := by
  have hactive : k.Active x' ops (w.modifyFiber k.fiber (·.restore .interruptible)) := by
    refine h.modify ?_ fun token => ⟨token, ?_⟩
    · rw [hx]; rfl
    · rw [hx]
      simp only [record, Fiber.restore, Stack.pop, hmasks, List.cons_append, List.tail_cons]
  refine ⟨?_, hactive⟩
  obtain ⟨token, hget⟩ := hactive.fiber
  have hdeferred : (w.modifyFiber k.fiber (·.restore .interruptible)).applyDeferred k.fiber =
      w.modifyFiber k.fiber (·.restore .interruptible) := by
    simp only [applyDeferred, hget, record, hk.deferred, Cause.interrupts?, ite_self]
  have hleave : (w.modifyFiber k.fiber (·.restore .interruptible)).mustLeave k.fiber = false := by
    rw [World.mustLeave, hget, hx]
    rcases hstays with hcalm | hmasked
    · simp [Fiber.mustLeave, record, hcalm]
    · cases rest with
      | nil => cases hmasked
      | cons b' rest =>
          cases hmasked
          simp [Fiber.mustLeave, record, Fiber.interruptible, Stack.top]
  simp only [World.restore, hdeferred, hleave]

/-! ## Between turns -/

/-- What the resumption `r` makes of a machine that was put aside. -/
def resumed (m : Machine σ) : Resume σ → Option (Machine σ)
  | .proceed => some m
  | .program p => some { m with control := .instruct p }
  | .terminate => none

/-- The fiber gets its next turn, at the spot `x`, from the task `t`. -/
def Awaits (k : Walker σ) (x : Spot σ) (t : Timer (Task σ)) (w : World σ) : Prop :=
  ∃ token r m, t.task = .resume k.fiber token r ∧ k.Parked x token m w ∧ resumed m r = some x.machine

theorem Awaits.congr {t : Timer (Task σ)} (h : k.Awaits x t w)
    (hfiber : w'.fibers.get? k.fiber = w.fibers.get? k.fiber)
    (hscope : w'.scopes.get? k.scope = w.scopes.get? k.scope) : k.Awaits x t w' := by
  obtain ⟨token, r, m, htask, hparked, hm⟩ := h
  exact ⟨token, r, m, htask, hparked.congr hfiber hscope, hm⟩

/-- The next turn begins. -/
theorem Awaits.begin {t : Timer (Task σ)} (h : k.Awaits x t w) :
    ∃ w', World.begin w t.task = ⟨w', some (k.fiber, x.machine)⟩ ∧ k.Active x 0 w' ∧ k.Private w w' := by
  obtain ⟨token, r, m, htask, ⟨⟨next, hget⟩, hscope⟩, hm⟩ := h
  refine ⟨w.modifyFiber k.fiber fun fiber => { fiber with phase := .running }, ?_, ⟨⟨next, ?_⟩, hscope⟩,
    private_modify w _⟩
  · rw [htask]
    cases r with
    | proceed =>
        cases hm
        simp only [World.begin, awaken, hget, record, ne_eq, not_true_eq_false, if_false]
    | program p =>
        simp only [resumed, Option.some.injEq] at hm
        simp only [World.begin, awaken, hget, record, ne_eq, not_true_eq_false, if_false, hm]
    | terminate => cases hm
  · simp only [modifyFiber, Store.get?_modify, if_pos, hget, Option.map_some]
    rfl

/-- Putting aside a fiber whose scope has not begun to close, or that is exiting. -/
theorem park_of_stays {y : Fiber σ} (h : m.exiting = true ∨ y.terminating = false) :
    w.park k.fiber y m = ({ w with fibers := w.fibers.set k.fiber (y.park m).1 }, y.nextToken) := by
  simp only [World.park, Fiber.park, ite_eq_right_iff]
  intro hterminating
  rcases h with h | h <;> simp [h] at hterminating

/-- A fiber whose budget is spent yields. -/
theorem Active.tired (hk : k.Sound budget) (h : k.Active x ops w) (hstays : Stays x)
    (hwork : (∃ p, x.machine.control = .instruct p) ∨ ∃ e, x.machine.control = .ofExit e) (hops : budget ≤ ops) :
    ∃ w₁ task, w.advance k.fiber x.machine = ⟨w₁.queue task, none⟩ ∧ k.Private w w₁ ∧
      ∀ t : Timer (Task σ), t.task = task → k.Awaits x t (w₁.queue task) := by
  obtain ⟨y, token, rfl, hget, hbudget, hadvance⟩ := h.advance hk hstays
  set w₁ : World σ := w.modifyFiber k.fiber fun fiber => { fiber with ops := 0 } with hw₁
  have hget₁ : w₁.fibers.get? k.fiber = some (k.record x 0 token .running) := by
    simp only [hw₁, modifyFiber, Store.get?_modify, hget, if_pos, Option.map_some]
    rfl
  set w₂ : World σ :=
    { w₁ with fibers := w₁.fibers.set k.fiber (k.record x 0 (token + 1) (.suspended token x.machine)) } with hw₂
  refine ⟨w₂, .resume k.fiber token .proceed, ?_, (private_modify w _).trans (private_setFiber w₁ _),
    fun t ht => ⟨token, .proceed, x.machine, ht, ⟨⟨token + 1, Store.get?_set_of_some hget₁⟩, h.scope⟩, rfl⟩⟩
  rw [hadvance, step_tired hwork (by rw [hbudget]; exact hops)]
  simp only [conclude]
  rw [hget₁]
  dsimp only
  rw [park_of_stays (by exact hstays)]
  rfl

/-! ## Waiting -/

/-- A fiber that comes to wait for what has not happened is put aside. -/
theorem Active.await (h : k.Active x ops w) {a : Awaited} (hnone : w.settledProgram? a = none)
    (hstays : m.exiting = true ∨ x.terminating = false) (release : Option Handle) :
    ∃ w₁ token, conclude k.fiber (w, ⟨m, .await a release⟩) = ⟨w₁.subscribe ⟨k.fiber, token⟩ a, none⟩ ∧
      k.Private w w₁ ∧ k.Parked x token (m.holding release) w₁ := by
  obtain ⟨token, hget⟩ := h.fiber
  set parked : Fiber σ := k.record x 0 (token + 1) (.suspended token (m.holding release)) with hparked
  refine ⟨{ w with fibers := w.fibers.set k.fiber parked }, token, ?_, private_setFiber w _,
    ⟨⟨token + 1, Store.get?_set_of_some hget⟩, h.scope⟩⟩
  rw [conclude_await hget hnone, park_of_stays]
  · rfl
  · cases release <;> exact hstays

/-- A fiber does not wait for what has happened. -/
theorem Active.await_settled (h : k.Active x ops w) {a : Awaited} {p : Program σ}
    (hsome : w.settledProgram? a = some p) (hstays : m.exiting = true ∨ x.terminating = false)
    (release : Option Handle) :
    ∃ w', conclude k.fiber (w, ⟨m, .await a release⟩) =
        ⟨w', some (k.fiber, { m.holding release with control := .instruct p })⟩ ∧
      k.Active x 0 w' ∧ k.Private w w' := by
  obtain ⟨token, hget⟩ := h.fiber
  set parked : Fiber σ := k.record x 0 (token + 1) (.suspended token (m.holding release)) with hparked
  set w₁ : World σ := { w with fibers := w.fibers.set k.fiber parked } with hw₁
  have hpark : w.park k.fiber { k.record x ops token .running with ops := 0 } (m.holding release) = (w₁, token) := by
    rw [park_of_stays]
    · rfl
    · cases release <;> exact hstays
  have hstill : w₁.settledProgram? a = some p := by
    have := settledProgram?_park (z := { k.record x ops token .running with ops := 0 }) hget rfl (m.holding release) a
    rw [hpark, hsome] at this
    exact this
  refine ⟨w₁.modifyFiber k.fiber fun fiber => { fiber with phase := .running }, ?_, ⟨⟨token + 1, ?_⟩, h.scope⟩,
    (private_setFiber w _).trans (private_modify w₁ _)⟩
  · simp only [conclude, hget]
    rw [hpark]
    dsimp only
    rw [hstill]
  · simp only [modifyFiber, Store.get?_modify, if_pos, hw₁, Store.get?_set_of_some hget, Option.map_some]
    rfl

end Walker

end Fibers.Rounds
