import Fibers.Proofs.Direct.Course

set_option autoImplicit false

/-! # The machine follows direct evaluation

A machine works on one control and a stack of frames. `runs_of_evaluates` says that working on a
program comes to the same as having its exit unwind the stack: the fiber stands where it stood,
its scope holds the finalizers it held, and only the program's part of the board has moved on.
The statement is about every stack, so the induction is on the evaluation alone.
-/

namespace Fibers.Direct

open World

variable {σ S : Type} {f : Key .fiber} {view : σ → S} {exit : AnyExit}
  {P : ScopeState (Finalizer σ) → Option (Settled AnyExit) → Prop} {s s' : S}

/-! ## Unwinding -/

/-- Unwinds a stack with an exit. -/
def unwind (f : Key .fiber) (exiting : Bool) (e : AnyExit) (stack : List (Waiting σ))
    (w : World σ) : World σ × Stepped σ :=
  match e with
  | .success v => unwindValue f exiting v stack w
  | .failure c => unwindFailure f exiting c stack w

/-- Unwinding the stack with `e`, in the middle of a step, the fiber will be done with `exit`. -/
def Unwinds (f : Key .fiber) (view : σ → S) (exit : AnyExit) (exiting : Bool) (e : AnyExit)
    (stack : List (Waiting σ)) (w : World σ) : Prop :=
  ∃ w' m', unwind f exiting e stack w = (w', { machine := m' }) ∧ Runs f view exit m' w'

/-- A fiber that can take the steps of a program one after the other. -/
structure Steady (fiber : Fiber σ) : Prop where
  budget : 0 < fiber.context.limits.maxOps
  running : fiber.phase = .running

theorem step_of_unspent {w : World σ} {actual : Fiber σ} {m : Machine σ}
    (hops : actual.ops < actual.context.limits.maxOps) :
    (∀ p, m.control = .instruct p → w.step f actual m = (counted w f).instruct f actual m p) ∧
      ∀ e, m.control = .ofExit e →
        w.step f actual m = unwind f m.exiting e m.stack (counted w f) := by
  have hlt : ¬ actual.context.limits.maxOps ≤ actual.ops := by omega
  refine ⟨fun p hp => ?_, fun e he => ?_⟩
  · unfold World.step
    rw [hp]
    simp only [if_neg hlt, counted]
  · unfold World.step
    cases e with
    | success v => rw [he]; simp only [Control.ofExit, if_neg hlt, counted, unwind]
    | failure c => rw [he]; simp only [Control.ofExit, if_neg hlt, counted, unwind]

theorem Varies.context {fiber actual : Fiber σ} (h : Varies fiber actual) :
    actual.context = fiber.context := by
  obtain ⟨ops, token, cell, -, rfl⟩ := h
  rfl

theorem runs_of_instruct {w : World σ} {fiber : Fiber σ} {m : Machine σ} {p : Program σ}
    (hsteady : Steady fiber) (hstays : Stays m fiber) (hm : m.control = .instruct p)
    (h : Stands f view w fiber P s)
    (k : ∀ w' actual, Stands f view w' fiber P s → Varies fiber actual →
      ∃ w'' m', w'.instruct f actual m p = (w'', { machine := m' }) ∧ Runs f view exit m' w'') :
    Runs f view exit m w := by
  refine runs_of_unspent hsteady.budget hsteady.running hstays (by simp [hm]) h ?_
  intro w' actual hstands hget hvaries hops
  obtain ⟨w'', m', hinstruct, hruns⟩ := k (counted w' f) actual hstands.counted hvaries
  refine runs_of_step hget hvaries hstays ?_ hruns
  rw [(step_of_unspent (by rw [hvaries.context]; exact hops)).1 p hm, hinstruct]

theorem runs_of_unwinds {w : World σ} {fiber : Fiber σ} {m : Machine σ} {e : AnyExit}
    (hsteady : Steady fiber) (hstays : Stays m fiber) (hm : m.control = .ofExit e)
    (h : Stands f view w fiber P s)
    (k : ∀ w', Stands f view w' fiber P s → Unwinds f view exit m.exiting e m.stack w') :
    Runs f view exit m w := by
  refine runs_of_unspent hsteady.budget hsteady.running hstays ?_ h ?_
  · cases e <;> simp [hm, Control.ofExit]
  · intro w' actual hstands hget hvaries hops
    obtain ⟨w'', m', hunwind, hruns⟩ := k (counted w' f) hstands.counted
    refine runs_of_step hget hvaries hstays ?_ hruns
    rw [(step_of_unspent (by rw [hvaries.context]; exact hops)).2 e hm, hunwind]

/-! ## Calls of the machine -/

theorem traceOf_eq {w : World σ} {fiber : Fiber σ} (h : Stands f view w fiber P s) :
    w.traceOf f = ⟨newest fiber.context.limits.maxTrace fiber.frames⟩ := by
  obtain ⟨⟨actual, hget, ops, token, cell, -, rfl⟩, -, -⟩ := h
  simp only [World.traceOf, hget, Option.map_some, Option.getD_some, Fiber.trace, Trace.ofFrames_eq]
  rfl

theorem Calls.stands {α : Type} {w : World σ} {fiber : Fiber σ} {r : Except Defect α}
    {call : World σ → World σ × Except Defect α} (hcall : Calls f view call s r s')
    (h : Stands f view w fiber P s) :
    ∃ w', call w = (w', r) ∧ Stands f view w' fiber P s' := by
  obtain ⟨w', heq, hview, halone⟩ := hcall w h.board
  refine ⟨w', heq, ?_⟩
  obtain ⟨actual, hget, -⟩ := h.actual
  -- the board is not what it was, so it is left out of the comparison
  have hblind : Stands f (fun _ : σ => ()) w fiber P () := ⟨h.actual, h.scope, rfl⟩
  obtain ⟨h', -⟩ := hblind.leftAlone hget halone rfl
  exact ⟨h'.actual, h'.scope, hview⟩

/-- The rest of a program, given by a call: if the program it gives runs to the end, then so does
the machine that makes the call. -/
theorem runs_of_gives {fiber : Fiber σ} {m : Machine σ} {q : Program σ}
    {call : World σ → World σ × Except Defect (Program σ)} {env : Services} {e : AnyExit}
    {s₁ : S} (hsteady : Steady fiber) (hstays : Stays m fiber)
    (hgives : Gives f view fiber.context.limits.maxTrace fiber.frames call s q s₁)
    (heval : Evaluates f view fiber.context.limits.maxTrace q env fiber.frames s₁ e s')
    (run : ∀ w, Stands f view w fiber P s₁ → Runs f view exit { m with control := .instruct q } w)
    (k : ∀ w, Stands f view w fiber P s' → Unwinds f view exit m.exiting e m.stack w)
    {w : World σ} (h : Stands f view w fiber P s) :
    ∃ w' m', enter f m (call w) = (w', { machine := m' }) ∧ Runs f view exit m' w' := by
  rcases hgives with hok | ⟨d, herror, rfl⟩
  · obtain ⟨w', heq, hstands⟩ := hok.stands h
    refine ⟨w', { m with control := .instruct q }, ?_, run w' hstands⟩
    rw [heq]; rfl
  · obtain ⟨w', heq, hstands⟩ := herror.stands h
    cases heval
    refine ⟨w', { m with
      control := .failure (thrown fiber.context.limits.maxTrace fiber.frames d) }, ?_, ?_⟩
    · rw [heq]
      simp only [enter, traceOf_eq hstands, thrown]
    · exact runs_of_unwinds hsteady hstays rfl hstands k

/-! ## The scope and the stacks of the fiber -/

/-- The scope is open with the finalizers `fs`. -/
def Holds (fs : List (Nat × Finalizer σ)) (state : ScopeState (Finalizer σ))
    (closed : Option (Settled AnyExit)) : Prop :=
  (∃ hooks next, state = .opened fs hooks next ∧ ∀ x ∈ fs, x.1 < next) ∧ closed = none

theorem Stands.setScope {w : World σ} {fiber : Fiber σ}
    {Q : ScopeState (Finalizer σ) → Option (Settled AnyExit) → Prop}
    (h : Stands f view w fiber P s) (sc' : Scope (Finalizer σ)) (hQ : Q sc'.state sc'.closed.outcome?) :
    Stands f view { w with scopes := w.scopes.set fiber.scope sc' } fiber Q s := by
  obtain ⟨hactual, ⟨sc, hsc, -⟩, hb⟩ := h
  refine ⟨hactual, ⟨sc', ?_, hQ⟩, hb⟩
  show (w.scopes.set fiber.scope sc').get? fiber.scope = some sc'
  rw [Store.get?_set_of_some hsc]

theorem register_of_holds {w : World σ} {fiber : Fiber σ} {fs : List (Nat × Finalizer σ)}
    (fin : Finalizer σ) (h : Stands f view w fiber (Holds fs) s) :
    ∃ w' key, w.register fiber.scope fin = (w', some ⟨fiber.scope, key⟩) ∧
      (∀ x ∈ fs, x.1 < key) ∧ Stands f view w' fiber (Holds (fs ++ [(key, fin)])) s := by
  obtain ⟨sc, hsc, ⟨hooks, next, hstate, hkeys⟩, hclosed⟩ := h.scope
  have hget : w.scope fiber.scope = sc := by simp only [World.scope, hsc, Option.getD_some]
  refine ⟨_, next, ?_, hkeys,
    h.setScope { sc with state := .opened (fs ++ [(next, fin)]) hooks (next + 1) }
      ⟨⟨hooks, next + 1, rfl, ?_⟩, hclosed⟩⟩
  · simp only [World.register, hget, Scope.register?, hstate]
  · intro x hx
    rcases List.mem_append.mp hx with hx | hx
    · exact Nat.lt_succ_of_lt (hkeys x hx)
    · rw [List.mem_singleton.mp hx]; exact Nat.lt_succ_self next

theorem cancelFinalizer_of_holds {w : World σ} {fiber : Fiber σ} {fs : List (Nat × Finalizer σ)}
    {fin : Finalizer σ} {key : Nat} (hkeys : ∀ x ∈ fs, x.1 < key)
    (h : Stands f view w fiber (Holds (fs ++ [(key, fin)])) s) :
    ∃ w', w.cancelFinalizer ⟨fiber.scope, key⟩ = (w', true) ∧
      Stands f view w' fiber (Holds fs) s := by
  obtain ⟨sc, hsc, ⟨hooks, next, hstate, hnext⟩, hclosed⟩ := h.scope
  have hget : w.scope fiber.scope = sc := by simp only [World.scope, hsc, Option.getD_some]
  have hne : ∀ x ∈ fs, (x.1 == key) = false := by
    intro x hx
    have := hkeys x hx
    simp only [beq_eq_false_iff_ne]; omega
  have hfind : (fs ++ [(key, fin)]).find? (·.1 == key) = some (key, fin) := by
    rw [List.find?_append, List.find?_eq_none.mpr (by simpa using hne)]
    simp
  have hfilter : (fs ++ [(key, fin)]).filter (·.1 != key) = fs := by
    rw [List.filter_append, List.filter_eq_self.mpr (by simpa [bne] using hne)]
    simp
  refine ⟨_, ?_, h.setScope { sc with state := .opened fs hooks next }
    ⟨⟨hooks, next, rfl, fun x hx => hnext x (List.mem_append_left _ hx)⟩, hclosed⟩⟩
  simp only [World.cancelFinalizer, World.takeFinalizer, hget, Scope.take?, hstate, hfind,
    Option.map_some, hfilter, Option.isSome_some]

/-- A fiber that nobody has interrupted and whose scope nobody has closed. -/
structure Calm (fiber : Fiber σ) : Prop extends Steady fiber where
  terminating : fiber.terminating = false
  deferred : fiber.deferred = []

theorem Varies.restore {fiber actual : Fiber σ} (h : Varies fiber actual) (r : Restore) :
    Varies (fiber.restore r) (actual.restore r) := by
  obtain ⟨ops, token, cell, hcell, rfl⟩ := h
  cases r <;> exact ⟨ops, token, cell, hcell, rfl⟩

/-- No interruption was put off. -/
theorem applyDeferred_of_calm {w : World σ} {fiber : Fiber σ} (hcalm : Calm fiber)
    (h : Stands f view w fiber P s) : w.applyDeferred f = w := by
  obtain ⟨actual, hget, ops, token, cell, -, rfl⟩ := h.actual
  simp only [applyDeferred, hget, hcalm.deferred, Cause.interrupts?, ite_self]

theorem Calm.restore {fiber : Fiber σ} (h : Calm fiber) (r : Restore) : Calm (fiber.restore r) := by
  cases r <;> exact ⟨⟨h.budget, h.running⟩, h.terminating, h.deferred⟩

/-- Popping a stack of a calm fiber does nothing else. -/
theorem restore_of_calm {w : World σ} {fiber : Fiber σ} {r : Restore} (hcalm : Calm fiber)
    (h : Stands f view w fiber P s) :
    w.restore f r = (w.modifyFiber f (·.restore r), false) ∧
      Stands f view (w.modifyFiber f (·.restore r)) (fiber.restore r) P s := by
  have hstands : Stands f view (w.modifyFiber f (·.restore r)) (fiber.restore r) P s :=
    h.modify (by cases r <;> rfl) fun actual hvaries => hvaries.restore r
  refine ⟨?_, hstands⟩
  have hcalm' : Calm (fiber.restore r) := hcalm.restore r
  cases r with
  | interruptible =>
      obtain ⟨actual, hget, ops, token, cell, -, rfl⟩ := hstands.actual
      simp only [World.restore, applyDeferred_of_calm hcalm' hstands, World.mustLeave, hget,
        Option.map_some, Option.getD_some, Fiber.mustLeave, hcalm'.terminating, Bool.false_and]
  | semaphore => rfl
  | services => rfl
  | label => rfl

/-- A region that pushed a stack: unwinding past its frame is unwinding the rest. -/
theorem unwinds_restore {w : World σ} {fiber fiber' : Fiber σ} {r : Restore} {e : AnyExit}
    {stack : List (Waiting σ)} (hcalm : Calm fiber') (hback : fiber'.restore r = fiber)
    (h : Stands f view w fiber' P s)
    (k : ∀ w', Stands f view w' fiber P s → Unwinds f view exit false e stack w') :
    Unwinds f view exit false e (.restore r :: stack) w := by
  obtain ⟨hrestore, hstands⟩ := restore_of_calm (r := r) hcalm h
  rw [hback] at hstands
  obtain ⟨w', m', hunwind, hruns⟩ := k _ hstands
  refine ⟨w', m', ?_, hruns⟩
  rw [← hunwind]
  cases e with
  | success v => simp only [unwind, unwindValue, hrestore]
  | failure c => simp only [unwind, unwindFailure, hrestore]

/-! ## One instruction -/

/-- Working on `p` comes to the same as unwinding the stack with `e`, whatever the stack. -/
def Follows (f : Key .fiber) (view : σ → S) (exit : AnyExit) (p : Program σ) (e : AnyExit)
    (fiber : Fiber σ) (P : ScopeState (Finalizer σ) → Option (Settled AnyExit) → Prop)
    (s s' : S) : Prop :=
  ∀ (stack : List (Waiting σ)) (w : World σ), Stands f view w fiber P s →
    (∀ w', Stands f view w' fiber P s' → Unwinds f view exit false e stack w') →
    Runs f view exit { control := .instruct p, stack } w

variable {P' : ScopeState (Finalizer σ) → Option (Settled AnyExit) → Prop} {s₁ : S}
  {fiber fiber' : Fiber σ} {p q inner : Program σ} {e e₁ : AnyExit}

/-- An instruction that ends at once. -/
theorem follows_leaf (hcalm : Calm fiber)
    (h : ∀ w actual m, Stands f view w fiber P s → Varies fiber actual →
      ∃ w', w.instruct f actual m p = (w', { machine := { m with control := .ofExit e } }) ∧
        Stands f view w' fiber P s') :
    Follows f view exit p e fiber P s s' := by
  intro stack w hstands k
  refine runs_of_instruct hcalm.toSteady (Or.inr hcalm.terminating) rfl hstands ?_
  intro w₁ actual h₁ hvaries
  obtain ⟨w₂, hinstruct, h₂⟩ := h w₁ actual { control := .instruct p, stack } h₁ hvaries
  exact ⟨w₂, _, hinstruct,
    runs_of_unwinds hcalm.toSteady (Or.inr hcalm.terminating) rfl h₂ k⟩

/-- An instruction that goes on with what a call gives. -/
theorem follows_call {call : World σ → World σ × Except Defect (Program σ)} {env : Services}
    (hcalm : Calm fiber)
    (h : ∀ w actual m, Varies fiber actual → w.instruct f actual m p = enter f m (call w))
    (hgives : Gives f view fiber.context.limits.maxTrace fiber.frames call s q s₁)
    (heval : Evaluates f view fiber.context.limits.maxTrace q env fiber.frames s₁ e s')
    (ih : Follows f view exit q e fiber P s₁ s') : Follows f view exit p e fiber P s s' := by
  intro stack w hstands k
  refine runs_of_instruct hcalm.toSteady (Or.inr hcalm.terminating) rfl hstands ?_
  intro w₁ actual h₁ hvaries
  rw [h w₁ actual _ hvaries]
  exact runs_of_gives hcalm.toSteady (Or.inr hcalm.terminating) hgives heval
    (fun w₂ h₂ => ih stack w₂ h₂ k) k h₁

/-- An instruction that puts a frame on the stack and works on a program inside it. -/
theorem follows_inner (hcalm : Calm fiber)
    (h : ∀ stack w actual, Stands f view w fiber P s → Varies fiber actual →
      (∀ w', Stands f view w' fiber P s' → Unwinds f view exit false e stack w') →
      ∃ w' frame,
        w.instruct f actual { control := .instruct p, stack } p =
          (w', { machine := { control := .instruct inner, stack := frame :: stack } }) ∧
        Stands f view w' fiber' P' s ∧
        ∀ w'', Stands f view w'' fiber' P' s₁ →
          Unwinds f view exit false e₁ (frame :: stack) w'')
    (ih : Follows f view exit inner e₁ fiber' P' s s₁) : Follows f view exit p e fiber P s s' := by
  intro stack w hstands k
  refine runs_of_instruct hcalm.toSteady (Or.inr hcalm.terminating) rfl hstands ?_
  intro w₁ actual h₁ hvaries
  obtain ⟨w₂, frame, hinstruct, h₂, hframe⟩ := h stack w₁ actual h₁ hvaries k
  exact ⟨w₂, _, hinstruct, ih (frame :: stack) w₂ h₂ hframe⟩

/-- A region: an instruction that pushes one of the stacks of the fiber for the time of `inner`. -/
theorem follows_region (r : Restore) (hcalm : Calm fiber) (hcalm' : Calm fiber')
    (hback : fiber'.restore r = fiber)
    (h : ∀ stack w actual, Stands f view w fiber P s → Varies fiber actual →
      ∃ w', w.instruct f actual { control := .instruct p, stack } p =
          (w', { machine := { control := .instruct inner, stack := .restore r :: stack } }) ∧
        Stands f view w' fiber' P s)
    (ih : Follows f view exit inner e fiber' P s s') : Follows f view exit p e fiber P s s' := by
  refine follows_inner hcalm (fun stack w actual hstands hvaries k => ?_) ih
  obtain ⟨w', hinstruct, h'⟩ := h stack w actual hstands hvaries
  exact ⟨w', _, hinstruct, h', fun w'' h'' => unwinds_restore hcalm' hback h'' k⟩

/-- Running the finalizer of a frame: it is taken out of the scope, and its program is worked on
with interruption put off. -/
theorem unwinds_finalizer {fs : List (Nat × Finalizer σ)} {fin : Finalizer σ} {key : Nat}
    {env : Services} {outcome : AnyExit} {s₂ : S} {stack : List (Waiting σ)} {w : World σ}
    (hcalm : Calm fiber) (hkeys : ∀ x ∈ fs, x.1 < key)
    (h : Stands f view w fiber (Holds (fs ++ [(key, fin)])) s)
    (hgives : Gives f view fiber.context.limits.maxTrace fiber.frames
      (fun w => w.finalizeWith fin e) s q s₂)
    (heval : Evaluates f view fiber.context.limits.maxTrace q env fiber.frames s₂ outcome s')
    (ih : Follows f view exit q outcome { fiber with masks := fiber.masks.push false } (Holds fs)
      s₂ s')
    (k : ∀ w', Stands f view w' fiber (Holds fs) s' →
      Unwinds f view exit false (World.combine e outcome) stack w') :
    Unwinds f view exit false e (.finalizer (some ⟨fiber.scope, key⟩) fin :: stack) w := by
  obtain ⟨w₁, hcancel, h₁⟩ := cancelFinalizer_of_holds hkeys h
  set masked : Fiber σ := { fiber with masks := fiber.masks.push false } with hmasked
  have hcalm' : Calm masked := ⟨⟨hcalm.budget, hcalm.running⟩, hcalm.terminating, hcalm.deferred⟩
  set w₂ := w₁.modifyFiber f fun fiber => { fiber with masks := fiber.masks.push false } with hw₂
  have h₂ : Stands f view w₂ masked (Holds fs) s := by
    refine h₁.modify rfl ?_
    rintro _ ⟨ops, token, cell, hcell, rfl⟩
    exact ⟨ops, token, cell, hcell, rfl⟩
  set m : Machine σ :=
    { control := .ofExit e, stack := .restore .interruptible :: .resumeWith e :: stack } with hm
  have hresume : ∀ w', Stands f view w' masked (Holds fs) s' →
      Unwinds f view exit false outcome m.stack w' := by
    intro w' h'
    refine unwinds_restore hcalm' rfl h' fun w₃ h₃ => ?_
    refine ⟨w₃, { control := .ofExit (World.combine e outcome), stack }, ?_,
      runs_of_unwinds hcalm.toSteady (Or.inr hcalm.terminating) rfl h₃ k⟩
    cases outcome <;> cases e <;> rfl
  have hstays : Stays m masked := Or.inr hcalm'.terminating
  obtain ⟨w₃, m₃, henter, hruns⟩ := runs_of_gives hcalm'.toSteady hstays hgives heval
    (fun w' h' => ih m.stack w' h' hresume) hresume h₂
  refine ⟨w₃, m₃, ?_, hruns⟩
  cases e with
  | success v =>
      simp only [unwind, unwindValue, claimFinalizer, hcancel, enterFinalizer]
      exact henter
  | failure c =>
      simp only [unwind, unwindFailure, claimFinalizer, hcancel, enterFinalizer]
      exact henter

/-! ## The simulation -/

/-- A machine that works on `p` runs to the end if unwinding its stack with the exit of `p`
does. -/
theorem follows_of_evaluates {max : Nat} {p : Program σ} {env : Services} {frames : List Frame}
    {e : AnyExit} (h : Evaluates f view max p env frames s e s') :
    ∀ (fiber : Fiber σ) (fs : List (Nat × Finalizer σ)), Calm fiber →
      fiber.context.limits.maxTrace = max → fiber.services.top = env → fiber.frames = frames →
      Follows f view exit p e fiber (Holds fs) s s' := by
  induction h with
  | succeed =>
      intro fiber fs hcalm _ _ _
      exact follows_leaf hcalm fun w actual m hstands _ => ⟨w, rfl, hstands⟩
  | failCause =>
      intro fiber fs hcalm _ _ _
      exact follows_leaf hcalm fun w actual m hstands _ => ⟨w, rfl, hstands⟩
  | lazy hcall =>
      intro fiber fs hcalm _ _ _
      refine follows_leaf hcalm fun w actual m hstands _ => ?_
      obtain ⟨w', hrun, hstands'⟩ := hcall.stands hstands
      refine ⟨w', ?_, hstands'⟩
      simp only [instruct, hrun]
  | lazyThrows hcall =>
      intro fiber fs hcalm hmax _ hframes
      refine follows_leaf hcalm fun w actual m hstands _ => ?_
      obtain ⟨w', hrun, hstands'⟩ := hcall.stands hstands
      refine ⟨w', ?_, hstands'⟩
      simp only [instruct, hrun, enter, traceOf_eq hstands', hmax, hframes, thrown]
      rfl
  | defer hgives heval ih =>
      intro fiber fs hcalm hmax henv hframes
      subst hmax hframes
      exact follows_call hcalm (fun _ _ _ _ => rfl) hgives heval
        (ih fiber fs hcalm rfl henv rfl)
  | duty hgives heval ih =>
      intro fiber fs hcalm hmax henv hframes
      subst hmax hframes
      exact follows_call hcalm (fun _ _ _ _ => rfl) hgives heval
        (ih fiber fs hcalm rfl henv rfl)
  | access hgives heval ih =>
      intro fiber fs hcalm hmax henv hframes
      subst hmax hframes henv
      refine follows_call hcalm ?_ hgives heval (ih fiber fs hcalm rfl rfl rfl)
      rintro w _ m ⟨ops, token, cell, -, rfl⟩
      rfl
  | flatMap _ hgives heval ihInner ih =>
      intro fiber fs hcalm hmax henv hframes
      subst hmax hframes
      refine follows_inner hcalm (fun stack w actual hstands _ k => ?_)
        (ihInner fiber fs hcalm rfl henv rfl)
      refine ⟨w, _, rfl, hstands, fun w' h' => ?_⟩
      exact runs_of_gives hcalm.toSteady (Or.inr hcalm.terminating) hgives heval
        (fun w'' h'' => ih fiber fs hcalm rfl henv rfl stack w'' h'' k) k h'
  | flatMapFails _ ih =>
      intro fiber fs hcalm hmax henv hframes
      exact follows_inner hcalm (fun stack w actual hstands _ k => ⟨w, _, rfl, hstands, k⟩)
        (ih fiber fs hcalm hmax henv hframes)
  | fold _ hgives heval ihInner ih =>
      intro fiber fs hcalm hmax henv hframes
      subst hmax hframes
      refine follows_inner hcalm (fun stack w actual hstands _ k => ?_)
        (ihInner fiber fs hcalm rfl henv rfl)
      refine ⟨w, _, rfl, hstands, fun w' h' => ?_⟩
      exact runs_of_gives hcalm.toSteady (Or.inr hcalm.terminating) hgives heval
        (fun w'' h'' => ih fiber fs hcalm rfl henv rfl stack w'' h'' k) k h'
  | foldRecovers _ hgives heval ihInner ih =>
      intro fiber fs hcalm hmax henv hframes
      subst hmax hframes
      refine follows_inner hcalm (fun stack w actual hstands _ k => ?_)
        (ihInner fiber fs hcalm rfl henv rfl)
      refine ⟨w, _, rfl, hstands, fun w' h' => ?_⟩
      exact runs_of_gives hcalm.toSteady (Or.inr hcalm.terminating) hgives heval
        (fun w'' h'' => ih fiber fs hcalm rfl henv rfl stack w'' h'' k) k h'
  | @provide p env inner frames s s' e _ ih =>
      intro fiber fs hcalm hmax henv hframes
      subst hmax hframes henv
      have hcalm' : Calm { fiber with
          services := fiber.services.push (fiber.services.top.union inner) } :=
        ⟨⟨hcalm.budget, hcalm.running⟩, hcalm.terminating, hcalm.deferred⟩
      refine follows_region .services hcalm hcalm' rfl (fun stack w actual hstands hvaries => ?_)
        (ih _ fs hcalm' rfl rfl rfl)
      refine ⟨_, rfl, hstands.modify rfl ?_⟩
      rintro _ ⟨ops, token, cell, hcell, rfl⟩
      exact ⟨ops, token, cell, hcell, rfl⟩
  | @addFrame p env frames frame s s' e _ ih =>
      intro fiber fs hcalm hmax henv hframes
      subst hmax hframes henv
      have hcalm' : Calm { fiber with labels := frame :: fiber.labels } :=
        ⟨⟨hcalm.budget, hcalm.running⟩, hcalm.terminating, hcalm.deferred⟩
      refine follows_region .label hcalm hcalm' rfl (fun stack w actual hstands hvaries => ?_)
        (ih _ fs hcalm' rfl rfl ?_)
      · refine ⟨_, rfl, hstands.modify rfl ?_⟩
        rintro _ ⟨ops, token, cell, hcell, rfl⟩
        exact ⟨ops, token, cell, hcell, rfl⟩
      · simp only [Fiber.frames, List.reverse_cons, List.append_assoc]
  | @mask p interruptible env frames s s' e _ ih =>
      intro fiber fs hcalm hmax henv hframes
      subst hmax hframes henv
      have hcalm' : Calm { fiber with masks := fiber.masks.push interruptible } :=
        ⟨⟨hcalm.budget, hcalm.running⟩, hcalm.terminating, hcalm.deferred⟩
      refine follows_region .interruptible hcalm hcalm' rfl (fun stack w actual hstands hvaries => ?_)
        (ih _ fs hcalm' rfl rfl rfl)
      have hpushed : Stands f view (w.modifyFiber f fun fiber =>
          { fiber with masks := fiber.masks.push interruptible })
          { fiber with masks := fiber.masks.push interruptible } (Holds fs) s := by
        refine hstands.modify rfl ?_
        rintro _ ⟨ops, token, cell, hcell, rfl⟩
        exact ⟨ops, token, cell, hcell, rfl⟩
      refine ⟨_, ?_, hpushed⟩
      simp only [instruct, applyDeferred_of_calm hcalm' hpushed, ite_self]
  | @withConcurrency p level env frames s s' e _ ih =>
      intro fiber fs hcalm hmax henv hframes stack w hstands k
      subst hmax hframes henv
      refine runs_of_instruct hcalm.toSteady (Or.inr hcalm.terminating) rfl hstands ?_
      intro w₁ actual h₁ _
      -- the name of the new semaphore depends on the world, so the region is taken at `w₁`
      have hcalm' : Calm { fiber with
          semaphores := fiber.semaphores.push (w₁.newSemaphore level).2 } :=
        ⟨⟨hcalm.budget, hcalm.running⟩, hcalm.terminating, hcalm.deferred⟩
      have h₂ : Stands f view (w₁.newSemaphore level).1 fiber (Holds fs) s :=
        ⟨h₁.actual, h₁.scope, h₁.board⟩
      refine ⟨_, _, rfl, ih _ fs hcalm' rfl rfl rfl _ _ (h₂.modify rfl ?_) fun w₃ h₃ =>
        unwinds_restore hcalm' rfl h₃ k⟩
      rintro _ ⟨ops, token, cell, hcell, rfl⟩
      exact ⟨ops, token, cell, hcell, rfl⟩
  | yieldNow =>
      intro fiber fs hcalm _ _ _ stack w hstands k
      refine runs_of_unspent hcalm.budget hcalm.running (Or.inr hcalm.terminating) (by simp)
        hstands ?_
      intro w₁ actual h₁ hget hvaries hops
      obtain ⟨actual₁, hget₁, -⟩ := h₁.counted.actual
      have hstays : ∀ c, Stays ⟨c, stack, false⟩ fiber := fun _ => Or.inr hcalm.terminating
      refine runs_of_yield hcalm.running (hstays _) (hstays (.value .unit)) hget hvaries ?_
        h₁.counted hget₁ ?_
      · rw [(step_of_unspent (by rw [hvaries.context]; exact hops)).1 _ rfl]
        rfl
      · intro w₂ actual' h₂ _ _
        exact runs_of_unwinds hcalm.toSteady (hstays _) rfl h₂ k
  | @ensuring p q fin env frames s s₁ s₂ s' e outcome _ hgives heval ihInner ih =>
      intro fiber fs hcalm hmax henv hframes stack w hstands k
      subst hmax hframes
      refine runs_of_instruct hcalm.toSteady (Or.inr hcalm.terminating) rfl hstands ?_
      intro w₁ actual h₁ hvaries
      obtain ⟨w₂, key, hregister, hkeys, h₂⟩ := register_of_holds fin h₁
      have hscope : actual.scope = fiber.scope := by
        obtain ⟨ops, token, cell, -, rfl⟩ := hvaries
        rfl
      refine ⟨w₂, ⟨.instruct p, .finalizer (some ⟨fiber.scope, key⟩) fin :: stack, false⟩,
        by simp only [instruct, hscope, hregister], ?_⟩
      refine ihInner fiber _ hcalm rfl henv rfl _ w₂ h₂ fun w₃ h₃ => ?_
      exact unwinds_finalizer hcalm hkeys h₃ hgives heval
        (ih _ fs ⟨⟨hcalm.budget, hcalm.running⟩, hcalm.terminating, hcalm.deferred⟩ rfl henv rfl) k

end Fibers.Direct
