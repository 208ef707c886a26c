import Fibers.Proofs.Detour.Standing

set_option autoImplicit false

/-! # One instruction after the other

`Follows` says that working on a program comes to the same as unwinding the stack with an exit,
whatever the stack: the fiber stands where the program has led it, and its scope is as it was.
There is one lemma for every kind of instruction: one that ends at once, one that goes on with
what a function gives, one that puts a frame on the stack, and the frames that restore a stack of
the fiber or run a finalizer.
-/

namespace Fibers.Detour

open World Direct

variable {σ S α : Type} {f : Key .fiber} {home : Home} {view : σ → S} {out : Outlet σ f home}
  {w w' : World σ} {x x' x₁ x₂ : Place σ S} {P P' : Option (Scope (Finalizer σ)) → Prop}
  {p q inner : Program σ} {e e₁ outcome : AnyExit}

/-- Working on `p` comes to the same as unwinding the stack with `e`, and leads from `x` to
`x'`. -/
def Follows (view : σ → S) (f : Key .fiber) (home : Home) (out : Outlet σ f home) (p : Program σ)
    (e : AnyExit) (x x' : Place σ S) (P : Option (Scope (Finalizer σ)) → Prop) : Prop :=
  ∀ (stack : List (Waiting σ)) (w : World σ), Stands view f home w x P →
    (∀ w', Stands view f home w' x' P → Unwinds view f home out false e stack w') →
    Runs view f home out { control := .instruct p, stack } w

/-- Called where the fiber stands at `x`, the function gives `r` and leads to `x'`. -/
def Serves (view : σ → S) (f : Key .fiber) (home : Home)
    (call : World σ → World σ × Except Defect α) (x : Place σ S) (r : Except Defect α)
    (x' : Place σ S) (P : Option (Scope (Finalizer σ)) → Prop) : Prop :=
  ∀ w, Stands view f home w x P →
    ∃ w', call w = (w', r) ∧ Stirs f home w w' ∧ Stands view f home w' x' P

/-- The cause of a panic with a message, at a point with these frames. -/
def panicked (x : Place σ S) (d : Defect) : AnyExit :=
  .failure (thrown x.fiber.context.limits.maxTrace x.fiber.frames d)

/-- Calling the function and going on with what it gives comes to the same as unwinding the stack
with `e`. -/
def CallFollows (view : σ → S) (f : Key .fiber) (home : Home) (out : Outlet σ f home)
    (call : World σ → World σ × Except Defect (Program σ)) (e : AnyExit) (x x' : Place σ S)
    (P : Option (Scope (Finalizer σ)) → Prop) : Prop :=
  (∃ d, Serves view f home call x (.error d) x' P ∧ e = panicked x' d) ∨
    ∃ q x₁, Serves view f home call x (.ok q) x₁ P ∧ Follows view f home out q e x₁ x' P

/-! ## Functions of the program's own -/

theorem Stands.setBoard {b : σ} (h : Stands view f home w x P) :
    Stands view f home { w with board := b } { x with board := view b } P ∧
      Stirs f home w { w with board := b } :=
  ⟨⟨h.actual, h.scopeKey, h.refsKey, h.scope, h.map, h.permits, rfl, h.now⟩,
    ⟨fun _ _ => rfl, rfl, fun _ _ => rfl, rfl⟩, rfl⟩

theorem Does.serves {call : World σ → World σ × Except Defect α} {s' : S} {r : Except Defect α}
    (h : Does view call x.board r s') : Serves view f home call x r { x with board := s' } P := by
  intro w hstands
  obtain ⟨b, heq, rfl⟩ := h w hstands.board
  exact ⟨{ w with board := b }, heq, hstands.setBoard.2, hstands.setBoard.1⟩

/-- The rest of a program, given by a function. -/
theorem runs_of_call {call : World σ → World σ × Except Defect (Program σ)} {m : Machine σ}
    (hcalm : Calm x'.fiber) (hexiting : m.exiting = false)
    (hcall : CallFollows view f home out call e x x' P)
    (k : ∀ w, Stands view f home w x' P → Unwinds view f home out false e m.stack w)
    (h : Stands view f home w x P) :
    ∃ w' m', enter f m (call w) = (w', { machine := m' }) ∧ Stirs f home w w' ∧
      Runs view f home out m' w' := by
  obtain ⟨control, stack, exiting⟩ := m
  cases hexiting
  obtain ⟨d, hserves, rfl⟩ | ⟨q, x₁, hserves, hfollows⟩ := hcall
  · obtain ⟨w', heq, hstirs, h'⟩ := hserves w h
    refine ⟨w', { control := .ofExit (panicked x' d), stack }, ?_, hstirs,
      runs_of_unwinds hcalm.toSteady (Or.inr hcalm.terminating) rfl h' k⟩
    rw [heq]
    simp only [enter, traceOf_eq h', panicked, thrown, Control.ofExit]
  · obtain ⟨w', heq, hstirs, h'⟩ := hserves w h
    exact ⟨w', { control := .instruct q, stack }, by rw [heq]; rfl, hstirs,
      hfollows stack w' h' k⟩

/-! ## The kinds of instructions -/

/-- An instruction that ends at once. -/
theorem follows_leaf (hcalm : Calm x.fiber) (hcalm' : Calm x'.fiber)
    (h : ∀ w actual m, Stands view f home w x P → Varies x.fiber actual →
      ∃ w', w.instruct f actual m p = (w', { machine := { m with control := .ofExit e } }) ∧
        Stirs f home w w' ∧ Stands view f home w' x' P) :
    Follows view f home out p e x x' P := by
  intro stack w hstands k
  refine runs_of_instruct hcalm.toSteady (Or.inr hcalm.terminating) rfl hstands ?_
  intro w₁ actual h₁ hvaries
  obtain ⟨w₂, hinstruct, hstirs, h₂⟩ := h w₁ actual { control := .instruct p, stack } h₁ hvaries
  exact ⟨w₂, _, hinstruct, hstirs,
    runs_of_unwinds hcalm'.toSteady (Or.inr hcalm'.terminating) rfl h₂ k⟩

/-- An instruction that goes on with what a function gives. -/
theorem follows_call {g : World σ → World σ × Except Defect (Program σ)}
    (hcalm : Calm x.fiber) (hcalm' : Calm x'.fiber)
    (h : ∀ w actual m, Varies x.fiber actual → w.instruct f actual m p = enter f m (g w))
    (hcall : CallFollows view f home out g e x x' P) :
    Follows view f home out p e x x' P := by
  intro stack w hstands k
  refine runs_of_instruct hcalm.toSteady (Or.inr hcalm.terminating) rfl hstands ?_
  intro w₁ actual h₁ hvaries
  rw [h w₁ actual _ hvaries]
  exact runs_of_call hcalm' rfl hcall k h₁

/-- An instruction that puts a frame on the stack and works on a program inside it. -/
theorem follows_inner (hcalm : Calm x.fiber)
    (h : ∀ stack w actual, Stands view f home w x P → Varies x.fiber actual →
      (∀ w', Stands view f home w' x' P → Unwinds view f home out false e stack w') →
      ∃ w' frame,
        w.instruct f actual { control := .instruct p, stack } p =
          (w', { machine := { control := .instruct inner, stack := frame :: stack } }) ∧
        Stirs f home w w' ∧ Stands view f home w' x₁ P' ∧
        ∀ w'', Stands view f home w'' x₂ P' →
          Unwinds view f home out false e₁ (frame :: stack) w'')
    (ih : Follows view f home out inner e₁ x₁ x₂ P') : Follows view f home out p e x x' P := by
  intro stack w hstands k
  refine runs_of_instruct hcalm.toSteady (Or.inr hcalm.terminating) rfl hstands ?_
  intro w₁ actual h₁ hvaries
  obtain ⟨w₂, frame, hinstruct, hstirs, h₂, hframe⟩ := h stack w₁ actual h₁ hvaries k
  exact ⟨w₂, _, hinstruct, hstirs, ih (frame :: stack) w₂ h₂ hframe⟩

/-- An instruction that works on a program under a frame, when the frame goes on with what a function
gives. -/
theorem follows_frame {frame : Waiting σ} {g : World σ → World σ × Except Defect (Program σ)}
    (hcalm : Calm x.fiber) (hcalm' : Calm x'.fiber)
    (hinstruct : ∀ (w : World σ) fiber stack, w.instruct f fiber ⟨.instruct p, stack, false⟩ p =
      (w, { machine := ⟨.instruct inner, frame :: stack, false⟩ }))
    (hunwind : ∀ (w : World σ) stack, World.unwind f false e₁ (frame :: stack) w =
      enter f ⟨.ofExit e₁, stack, false⟩ (g w))
    (hinner : Follows view f home out inner e₁ x x₁ P)
    (hcall : CallFollows view f home out g e x₁ x' P) : Follows view f home out p e x x' P := by
  refine follows_inner hcalm (fun stack w fiber hstands _ next =>
    ⟨w, frame, hinstruct w fiber stack, .refl f home w, hstands, fun w' h' => ?_⟩) hinner
  obtain ⟨w₁, m₁, henter, hstirs, hruns⟩ := runs_of_call (m := ⟨.ofExit e₁, stack, false⟩) hcalm' rfl
    hcall next h'
  exact .of_step ((hunwind w' stack).trans henter) hstirs hruns

/-! ## Frames that restore a stack of the fiber -/

theorem applyDeferred_of_calm (hcalm : Calm x.fiber) (h : Stands view f home w x P) :
    w.applyDeferred f = w := by
  obtain ⟨actual, hget, ops, token, cell, -, rfl⟩ := h.actual
  simp only [applyDeferred, hget, hcalm.deferred, Cause.interrupts?, ite_self]

theorem Stands.restore (h : Stands view f home w x P) (r : Restore) :
    Stands view f home (w.modifyFiber f (·.restore r)) { x with fiber := x.fiber.restore r } P :=
  h.modify _ (by cases r <;> rfl) (by cases r <;> rfl) fun _ hvaries => hvaries.restore r

theorem stirs_restore (home : Home) (w : World σ) (r : Restore) :
    Stirs f home w (w.modifyFiber f (·.restore r)) :=
  stirs_modifyFiber home w fun _ => by cases r <;> rfl

/-- Popping a stack of a calm fiber does nothing else. -/
theorem restore_of_calm {r : Restore} (hcalm : Calm x.fiber) (h : Stands view f home w x P) :
    w.restore f r = (w.modifyFiber f (·.restore r), false) := by
  have hcalm' : Calm (x.fiber.restore r) := hcalm.restore r
  cases r with
  | interruptible =>
      have hstands := h.restore .interruptible
      obtain ⟨actual, hget, ops, token, cell, -, rfl⟩ := hstands.actual
      simp only [World.restore, applyDeferred_of_calm (by exact hcalm') hstands, World.mustLeave,
        hget, Option.map_some, Option.getD_some, Fiber.mustLeave, hcalm'.terminating, Bool.false_and]
  | semaphore => rfl
  | services => rfl
  | label => rfl

/-- A region that pushed a stack: unwinding past its frame is unwinding the rest. -/
theorem unwinds_restore {r : Restore} {stack : List (Waiting σ)} (hcalm : Calm x.fiber)
    (hback : x' = { x with fiber := x.fiber.restore r }) (h : Stands view f home w x P)
    (k : ∀ w', Stands view f home w' x' P → Unwinds view f home out false e stack w') :
    Unwinds view f home out false e (.restore r :: stack) w := by
  subst hback
  refine .of_pass ?_ (stirs_restore home w r) (k _ (h.restore r))
  cases e with
  | success v => simp only [World.unwind, unwindValue, restore_of_calm hcalm h]
  | failure c => simp only [World.unwind, unwindFailure, restore_of_calm hcalm h]

/-- A region: an instruction that pushes one of the stacks of the fiber for the time of `inner`. -/
theorem follows_region (r : Restore) (hcalm : Calm x.fiber) (hcalm' : Calm x₂.fiber)
    (hback : x' = { x₂ with fiber := x₂.fiber.restore r })
    (h : ∀ stack w actual, Stands view f home w x P → Varies x.fiber actual →
      ∃ w', w.instruct f actual { control := .instruct p, stack } p =
          (w', { machine := { control := .instruct inner, stack := .restore r :: stack } }) ∧
        Stirs f home w w' ∧ Stands view f home w' x₁ P)
    (ih : Follows view f home out inner e x₁ x₂ P) : Follows view f home out p e x x' P := by
  refine follows_inner hcalm (fun stack w actual hstands hvaries k => ?_) ih
  obtain ⟨w', hinstruct, hstirs, h'⟩ := h stack w actual hstands hvaries
  exact ⟨w', _, hinstruct, hstirs, h', fun w'' h'' => unwinds_restore hcalm' hback h'' k⟩

/-! ## The scope and its finalizers -/

/-- The scope is `base`, but it is open with the finalizers `fs` and these fibers on its hooks. -/
def Holds (base : Scope (Finalizer σ)) (hooks : List (Key .fiber)) (fs : List (Nat × Finalizer σ))
    (sc : Option (Scope (Finalizer σ))) : Prop :=
  ∃ next, sc = some { base with state := .opened fs hooks next } ∧ ∀ x ∈ fs, x.1 < next

theorem Stands.setScope {sc sc' : Scope (Finalizer σ)} (h : Stands view f home w x P)
    (hsc : w.scopes.get? home.scope = some sc) (hP' : P' (some sc')) :
    Stands view f home { w with scopes := w.scopes.set home.scope sc' } x P' :=
  ⟨h.actual, h.scopeKey, h.refsKey,
    by simp only [Store.get?_set_of_some hsc]; exact hP', h.map, h.permits, h.board, h.now⟩

/-- A change of scopes alone stays at home. -/
theorem stirs_scopes (f : Key .fiber) (home : Home) (w : World σ)
    (scopes : Store .scope (Scope (Finalizer σ))) : Stirs f home w { w with scopes } :=
  ⟨⟨fun _ _ => rfl, rfl, fun _ _ => rfl, rfl⟩, rfl⟩

variable {base : Scope (Finalizer σ)} {hooks : List (Key .fiber)}

theorem register_of_holds {fs : List (Nat × Finalizer σ)} (fin : Finalizer σ)
    (h : Stands view f home w x (Holds base hooks fs)) :
    ∃ scopes key, w.register home.scope fin = ({ w with scopes }, some ⟨home.scope, key⟩) ∧
      (∀ x ∈ fs, x.1 < key) ∧
      Stands view f home { w with scopes } x (Holds base hooks (fs ++ [(key, fin)])) := by
  obtain ⟨next, hsc, hkeys⟩ := h.scope
  set sc : Scope (Finalizer σ) :=
    { base with state := .opened (fs ++ [(next, fin)]) hooks (next + 1) } with hset
  refine ⟨w.scopes.set home.scope sc, next, ?_, hkeys,
    h.setScope hsc ⟨next + 1, congrArg some hset, fun x hx => ?_⟩⟩
  · simp only [World.register, World.scope, hsc, Option.getD_some, Scope.register?, hset]
  · rcases List.mem_append.mp hx with hx | hx
    · exact Nat.lt_succ_of_lt (hkeys x hx)
    · rw [List.mem_singleton.mp hx]; exact Nat.lt_succ_self next

theorem cancelFinalizer_of_holds {fs : List (Nat × Finalizer σ)} {fin : Finalizer σ} {key : Nat}
    (hkeys : ∀ x ∈ fs, x.1 < key)
    (h : Stands view f home w x (Holds base hooks (fs ++ [(key, fin)]))) :
    ∃ w', w.cancelFinalizer ⟨home.scope, key⟩ = (w', true) ∧ Stirs f home w w' ∧
      Stands view f home w' x (Holds base hooks fs) := by
  obtain ⟨next, hsc, hnext⟩ := h.scope
  have hne : ∀ x ∈ fs, (x.1 == key) = false := by
    intro x hx
    have := hkeys x hx
    simp only [beq_eq_false_iff_ne]; omega
  have hfind : (fs ++ [(key, fin)]).find? (·.1 == key) = some (key, fin) := by
    rw [List.find?_append, List.find?_eq_none.mpr (by simpa using hne)]
    simp
  have hfilter : (fs ++ [(key, fin)]).filter (·.1 != key) = fs := by
    rw [List.filter_append, List.filter_eq_self.mpr (by simpa [bne] using hne)]
    simp
  refine ⟨{ w with scopes := w.scopes.set home.scope { base with state := .opened fs hooks next } }, ?_,
    stirs_scopes f home w _,
    h.setScope hsc ⟨next, rfl, fun x hx => hnext x (List.mem_append_left _ hx)⟩⟩
  simp only [World.cancelFinalizer, World.takeFinalizer, World.scope, hsc, Option.getD_some, Scope.take?,
    hfind, Option.map_some, hfilter, Option.isSome_some]

/-- Running the finalizer of a frame: it is taken out of the scope, and its program is worked on
with interruption put off. -/
theorem unwinds_finalizer {fs : List (Nat × Finalizer σ)} {fin : Finalizer σ} {key : Nat}
    {stack : List (Waiting σ)} (hcalm : Calm x.fiber) (hfiber : x'.fiber = x.fiber)
    (hkeys : ∀ x ∈ fs, x.1 < key)
    (h : Stands view f home w x (Holds base hooks (fs ++ [(key, fin)])))
    (hcall : CallFollows view f home out (fun w => w.finalizeWith fin e) outcome
      { x with fiber := { x.fiber with masks := x.fiber.masks.push false } }
      { x' with fiber := { x'.fiber with masks := x'.fiber.masks.push false } } (Holds base hooks fs))
    (k : ∀ w', Stands view f home w' x' (Holds base hooks fs) →
      Unwinds view f home out false (World.combine e outcome) stack w') :
    Unwinds view f home out false e (.finalizer (some ⟨home.scope, key⟩) fin :: stack) w := by
  obtain ⟨w₁, hcancel, hstirs₁, h₁⟩ := cancelFinalizer_of_holds hkeys h
  have hcalm₁ : Calm { x.fiber with masks := x.fiber.masks.push false } :=
    ⟨⟨hcalm.budget, hcalm.running⟩, hcalm.terminating, hcalm.deferred⟩
  have hcalm' : Calm x'.fiber := by rw [hfiber]; exact hcalm
  have hmasked : Calm { x'.fiber with masks := x'.fiber.masks.push false } := by
    rw [hfiber]; exact hcalm₁
  set w₂ := w₁.modifyFiber f fun fiber => { fiber with masks := fiber.masks.push false } with hw₂
  have h₂ : Stands view f home w₂
      { x with fiber := { x.fiber with masks := x.fiber.masks.push false } } (Holds base hooks fs) := by
    refine h₁.modify _ rfl rfl ?_
    rintro _ ⟨ops, token, cell, hcell, rfl⟩
    exact ⟨ops, token, cell, hcell, rfl⟩
  have hstirs₂ : Stirs f home w w₂ := hstirs₁.trans (stirs_modifyFiber home w₁ fun _ => rfl)
  set m : Machine σ :=
    { control := .ofExit e, stack := .restore .interruptible :: .resumeWith e :: stack } with hm
  have hresume : ∀ w', Stands view f home w'
      { x' with fiber := { x'.fiber with masks := x'.fiber.masks.push false } } (Holds base hooks fs) →
      Unwinds view f home out false outcome m.stack w' := by
    intro w' h'
    refine unwinds_restore (by exact hmasked) rfl h' fun w₃ (h₃ : Stands view f home w₃ x' (Holds base hooks fs)) => ?_
    refine .of_step (m := { control := .ofExit (World.combine e outcome), stack }) ?_ (.refl f home w₃)
      (runs_of_unwinds hcalm'.toSteady (Or.inr hcalm'.terminating) rfl h₃ k)
    cases outcome <;> cases e <;> rfl
  obtain ⟨w₃, m₃, henter, hstirs₃, hruns⟩ := runs_of_call (m := m) (by exact hmasked) rfl hcall
    hresume h₂
  refine .of_step ?_ (hstirs₂.trans hstirs₃) hruns
  cases e with
  | success v =>
      simp only [World.unwind, unwindValue, claimFinalizer, hcancel, enterFinalizer]
      exact henter
  | failure c =>
      simp only [World.unwind, unwindFailure, claimFinalizer, hcancel, enterFinalizer]
      exact henter

/-- A program with a finalizer, when the finalizer makes its program with a function. -/
theorem follows_ensuring {fs : List (Nat × Finalizer σ)} {fin : Finalizer σ}
    (hcalm : Calm x.fiber) (hfiber₁ : x₁.fiber = x.fiber) (hfiber' : x'.fiber = x.fiber)
    (ih : ∀ key, Follows view f home out p e x x₁ (Holds base hooks (fs ++ [(key, fin)])))
    (hcall : CallFollows view f home out (fun w => w.finalizeWith fin e) outcome
      { x₁ with fiber := { x₁.fiber with masks := x₁.fiber.masks.push false } }
      { x' with fiber := { x'.fiber with masks := x'.fiber.masks.push false } } (Holds base hooks fs)) :
    Follows view f home out (.ensuring p fin) (World.combine e outcome) x x' (Holds base hooks fs) := by
  intro stack w hstands k
  refine runs_of_instruct hcalm.toSteady (Or.inr hcalm.terminating) rfl hstands ?_
  intro w₁ actual h₁ hvaries
  obtain ⟨scopes, key, hregister, hkeys, h₂⟩ := register_of_holds fin h₁
  have hscope : actual.scope = home.scope := by
    obtain ⟨ops, token, cell, -, rfl⟩ := hvaries
    exact h₁.scopeKey
  refine ⟨{ w₁ with scopes }, ⟨.instruct p, .finalizer (some ⟨home.scope, key⟩) fin :: stack, false⟩,
    by simp only [instruct, hscope, hregister], stirs_scopes f home w₁ scopes, ?_⟩
  refine ih key _ _ h₂ fun w₃ h₃ => ?_
  exact unwinds_finalizer (by rw [hfiber₁]; exact hcalm) (hfiber'.trans hfiber₁.symm) hkeys h₃ hcall k

end Fibers.Detour
