import Fibers.Proofs.Detour.Steps
import Fibers.Proofs.Direct.Refinement

set_option autoImplicit false

/-! # How a fiber ends

With its program over, a fiber closes its scope: it asks for the close, claims the finalizers (there are
none left), publishes the exit, waits for what it has just published and is done. All of this happens at
home, except that the scope leaves its parent (`runs_leave`). The last step publishes the end of the fiber
to those who watch it, so the course is left there (`ended`).
-/

namespace Fibers.Detour

open World Direct

variable {σ S : Type} {f : Key .fiber} {home : Home} {view : σ → S} {out : Outlet σ f home}
  {w w' : World σ} {x : Place σ S} {P : Option (Scope (Finalizer σ)) → Prop}
  {p : Program σ} {e : AnyExit} {stack : List (Waiting σ)} {m : Machine σ} {base : Scope (Finalizer σ)}

/-! ## The end -/

/-- The fiber has come to its last step: it ends with `e` where all but the fiber itself is as `x`
says. -/
def ended (view : σ → S) (f : Key .fiber) (home : Home) (e : AnyExit) (x : Place σ S) :
    Outlet σ f home where
  leads w y := ∃ w₁ fiber, Stirs f home w w₁ ∧ Stands view f home w₁ { x with fiber } (fun _ => True) ∧
    y = ⟨w₁.finishFiber f e, none⟩
  absorbs := by
    rintro w w₁ y hstirs ⟨w₂, fiber, hstirs₂, hrest⟩
    exact ⟨w₂, fiber, hstirs.trans hstirs₂, hrest⟩

theorem Stands.weaken (h : Stands view f home w x P) : Stands view f home w x (fun _ => True) :=
  ⟨h.actual, h.scopeKey, h.refsKey, trivial, h.map, h.permits, h.board, h.now⟩

/-- The last step of a fiber: with nothing on its stack it is done with the exit it holds. -/
theorem runs_done (hleaving : Leaving x.fiber) (h : Stands view f home w x P) :
    Runs view f home (ended view f home e x) ⟨.value (.exit e), [], true⟩ w := by
  refine runs_of_unspent hleaving.toSteady (Or.inl rfl) (Or.inr ⟨.success (.exit e), rfl⟩) h ?_
  intro w₁ actual h₁ hget hvaries hops
  refine runs_of_conclude hget hvaries (Or.inl rfl) ?_
  rw [step_unwind (e := .success (.exit e)) rfl (by rw [hvaries.context]; exact hops)]
  exact Ends.of_leads ⟨w₁.count f, x.fiber, stirs_count home w₁, h₁.count.weaken, rfl⟩

/-! ## A fiber on its way out -/

/-- An instruction of a fiber on its way out. -/
theorem leaving_instruct (hleaving : Leaving x.fiber) (h : Stands view f home w x P)
    (k : ∀ w' actual, Stands view f home w' x P → Varies x.fiber actual →
      ∃ w'' m', w'.instruct f actual ⟨.instruct p, stack, true⟩ p = (w'', { machine := m' }) ∧
        Stirs f home w' w'' ∧ Runs view f home out m' w'') :
    Runs view f home out ⟨.instruct p, stack, true⟩ w :=
  runs_of_instruct hleaving.toSteady (Or.inl rfl) rfl h k

/-- An instruction that changes the machine alone. -/
theorem leaving_glide (hleaving : Leaving x.fiber)
    (hinstruct : ∀ (w : World σ) actual,
      w.instruct f actual ⟨.instruct p, stack, true⟩ p = (w, { machine := m }))
    (h : Stands view f home w x P)
    (k : ∀ w', Stands view f home w' x P → Runs view f home out m w') :
    Runs view f home out ⟨.instruct p, stack, true⟩ w :=
  leaving_instruct hleaving h fun w₁ actual h₁ _ =>
    ⟨w₁, m, hinstruct w₁ actual, .refl f home w₁, k w₁ h₁⟩

/-- A value, and what the stack makes of it. -/
theorem leaving_value {v : Value} (hleaving : Leaving x.fiber) (h : Stands view f home w x P)
    (k : ∀ w', Stands view f home w' x P → Unwinds view f home out true (.success v) stack w') :
    Runs view f home out ⟨.value v, stack, true⟩ w :=
  runs_of_unwinds (e := .success v) hleaving.toSteady (Or.inl rfl) rfl h k

/-- A program that gives a value at once, and what the stack makes of it. -/
theorem leaving_succeed {v : Value} (hleaving : Leaving x.fiber) (h : Stands view f home w x P)
    (k : ∀ w', Stands view f home w' x P → Unwinds view f home out true (.success v) stack w') :
    Runs view f home out ⟨.instruct (.succeed v), stack, true⟩ w :=
  leaving_glide hleaving (fun _ _ => rfl) h fun _ h₁ => leaving_value hleaving h₁ k

/-- The place with the fiber masked. -/
theorem stands_masked (h : Stands view f home w x P) :
    Stands view f home (w.modifyFiber f fun fiber => { fiber with masks := fiber.masks.push false })
      { x with fiber := { x.fiber with masks := x.fiber.masks.push false } } P := by
  refine h.modify _ rfl rfl ?_
  rintro _ ⟨ops, token, cell, hcell, rfl⟩
  exact ⟨ops, token, cell, hcell, rfl⟩

/-- Unmasking a fiber that stays masked lets no interruption in. -/
theorem restore_of_leaving (hleaving : Leaving (x.fiber.restore .interruptible))
    (h : Stands view f home w x P) :
    w.restore f .interruptible = (w.modifyFiber f (·.restore .interruptible), false) := by
  obtain ⟨actual, hget, ops, token, cell, -, rfl⟩ := (h.restore .interruptible).actual
  have hmasked : (x.fiber.restore .interruptible).masks.top = false := hleaving.masked
  simp only [World.restore, applyDeferred, hget, Fiber.interruptible, hmasked, World.mustLeave,
    Option.map_some, Option.getD_some, Fiber.mustLeave, Bool.false_eq_true, if_false,
    Bool.and_false]

/-! ## The scope, closing and closed -/

/-- The scope is `base`, but it is closing with `e`; `claim` has the finalizers if nobody has claimed
them. -/
def Closing (base : Scope (Finalizer σ)) (e : AnyExit) (claim : Option (List (Nat × Finalizer σ)))
    (sc : Option (Scope (Finalizer σ))) : Prop :=
  sc = some { base with
    state := .closing e claim
    parent := none }

/-- The scope is closed with `e`, and this is published. -/
def Closed (e : AnyExit) (sc : Option (Scope (Finalizer σ))) : Prop :=
  ∃ sc', sc = some sc' ∧ sc'.closed = .settled (.resolved e)

/-- A finalizer is taken out of another scope. -/
theorem cancelFinalizer_elsewhere (w : World σ) {h : Handle} {s : Key .scope} (hne : h.scope ≠ s) :
    ∃ scopes, (w.cancelFinalizer h).1 = { w with scopes } ∧ scopes.get? s = w.scopes.get? s := by
  simp only [World.cancelFinalizer, World.takeFinalizer]
  split
  · refine ⟨_, rfl, ?_⟩
    rw [Store.get?_set, if_neg hne]
  · exact ⟨w.scopes, rfl, rfl⟩

/-- A fiber that runs finds out by itself that its scope is closing. -/
theorem scopeClosing_of_running {actual : Fiber σ} (hget : w.fibers.get? f = some actual)
    (hphase : actual.phase = .running) :
    w.scopeClosing f = w.modifyFiber f fun fiber => { fiber with terminating := true } := by
  have hget' : (w.modifyFiber f fun fiber => { fiber with terminating := true }).fibers.get? f =
      some { actual with terminating := true } := by
    simp only [modifyFiber, Store.get?_modify, hget, if_pos, Option.map_some]
  simp only [scopeClosing, hget', hphase]

/-- Asking for the close of the fiber's own scope. -/
theorem Stands.requestClose (e : AnyExit) (hrunning : x.fiber.phase = .running)
    (hparent : ∀ h, base.parent = some h → h.scope ≠ home.scope)
    (h : Stands view f home w x (Holds base [f] [])) :
    ∃ w', w.requestClose home.scope e = (w', true) ∧ Stirs f home w w' ∧
      Stands view f home w' { x with fiber := { x.fiber with terminating := true } }
        (Closing base e (some [])) := by
  obtain ⟨next, hsc, -⟩ := h.scope
  set sc : Scope (Finalizer σ) := { base with
    state := .closing e (some [])
    parent := none } with hset
  have hrequest : (w.scope home.scope).requestClose? e = some (sc, ⟨[f], base.parent⟩) := by
    simp only [World.scope, hsc, Option.getD_some, Scope.requestClose?, hset]
  -- the scope leaves its parent, which changes scopes alone
  obtain ⟨scopes, hclose, hsc'⟩ : ∃ scopes,
      w.requestClose home.scope e = (World.scopeClosing { w with scopes } f, true) ∧
        scopes.get? home.scope = some sc := by
    have hgot : (w.scopes.set home.scope sc).get? home.scope = some sc := Store.get?_set_of_some hsc
    cases hp : base.parent with
    | none =>
        refine ⟨_, ?_, hgot⟩
        simp only [World.requestClose, hrequest, hp, List.foldl_cons, List.foldl_nil]
    | some handle =>
        obtain ⟨scopes, heq, hother⟩ := cancelFinalizer_elsewhere
          { w with scopes := w.scopes.set home.scope sc } (hparent handle hp)
        refine ⟨scopes, ?_, hother.trans hgot⟩
        simp only [World.requestClose, hrequest, hp, heq, List.foldl_cons, List.foldl_nil]
  have hstands : Stands view f home { w with scopes } x (Closing base e (some [])) :=
    ⟨h.actual, h.scopeKey, h.refsKey, hsc', h.map, h.permits, h.board, h.now⟩
  obtain ⟨actual, hget, ops, token, cell, hcell, rfl⟩ := hstands.actual
  have hstirs : Stirs f home w (World.modifyFiber { w with scopes } f fun fiber =>
      { fiber with terminating := true }) :=
    (stirs_scopes f home w scopes).trans (stirs_modifyFiber home _ fun _ => rfl)
  refine ⟨_, ?_, hstirs, hstands.modify _ rfl rfl ?_⟩
  · rw [hclose, scopeClosing_of_running hget hrunning]
  · rintro _ ⟨ops, token, cell, hcell, rfl⟩
    exact ⟨ops, token, cell, hcell, rfl⟩

/-- Claiming the finalizers of a closing scope that has none gives the program that publishes. -/
theorem Stands.claim (h : Stands view f home w x (Closing base e (some []))) :
    ∃ w', w.attend (.finish home.scope) = (w', .ok (.flatMap (.succeed (.exit e))
        (.sequel (.publish home.scope)))) ∧ Stirs f home w w' ∧
      Stands view f home w' x (Closing base e none) := by
  have hsc : w.scopes.get? home.scope =
      some { base with state := .closing e (some []), parent := none } := h.scope
  refine ⟨_, ?_, stirs_scopes f home w _, h.setScope hsc rfl⟩
  simp only [attend, World.scope, hsc, Option.getD_some, Scope.claim?]
  rfl

/-- Publishing the exit of a claimed scope that nobody waits for. -/
theorem Stands.publish (hfresh : base.closed = .fresh) (h : Stands view f home w x (Closing base e none)) :
    Stirs f home w (w.publish home.scope e) ∧ Stands view f home (w.publish home.scope e) x (Closed e) := by
  have hsc : w.scopes.get? home.scope =
      some { base with state := .closing e none, parent := none } := h.scope
  have hpublish : w.publish home.scope e = { w with scopes := w.scopes.set home.scope { base with
      state := .closed e
      closed := .settled (.resolved e)
      parent := none } } := by
    simp only [World.publish, World.scope, hsc, Option.getD_some, Scope.publish, hfresh]
    rfl
  rw [hpublish]
  exact ⟨stirs_scopes f home w _, h.setScope hsc ⟨_, rfl, rfl⟩⟩

/-! ## The way out -/

/-- A fiber does not wait for what has happened. -/
theorem runs_waitScope (hleaving : Leaving x.fiber) (h : Stands view f home w x (Closed e)) :
    Runs view f home (ended view f home e x)
      ⟨.instruct (Program.waitScope home.scope), [], true⟩ w := by
  set m : Machine σ := ⟨.instruct (Program.waitScope home.scope), [], true⟩ with hm
  refine runs_of_unspent hleaving.toSteady (Or.inl rfl) (Or.inl ⟨_, rfl⟩) h ?_
  intro w₁ actual h₁ hget hvaries hops
  refine runs_of_conclude hget hvaries (Or.inl rfl) ?_
  rw [step_instruct rfl (by rw [hvaries.context]; exact hops)]
  obtain ⟨actual₂, hget₂, hvaries₂⟩ := h₁.count.actual
  set idle : Fiber σ := { actual₂ with ops := 0 } with hidle
  have hidles : Varies x.fiber idle := by
    obtain ⟨ops, token, cell, hcell, rfl⟩ := hvaries₂
    exact ⟨0, token, cell, hcell, rfl⟩
  set parked : World σ := { w₁.count f with fibers := (w₁.count f).fibers.set f (idle.park m).1 }
    with hparked
  have hsettled : parked.settledProgram? (.closed home.scope) = some (.succeed (.exit e)) := by
    obtain ⟨sc, hsc, hclosed⟩ := h₁.count.scope
    have hscope : parked.scope home.scope = sc := by
      show (((w₁.count f).scopes.get? home.scope).getD default) = sc
      rw [hsc, Option.getD_some]
    simp only [settledProgram?, hscope, hclosed, Cell.outcome?]
  have hback : Stands view f home (parked.modifyFiber f fun fiber => { fiber with phase := .running }) x
      (Closed e) := by
    refine (h₁.count.park hget₂ hidles).modify x.fiber rfl rfl ?_
    rintro _ ⟨ops, token, cell, hcell, rfl⟩
    exact ⟨ops, token, cell, hcell, by rw [← hleaving.running]⟩
  have hparks : Stirs f home w₁ parked := (stirs_count home w₁).trans (stirs_park m hget₂ rfl)
  have hresumes : Stirs f home parked (parked.modifyFiber f fun fiber => { fiber with phase := .running }) :=
    stirs_modifyFiber home parked fun _ => rfl
  have hend : Runs view f home (ended view f home e x) ⟨.instruct (.succeed (.exit e)), [], true⟩
      (parked.modifyFiber f fun fiber => { fiber with phase := .running }) :=
    leaving_glide hleaving (fun _ _ => rfl) hback fun _ h₂ => runs_done hleaving h₂
  simp only [instruct, conclude, hget₂, Program.waitScope, Machine.holding]
  rw [park_of_stays hidles (Or.inl rfl)]
  dsimp only
  rw [hsettled]
  exact hend.stirs (hparks.trans hresumes)

/-- The rest of the way once the exit of the scope is published: the mask of the claim is lifted, the
answer of the close is dropped, and the fiber waits for its scope. -/
theorem runs_published (b : Bool) (hleaving : Leaving x.fiber)
    (h : Stands view f home w
      { x with fiber := { x.fiber with masks := x.fiber.masks.push false } } (Closed e)) :
    Runs view f home (ended view f home e x)
      ⟨.instruct .unit, [.restore .interruptible, .map (.next (.succeed (.flag b))),
        .map (.next (Program.waitScope home.scope))], true⟩ w := by
  have hmasked : Leaving { x.fiber with masks := x.fiber.masks.push false } :=
    ⟨⟨hleaving.budget, hleaving.running⟩, rfl⟩
  refine leaving_succeed (by exact hmasked) h fun w₁ h₁ => ?_
  refine .of_step (m := ⟨.instruct (.succeed (.flag b)), [.map (.next (Program.waitScope home.scope))],
    true⟩) ?_ (stirs_restore home w₁ .interruptible) ?_
  · simp only [World.unwind, unwindValue, restore_of_leaving (by exact hleaving) h₁, proceedWith, enter]
  · refine leaving_succeed hleaving (by exact h₁.restore .interruptible) fun w₂ h₂ => ?_
    exact .of_step rfl (.refl f home w₂) (runs_waitScope hleaving h₂)

/-- The way of a fiber that has asked for the close of its scope. -/
theorem runs_finishScope (b : Bool) (hfresh : base.closed = .fresh) (hleaving : Leaving x.fiber)
    (h : Stands view f home w x (Closing base e (some []))) :
    Runs view f home (ended view f home e x)
      ⟨.instruct (Program.finishScope home.scope),
        [.map (.next (.succeed (.flag b))), .map (.next (Program.waitScope home.scope))], true⟩ w := by
  have hmasked : Leaving { x.fiber with masks := x.fiber.masks.push false } :=
    ⟨⟨hleaving.budget, hleaving.running⟩, rfl⟩
  refine leaving_instruct hleaving h fun w₁ actual h₁ _ =>
    ⟨_, _, rfl, stirs_modifyFiber home w₁ fun _ => rfl, ?_⟩
  refine leaving_instruct (by exact hmasked) (stands_masked h₁) fun w₂ _ h₂ _ => ?_
  obtain ⟨w₃, hclaim, hstirs, h₃⟩ := h₂.claim
  refine ⟨w₃, _, (congrArg (enter f _) hclaim).trans rfl, hstirs, ?_⟩
  refine leaving_glide (by exact hmasked) (fun _ _ => rfl) h₃ fun w₄ h₄ => ?_
  refine leaving_succeed (by exact hmasked) h₄ fun w₅ h₅ => ?_
  obtain ⟨hstirs', h₆⟩ := h₅.publish hfresh
  exact .of_step rfl hstirs' (runs_published b hleaving h₆)

/-- A calm fiber whose program is over with `e`, and whose scope is open without finalizers, ends with
`e`. -/
theorem runs_leave (hcalm : Calm x.fiber) (hfresh : base.closed = .fresh)
    (hparent : ∀ h, base.parent = some h → h.scope ≠ home.scope)
    (h : Stands view f home w x (Holds base [f] [])) :
    Runs view f home (ended view f home e x) ⟨.leave (some e), stack, false⟩ w := by
  obtain ⟨actual, hget, hvaries⟩ := h.actual
  set leaver : Fiber σ := { x.fiber.unwind with masks := x.fiber.unwind.masks.push false } with hleaver
  have hleaving : Leaving leaver := ⟨⟨hcalm.budget, hcalm.running⟩, rfl⟩
  have hscope : actual.scope = home.scope := by
    obtain ⟨ops, token, cell, -, rfl⟩ := hvaries
    exact h.scopeKey
  have h₁ : Stands view f home (w.modifyFiber f fun fiber =>
      { fiber.unwind with masks := fiber.unwind.masks.push false }) { x with fiber := leaver }
      (Holds base [f] []) := by
    refine h.modify _ rfl rfl ?_
    rintro _ ⟨ops, token, cell, hcell, rfl⟩
    exact ⟨ops, token, cell, hcell, rfl⟩
  have hstirs : Stirs f home w (w.modifyFiber f fun fiber =>
      { fiber.unwind with masks := fiber.unwind.masks.push false }) :=
    stirs_modifyFiber home w fun _ => rfl
  refine runs_of_step hget hvaries (Or.inr hcalm.terminating)
    (by simp only [step, World.leave, hscope]; rfl) hstirs ?_
  refine leaving_glide (by exact hleaving) (fun _ _ => rfl) h₁ fun w₂ h₂ => ?_
  refine leaving_instruct (by exact hleaving) h₂ fun w₃ _ h₃ _ => ?_
  obtain ⟨w₄, hclose, hstirs, h₄⟩ := h₃.requestClose e (by exact hcalm.running) hparent
  have hattend : w₃.attend (.close home.scope e) =
      (w₄, .ok ((Program.finishScope home.scope).andThen (.succeed (.flag true)))) := by
    simp only [attend, hclose]
  refine ⟨w₄, _, (congrArg (enter f _) hattend).trans rfl, hstirs, ?_⟩
  have hleaving' : Leaving { leaver with terminating := true } := ⟨⟨hcalm.budget, hcalm.running⟩, rfl⟩
  refine leaving_glide (by exact hleaving') (fun _ _ => rfl) h₄ fun w₅ h₅ => ?_
  have hend := runs_finishScope true hfresh (by exact hleaving') h₅
  exact hend

/-- With nothing left on the stack the program is over, and the fiber leaves it. -/
theorem unwinds_leave (hcalm : Calm x.fiber) (hfresh : base.closed = .fresh)
    (hparent : ∀ h, base.parent = some h → h.scope ≠ home.scope)
    (h : Stands view f home w x (Holds base [f] [])) :
    Unwinds view f home (ended view f home e x) false e [] w := by
  refine .of_step (m := ⟨.leave (some e), [], false⟩) ?_ (.refl f home w)
    (runs_leave hcalm hfresh hparent h)
  cases e <;> rfl

end Fibers.Detour
