import Fibers.Proofs.Run.Effects

set_option autoImplicit false

/-! # How worlds grow

Elementary changes only go forward. Fibers and scopes stay where they are. A scope goes from open
to closing to closed; while it is open, its keys and its hooks only get more. A fiber that was told
that its scope is closing stays told, an exit that was published stays published, and nobody but
the fiber itself touches its stacks. `Grows` is that order.
-/

namespace Fibers

variable {σ : Type} {φ : Type}

/-! ## Scopes -/

/-- The states that a state of a scope can turn into. -/
def ScopeState.Later : ScopeState φ → ScopeState φ → Prop
  | .opened _ hooks n, .opened _ hooks' n' => n ≤ n' ∧ ∀ f ∈ hooks, f ∈ hooks'
  | .opened _ _ _, _ => True
  | .closing e u, .closing e' u' => e' = e ∧ (u' = u ∨ u' = none)
  | .closing _ _, .closed _ => True
  | .closed _, .closed _ => True
  | _, _ => False

/-- What a scope can turn into. -/
structure Scope.Later (sc sc' : Scope φ) : Prop where
  owner : sc'.owner = sc.owner
  strategy : sc'.strategy = sc.strategy
  state : sc.state.Later sc'.state

theorem ScopeState.Later.refl (st : ScopeState φ) : st.Later st := by
  cases st with
  | opened fs hooks n => exact ⟨Nat.le_refl n, fun _ h => h⟩
  | closing e u => exact ⟨rfl, Or.inl rfl⟩
  | closed e => trivial

theorem ScopeState.Later.trans {a b c : ScopeState φ} (h : a.Later b) (h' : b.Later c) :
    a.Later c := by
  cases a with
  | opened fs hooks n =>
      cases c with
      | opened fs'' hooks'' n'' =>
          cases b with
          | opened fs' hooks' n' => exact ⟨Nat.le_trans h.1 h'.1, fun f hf => h'.2 f (h.2 f hf)⟩
          | closing e' u' => exact h'.elim
          | closed e' => exact h'.elim
      | closing e'' u'' => trivial
      | closed e'' => trivial
  | closing e u =>
      cases c with
      | opened fs'' hooks'' n'' =>
          cases b with
          | opened fs' hooks' n' => exact h.elim
          | closing e' u' => exact h'.elim
          | closed e' => exact h'.elim
      | closing e'' u'' =>
          cases b with
          | opened fs' hooks' n' => exact h.elim
          | closing e' u' =>
              refine ⟨h'.1.trans h.1, ?_⟩
              rcases h'.2 with rfl | hnone
              · exact h.2
              · exact Or.inr hnone
          | closed e' => exact h'.elim
      | closed e'' => trivial
  | closed e =>
      cases b with
      | opened fs' hooks' n' => exact h.elim
      | closing e' u' => exact h.elim
      | closed e' =>
          cases c with
          | opened fs'' hooks'' n'' => exact h'.elim
          | closing e'' u'' => exact h'.elim
          | closed e'' => trivial

theorem Scope.Later.refl (sc : Scope φ) : sc.Later sc := ⟨rfl, rfl, .refl _⟩

theorem Scope.later_publish (sc : Scope φ) (e : AnyExit) : sc.Later (sc.publish e).1 := by
  have hlater : ∀ cell, sc.Later { sc with state := .closed e, closed := cell } := by
    intro cell
    refine ⟨rfl, rfl, ?_⟩
    cases sc.state <;> trivial
  unfold Scope.publish
  split
  · exact hlater _
  · exact hlater _

theorem Scope.Later.trans {a b c : Scope φ} (h : a.Later b) (h' : b.Later c) : a.Later c :=
  ⟨h'.owner.trans h.owner, h'.strategy.trans h.strategy, h.state.trans h'.state⟩

/-! ## Fibers -/

/-- What a fiber can turn into in the course of a step, its own or that of another. A fiber that
has not started may be started. -/
structure Fiber.Later (x x' : Fiber σ) : Prop where
  context : x'.context = x.context
  scope : x'.scope = x.scope
  phase : x'.phase = x.phase ∧ x'.nextToken = x.nextToken ∨
    ∃ m, x.phase = .notStarted m ∧ x'.phase = .suspended x.nextToken m ∧
      x'.nextToken = x.nextToken + 1
  terminating : x.terminating = true → x'.terminating = true
  outcome : x'.done.outcome? = x.done.outcome?

/-- The stacks of a fiber that stands aside, and that it is not done. Others may leave word that it is
to be interrupted. -/
structure Fiber.Aside (x x' : Fiber σ) : Prop where
  ops : x'.ops = x.ops
  semaphores : x'.semaphores = x.semaphores
  masks : x'.masks = x.masks
  services : x'.services = x.services
  labels : x'.labels = x.labels
  outcome : x'.done.outcome? = x.done.outcome?
  deferred : World.PutsOff x x'

theorem Fiber.Later.refl (x : Fiber σ) : x.Later x := ⟨rfl, rfl, Or.inl ⟨rfl, rfl⟩, id, rfl⟩

theorem Fiber.Later.trans {a b c : Fiber σ} (h : a.Later b) (h' : b.Later c) : a.Later c where
  context := h'.context.trans h.context
  scope := h'.scope.trans h.scope
  phase := by
    rcases h.phase with ⟨hp, ht⟩ | ⟨m, hp, hp', ht⟩
    · rcases h'.phase with ⟨hq, hu⟩ | ⟨m, hq, hq', hu⟩
      · exact Or.inl ⟨hq.trans hp, hu.trans ht⟩
      · exact Or.inr ⟨m, hp ▸ hq, by rw [← ht]; exact hq', by rw [← ht]; exact hu⟩
    · rcases h'.phase with ⟨hq, hu⟩ | ⟨m', hq, -, -⟩
      · exact Or.inr ⟨m, hp, hq.trans hp', hu.trans ht⟩
      · rw [hp'] at hq
        cases hq
  terminating := fun ht => h'.terminating (h.terminating ht)
  outcome := h'.outcome.trans h.outcome

/-- Tokens are given out in order. -/
theorem Fiber.Later.nextToken {x x' : Fiber σ} (h : x.Later x') : x.nextToken ≤ x'.nextToken := by
  rcases h.phase with ⟨-, ht⟩ | ⟨m, -, -, ht⟩
  · omega
  · omega

theorem Fiber.Aside.refl (x : Fiber σ) : x.Aside x := ⟨rfl, rfl, rfl, rfl, rfl, rfl, .refl x⟩

theorem Fiber.Aside.trans {a b c : Fiber σ} (h : a.Aside b) (h' : b.Aside c) : a.Aside c :=
  ⟨h'.ops.trans h.ops, h'.semaphores.trans h.semaphores, h'.masks.trans h.masks,
    h'.services.trans h.services, h'.labels.trans h.labels, h'.outcome.trans h.outcome,
    h.deferred.trans h.masks h'.deferred⟩

/-! ## Worlds -/

namespace World

/-- The scopes of a world only go forward. -/
def ScopesLater (w w' : World σ) : Prop :=
  ∀ s sc, w.scopes.get? s = some sc → ∃ sc', w'.scopes.get? s = some sc' ∧ sc.Later sc'

/-- The order of worlds under the changes of a step of `actor`. -/
structure Grows (actor : Option (Key .fiber)) (w w' : World σ) : Prop where
  fibers : ∀ f x, w.fibers.get? f = some x → ∃ x', w'.fibers.get? f = some x' ∧ x.Later x' ∧
    (actor ≠ some f → x.Aside x')
  scopes : ScopesLater w w'

variable {actor : Option (Key .fiber)}

theorem Grows.refl (w : World σ) : Grows actor w w :=
  ⟨fun _ x h => ⟨x, h, .refl x, fun _ => .refl x⟩, fun _ sc h => ⟨sc, h, .refl sc⟩⟩

theorem Grows.trans {w₁ w₂ w₃ : World σ} (h : Grows actor w₁ w₂) (h' : Grows actor w₂ w₃) :
    Grows actor w₁ w₃ where
  fibers := by
    intro f x hx
    obtain ⟨x', hx', hlater, haside⟩ := h.fibers f x hx
    obtain ⟨x'', hx'', hlater', haside'⟩ := h'.fibers f x' hx'
    exact ⟨x'', hx'', hlater.trans hlater', fun hf => (haside hf).trans (haside' hf)⟩
  scopes := by
    intro s sc hsc
    obtain ⟨sc', hsc', hlater⟩ := h.scopes s sc hsc
    obtain ⟨sc'', hsc'', hlater'⟩ := h'.scopes s sc' hsc'
    exact ⟨sc'', hsc'', hlater.trans hlater'⟩

/-- A change that reaches neither fibers nor scopes. -/
theorem grows_of_eq {w w' : World σ} (hfibers : w'.fibers = w.fibers)
    (hscopes : w'.scopes = w.scopes) : Grows actor w w' where
  fibers := by rw [hfibers]; exact fun _ x h => ⟨x, h, .refl x, fun _ => .refl x⟩
  scopes := by rw [ScopesLater, hscopes]; exact fun _ sc h => ⟨sc, h, .refl sc⟩

/-- A change of one fiber. -/
theorem grows_set_fiber {w : World σ} {f : Key .fiber} {x' : Fiber σ}
    (h : ∀ x, w.fibers.get? f = some x → x.Later x' ∧ (actor ≠ some f → x.Aside x')) :
    Grows actor w { w with fibers := w.fibers.set f x' } where
  fibers := by
    intro g y hy
    by_cases hfg : f = g
    · subst hfg
      exact ⟨x', Store.get?_set_of_some hy, h y hy⟩
    · exact ⟨y, by rw [Store.get?_set, if_neg hfg, hy], .refl y, fun _ => .refl y⟩
  scopes := fun _ sc h => ⟨sc, h, .refl sc⟩

/-- A change of one scope. -/
theorem grows_set_scope {w : World σ} {s : Key .scope} {sc' : Scope (Finalizer σ)}
    (h : ∀ sc, w.scopes.get? s = some sc → sc.Later sc') :
    Grows actor w { w with scopes := w.scopes.set s sc' } where
  fibers := fun _ x h => ⟨x, h, .refl x, fun _ => .refl x⟩
  scopes := by
    intro t sc hsc
    by_cases hst : s = t
    · subst hst
      exact ⟨sc', Store.get?_set_of_some hsc, h sc hsc⟩
    · exact ⟨sc, by rw [Store.get?_set, if_neg hst, hsc], .refl sc⟩

theorem grows_modify_scope {w : World σ} {s : Key .scope}
    {g : Scope (Finalizer σ) → Scope (Finalizer σ)}
    (h : ∀ sc : Scope (Finalizer σ), sc.Later (g sc)) :
    Grows actor w { w with scopes := w.scopes.modify s g } where
  fibers := fun _ x h => ⟨x, h, .refl x, fun _ => .refl x⟩
  scopes := by
    intro t sc hsc
    rw [Store.get?_modify]
    split
    · exact ⟨g sc, by rw [hsc, Option.map_some], h sc⟩
    · exact ⟨sc, hsc, .refl sc⟩

/-- Reading a scope that is there. -/
theorem scope_of_get {w : World σ} {s : Key .scope} {sc : Scope (Finalizer σ)}
    (h : w.scopes.get? s = some sc) : w.scope s = sc := by
  rw [World.scope, h, Option.getD_some]

/-! ## The changes go forward -/

theorem grows_scopeClosing (w : World σ) (f : Key .fiber) : Grows actor w (w.scopeClosing f) where
  fibers := by
    intro g x hx
    rw [get?_scopeClosing, hx]
    split
    · exact ⟨_, rfl, ⟨rfl, rfl, Or.inl ⟨rfl, rfl⟩, fun _ => rfl, rfl⟩,
        fun _ => ⟨rfl, rfl, rfl, rfl, rfl, rfl, .of_eq rfl⟩⟩
    · exact ⟨x, rfl, .refl x, fun _ => .refl x⟩
  scopes := by
    rw [ScopesLater, scopes_scopeClosing]
    exact fun _ sc h => ⟨sc, h, .refl sc⟩

theorem grows_register (w : World σ) (s : Key .scope) (fin : Finalizer σ) :
    Grows actor w (w.register s fin).1 := by
  unfold register
  split
  · rename_i sc' key heq
    refine grows_set_scope fun sc hsc => ?_
    rw [scope_of_get hsc] at heq
    unfold Scope.register? at heq
    split at heq
    · rename_i fs hooks n hstate
      cases heq
      exact ⟨rfl, rfl, by rw [hstate]; exact ⟨Nat.le_succ _, fun _ h => h⟩⟩
    · cases heq
  · exact .refl w

theorem grows_takeFinalizer (w : World σ) (h : Handle) :
    Grows actor w (w.takeFinalizer h).1 := by
  unfold takeFinalizer
  split
  · rename_i sc' fin heq
    refine grows_set_scope fun sc hsc => ?_
    rw [scope_of_get hsc] at heq
    unfold Scope.take? at heq
    split at heq
    · rename_i fs hooks n hstate
      obtain ⟨x, -, hx⟩ := Option.map_eq_some_iff.mp heq
      cases hx
      exact ⟨rfl, rfl, by rw [hstate]; exact ⟨Nat.le_refl n, fun _ h => h⟩⟩
    · cases heq
  · exact .refl w

theorem grows_takeLent (w : World σ) (h : Handle) : Grows actor w (w.takeLent h).1 := by
  unfold takeLent
  split
  · exact grows_takeFinalizer w h
  · exact .refl w

theorem grows_foldl {α : Type} {g : World σ → α → World σ}
    (h : ∀ w a, Grows actor w (g w a)) (as : List α) (w : World σ) :
    Grows actor w (as.foldl g w) := by
  induction as generalizing w with
  | nil => exact .refl w
  | cons a rest ih => exact (h w a).trans (ih (g w a))

theorem grows_requestClose (w : World σ) (s : Key .scope) (e : AnyExit) :
    Grows actor w (w.requestClose s e).1 := by
  unfold requestClose
  split
  · exact .refl w
  · rename_i sc' closing heq
    have hset : Grows actor w { w with scopes := w.scopes.set s sc' } := by
      refine grows_set_scope fun sc hsc => ?_
      rw [scope_of_get hsc] at heq
      unfold Scope.requestClose? at heq
      split at heq
      · rename_i fs hooks n hstate
        cases heq
        exact ⟨rfl, rfl, by rw [hstate]; trivial⟩
      · cases heq
    refine (hset.trans ?_).trans (grows_foldl grows_scopeClosing closing.hooks _)
    split
    · exact grows_takeFinalizer _ _
    · exact .refl _

theorem grows_hook (w : World σ) (s : Key .scope) (f : Key .fiber) :
    Grows actor w (w.hook s f) := by
  unfold hook
  split
  · rename_i sc' heq
    refine grows_set_scope fun sc hsc => ?_
    rw [scope_of_get hsc] at heq
    unfold Scope.hook? at heq
    split at heq
    · rename_i fs hooks n hstate
      cases heq
      exact ⟨rfl, rfl, by rw [hstate]; exact ⟨Nat.le_refl n, fun _ h => List.mem_append_left _ h⟩⟩
    · cases heq
  · exact grows_scopeClosing w f

theorem grows_newScope (w : World σ) (owner : FiberId) (strategy : Strategy) :
    Grows actor w (w.newScope owner strategy).1 where
  fibers := fun _ x h => ⟨x, h, .refl x, fun _ => .refl x⟩
  scopes := fun _ sc h => ⟨sc, Store.get?_add_of_some _ h, .refl sc⟩

theorem grows_forkScope (w : World σ) (s : Key .scope) (owner : FiberId) :
    Grows actor w (w.forkScope s owner).1 := by
  have hnew : Grows actor w (w.newScope owner (w.scope s).strategy).1 := grows_newScope w _ _
  have hregister : Grows actor _ ((w.newScope owner (w.scope s).strategy).1.register s
      (.closeChild (w.newScope owner (w.scope s).strategy).2 (w.scope s).owner)).1 :=
    grows_register _ _ _
  exact (hnew.trans hregister).trans (grows_modify_scope fun sc => ⟨rfl, rfl, .refl _⟩)

theorem grows_newFiber (w : World σ) (c : Context) (s : Key .scope) (p : Program σ)
    (services : Services) (inherited : List Frame) :
    Grows actor w (w.newFiber c s p services inherited).1 := by
  have hadd : ∀ x : Fiber σ, Grows actor w
      { (w.newSemaphore c.concurrency).1 with fibers := (w.fibers.add x).1 } := fun x =>
    ⟨fun f y hy => ⟨y, Store.get?_add_of_some _ hy, .refl y, fun _ => .refl y⟩,
      fun _ sc h => ⟨sc, h, .refl sc⟩⟩
  exact (hadd _).trans (grows_hook _ s _)

theorem grows_startFiber (w : World σ) (f : Key .fiber) : Grows actor w (w.startFiber f) := by
  unfold startFiber
  split
  · exact .refl w
  · rename_i x hx
    split
    · rename_i m hphase
      have hset : Grows actor w { w with fibers := w.fibers.set f (x.park m).1 } := by
        refine grows_set_fiber fun y hy => ?_
        obtain rfl : x = y := Option.some.inj (hx.symm.trans hy)
        exact ⟨⟨rfl, rfl, Or.inr ⟨m, hphase, rfl, rfl⟩, id, rfl⟩,
          fun _ => ⟨rfl, rfl, rfl, rfl, rfl, rfl, .of_eq rfl⟩⟩
      exact hset.trans (grows_of_eq rfl rfl)
    · exact .refl w

theorem grows_claim {w : World σ} {s : Key .scope} {sc' : Scope (Finalizer σ)} {e : AnyExit}
    {fins : List (Nat × Finalizer σ)} (h : (w.scope s).claim? = some (sc', e, fins)) :
    Grows actor w { w with scopes := w.scopes.set s sc' } := by
  refine grows_set_scope fun sc hsc => ?_
  rw [scope_of_get hsc] at h
  unfold Scope.claim? at h
  split at h
  · rename_i exit fs hstate
    cases h
    exact ⟨rfl, rfl, by rw [hstate]; exact ⟨rfl, Or.inr rfl⟩⟩
  · cases h

theorem grows_publish (w : World σ) (s : Key .scope) (e : AnyExit) :
    Grows actor w (w.publish s e) := by
  have hset : Grows actor w { w with scopes := w.scopes.set s ((w.scope s).publish e).1 } := by
    refine grows_set_scope fun sc hsc => ?_
    rw [scope_of_get hsc]
    exact sc.later_publish e
  exact hset.trans (grows_of_eq (fibers_publish w s e) (scopes_publish w s e))

theorem grows_touch {w : World σ} {f : Key .fiber} {x x' : Fiber σ}
    (hx : w.fibers.get? f = some x) (ht : Touches x x') :
    Grows actor w { w with fibers := w.fibers.set f x' } := by
  refine grows_set_fiber fun y hy => ?_
  obtain rfl : x = y := Option.some.inj (hx.symm.trans hy)
  rw [ht.rest]
  exact ⟨⟨rfl, rfl, Or.inl ⟨rfl, rfl⟩, id, ht.outcome⟩,
    fun _ => ⟨rfl, rfl, rfl, rfl, rfl, ht.outcome, ht.word⟩⟩

/-- Every elementary change goes forward. -/
theorem Change.grows {L : Licence} {w w' : World σ}
    (h : Change L actor w w') : Grows actor w w' := by
  cases h with
  | elsewhere he => exact grows_of_eq he.fibers he.scopes
  | touch hx ht => exact grows_touch hx ht
  | contest _ hthere h =>
      clear hthere
      induction h with
      | refl => exact .refl w
      | tail _ hstep ih =>
          refine ih.trans ?_
          cases hstep with
          | elsewhere he => exact grows_of_eq he.fibers he.scopes
          | touch hx ht => exact grows_touch hx ht
  | @own f x x' hactor hx ho =>
      refine grows_set_fiber fun y hy => ?_
      obtain rfl : x = y := Option.some.inj (hx.symm.trans hy)
      rw [ho]
      exact ⟨⟨rfl, rfl, Or.inl ⟨rfl, rfl⟩, id, rfl⟩, fun hne => absurd hactor hne⟩
  | enlist => exact grows_newFiber _ _ _ _ _ _
  | launch => exact grows_startFiber _ _
  | newScope => exact grows_newScope _ _ _
  | forkScope => exact grows_forkScope _ _ _
  | register => exact grows_register _ _ _
  | take => exact grows_takeFinalizer _ _
  | lent => exact grows_takeLent _ _
  | close => exact grows_requestClose _ _ _
  | claim _ hclaim => exact grows_claim hclaim
  | publish => exact grows_publish _ _ _

theorem Changes.grows {L : Licence} {w w' : World σ}
    (h : Changes L actor w w') : Grows actor w w' := by
  induction h with
  | refl => exact .refl w
  | tail _ hstep ih => exact ih.trans hstep.grows

end World

end Fibers
