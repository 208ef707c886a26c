import Fibers.Proofs.Run.Above
import Fibers.Proofs.Suspensions.Onset

set_option autoImplicit false

/-! # Who is told that a scope is closing

A fiber is told that its scope is closing only when it is: on the hooks of a scope stand fibers of that
scope, and so is one that is told because it comes too late to be hung on them (`Run.noted`). So a fiber
that has to leave its program is one of a scope that is not open. And nobody leaves a program without an
exit for another reason (`Run.unled`).
-/

namespace Fibers

variable {σ : Type} {L : Licence} {actor : Option (Key .fiber)}

/-- The fibers that stand on the hooks of a scope. -/
def Scope.hooks {φ : Type} (sc : Scope φ) : List (Key .fiber) :=
  match sc.state with
  | .opened _ hooks _ => hooks
  | _ => []

theorem Scope.hooks_of_opened {φ : Type} {sc : Scope φ} {fs : List (Nat × φ)} {hooks : List (Key .fiber)}
    {n : Nat} (h : sc.state = .opened fs hooks n) : sc.hooks = hooks := by
  rw [Scope.hooks, h]

namespace World

variable {w w' : World σ} {f : Key .fiber} {s : Key .scope}

/-- Who has been told that its scope is closing was told the truth, and on the hooks of a scope stand
fibers of that scope. -/
structure Noted (w : World σ) : Prop where
  told : ∀ f x, w.fibers.get? f = some x → x.terminating = true → Sealed w x.scope
  hooked : ∀ s sc, w.scopes.get? s = some sc → ∀ f ∈ sc.hooks,
    ∃ x, w.fibers.get? f = some x ∧ x.scope = s

/-- A change that tells nobody that a scope is closing, hangs nobody on a scope, and makes no fibers. -/
structure Discreet (w w' : World σ) : Prop where
  comes : ∀ f x', w'.fibers.get? f = some x' →
    ∃ x, w.fibers.get? f = some x ∧ x'.scope = x.scope ∧ x'.terminating = x.terminating
  keeps : ∀ f x, w.fibers.get? f = some x → ∃ x', w'.fibers.get? f = some x' ∧ x'.scope = x.scope
  later : ScopesLater w w'
  hooks : ∀ s sc', w'.scopes.get? s = some sc' → ∀ f ∈ sc'.hooks,
    ∃ sc, w.scopes.get? s = some sc ∧ f ∈ sc.hooks

theorem Noted.discreet (hw : w.Noted) (h : Discreet w w') : w'.Noted where
  told := by
    intro f x' hx' hterm
    obtain ⟨x, hx, hscope, heq⟩ := h.comes f x' hx'
    rw [hscope]
    exact (hw.told f x hx (heq ▸ hterm)).mono h.later
  hooked := by
    intro s sc' hsc' f hf
    obtain ⟨sc, hsc, hmem⟩ := h.hooks s sc' hsc' f hf
    obtain ⟨x, hx, hscope⟩ := hw.hooked s sc hsc f hmem
    obtain ⟨x', hx', heq⟩ := h.keeps f x hx
    exact ⟨x', hx', heq.trans hscope⟩

theorem Discreet.of_eq (hfibers : w'.fibers = w.fibers) (hscopes : w'.scopes = w.scopes) :
    Discreet w w' where
  comes := fun _ x hx => ⟨x, hfibers ▸ hx, rfl, rfl⟩
  keeps := fun _ x hx => ⟨x, hfibers ▸ hx, rfl⟩
  later := fun _ sc hsc => ⟨sc, hscopes ▸ hsc, .refl sc⟩
  hooks := fun _ sc hsc _ hf => ⟨sc, hscopes ▸ hsc, hf⟩

theorem Discreet.refl (w : World σ) : Discreet w w := .of_eq rfl rfl

theorem Discreet.trans {w'' : World σ} (h : Discreet w w') (h' : Discreet w' w'') : Discreet w w'' where
  comes := by
    intro f x'' hx''
    obtain ⟨x', hx', hscope', heq'⟩ := h'.comes f x'' hx''
    obtain ⟨x, hx, hscope, heq⟩ := h.comes f x' hx'
    exact ⟨x, hx, hscope'.trans hscope, heq'.trans heq⟩
  keeps := by
    intro f x hx
    obtain ⟨x', hx', hscope⟩ := h.keeps f x hx
    obtain ⟨x'', hx'', hscope'⟩ := h'.keeps f x' hx'
    exact ⟨x'', hx'', hscope'.trans hscope⟩
  later := by
    intro s sc hsc
    obtain ⟨sc', hsc', hlater⟩ := h.later s sc hsc
    obtain ⟨sc'', hsc'', hlater'⟩ := h'.later s sc' hsc'
    exact ⟨sc'', hsc'', hlater.trans hlater'⟩
  hooks := by
    intro s sc'' hsc'' f hf
    obtain ⟨sc', hsc', hf'⟩ := h'.hooks s sc'' hsc'' f hf
    exact h.hooks s sc' hsc' f hf'

/-- A change of a fiber that leaves it in its scope. -/
theorem discreet_set_fiber {x x' : Fiber σ} (hx : w.fibers.get? f = some x)
    (hfibers : w'.fibers = w.fibers.set f x') (hscopes : w'.scopes = w.scopes)
    (hscope : x'.scope = x.scope) (hterm : x'.terminating = x.terminating) : Discreet w w' where
  comes := by
    intro g y hy
    rw [hfibers] at hy
    by_cases hfg : f = g
    · subst hfg
      rw [Store.get?_set_of_some hx] at hy
      cases hy
      exact ⟨x, hx, hscope, hterm⟩
    · rw [Store.get?_set, if_neg hfg] at hy
      exact ⟨y, hy, rfl, rfl⟩
  keeps := by
    intro g y hy
    rw [hfibers]
    by_cases hfg : f = g
    · subst hfg
      obtain rfl := Option.some.inj (hx.symm.trans hy)
      exact ⟨x', Store.get?_set_of_some hx, hscope⟩
    · exact ⟨y, by rw [Store.get?_set, if_neg hfg, hy], rfl⟩
  later := fun _ sc hsc => ⟨sc, hscopes ▸ hsc, .refl sc⟩
  hooks := fun _ sc hsc _ hf => ⟨sc, hscopes ▸ hsc, hf⟩

/-- Where fibers stay as they are, it is enough to look at scopes. -/
theorem Discreet.of_fibers (hfibers : w'.fibers = w.fibers) (hlater : ScopesLater w w')
    (hhooks : ∀ s sc', w'.scopes.get? s = some sc' → ∀ f ∈ sc'.hooks,
      ∃ sc, w.scopes.get? s = some sc ∧ f ∈ sc.hooks) : Discreet w w' :=
  ⟨fun _ x hx => ⟨x, hfibers ▸ hx, rfl, rfl⟩, fun _ x hx => ⟨x, hfibers ▸ hx, rfl⟩, hlater, hhooks⟩

/-- A change of a scope that hangs nobody on it. -/
theorem discreet_set_scope {sc' : Scope (Finalizer σ)} (hfibers : w'.fibers = w.fibers)
    (hscopes : w'.scopes = w.scopes.set s sc')
    (hlater : ScopesLater w w') (hhooks : ∀ f ∈ sc'.hooks, f ∈ (w.scope s).hooks) : Discreet w w' := by
  refine .of_fibers hfibers hlater fun t sc ht f hf => ?_
  rw [hscopes, Store.get?_set] at ht
  split at ht
  · rename_i hst
    subst hst
    obtain ⟨sc₀, hsc₀, rfl⟩ := Option.map_eq_some_iff.mp ht
    exact ⟨sc₀, hsc₀, scope_of_get hsc₀ ▸ hhooks f hf⟩
  · exact ⟨sc, ht, hf⟩

/-! ## Scopes -/

theorem discreet_register (w : World σ) (s : Key .scope) (fin : Finalizer σ) :
    Discreet w (w.register s fin).1 := by
  have hgrows : Grows none w (w.register s fin).1 := grows_register w s fin
  have hlater := hgrows.scopes
  unfold register at hlater ⊢
  split
  · rename_i sc key heq
    rw [heq] at hlater
    refine discreet_set_scope rfl rfl hlater fun f hf => ?_
    unfold Scope.register? at heq
    split at heq
    · rename_i hstate
      cases heq
      rwa [Scope.hooks_of_opened hstate]
    · cases heq
  · exact .refl w

theorem discreet_takeFinalizer (w : World σ) (h : Handle) : Discreet w (w.takeFinalizer h).1 := by
  have hgrows : Grows none w (w.takeFinalizer h).1 := grows_takeFinalizer w h
  have hlater := hgrows.scopes
  unfold takeFinalizer at hlater ⊢
  split
  · rename_i sc fin heq
    rw [heq] at hlater
    refine discreet_set_scope rfl rfl hlater fun f hf => ?_
    unfold Scope.take? at heq
    split at heq
    · rename_i hstate
      obtain ⟨x, -, hx⟩ := Option.map_eq_some_iff.mp heq
      cases hx
      rwa [Scope.hooks_of_opened hstate]
    · cases heq
  · exact .refl w

theorem discreet_newScope (w : World σ) (owner : FiberId) (strategy : Strategy) :
    Discreet w (w.newScope owner strategy).1 := by
  have hgrows : Grows none w (w.newScope owner strategy).1 := grows_newScope w owner strategy
  refine .of_fibers rfl hgrows.scopes fun s sc hsc f hf => ?_
  rw [newScope, Store.get?_add] at hsc
  split at hsc
  · cases hsc
    cases hf
  · exact ⟨sc, hsc, hf⟩

theorem discreet_forkScope (w : World σ) (s : Key .scope) (owner : FiberId) :
    Discreet w (w.forkScope s owner).1 := by
  set w₁ := ((w.newScope owner (w.scope s).strategy).1.register s
    (.closeChild (w.newScope owner (w.scope s).strategy).2 (w.scope s).owner)).1 with hw₁
  have hbefore : Discreet w w₁ := (discreet_newScope w _ _).trans (discreet_register _ _ _)
  have hfibers : (w.forkScope s owner).1.fibers = w.fibers := (parts_register _ s _).2.2
  have hgrows : Grows none w (w.forkScope s owner).1 := grows_forkScope w s owner
  refine .of_fibers hfibers hgrows.scopes fun t sc ht f hf => ?_
  simp only [forkScope, ← hw₁, Store.get?_modify] at ht
  split at ht
  · obtain ⟨sc₀, hsc₀, rfl⟩ := Option.map_eq_some_iff.mp ht
    exact hbefore.hooks t sc₀ hsc₀ f hf
  · exact hbefore.hooks t sc ht f hf

/-! ## Telling -/

/-- A fiber of a scope that is not open may be told. -/
theorem noted_scopeClosing (hw : w.Noted)
    (hf : ∀ x, w.fibers.get? f = some x → Sealed w x.scope) : (w.scopeClosing f).Noted where
  told := by
    intro g x' hx' hterm
    rw [get?_scopeClosing] at hx'
    unfold Sealed
    rw [scopes_scopeClosing]
    split at hx'
    · rename_i hfg
      subst hfg
      obtain ⟨x, hx, rfl⟩ := Option.map_eq_some_iff.mp hx'
      exact hf x hx
    · exact hw.told g x' hx' hterm
  hooked := by
    intro s sc hsc g hg
    rw [scopes_scopeClosing] at hsc
    obtain ⟨x, hx, hscope⟩ := hw.hooked s sc hsc g hg
    rw [get?_scopeClosing, hx]
    split
    · exact ⟨_, rfl, hscope⟩
    · exact ⟨x, rfl, hscope⟩

theorem noted_scopesClosing {fs : List (Key .fiber)} (hw : w.Noted)
    (hfs : ∀ f ∈ fs, ∀ x, w.fibers.get? f = some x → Sealed w x.scope) :
    (fs.foldl scopeClosing w).Noted := by
  induction fs generalizing w with
  | nil => exact hw
  | cons f rest ih =>
      refine ih (noted_scopeClosing hw (hfs f List.mem_cons_self)) fun g hg x hx => ?_
      unfold Sealed
      rw [scopes_scopeClosing]
      rw [get?_scopeClosing] at hx
      split at hx
      · obtain ⟨x₀, hx₀, rfl⟩ := Option.map_eq_some_iff.mp hx
        exact hfs g (List.mem_cons_of_mem _ hg) x₀ hx₀
      · exact hfs g (List.mem_cons_of_mem _ hg) x hx

/-- The request to close a scope tells the fibers on its hooks, and these are its own. -/
theorem noted_requestClose (hw : w.Noted) (s : Key .scope) (e : AnyExit) :
    (w.requestClose s e).1.Noted := by
  unfold requestClose
  split
  · exact hw
  · rename_i sc' closing heq
    unfold Scope.requestClose? at heq
    split at heq
    · rename_i fs hooks n hstate
      cases heq
      set sc' : Scope (Finalizer σ) :=
        { w.scope s with state := .closing e (some fs), parent := none } with hsc'
      have hthere : w.scopes.get? s = some (w.scope s) := get_of_opened hstate
      have hgrows : Grows none w { w with scopes := w.scopes.set s sc' } :=
        grows_set_scope fun sc hsc => by
          obtain rfl := Option.some.inj (hthere.symm.trans hsc)
          exact ⟨rfl, rfl, by rw [hstate]; trivial⟩
      have hset : Discreet w { w with scopes := w.scopes.set s sc' } :=
        discreet_set_scope rfl rfl hgrows.scopes fun f hf => by cases hf
      have hsealed : ∀ w₁ : World σ, Discreet { w with scopes := w.scopes.set s sc' } w₁ →
          ∀ f ∈ hooks, ∀ x, w₁.fibers.get? f = some x → Sealed w₁ x.scope := by
        intro w₁ h₁ f hf x hx
        obtain ⟨x₀, hx₀, hscope, -⟩ := h₁.comes f x hx
        obtain ⟨x₁, hx₁, hscope₁⟩ := hw.hooked s _ hthere f (Scope.hooks_of_opened hstate ▸ hf)
        obtain rfl := Option.some.inj (hx₁.symm.trans hx₀)
        have hshut : Sealed { w with scopes := w.scopes.set s sc' } s :=
          ⟨sc', Store.get?_set_of_some hthere, rfl⟩
        rw [hscope, hscope₁]
        exact hshut.mono h₁.later
      dsimp only
      split
      · have hcancel := discreet_takeFinalizer { w with scopes := w.scopes.set s sc' } ‹Handle›
        exact noted_scopesClosing ((hw.discreet hset).discreet hcancel) (hsealed _ hcancel)
      · exact noted_scopesClosing (hw.discreet hset) (hsealed _ (.refl _))
    · cases heq

/-- A new fiber is hung on its scope, or told that it is closing. -/
theorem noted_newFiber (hw : w.Noted) (c : Context) {s : Key .scope} (p : Program σ) (services : Services)
    (inherited : List Frame) (hs : (w.scopes.get? s).isSome = true) :
    (w.newFiber c s p services inherited).1.Noted := by
  obtain ⟨x, hscope, hterm, hnew⟩ : ∃ x : Fiber σ, x.scope = s ∧ x.terminating = false ∧
      (w.newFiber c s p services inherited).1 =
        hook { (w.newSemaphore c.concurrency).1 with fibers := (w.fibers.add x).1 } s
          (w.fibers.add x).2 := ⟨_, rfl, rfl, rfl⟩
  rw [hnew]
  set f := (w.fibers.add x).2 with hf
  set w₁ : World σ := { (w.newSemaphore c.concurrency).1 with fibers := (w.fibers.add x).1 } with hw₁
  have hadded : w₁.fibers.get? f = some x := by rw [hw₁, hf, Store.get?_add, if_pos rfl]
  have hnoted : w₁.Noted := by
    refine ⟨fun g y hy hy' => ?_, fun t sc ht g hg => ?_⟩
    · rw [hw₁, Store.get?_add] at hy
      split at hy
      · cases hy
        rw [hterm] at hy'
        cases hy'
      · exact hw.told g y hy hy'
    · obtain ⟨y, hy, hyt⟩ := hw.hooked t sc ht g hg
      exact ⟨y, Store.get?_add_of_some _ hy, hyt⟩
  obtain ⟨sc, hsc⟩ := Option.isSome_iff_exists.mp hs
  have hsc₁ : w₁.scopes.get? s = some sc := hsc
  unfold hook
  split
  · rename_i sc' heq
    rw [scope_of_get hsc₁] at heq
    unfold Scope.hook? at heq
    split at heq
    · rename_i fs hooks n hstate
      cases heq
      have hgrows : Grows none w₁
          { w₁ with scopes := w₁.scopes.set s { sc with state := .opened fs (hooks ++ [f]) n } } :=
        grows_set_scope fun sc₀ hsc₀ => by
          obtain rfl := Option.some.inj (hsc₁.symm.trans hsc₀)
          exact ⟨rfl, rfl, by rw [hstate]; exact ⟨Nat.le_refl _, fun _ h => List.mem_append_left _ h⟩⟩
      refine ⟨fun g y hy hy' => (hnoted.told g y hy hy').mono hgrows.scopes, fun t sc₂ ht g hg => ?_⟩
      · by_cases hst : s = t
        · subst hst
          rw [Store.get?_set_of_some hsc₁] at ht
          cases ht
          rcases List.mem_append.mp (show g ∈ hooks ++ [f] from hg) with hg | hg
          · exact hnoted.hooked s sc hsc₁ g (Scope.hooks_of_opened hstate ▸ hg)
          · rw [List.mem_singleton.mp hg]
            exact ⟨x, hadded, hscope⟩
        · rw [Store.get?_set, if_neg hst] at ht
          exact hnoted.hooked t sc₂ ht g hg
    · cases heq
  · rename_i heq
    refine noted_scopeClosing hnoted fun y hy => ?_
    obtain rfl := Option.some.inj (hadded.symm.trans hy)
    rw [scope_of_get hsc₁] at heq
    refine ⟨sc, hscope ▸ hsc₁, ?_⟩
    unfold Scope.hook? at heq
    cases hstate : sc.state with
    | opened fs hooks n =>
        rw [hstate] at heq
        cases heq
    | closing e u => rw [Scope.isOpen, hstate]
    | closed e => rw [Scope.isOpen, hstate]

/-! ## Elementary changes -/

theorem discreet_touch {x x' : Fiber σ} (hx : w.fibers.get? f = some x) (h : Touches x x') :
    Discreet w { w with fibers := w.fibers.set f x' } :=
  discreet_set_fiber hx rfl rfl (by rw [h.rest]) (by rw [h.rest])

theorem discreet_startFiber (w : World σ) (f : Key .fiber) : Discreet w (w.startFiber f) := by
  unfold startFiber
  split
  · exact .refl w
  · rename_i x hx
    split
    · exact discreet_set_fiber hx rfl rfl rfl rfl
    · exact .refl w

theorem Change.noted (h : Change L actor w w') (hw : w.Noted) : w'.Noted := by
  have hlater : ScopesLater w w' := h.grows.scopes
  cases h with
  | elsewhere he => exact hw.discreet (.of_eq he.fibers he.scopes)
  | touch hx ht => exact hw.discreet (discreet_touch hx ht)
  | contest _ hthere h =>
      clear hthere hlater
      induction h with
      | refl => exact hw
      | tail _ hstep ih =>
          cases hstep with
          | elsewhere he => exact ih.discreet (.of_eq he.fibers he.scopes)
          | touch hx ht => exact ih.discreet (discreet_touch hx ht)
  | own _ hx ho => exact hw.discreet (discreet_set_fiber hx rfl rfl (by rw [ho]) (by rw [ho]))
  | enlist hs => exact noted_newFiber hw _ _ _ _ hs
  | launch => exact hw.discreet (discreet_startFiber w _)
  | newScope => exact hw.discreet (discreet_newScope w _ _)
  | forkScope => exact hw.discreet (discreet_forkScope w _ _)
  | register => exact hw.discreet (discreet_register w _ _)
  | take => exact hw.discreet (discreet_takeFinalizer w _)
  | lent =>
      unfold takeLent
      split
      · exact hw.discreet (discreet_takeFinalizer w _)
      · exact hw
  | close => exact noted_requestClose hw _ _
  | claim _ hclaim =>
      refine hw.discreet (discreet_set_scope rfl rfl hlater fun f hf => ?_)
      unfold Scope.claim? at hclaim
      split at hclaim
      · cases hclaim
        cases hf
      · cases hclaim
  | @publish s e =>
      refine hw.discreet (discreet_set_scope (fibers_publish w s e) (scopes_publish w s e) hlater
        fun f hf => ?_)
      unfold Scope.publish at hf
      split at hf
      · cases hf
      · cases hf

theorem Changes.noted (h : Changes L actor w w') (hw : w.Noted) : w'.Noted := by
  induction h with
  | refl => exact hw
  | tail _ hstep ih => exact hstep.noted ih

/-! ## The ends of steps -/

theorem discreet_park {x y : Fiber σ} (hx : w.fibers.get? f = some x) (hscope : y.scope = x.scope)
    (hterm : y.terminating = x.terminating) (m : Machine σ) : Discreet w (w.park f y m).1 := by
  refine discreet_set_fiber hx (fibers_park w f y m) ?_ hscope hterm
  unfold park
  dsimp only
  split <;> rfl

theorem discreet_modifyFiber (w : World σ) (f : Key .fiber) {g : Fiber σ → Fiber σ}
    (hscope : ∀ x, (g x).scope = x.scope) (hterm : ∀ x, (g x).terminating = x.terminating) :
    Discreet w (w.modifyFiber f g) := by
  cases hget : w.fibers.get? f with
  | none => exact .of_eq (Store.modify_eq_self g hget) rfl
  | some x => exact discreet_set_fiber hget (Store.modify_eq_set g hget) rfl (hscope x) (hterm x)

theorem discreet_subscribe (w : World σ) (k : Wake) (a : Awaited) : Discreet w (w.subscribe k a) := by
  have hgrows : Grows none w (w.subscribe k a) := grows_subscribe w k a
  have hlater := hgrows.scopes
  cases a with
  | future f => exact .of_eq (parts_watchFuture w f _).1 (parts_watchFuture w f _).2
  | done f =>
      simp only [subscribe, watchFiber]
      split
      · exact .refl w
      · split
        · exact discreet_modifyFiber w f (fun _ => rfl) fun _ => rfl
        · split
          · exact .of_eq rfl rfl
          · exact .refl w
  | closed s =>
      simp only [subscribe] at hlater ⊢
      split
      · rename_i heq
        rw [heq] at hlater
        exact discreet_set_scope rfl rfl hlater fun _ hf => hf
      · exact .refl w
  | decided t =>
      simp only [subscribe]
      split
      · exact .of_eq rfl rfl
      · exact .refl w

theorem discreet_finishFiber (w : World σ) (f : Key .fiber) (e : AnyExit) :
    Discreet w (w.finishFiber f e) := by
  unfold finishFiber
  split
  · exact .refl w
  · split
    · exact discreet_modifyFiber w f (fun _ => rfl) fun _ => rfl
    · rename_i cell watchers _
      refine (discreet_modifyFiber w f (g := fun fiber =>
        { fiber with phase := .done e, done := cell }) (fun _ => rfl) fun _ => rfl).trans (.of_eq ?_ ?_)
      · exact foldl_keeps fibers _ (fun w o => fibers_notifyDone f e w o) _ _
      · exact foldl_keeps scopes _ (fun w o => scopes_notifyDone f e w o) _ _

theorem discreet_conclude (f : Key .fiber) (stepped : World σ × Stepped σ) :
    Discreet stepped.1 (conclude f stepped).world := by
  obtain ⟨w, m, d⟩ := stepped
  cases d with
  | proceed => exact .refl w
  | yield =>
      simp only [conclude]
      cases hget : w.fibers.get? f with
      | none => exact .refl w
      | some x => exact (discreet_park hget rfl rfl m).trans (.of_eq rfl rfl)
  | await a release =>
      simp only [conclude]
      cases hget : w.fibers.get? f with
      | none => exact .refl w
      | some x =>
          dsimp only
          have hpark : Discreet w (w.park f { x with ops := 0 } (m.holding release)).1 :=
            discreet_park (y := { x with ops := 0 }) hget rfl rfl _
          split
          · exact hpark.trans (discreet_subscribe _ _ a)
          · exact hpark.trans (discreet_modifyFiber _ f (fun _ => rfl) fun _ => rfl)
  | done e => exact discreet_finishFiber w f e

theorem discreet_awaken (w : World σ) (f : Key .fiber) (token : Nat) (r : Resume σ) :
    Discreet w (w.awaken f token r).world := by
  rcases awaken_cases w f token r with heq | ⟨y, m, c, hy, -, -, -, heq⟩
  · exact heq ▸ .refl w
  · rw [heq]
    exact discreet_set_fiber hy rfl rfl rfl rfl

/-! ## Phases -/

/-- A fiber after a change has the machine that it had, if it is put aside, and it runs only if it did; or
it is new and has not begun with its program. -/
theorem Change.phase (h : Change L actor w w') {x' : Fiber σ} (hx' : w'.fibers.get? f = some x') :
    (∃ x, w.fibers.get? f = some x ∧ x'.phase.machine? = x.phase.machine? ∧
      (x'.phase = .running → x.phase = .running)) ∨
    ∃ p, x'.phase.machine? = some { control := .start p } := by
  rcases h.newborn hx' with ⟨x, hx⟩ | ⟨hborn, -⟩
  · obtain ⟨x₁, hx₁, hlater, -⟩ := h.grows.fibers f x hx
    obtain rfl := Option.some.inj (hx₁.symm.trans hx')
    refine Or.inl ⟨x, hx, ?_⟩
    rcases hlater.phase with ⟨hp, -⟩ | ⟨m, hp, hp', -⟩
    · exact ⟨by rw [hp], fun hrun => hp ▸ hrun⟩
    · refine ⟨by rw [hp, hp']; rfl, fun hrun => ?_⟩
      rw [hp'] at hrun
      cases hrun
  · obtain ⟨p, hp⟩ := hborn.phase
    exact Or.inr ⟨p, by rw [hp]; rfl⟩

theorem Changes.phase (h : Changes L actor w w') {x' : Fiber σ} (hx' : w'.fibers.get? f = some x') :
    (∃ x, w.fibers.get? f = some x ∧ x'.phase.machine? = x.phase.machine? ∧
      (x'.phase = .running → x.phase = .running)) ∨
    ∃ p, x'.phase.machine? = some { control := .start p } := by
  induction h using Relation.ReflTransGen.head_induction_on with
  | refl => exact Or.inl ⟨x', hx', rfl, id⟩
  | head hstep _ ih =>
      rcases ih with ⟨x₁, hx₁, hmachine, hrun⟩ | hnew
      · refine (hstep.phase hx₁).imp ?_ ?_
        · rintro ⟨x, hx, hmachine', hrun'⟩
          exact ⟨x, hx, hmachine.trans hmachine', fun h => hrun' (hrun h)⟩
        · rintro ⟨p, hp⟩
          exact ⟨p, hmachine.trans hp⟩
      · exact Or.inr hnew

/-- An exit that comes down to the bottom of a stack is the one that the program is left with. -/
theorem control_unwind (f : Key .fiber) (exiting : Bool) (e : AnyExit) (stack : List (Waiting σ))
    (w : World σ) : (unwind f exiting e stack w).2.machine.control ≠ .leave none := by
  by_cases hdown : (descend f e.isFailure stack w).2 = []
  · rw [unwind_descend, hdown]
    cases e with
    | success v =>
        simp only [unwind, unwindValue, endWith]
        split <;> simp
    | failure c =>
        simp only [unwind, unwindFailure, endWith]
        split <;> simp
  · exact (stays_unwind hdown exiting).control none

/-- No step leaves a machine with nothing to go on with. -/
theorem control_step (w : World σ) (f : Key .fiber) (fiber : Fiber σ) (m : Machine σ) :
    (w.step f fiber m).2.machine.control ≠ .leave none := by
  by_cases hbudget : fiber.ops < fiber.context.limits.maxOps
  · by_cases hexit : ∃ e, m.control = .ofExit e
    · obtain ⟨e, he⟩ := hexit
      rw [step_unwind he hbudget]
      exact control_unwind f m.exiting e m.stack _
    · cases hcontrol : m.control with
      | start p =>
          simp only [step, hcontrol]
          exact instruct_ne_leave p none
      | leave e =>
          simp only [step, hcontrol, leave]
          exact instruct_ne_leave _ none
      | instruct p =>
          rw [step_instruct hcontrol hbudget]
          exact (stays_instruct _ f fiber (fun e => hcontrol ▸ instruct_ne_leave p e) p).control none
      | value v => exact absurd ⟨.success v, hcontrol⟩ hexit
      | failure c => exact absurd ⟨.failure c, hcontrol⟩ hexit
  · by_cases hwork : (∃ p, m.control = .instruct p) ∨ ∃ e, m.control = .ofExit e
    · rw [step_tired hwork (Nat.le_of_not_lt hbudget)]
      rcases hwork with ⟨p, hp⟩ | ⟨e, he⟩
      · exact hp ▸ instruct_ne_leave p none
      · exact he ▸ ofExit_ne_leave e none
    · cases hcontrol : m.control with
      | start p =>
          simp only [step, hcontrol]
          exact instruct_ne_leave p none
      | leave e =>
          simp only [step, hcontrol, leave]
          exact instruct_ne_leave _ none
      | instruct p => exact absurd (Or.inl ⟨p, hcontrol⟩) hwork
      | value v => exact absurd (Or.inr ⟨.success v, hcontrol⟩) hwork
      | failure c => exact absurd (Or.inr ⟨.failure c, hcontrol⟩) hwork

/-- The fiber in its turn after its step: it goes on, it is put aside with a machine, or it is done. -/
theorem phase_conclude {f : Key .fiber} {stepped : World σ × Stepped σ} {y y' : Fiber σ}
    (hy : stepped.1.fibers.get? f = some y)
    (hy' : (conclude f stepped).world.fibers.get? f = some y') :
    (∃ m, (conclude f stepped).machine? f = some m ∧
      (m.control = stepped.2.machine.control ∨ ∃ p, m.control = .instruct p)) ∨
    ∃ e, y'.phase = .done e := by
  by_cases hdone : ∃ e, stepped.2.decision = .done e
  · obtain ⟨w, m, d⟩ := stepped
    obtain ⟨e, rfl⟩ := hdone
    obtain ⟨c, hc, -⟩ := get?_finishFiber_self hy e
    obtain rfl := Option.some.inj (hc.symm.trans hy')
    exact Or.inr ⟨e, rfl⟩
  · obtain ⟨m, hm, -, -, hsame | ⟨_, _, p, _, hp, _⟩⟩ :=
      machine?_conclude ⟨y, hy⟩ fun e he => hdone ⟨e, he⟩
    · exact Or.inl ⟨m, hm, Or.inl hsame⟩
    · exact Or.inl ⟨m, hm, Or.inr ⟨p, hp⟩⟩

end World

/-! ## Moves -/

/-- Nobody runs but the fiber whose turn it is. -/
def Moment.Sole (x : Moment σ) : Prop :=
  ∀ f y, x.world.fibers.get? f = some y → y.phase = .running → ∃ m, x.active = some (f, m)

/-- No machine has been left with nothing to go on with. -/
def Moment.Unled (x : Moment σ) : Prop := ∀ f m, x.machine? f = some m → m.control ≠ .leave none

section

variable {x x' : Moment σ} {f : Key .fiber} {y' : Fiber σ}

/-- Where a fiber comes from in a move: it stood aside, it has a machine that was not left with nothing to
go on with unless it was so before, or it is done. -/
theorem Move.traced (h : Move x x') (hx : x.Lawful) (hturned : x.Turned)
    (hy' : x'.world.fibers.get? f = some y') :
    (∃ y, x.world.fibers.get? f = some y ∧ x'.machine? f = x.machine? f ∧
      (∀ m, x.active ≠ some (f, m)) ∧ (y'.phase = .running → y.phase = .running)) ∨
    (∃ m, x'.machine? f = some m ∧ (m.control = .leave none → ∃ n, x.machine? f = some n ∧
      n.control = .leave none)) ∨
    ∃ e, y'.phase = .done e := by
  -- a fiber that stands aside before and after, or is new
  have haside : (∃ y, x.world.fibers.get? f = some y ∧ y'.phase.machine? = y.phase.machine? ∧
        (y'.phase = .running → y.phase = .running)) ∨
        (∃ p, y'.phase.machine? = some { control := .start p }) →
      (∀ m, x.active ≠ some (f, m)) → (∀ m, x'.active ≠ some (f, m)) →
      (∃ y, x.world.fibers.get? f = some y ∧ x'.machine? f = x.machine? f ∧
        (∀ m, x.active ≠ some (f, m)) ∧ (y'.phase = .running → y.phase = .running)) ∨
      (∃ m, x'.machine? f = some m ∧ (m.control = .leave none → ∃ n, x.machine? f = some n ∧
        n.control = .leave none)) ∨
      ∃ e, y'.phase = .done e := by
    intro hphases hbefore hafter
    rw [Moment.machine?_aside hafter hy']
    rcases hphases with ⟨y, hy, hmachine, hrun⟩ | ⟨p, hp⟩
    · exact Or.inl ⟨y, hy, by rw [hmachine, Moment.machine?_aside hbefore hy], hbefore, hrun⟩
    · exact Or.inr (Or.inl ⟨_, hp, nofun⟩)
  have hidle : ∀ (w : World σ) (m : Machine σ), (⟨w, none⟩ : Moment σ).active ≠ some (f, m) := by
    intro w m hm
    cases hm
  obtain ⟨w, active⟩ := x
  cases active with
  | some gm =>
      obtain ⟨g, m⟩ := gm
      obtain ⟨z, hz, hrun⟩ := hturned g m rfl
      have hget : w.fibers.get? g = some z := hz
      cases h with
      | advance =>
          simp only [World.advance, hget] at hy' ⊢ haside
          have hchanges := World.step_changes hx z
          by_cases hgf : g = f
          · subst hgf
            obtain ⟨z₁, hz₁, -⟩ := World.running_of_grows hchanges.grows hget hrun
            rcases World.phase_conclude hz₁ hy' with ⟨n, hn, hcontrol⟩ | hdone
            · refine Or.inr (Or.inl ⟨n, hn, fun hled => ?_⟩)
              rcases hcontrol with heq | ⟨p, hp⟩
              · exact absurd (heq.symm.trans hled) (World.control_step w g z _)
              · rw [hp] at hled
                cases hled
            · exact Or.inr (Or.inr hdone)
          · obtain ⟨y₁, hy₁, heq⟩ := World.get?_conclude_of_ne hgf hy'
            have hphase : y'.phase = y₁.phase := by rw [heq]
            refine haside (hphase ▸ hchanges.phase hy₁) (fun n hn => ?_) fun n hn => ?_
            · cases hn
              exact hgf rfl
            · rcases World.active_conclude g (w.step g z (m.heed z)) with hnone | ⟨n', hsome⟩
              · rw [hnone] at hn
                cases hn
              · rw [hsome] at hn
                cases hn
                exact hgf rfl
  | none =>
      obtain ⟨timers, hlive, ⟨g, token, r, hqueued, rfl⟩ | ⟨w', rfl, hchanges⟩⟩ := World.quiet_cases h
      · rcases World.awaken_cases { w with timers } g token r with heq | ⟨z, m, c, hz, hp, hc, -, heq⟩
        · rw [heq] at hy' ⊢
          exact Or.inl ⟨y', hy', rfl, hidle w, id⟩
        · rw [heq] at hy' ⊢
          by_cases hgf : g = f
          · subst hgf
            refine Or.inr (Or.inl ⟨_, Moment.machine?_active, fun hled => ?_⟩)
            rcases hc with rfl | ⟨p, -, rfl⟩
            · have hbefore : (⟨w, none⟩ : Moment σ).machine? g = some m := by
                rw [Moment.machine?_aside (hidle w) hz, hp]
                rfl
              exact ⟨m, hbefore, hled⟩
            · cases hled
          · have hsame : w.fibers.get? f = some y' := by
              rwa [Store.get?_set, if_neg hgf] at hy'
            have hafter : ∀ n, (⟨{ w with timers, fibers := w.fibers.set g { z with phase := .running } },
                some (g, { m with control := c })⟩ : Moment σ).active ≠ some (f, n) := by
              intro n hn
              cases hn
              exact hgf rfl
            refine Or.inl ⟨y', hsame, ?_, hidle w, id⟩
            rw [Moment.machine?_aside hafter hy', Moment.machine?_aside (hidle w) hsame]
      · exact haside ((hchanges _ trivial hx.licensed.world).phase hy') (hidle w) (hidle w')

theorem Move.sole (h : Move x x') (hx : x.Lawful) (hturned : x.Turned) (hsole : x.Sole) : x'.Sole := by
  intro f y' hy' hrun
  rcases h.traced hx hturned hy' with ⟨y, hy, -, haside, hran⟩ | ⟨m, hm, -⟩ | ⟨e, he⟩
  · obtain ⟨m, hm⟩ := hsole f y hy (hran hrun)
    exact absurd hm (haside m)
  · rcases Moment.machine?_cases hm with hactive | ⟨-, z, hz, hphase⟩
    · exact ⟨m, hactive⟩
    · obtain rfl := Option.some.inj (hz.symm.trans hy')
      rw [hrun] at hphase
      cases hphase
  · rw [he] at hrun
    cases hrun

theorem Move.unled (h : Move x x') (hx : x.Lawful) (hturned : x.Turned) (hunled : x.Unled) :
    x'.Unled := by
  intro f m hm hled
  obtain ⟨y', hy'⟩ : ∃ y', x'.world.fibers.get? f = some y' := by
    rcases Moment.machine?_cases hm with hactive | ⟨-, y', hy', -⟩
    · obtain ⟨y', hy', -⟩ := h.turned hx hturned f m hactive
      exact ⟨y', hy'⟩
    · exact ⟨y', hy'⟩
  rcases h.traced hx hturned hy' with ⟨y, hy, hsame, -, -⟩ | ⟨n, hn, hbefore⟩ | ⟨e, he⟩
  · exact hunled f m (hsame ▸ hm) hled
  · obtain rfl := Option.some.inj (hm.symm.trans hn)
    obtain ⟨n, hn, hcontrol⟩ := hbefore hled
    exact hunled f n hn hcontrol
  · rcases Moment.machine?_cases hm with hactive | ⟨-, z, hz, hphase⟩
    · obtain ⟨z, hz, hrun⟩ := h.turned hx hturned f m hactive
      obtain rfl := Option.some.inj (hz.symm.trans hy')
      rw [he] at hrun
      cases hrun
    · obtain rfl := Option.some.inj (hz.symm.trans hy')
      rw [he] at hphase
      cases hphase

theorem Move.noted (h : Move x x') (hx : x.Lawful) (hnoted : x.world.Noted) : x'.world.Noted := by
  obtain ⟨w, active⟩ := x
  cases active with
  | some fm =>
      obtain ⟨f, m⟩ := fm
      cases h with
      | advance =>
          unfold World.advance
          split
          · exact hnoted
          · rename_i y _
            exact ((World.step_changes hx y).noted hnoted).discreet (World.discreet_conclude f _)
  | none =>
      obtain ⟨timers, hlive, ⟨g, token, r, -, rfl⟩ | ⟨w', rfl, hchanges⟩⟩ := World.quiet_cases h
      · have hbefore : World.Noted { w with timers } := hnoted.discreet (.of_eq rfl rfl)
        exact hbefore.discreet (World.discreet_awaken _ g token r)
      · exact (hchanges _ trivial hx.licensed.world).noted (hnoted.discreet (.of_eq rfl rfl))

end

namespace Run

variable (r : Run σ) (n : Nat)

/-- In every moment of a run nobody runs but the fiber whose turn it is. -/
theorem sole : (r.moment n).Sole := by
  induction n with
  | zero =>
      rw [r.start]
      intro f y hy
      cases hy
  | succ n ih => exact (r.move n).sole (r.lawful n) (r.turned n) ih

theorem unled : (r.moment n).Unled := by
  induction n with
  | zero =>
      rw [r.start]
      intro f m hm
      cases hm
  | succ n ih => exact (r.move n).unled (r.lawful n) (r.turned n) ih

/-- In every moment of a run, who has been told that its scope is closing was told the truth. -/
theorem noted : (r.moment n).world.Noted := by
  induction n with
  | zero =>
      rw [r.start]
      refine ⟨fun f x hx => ?_, fun s sc hsc => ?_⟩
      · cases hx
      · cases hsc
  | succ n ih => exact (r.move n).noted (r.lawful n) ih

/-- A program that is dropped without an exit is one of a fiber whose scope is not open. -/
theorem sealed_of_led {n : Nat} {f : Key .fiber} {y : Fiber σ} {m : Machine σ}
    (hactive : (r.moment n).active = some (f, m)) (hy : (r.moment n).world.fibers.get? f = some y)
    (hled : (m.heed y).control = .leave none) : World.Sealed (r.moment n).world y.scope := by
  unfold Machine.heed at hled
  split at hled
  · rename_i hmust
    simp only [Bool.and_eq_true, Fiber.mustLeave] at hmust
    exact (r.noted n).told f y hy hmust.2.1
  · exact absurd hled (r.unled n f m (Moment.machine?_of_active hactive))

end Run

end Fibers
