import Fibers.Proofs.Run.Track

set_option autoImplicit false

/-! # Who is told under a token

Every suspension has a token of its own. A fiber that nobody tells anything under its token, or
nothing but that a scope has been closed, a fiber is done or a tally is decided, stays so under every
elementary change: none of them adds an observer that waits.
-/

namespace Fibers

namespace World

variable {σ : Type} {L : Licence} {actor : Option (Key .fiber)} {E : Awaited → Prop}

/-- No program reaches the fiber of `k` under its token, but the one that tells of the closing of a
scope, of the end of a fiber, of the decision of a tally or of the settling of a future of `E`. -/
structure Untold (E : Awaited → Prop) (w : World σ) (k : Wake) : Prop where
  unobserved : w.Unobserved E k
  fibers : ∀ f x, w.fibers.get? f = some x → ¬ E (.done f) → ∀ o ∈ x.done.observers, o.2 ≠ .wake k
  scopes : ∀ s sc, w.scopes.get? s = some sc → ¬ E (.closed s) → ∀ o ∈ sc.closed.observers, o.2 ≠ k
  queue : ∀ p, w.Queued k (.program p) → ∃ a, E a ∧ w.Tells a p

/-! ## Scopes -/

/-- The cell of a scope is settled only with its closing. -/
def Sane (w : World σ) : Prop :=
  ∀ s sc, w.scopes.get? s = some sc → sc.closed.outcome?.isSome = true → sc.isClosed = true

/-- A change that adds nobody who waits for the closing of a scope. -/
structure Mutes (w w' : World σ) : Prop where
  observers : ∀ s sc', w'.scopes.get? s = some sc' → ∀ o ∈ sc'.closed.observers,
    ∃ sc, w.scopes.get? s = some sc ∧ o ∈ sc.closed.observers
  settled : ∀ s sc o, w.scopes.get? s = some sc → sc.closed = .settled o →
    ∃ sc', w'.scopes.get? s = some sc' ∧ sc'.closed = .settled o
  sane : w.Sane → w'.Sane

theorem Mutes.of_eq {w w' : World σ} (h : w'.scopes = w.scopes) : Mutes w w' := by
  refine ⟨fun s sc hsc o ho => ⟨sc, h ▸ hsc, ho⟩, fun s sc o hsc ho => ⟨sc, h ▸ hsc, ho⟩,
    fun hw => ?_⟩
  unfold Sane
  rw [h]
  exact hw

/-- A fiber that is done stays so, with its outcome. -/
def KeepsOutcomes (w w' : World σ) : Prop :=
  ∀ f x o, w.fibers.get? f = some x → x.done.outcome? = some o →
    ∃ x', w'.fibers.get? f = some x' ∧ x'.done.outcome? = some o

theorem KeepsOutcomes.of_eq {w w' : World σ} (h : w'.fibers = w.fibers) : KeepsOutcomes w w' :=
  fun _ x _ hx ho => ⟨x, h ▸ hx, ho⟩

theorem Grows.keepsOutcomes {w w' : World σ} (h : Grows actor w w') : KeepsOutcomes w w' := by
  intro f x o hx ho
  obtain ⟨x', hx', hlater, -⟩ := h.fibers f x hx
  exact ⟨x', hx', hlater.outcome.trans ho⟩

theorem Tells.mutes {w w' : World σ} {a : Awaited} {p : Program σ} (h : Mutes w w')
    (hdone : KeepsOutcomes w w') (hdecisions : KeepsDecisions w w') (hsettled : KeepsSettled w w')
    (htells : w.Tells a p) : w'.Tells a p := by
  cases a with
  | closed s =>
      obtain ⟨sc, e, hsc, hcell, hp⟩ := htells
      obtain ⟨sc', hsc', hcell'⟩ := h.settled s sc _ hsc hcell
      exact ⟨sc', e, hsc', hcell', hp⟩
  | done f =>
      obtain ⟨x, e, hx, hexit, hp⟩ := htells
      obtain ⟨o, ho, hoe⟩ := Option.map_eq_some_iff.mp hexit
      obtain ⟨x', hx', ho'⟩ := hdone f x o hx ho
      exact ⟨x', e, hx', by rw [Fiber.exit?, ho', Option.map_some, hoe], hp⟩
  | future f =>
      obtain ⟨settled, hf, hp⟩ := htells
      exact ⟨settled, hsettled f settled hf, hp⟩
  | decided t => exact Announces.keeps hdecisions htells

theorem Mutes.trans {w₁ w₂ w₃ : World σ} (h : Mutes w₁ w₂) (h' : Mutes w₂ w₃) : Mutes w₁ w₃ := by
  refine ⟨fun s sc hsc o ho => ?_, fun s sc o hsc ho => ?_, fun hw => h'.sane (h.sane hw)⟩
  · obtain ⟨sc', hsc', ho'⟩ := h'.observers s sc hsc o ho
    exact h.observers s sc' hsc' o ho'
  · obtain ⟨sc', hsc', ho'⟩ := h.settled s sc o hsc ho
    exact h'.settled s sc' o hsc' ho'

theorem mutes_set {w : World σ} {s : Key .scope} {sc' : Scope (Finalizer σ)}
    (hcell : sc'.closed = (w.scope s).closed) (hclosed : (w.scope s).isClosed = false) :
    Mutes w { w with scopes := w.scopes.set s sc' } := by
  refine ⟨fun t sc ht o ho => ?_, fun t sc o ht ho => ?_, fun hw t sc ht hsettled => ?_⟩
  · rw [Store.get?_set] at ht
    split at ht
    · rename_i hst
      subst hst
      obtain ⟨sc₀, hsc₀, rfl⟩ := Option.map_eq_some_iff.mp ht
      rw [hcell, scope_of_get hsc₀] at ho
      exact ⟨sc₀, hsc₀, ho⟩
    · exact ⟨sc, ht, ho⟩
  · by_cases hst : s = t
    · subst hst
      rw [← scope_of_get ht, ← hcell] at ho
      exact ⟨sc', Store.get?_set_of_some ht, ho⟩
    · exact ⟨sc, by rw [Store.get?_set, if_neg hst, ht], ho⟩
  · rw [Store.get?_set] at ht
    split at ht
    · rename_i hst
      subst hst
      obtain ⟨sc₀, hsc₀, rfl⟩ := Option.map_eq_some_iff.mp ht
      rw [hcell, scope_of_get hsc₀] at hsettled
      rw [scope_of_get hsc₀, hw s sc₀ hsc₀ hsettled] at hclosed
      cases hclosed
    · exact hw t sc ht hsettled

theorem mutes_register (w : World σ) (s : Key .scope) (fin : Finalizer σ) :
    Mutes w (w.register s fin).1 := by
  unfold register
  split
  · rename_i sc key heq
    unfold Scope.register? at heq
    split at heq
    · rename_i fs hooks n hstate
      cases heq
      exact mutes_set rfl (by rw [Scope.isClosed, hstate])
    · cases heq
  · exact .of_eq rfl

theorem mutes_takeFinalizer (w : World σ) (h : Handle) : Mutes w (w.takeFinalizer h).1 := by
  unfold takeFinalizer
  split
  · rename_i sc fin heq
    unfold Scope.take? at heq
    split at heq
    · rename_i fs hooks n hstate
      obtain ⟨x, -, hx⟩ := Option.map_eq_some_iff.mp heq
      cases hx
      exact mutes_set rfl (by rw [Scope.isClosed, hstate])
    · cases heq
  · exact .of_eq rfl

theorem mutes_scopesClosing (fs : List (Key .fiber)) (w : World σ) :
    Mutes w (fs.foldl scopeClosing w) :=
  .of_eq (foldl_keeps World.scopes scopeClosing (fun w f => scopes_scopeClosing w f) fs w)

theorem mutes_requestClose (w : World σ) (s : Key .scope) (e : AnyExit) :
    Mutes w (w.requestClose s e).1 := by
  unfold requestClose
  split
  · exact .of_eq rfl
  · rename_i sc closing heq
    unfold Scope.requestClose? at heq
    split at heq
    · rename_i fs hooks n hstate
      cases heq
      have hset : Mutes w { w with scopes := (w.scopes.set s
          { w.scope s with state := .closing e (some fs), parent := none }) } :=
        mutes_set rfl (by rw [Scope.isClosed, hstate])
      refine (hset.trans ?_).trans (mutes_scopesClosing hooks _)
      dsimp only
      split
      · exact mutes_takeFinalizer _ _
      · exact .of_eq rfl
    · cases heq

theorem mutes_hook (w : World σ) (s : Key .scope) (f : Key .fiber) : Mutes w (w.hook s f) := by
  unfold hook
  split
  · rename_i sc heq
    unfold Scope.hook? at heq
    split at heq
    · rename_i fs hooks n hstate
      cases heq
      exact mutes_set rfl (by rw [Scope.isClosed, hstate])
    · cases heq
  · exact .of_eq (scopes_scopeClosing w f)

theorem mutes_newScope (w : World σ) (owner : FiberId) (strategy : Strategy) :
    Mutes w (w.newScope owner strategy).1 := by
  refine ⟨fun s sc hsc o ho => ?_, fun s sc o hsc ho => ⟨sc, Store.get?_add_of_some _ hsc, ho⟩,
    fun hw s sc hsc hsettled => ?_⟩
  · simp only [newScope, Store.get?_add] at hsc
    split at hsc
    · cases hsc
      cases ho
    · exact ⟨sc, hsc, ho⟩
  · simp only [newScope, Store.get?_add] at hsc
    split at hsc
    · cases hsc
      cases hsettled
    · exact hw s sc hsc hsettled

theorem mutes_forkScope (w : World σ) (s : Key .scope) (owner : FiberId) :
    Mutes w (w.forkScope s owner).1 := by
  have hkept : Mutes w ((w.newScope owner (w.scope s).strategy).1.register s
      (.closeChild (w.newScope owner (w.scope s).strategy).2 (w.scope s).owner)).1 :=
    (mutes_newScope w _ _).trans (mutes_register _ _ _)
  refine hkept.trans ⟨fun t sc hsc o ho => ?_, fun t sc o hsc ho => ?_,
    fun hw t sc hsc hsettled => ?_⟩
  · simp only [forkScope, Store.get?_modify] at hsc
    split at hsc
    · obtain ⟨sc₀, hsc₀, rfl⟩ := Option.map_eq_some_iff.mp hsc
      exact ⟨sc₀, hsc₀, ho⟩
    · exact ⟨sc, hsc, ho⟩
  · simp only [forkScope, Store.get?_modify, hsc, Option.map_some]
    split
    · exact ⟨_, rfl, ho⟩
    · exact ⟨sc, rfl, ho⟩
  · simp only [forkScope, Store.get?_modify] at hsc
    split at hsc
    · obtain ⟨sc₀, hsc₀, rfl⟩ := Option.map_eq_some_iff.mp hsc
      exact hw t sc₀ hsc₀ hsettled
    · exact hw t sc hsc hsettled

theorem mutes_publish (w : World σ) (s : Key .scope) (e : AnyExit) : Mutes w (w.publish s e) := by
  refine ⟨fun t sc ht o ho => ?_, fun t sc o ht ho => ?_, fun hw t sc ht hsettled => ?_⟩
  · rw [scopes_publish, Store.get?_set] at ht
    split at ht
    · rename_i hst
      subst hst
      obtain ⟨sc₀, hsc₀, rfl⟩ := Option.map_eq_some_iff.mp ht
      rw [scope_of_get hsc₀, Scope.publish] at ho
      cases hcell : sc₀.closed with
      | pending os n =>
          rw [hcell] at ho
          cases ho
      | settled outcome =>
          simp only [hcell, Cell.settle?] at ho
          cases ho
    · exact ⟨sc, ht, ho⟩
  · rw [scopes_publish, Store.get?_set]
    split
    · rename_i hst
      subst hst
      refine ⟨_, by rw [ht, Option.map_some], ?_⟩
      rw [scope_of_get ht, Scope.publish, ho]
      rfl
    · exact ⟨sc, ht, ho⟩
  · rw [scopes_publish, Store.get?_set] at ht
    split at ht
    · obtain ⟨_, -, rfl⟩ := Option.map_eq_some_iff.mp ht
      unfold Scope.publish
      split
      · rfl
      · rfl
    · exact hw t sc ht hsettled

theorem Change.mutes {w w' : World σ} (h : Change L actor w w') : Mutes w w' := by
  cases h with
  | elsewhere he => exact .of_eq he.scopes
  | touch => exact .of_eq rfl
  | contest _ _ h => exact .of_eq (scopes_of_opens h)
  | own => exact .of_eq rfl
  | @enlist c s p services inherited _ _ _ =>
      have hadd : ∀ x : Fiber σ, Mutes w { (w.newSemaphore c.concurrency).1 with
        fibers := (w.fibers.add x).1 } := fun x => .of_eq rfl
      exact (hadd _).trans (mutes_hook _ s _)
  | @launch f =>
      refine .of_eq ?_
      unfold startFiber
      split
      · rfl
      · split
        · rfl
        · rfl
  | newScope => exact mutes_newScope w _ _
  | forkScope => exact mutes_forkScope w _ _
  | register => exact mutes_register w _ _
  | take => exact mutes_takeFinalizer w _
  | lent =>
      unfold takeLent
      split
      · exact mutes_takeFinalizer w _
      · exact .of_eq rfl
  | close => exact mutes_requestClose w _ _
  | @claim s sc e fins _ hclaim =>
      unfold Scope.claim? at hclaim
      split at hclaim
      · rename_i hstate
        cases hclaim
        exact mutes_set rfl (by rw [Scope.isClosed, hstate])
      · cases hclaim
  | publish => exact mutes_publish w _ _

/-! ## Untold under elementary changes -/

/-- A program is queued for a fiber only by what it waits for. -/
theorem queued_publish {w : World σ} {s : Key .scope} {e : AnyExit} {k : Wake} {p : Program σ}
    (h : (w.publish s e).Queued k (.program p)) :
    w.Queued k (.program p) ∨ p = .succeed (.exit e) ∧
      ∃ sc, w.scopes.get? s = some sc ∧ ∃ o ∈ sc.closed.observers, o.2 = k := by
  obtain ⟨-, -, -, hqueued⟩ := serve_wakes (L := .none) .succeed ((w.scope s).publish e).2
    { w with scopes := w.scopes.set s ((w.scope s).publish e).1 }
  rcases hqueued k _ h with h | ⟨h, hresume⟩
  · exact Or.inl h
  · right
    refine ⟨by injection hresume, ?_⟩
    unfold Scope.publish at h
    cases hcell : (w.scope s).closed with
    | settled outcome =>
        simp only [hcell, Cell.settle?] at h
        cases h
    | pending os n =>
        simp only [hcell, Cell.settle?] at h
        obtain ⟨o, ho, rfl⟩ := List.mem_map.mp h
        unfold World.scope at hcell
        cases hget : w.scopes.get? s with
        | none =>
            rw [hget] at hcell
            cases hcell
            cases ho
        | some sc =>
            rw [hget] at hcell
            refine ⟨sc, rfl, o, ?_, rfl⟩
            rw [show sc.closed = .pending os n from hcell]
            exact ho

/-- The fiber was told that its scope is closing, and is suspended under the token. -/
def Warned (w : World σ) (k : Wake) : Prop :=
  ∃ x, w.fibers.get? k.fiber = some x ∧ x.terminating = true ∧ ∃ m, x.phase = .suspended k.token m

/-- Telling a fiber of the closing of its scope queues nothing but the resumption that ends it. -/
theorem queued_scopeClosing {w : World σ} {f : Key .fiber} {k : Wake} {r : Resume σ}
    (h : (w.scopeClosing f).Queued k r) :
    w.Queued k r ∨ r = .terminate ∧ (w.scopeClosing f).Warned k := by
  unfold Warned
  unfold scopeClosing at h ⊢
  dsimp only at h ⊢
  split at h
  · exact Or.inl h
  · rename_i x hx
    have hterm : x.terminating = true := by
      rw [modifyFiber, Store.get?_modify, if_pos rfl] at hx
      obtain ⟨y, -, rfl⟩ := Option.map_eq_some_iff.mp hx
      rfl
    split at h
    · rename_i t m hphase
      rcases queued_queue h with h | heq
      · exact Or.inl h
      · right
        injection heq with hf ht hr
        refine ⟨hr.symm, ?_⟩
        obtain ⟨g, u⟩ := k
        obtain rfl : f = g := hf
        obtain rfl : t = u := ht
        exact ⟨x, hx, hterm, m, hphase⟩
    · exact Or.inl h

theorem queued_takeFinalizer {w : World σ} {h : Handle} {k : Wake} {r : Resume σ}
    (hq : (w.takeFinalizer h).1.Queued k r) : w.Queued k r := by
  unfold takeFinalizer at hq
  split at hq
  · exact hq
  · exact hq

theorem queued_register {w : World σ} {s : Key .scope} {fin : Finalizer σ} {k : Wake} {r : Resume σ}
    (hq : (w.register s fin).1.Queued k r) : w.Queued k r := by
  unfold register at hq
  split at hq
  · exact hq
  · exact hq

/-- Who was warned stays so when others are told. -/
theorem Warned.grows {w w' : World σ} {k : Wake} (h : Grows actor w w') (hk : w.Warned k) :
    w'.Warned k := by
  obtain ⟨x, hx, hterm, m, hphase⟩ := hk
  obtain ⟨x', hx', hlater, -⟩ := h.fibers k.fiber x hx
  refine ⟨x', hx', hlater.terminating hterm, ?_⟩
  rcases hlater.phase with ⟨hp, -⟩ | ⟨m', hp, -, -⟩
  · exact ⟨m, hp.trans hphase⟩
  · rw [hphase] at hp
    cases hp

theorem queued_scopesClosing (fs : List (Key .fiber)) {w : World σ} {k : Wake} {r : Resume σ}
    (h : (fs.foldl scopeClosing w).Queued k r) :
    w.Queued k r ∨ r = .terminate ∧ (fs.foldl scopeClosing w).Warned k := by
  induction fs generalizing w with
  | nil => exact Or.inl h
  | cons f rest ih =>
      rcases ih h with h | h
      · have hrest : Grows none (w.scopeClosing f) (rest.foldl scopeClosing (w.scopeClosing f)) :=
          grows_foldl grows_scopeClosing rest _
        exact (queued_scopeClosing h).imp_right fun hk => ⟨hk.1, hk.2.grows hrest⟩
      · exact Or.inr h

theorem queued_requestClose {w : World σ} {s : Key .scope} {e : AnyExit} {k : Wake}
    {r : Resume σ} (h : (w.requestClose s e).1.Queued k r) :
    w.Queued k r ∨ r = .terminate ∧ (w.requestClose s e).1.Warned k := by
  unfold requestClose at h ⊢
  split at h
  · exact Or.inl h
  · rename_i sc closing _
    refine (queued_scopesClosing _ h).imp_left fun hbefore => ?_
    split at hbefore
    · rename_i parent _
      exact queued_takeFinalizer (w := { w with scopes := w.scopes.set s sc }) (h := parent) hbefore
    · exact hbefore

/-- The parts in which fibers wait stay as they are when the fibers on some hooks are told, and of
the fibers nothing changes but that they are told. -/
theorem parts_scopesClosing (fs : List (Key .fiber)) (w : World σ) :
    (fs.foldl scopeClosing w).futures = w.futures ∧ (fs.foldl scopeClosing w).tallies = w.tallies ∧
      ∀ f x', (fs.foldl scopeClosing w).fibers.get? f = some x' →
        ∃ x, w.fibers.get? f = some x ∧ x' = { x with terminating := x'.terminating } := by
  have hone : ∀ (w : World σ) g, (w.scopeClosing g).futures = w.futures ∧
      (w.scopeClosing g).tallies = w.tallies := by
    intro w g
    unfold scopeClosing
    dsimp only
    split
    · exact ⟨rfl, rfl⟩
    · split
      · exact ⟨rfl, rfl⟩
      · exact ⟨rfl, rfl⟩
  refine ⟨foldl_keeps World.futures scopeClosing (fun w g => (hone w g).1) fs w,
    foldl_keeps World.tallies scopeClosing (fun w g => (hone w g).2) fs w, ?_⟩
  induction fs generalizing w with
  | nil => exact fun f x' h => ⟨x', h, rfl⟩
  | cons g rest ih =>
      intro f x' hx'
      obtain ⟨x, hx, heq⟩ := ih (w.scopeClosing g) f x' hx'
      rw [get?_scopeClosing] at hx
      split at hx
      · obtain ⟨y, hy, rfl⟩ := Option.map_eq_some_iff.mp hx
        exact ⟨y, hy, heq⟩
      · exact ⟨x, hx, heq⟩

theorem parts_hook (w : World σ) (s : Key .scope) (g : Key .fiber) :
    (w.hook s g).futures = w.futures ∧ (w.hook s g).tallies = w.tallies ∧
      ∀ f x', (w.hook s g).fibers.get? f = some x' →
        ∃ x, w.fibers.get? f = some x ∧ x' = { x with terminating := x'.terminating } := by
  unfold hook
  split
  · exact ⟨rfl, rfl, fun f x' h => ⟨x', h, rfl⟩⟩
  · exact parts_scopesClosing [g] w

theorem queued_hook {w : World σ} {s : Key .scope} {g : Key .fiber} {k : Wake} {r : Resume σ}
    (h : (w.hook s g).Queued k r) : w.Queued k r ∨ r = .terminate ∧ (w.hook s g).Warned k := by
  unfold hook at h ⊢
  split at h
  · exact Or.inl h
  · exact queued_scopeClosing h

/-- Taking a finalizer out reaches only scopes. -/
theorem parts_takeFinalizer (w : World σ) (h : Handle) :
    (w.takeFinalizer h).1.futures = w.futures ∧ (w.takeFinalizer h).1.tallies = w.tallies := by
  unfold takeFinalizer
  split
  · exact ⟨rfl, rfl⟩
  · exact ⟨rfl, rfl⟩

theorem parts_requestClose (w : World σ) (s : Key .scope) (e : AnyExit) :
    (w.requestClose s e).1.futures = w.futures ∧ (w.requestClose s e).1.tallies = w.tallies ∧
      ∀ f x', (w.requestClose s e).1.fibers.get? f = some x' →
        ∃ x, w.fibers.get? f = some x ∧ x' = { x with terminating := x'.terminating } := by
  unfold requestClose
  split
  · exact ⟨rfl, rfl, fun f x' h => ⟨x', h, rfl⟩⟩
  · rename_i sc closing _
    dsimp only
    split
    · rename_i parent _
      obtain ⟨hfutures, htallies⟩ :=
        parts_takeFinalizer { w with scopes := w.scopes.set s sc } parent
      have hfibers := fibers_takeFinalizer { w with scopes := w.scopes.set s sc } parent
      obtain ⟨hfutures', htallies', hdone⟩ := parts_scopesClosing closing.hooks
        (cancelFinalizer { w with scopes := w.scopes.set s sc } parent).1
      refine ⟨hfutures'.trans hfutures, htallies'.trans htallies, fun f x' hx' => ?_⟩
      obtain ⟨x, hx, heq⟩ := hdone f x' hx'
      rw [cancelFinalizer, hfibers] at hx
      exact ⟨x, hx, heq⟩
    · exact parts_scopesClosing closing.hooks { w with scopes := w.scopes.set s sc }

theorem parts_register (w : World σ) (s : Key .scope) (fin : Finalizer σ) :
    (w.register s fin).1.futures = w.futures ∧ (w.register s fin).1.tallies = w.tallies ∧
      (w.register s fin).1.fibers = w.fibers := by
  unfold register
  split
  · exact ⟨rfl, rfl, rfl⟩
  · exact ⟨rfl, rfl, rfl⟩

/-- A change that adds nobody who waits keeps the untold untold. -/
theorem Untold.of_mutes {w w' : World σ} {k : Wake} (hk : w.Untold E k) (hmutes : Mutes w w')
    (hdone : KeepsOutcomes w w') (hdecisions : KeepsDecisions w w') (hsettled : KeepsSettled w w')
    (hunobserved : w.Unobserved E k → w'.Unobserved E k)
    (hfibers : ∀ f x', w'.fibers.get? f = some x' → ∀ o ∈ x'.done.observers, o.2 = .wake k →
      ∃ x, w.fibers.get? f = some x ∧ ∃ o ∈ x.done.observers, o.2 = .wake k)
    (hqueue : ∀ p, w'.Queued k (.program p) →
      w.Queued k (.program p) ∨ ∃ a, E a ∧ w'.Tells a p) : w'.Untold E k where
  unobserved := hunobserved hk.unobserved
  fibers := by
    intro f x' hx' hf o ho heq
    obtain ⟨x, hx, o', ho', heq'⟩ := hfibers f x' hx' o ho heq
    exact hk.fibers f x hx hf o' ho' heq'
  scopes := by
    intro s sc' hsc' hs o ho
    obtain ⟨sc, hsc, ho'⟩ := hmutes.observers s sc' hsc' o ho
    exact hk.scopes s sc hsc hs o ho'
  queue := by
    intro p hp
    rcases hqueue p hp with h | h
    · obtain ⟨a, ha, htells⟩ := hk.queue p h
      exact ⟨a, ha, htells.mutes hmutes hdone hdecisions hsettled⟩
    · exact h

theorem Elsewhere.untold {w w' : World σ} (h : Elsewhere L w w') {k : Wake} (hk : w.Untold E k) :
    w'.Untold E k := by
  refine hk.of_mutes (.of_eq h.scopes) (.of_eq h.fibers) h.decisions h.settled (h.unobserved E k)
    (fun f x hx o ho hok => ⟨x, h.fibers ▸ hx, o, ho, hok⟩) fun p hp =>
      (h.quiet E k _ hk.unobserved hp).imp_right ?_
  rintro ⟨a, q, ha, htells, hresume⟩
  injection hresume with hresume
  exact ⟨a, ha, hresume ▸ htells⟩

theorem untold_touch {w : World σ} {f : Key .fiber} {x x' : Fiber σ}
    (hx : w.fibers.get? f = some x) (ht : Touches x x') {k : Wake} (hk : w.Untold E k) :
    Untold E { w with fibers := w.fibers.set f x' } k := by
  have hgrows : Grows none w { w with fibers := w.fibers.set f x' } := grows_touch hx ht
  refine hk.of_mutes (.of_eq rfl) hgrows.keepsOutcomes (.of_eq rfl) (.of_eq rfl)
    (fun h => ⟨h.futures, h.tallies⟩) (fun g y hy o ho hok => ?_) fun p hp => Or.inl hp
  rw [Store.get?_set] at hy
  split at hy
  · rename_i hfg
    subst hfg
    obtain ⟨_, -, rfl⟩ := Option.map_eq_some_iff.mp hy
    by_contra hnone
    exact ht.observers k (fun o' ho' hok' => hnone ⟨x, hx, o', ho', hok'⟩) o ho hok
  · exact ⟨y, hy, o, ho, hok⟩

theorem Change.untold {w w' : World σ} (h : Change L actor w w') {k : Wake} (hk : w.Untold E k) :
    w'.Untold E k := by
  have hmutes := h.mutes
  have hdone := h.grows.keepsOutcomes
  -- most changes leave the futures, the tallies and the ends of the fibers alone
  have hplain : w'.futures = w.futures → w'.tallies = w.tallies →
      (∀ f x', w'.fibers.get? f = some x' → ∀ o ∈ x'.done.observers, o.2 = .wake k →
        ∃ x, w.fibers.get? f = some x ∧ ∃ o ∈ x.done.observers, o.2 = .wake k) →
      (∀ p, w'.Queued k (.program p) → w.Queued k (.program p)) → w'.Untold E k :=
    fun hfutures htallies hfibers hqueue => hk.of_mutes hmutes hdone (.of_eq htallies)
      (.of_eq hfutures) (fun h => ⟨by rw [hfutures]; exact h.futures, by rw [htallies]; exact h.tallies⟩) hfibers
      fun p hp => Or.inl (hqueue p hp)
  have hsame : ∀ {w' : World σ}, w'.fibers = w.fibers →
      ∀ f x', w'.fibers.get? f = some x' → ∀ o ∈ x'.done.observers, o.2 = .wake k →
        ∃ x, w.fibers.get? f = some x ∧ ∃ o ∈ x.done.observers, o.2 = .wake k :=
    fun heq f x hx o ho hok => ⟨x, heq ▸ hx, o, ho, hok⟩
  cases h with
  | elsewhere he => exact he.untold hk
  | touch hx ht => exact untold_touch hx ht hk
  | contest _ hthere h =>
      clear hplain hsame hmutes hdone hthere
      induction h with
      | refl => exact hk
      | tail _ hstep ih =>
          cases hstep with
          | elsewhere he => exact he.untold ih
          | touch hx ht => exact untold_touch hx ht ih
  | @own f x x' hactor hx ho =>
      refine hplain rfl rfl (fun g y hy o ho' hok => ?_) fun p hp => hp
      rw [Store.get?_set] at hy
      split at hy
      · rename_i hfg
        subst hfg
        obtain ⟨_, -, rfl⟩ := Option.map_eq_some_iff.mp hy
        rw [ho] at ho'
        exact ⟨x, hx, o, ho', hok⟩
      · exact ⟨y, hy, o, ho', hok⟩
  | @enlist c s p services inherited _ _ _ =>
      obtain ⟨x₀, hfresh, hnew⟩ : ∃ x₀ : Fiber σ, x₀.done = .fresh ∧
          (w.newFiber c s p services inherited).1 = hook { (w.newSemaphore c.concurrency).1 with
            fibers := (w.fibers.add x₀).1 } s (w.fibers.add x₀).2 := ⟨_, rfl, rfl⟩
      rw [hnew] at hplain ⊢
      obtain ⟨hfutures, htallies, hdone⟩ := parts_hook { (w.newSemaphore c.concurrency).1 with
        fibers := (w.fibers.add x₀).1 } s (w.fibers.add x₀).2
      refine hplain hfutures htallies (fun f x' hx' o ho hok => ?_) fun p hp => ?_
      · obtain ⟨x, hx, heq⟩ := hdone f x' hx'
        rw [heq] at ho
        rw [Store.get?_add] at hx
        split at hx
        · cases hx
          rw [show x₀.done = .fresh from hfresh] at ho
          cases ho
        · exact ⟨x, hx, o, ho, hok⟩
      · rcases queued_hook (w := { (w.newSemaphore c.concurrency).1 with
          fibers := (w.fibers.add x₀).1 }) hp with h | h
        · exact h
        · cases h.1
  | @launch f =>
      unfold startFiber at hplain ⊢
      cases hget : w.fibers.get? f with
      | none => exact hk
      | some x =>
          rw [hget] at hplain
          dsimp only at hplain ⊢
          cases hphase : x.phase with
          | running => exact hk
          | suspended t m => exact hk
          | done e => exact hk
          | notStarted m =>
              rw [hphase] at hplain
              refine hplain rfl rfl (fun g y hy o ho hok => ?_) fun p hp => ?_
              · have hy' : (w.fibers.set f (x.park m).1).get? g = some y := hy
                rw [Store.get?_set] at hy'
                split at hy'
                · rename_i hfg
                  subst hfg
                  obtain ⟨_, -, rfl⟩ := Option.map_eq_some_iff.mp hy'
                  exact ⟨x, hget, o, ho, hok⟩
                · exact ⟨y, hy', o, ho, hok⟩
              · rcases queued_queue hp with h | heq
                · exact h
                · injection heq with _ _ hresume
                  cases hresume
  | newScope => exact hplain rfl rfl (hsame rfl) fun p hp => hp
  | @forkScope s owner =>
      obtain ⟨hfutures, htallies, hfibers⟩ := parts_register (w.newScope owner (w.scope s).strategy).1
        s (.closeChild (w.newScope owner (w.scope s).strategy).2 (w.scope s).owner)
      exact hplain hfutures htallies (hsame hfibers) fun p hp =>
        queued_register (w := (w.newScope owner (w.scope s).strategy).1) (s := s) hp
  | @register s fin _ =>
      obtain ⟨hfutures, htallies, hfibers⟩ := parts_register w s fin
      exact hplain hfutures htallies (hsame hfibers) fun p hp => queued_register hp
  | @take h _ =>
      obtain ⟨hfutures, htallies⟩ := parts_takeFinalizer w h
      exact hplain hfutures htallies (hsame (fibers_takeFinalizer w h))
        fun p hp => queued_takeFinalizer hp
  | @lent h =>
      unfold takeLent at *
      split at hplain
      · obtain ⟨hfutures, htallies⟩ := parts_takeFinalizer w h
        exact hplain hfutures htallies (hsame (fibers_takeFinalizer w h))
          fun p hp => queued_takeFinalizer hp
      · exact hk
  | @close s e =>
      obtain ⟨hfutures, htallies, hdone⟩ := parts_requestClose w s e
      refine hplain hfutures htallies (fun f x' hx' o ho hok => ?_) fun p hp =>
        (queued_requestClose hp).resolve_right fun h => by cases h.1
      obtain ⟨x, hx, heq⟩ := hdone f x' hx'
      rw [heq] at ho
      exact ⟨x, hx, o, ho, hok⟩
  | claim => exact hplain rfl rfl (hsame rfl) fun p hp => hp
  | @publish s e _ =>
      obtain ⟨hfutures, htallies, -, -⟩ := serve_wakes (L := .none) .succeed
        ((w.scope s).publish e).2 { w with scopes := w.scopes.set s ((w.scope s).publish e).1 }
      refine hk.of_mutes hmutes hdone (.of_eq htallies) (.of_eq hfutures) ?_
        (hsame (fibers_publish w s e)) fun p hp => ?_
      · exact fun h => ⟨by rw [World.publish, hfutures]; exact h.futures,
          by rw [World.publish, htallies]; exact h.tallies⟩
      · rcases queued_publish hp with h | ⟨hprogram, sc, hsc, o, ho, hok⟩
        · exact Or.inl h
        · refine Or.inr ⟨.closed s, by_contra fun hs => hk.scopes s sc hsc hs o ho hok, ?_⟩
          refine ⟨((w.scope s).publish e).1, e, ?_, ?_, hprogram⟩
          · rw [scopes_publish, Store.get?_set_of_some hsc]
          · rw [scope_of_get hsc, Scope.publish]
            cases hcell : sc.closed with
            | pending os n => rfl
            | settled outcome =>
                rw [hcell] at ho
                cases ho

theorem Changes.untold {w w' : World σ} (h : Changes L actor w w') {k : Wake}
    (hk : w.Untold E k) : w'.Untold E k := by
  induction h with
  | refl => exact hk
  | tail _ hstep ih => exact hstep.untold ih

theorem Changes.mutes {w w' : World σ} (h : Changes L actor w w') : Mutes w w' := by
  induction h with
  | refl => exact .of_eq rfl
  | tail _ hstep ih => exact ih.trans hstep.mutes

end World

end Fibers
