import Fibers.Proofs.Run.Queue

set_option autoImplicit false

/-! # Those who wait are not forgotten

Whoever is to resume a fiber keeps it in mind: a task of the queue shows its token, or what it waits
for has it among its observers. An elementary change keeps all of them in mind (`Change.tends`), and so
does the end of a step (`tends_conclude`): what settles puts a task in the queue for each of its
observers. The one exception is a text that drops an observer of a future by its number.
-/

namespace Fibers.World

variable {σ : Type} {L : Licence} {actor : Option (Key .fiber)}

/-! ## Where fibers wait -/

/-- Every fiber still has the observers that wait for its end. -/
def KeepsWaiters (w w' : World σ) : Prop :=
  ∀ f x, w.fibers.get? f = some x → ∃ x', w'.fibers.get? f = some x' ∧
    ∀ k, ∀ o ∈ x.done.observers, o.2 = .wake k → o ∈ x'.done.observers

/-- Every scope still has the observers that wait for it to be closed. -/
def KeepsClosers (w w' : World σ) : Prop :=
  ∀ s sc, w.scopes.get? s = some sc → ∃ sc', w'.scopes.get? s = some sc' ∧
    ∀ o ∈ sc.closed.observers, o ∈ sc'.closed.observers

theorem KeepsWaiters.of_eq {w w' : World σ} (h : w'.fibers = w.fibers) : KeepsWaiters w w' :=
  fun _ x hx => ⟨x, h ▸ hx, fun _ _ ho _ => ho⟩

theorem KeepsClosers.of_eq {w w' : World σ} (h : w'.scopes = w.scopes) : KeepsClosers w w' :=
  fun _ sc hsc => ⟨sc, h ▸ hsc, fun _ ho => ho⟩

theorem keepsWaiters_set {w w' : World σ} {f : Key .fiber} {x x' : Fiber σ}
    (hx : w.fibers.get? f = some x) (h : w'.fibers = w.fibers.set f x')
    (hkept : ∀ k, ∀ o ∈ x.done.observers, o.2 = .wake k → o ∈ x'.done.observers) :
    KeepsWaiters w w' := by
  intro g y hy
  by_cases hfg : f = g
  · subst hfg
    obtain rfl := Option.some.inj (hx.symm.trans hy)
    exact ⟨x', by rw [h, Store.get?_set_of_some hx], hkept⟩
  · exact ⟨y, by rw [h, Store.get?_set, if_neg hfg, hy], fun _ _ ho _ => ho⟩

theorem keepsWaiters_modify {w w' : World σ} {f : Key .fiber} {g : Fiber σ → Fiber σ}
    (h : w'.fibers = w.fibers.modify f g) (hg : ∀ x, (g x).done = x.done) : KeepsWaiters w w' := by
  cases hget : w.fibers.get? f with
  | none => exact .of_eq (h.trans (Store.modify_eq_self g hget))
  | some x =>
      exact keepsWaiters_set hget (h.trans (Store.modify_eq_set g hget)) fun _ _ ho _ => (hg x).symm ▸ ho

theorem keepsWaiters_add {w w' : World σ} {x : Fiber σ} (h : w'.fibers = (w.fibers.add x).1) :
    KeepsWaiters w w' :=
  fun _ y hy => ⟨y, by rw [h]; exact Store.get?_add_of_some _ hy, fun _ _ ho _ => ho⟩

theorem keepsClosers_set {w w' : World σ} {s : Key .scope} {sc' : Scope (Finalizer σ)}
    (h : w'.scopes = w.scopes.set s sc')
    (hkept : ∀ o ∈ (w.scope s).closed.observers, o ∈ sc'.closed.observers) : KeepsClosers w w' := by
  intro t sc ht
  by_cases hst : s = t
  · subst hst
    rw [scope_of_get ht] at hkept
    exact ⟨sc', by rw [h, Store.get?_set_of_some ht], hkept⟩
  · exact ⟨sc, by rw [h, Store.get?_set, if_neg hst, ht], fun _ ho => ho⟩

/-- Where futures and tallies stay as they are, it is enough to look at fibers, scopes and the queue. -/
theorem Tends.of_keeps {w w' : World σ} (fibers : KeepsWaiters w w') (scopes : KeepsClosers w w')
    (futures : w'.futures = w.futures) (tallies : w'.tallies = w.tallies)
    (queued : ∀ k r, w.Queued k r → w'.Queued k r) : Tends L w w' := by
  refine ⟨queued, fun k a _ hk => Or.inl ?_⟩
  cases a with
  | future f => rwa [Observed, futures]
  | done f =>
      obtain ⟨x, hx, o, ho, hok⟩ := hk
      obtain ⟨x', hx', hkept⟩ := fibers f x hx
      exact ⟨x', hx', o, hkept k o ho hok, hok⟩
  | closed s =>
      obtain ⟨sc, hsc, o, ho, hok⟩ := hk
      obtain ⟨sc', hsc', hkept⟩ := scopes s sc hsc
      exact ⟨sc', hsc', o, hkept o ho, hok⟩
  | decided t => rwa [Observed, tallies]

/-! ## Scopes -/

theorem keepsClosers_register (w : World σ) (s : Key .scope) (fin : Finalizer σ) :
    KeepsClosers w (w.register s fin).1 := by
  unfold register
  split
  · rename_i sc key heq
    unfold Scope.register? at heq
    split at heq
    · cases heq
      exact keepsClosers_set rfl fun _ ho => ho
    · cases heq
  · exact .of_eq rfl

theorem keepsClosers_takeFinalizer (w : World σ) (h : Handle) :
    KeepsClosers w (w.takeFinalizer h).1 := by
  unfold takeFinalizer
  split
  · rename_i sc fin heq
    unfold Scope.take? at heq
    split at heq
    · obtain ⟨x, -, hx⟩ := Option.map_eq_some_iff.mp heq
      cases hx
      exact keepsClosers_set rfl fun _ ho => ho
    · cases heq
  · exact .of_eq rfl

theorem tends_register (w : World σ) (s : Key .scope) (fin : Finalizer σ) :
    Tends L w (w.register s fin).1 := by
  obtain ⟨hfutures, htallies, hfibers⟩ := parts_register w s fin
  exact .of_keeps (.of_eq hfibers) (keepsClosers_register w s fin) hfutures htallies
    fun k r hq => by rwa [Queued, timers_register]

theorem tends_takeFinalizer (w : World σ) (h : Handle) : Tends L w (w.takeFinalizer h).1 := by
  obtain ⟨hfutures, htallies⟩ := parts_takeFinalizer w h
  exact .of_keeps (.of_eq (fibers_takeFinalizer w h)) (keepsClosers_takeFinalizer w h) hfutures htallies
    fun k r hq => by rwa [Queued, timers_takeFinalizer]

theorem tends_newScope (w : World σ) (owner : FiberId) (strategy : Strategy) :
    Tends L w (w.newScope owner strategy).1 :=
  .of_keeps (.of_eq rfl) (fun _ sc hsc => ⟨sc, Store.get?_add_of_some _ hsc, fun _ ho => ho⟩) rfl rfl
    fun _ _ hq => hq

theorem tends_forkScope (w : World σ) (s : Key .scope) (owner : FiberId) :
    Tends L w (w.forkScope s owner).1 := by
  have hkept : Tends L w ((w.newScope owner (w.scope s).strategy).1.register s
      (.closeChild (w.newScope owner (w.scope s).strategy).2 (w.scope s).owner)).1 :=
    (tends_newScope w _ _).trans (tends_register _ _ _)
  refine hkept.trans (.of_keeps (.of_eq rfl) (fun t sc hsc => ?_) rfl rfl fun _ _ hq => hq)
  simp only [forkScope, Store.get?_modify, hsc, Option.map_some]
  split
  · exact ⟨_, rfl, fun _ ho => ho⟩
  · exact ⟨sc, rfl, fun _ ho => ho⟩

theorem tends_scopeClosing (w : World σ) (f : Key .fiber) : Tends L w (w.scopeClosing f) := by
  have hmarked : Tends L w (w.modifyFiber f fun fiber => { fiber with terminating := true }) :=
    .of_keeps (keepsWaiters_modify rfl fun _ => rfl) (.of_eq rfl) rfl rfl fun _ _ hq => hq
  unfold scopeClosing
  dsimp only
  split
  · exact hmarked
  · split
    · exact hmarked.trans (tends_queue _ _)
    · exact hmarked

theorem tends_requestClose (w : World σ) (s : Key .scope) (e : AnyExit) :
    Tends L w (w.requestClose s e).1 := by
  unfold requestClose
  split
  · exact .refl w
  · rename_i sc closing heq
    have hset : Tends L w { w with scopes := w.scopes.set s sc } := by
      unfold Scope.requestClose? at heq
      split at heq
      · cases heq
        exact .of_keeps (.of_eq rfl) (keepsClosers_set rfl fun _ ho => ho) rfl rfl fun _ _ hq => hq
      · cases heq
    dsimp only
    split
    · exact (hset.trans (tends_takeFinalizer _ _)).trans (.foldl tends_scopeClosing closing.hooks _)
    · exact hset.trans (.foldl tends_scopeClosing closing.hooks _)

theorem tends_hook (w : World σ) (s : Key .scope) (f : Key .fiber) : Tends L w (w.hook s f) := by
  unfold hook
  split
  · rename_i sc heq
    unfold Scope.hook? at heq
    split at heq
    · cases heq
      exact .of_keeps (.of_eq rfl) (keepsClosers_set rfl fun _ ho => ho) rfl rfl fun _ _ hq => hq
    · cases heq
  · exact tends_scopeClosing w f

theorem tends_claim {w : World σ} {s : Key .scope} {sc : Scope (Finalizer σ)} {e : AnyExit}
    {fins : List (Nat × Finalizer σ)} (h : (w.scope s).claim? = some (sc, e, fins)) :
    Tends L w { w with scopes := w.scopes.set s sc } := by
  unfold Scope.claim? at h
  split at h
  · cases h
    exact .of_keeps (.of_eq rfl) (keepsClosers_set rfl fun _ ho => ho) rfl rfl fun _ _ hq => hq
  · cases h

/-- Whoever waits for a scope is resumed when its exit is published. -/
theorem tends_publish (w : World σ) (s : Key .scope) (e : AnyExit) : Tends L w (w.publish s e) := by
  set w₁ : World σ := { w with scopes := w.scopes.set s ((w.scope s).publish e).1 } with hw₁
  have htends : Tends L w₁ (w.publish s e) := tends_wakeAll _ _ w₁
  refine ⟨fun k r hq => htends.queued k r hq, fun k a ha hk => ?_⟩
  by_cases has : a = .closed s
  · subst has
    obtain ⟨sc, hsc, o, ho, hok⟩ := hk
    refine Or.inr (woken_wakeAll ?_ w₁)
    rw [scope_of_get hsc]
    cases hcell : sc.closed with
    | pending os n =>
        rw [hcell] at ho
        exact List.mem_map.mpr ⟨o, ho, hok⟩
    | settled outcome =>
        rw [hcell] at ho
        cases ho
  · refine htends.observed k a ha ?_
    cases a with
    | future f => exact hk
    | done f => exact hk
    | closed t =>
        obtain ⟨sc, hsc, hob⟩ := hk
        exact ⟨sc, by rw [hw₁, Store.get?_set, if_neg fun h => has (by rw [h]), hsc], hob⟩
    | decided t => exact hk

/-! ## Fibers -/

theorem tends_set_fiber {w : World σ} {f : Key .fiber} {x x' : Fiber σ} (hx : w.fibers.get? f = some x)
    (hkept : ∀ k, ∀ o ∈ x.done.observers, o.2 = .wake k → o ∈ x'.done.observers) :
    Tends L w { w with fibers := w.fibers.set f x' } :=
  .of_keeps (keepsWaiters_set hx rfl hkept) (.of_eq rfl) rfl rfl fun _ _ hq => hq

theorem tends_startFiber (w : World σ) (f : Key .fiber) : Tends L w (w.startFiber f) := by
  unfold startFiber
  split
  · exact .refl w
  · rename_i x hx
    split
    · rename_i m _
      have hparked : Tends L w { w with fibers := w.fibers.set f (x.park m).1 } :=
        tends_set_fiber hx fun _ _ ho _ => ho
      exact hparked.trans (tends_queue _ _)
    · exact .refl w

theorem tends_newFiber (w : World σ) (c : Context) (s : Key .scope) (p : Program σ) (services : Services)
    (inherited : List Frame) : Tends L w (w.newFiber c s p services inherited).1 := by
  obtain ⟨x, hnew⟩ : ∃ x : Fiber σ, (w.newFiber c s p services inherited).1 =
      hook { (w.newSemaphore c.concurrency).1 with fibers := (w.fibers.add x).1 } s
        (w.fibers.add x).2 := ⟨_, rfl⟩
  rw [hnew]
  have hadd : Tends L w { (w.newSemaphore c.concurrency).1 with fibers := (w.fibers.add x).1 } :=
    .of_keeps (keepsWaiters_add rfl) (.of_eq rfl) rfl rfl fun _ _ hq => hq
  exact hadd.trans (tends_hook _ s _)

/-! ## Elementary changes -/

theorem Opens.tends {w w' : World σ} {t : Key .tally} (h : Opens L t w w') : Tends L w w' := by
  cases h with
  | elsewhere he => exact he.tends
  | touch hx ht => exact tends_set_fiber hx ht.waiters

theorem Change.tends {w w' : World σ} (h : Change L actor w w') : Tends L w w' := by
  cases h with
  | elsewhere he => exact he.tends
  | touch hx ht => exact tends_set_fiber hx ht.waiters
  | contest _ hthere h =>
      clear hthere
      induction h with
      | refl => exact .refl w
      | tail _ hstep ih => exact ih.trans hstep.tends
  | own _ hx ho => exact tends_set_fiber hx fun _ _ hmem _ => by rwa [ho]
  | enlist => exact tends_newFiber w _ _ _ _ _
  | launch => exact tends_startFiber w _
  | newScope => exact tends_newScope w _ _
  | forkScope => exact tends_forkScope w _ _
  | register => exact tends_register w _ _
  | take => exact tends_takeFinalizer w _
  | lent =>
      unfold takeLent
      split
      · exact tends_takeFinalizer w _
      · exact .refl w
  | close => exact tends_requestClose w _ _
  | claim _ hclaim => exact tends_claim hclaim
  | publish => exact tends_publish w _ _

theorem Changes.tends {w w' : World σ} (h : Changes L actor w w') : Tends L w w' := by
  induction h with
  | refl => exact .refl w
  | tail _ hstep ih => exact ih.trans hstep.tends

/-- A future that is there stays there. -/
theorem Change.there {w w' : World σ} (h : Change L actor w w') : KeepsFutures w w' := by
  cases h with
  | elsewhere he => exact he.there
  | touch => exact .of_eq rfl
  | contest hnone hthere h =>
      clear hnone hthere
      induction h with
      | refl => exact .of_eq rfl
      | tail _ hstep ih =>
          cases hstep with
          | elsewhere he => exact ih.trans he.there
          | touch => exact ih
  | own => exact .of_eq rfl
  | @enlist c s p services inherited =>
      obtain ⟨x, hnew⟩ : ∃ x : Fiber σ, (w.newFiber c s p services inherited).1 =
          hook { (w.newSemaphore c.concurrency).1 with fibers := (w.fibers.add x).1 } s
            (w.fibers.add x).2 := ⟨_, rfl⟩
      rw [hnew]
      exact .of_eq (parts_hook _ s _).1
  | @launch f =>
      refine .of_eq ?_
      unfold startFiber
      split
      · rfl
      · split <;> rfl
  | newScope => exact .of_eq rfl
  | @forkScope s owner =>
      exact .of_eq (parts_register (w.newScope owner (w.scope s).strategy).1 s
        (.closeChild (w.newScope owner (w.scope s).strategy).2 (w.scope s).owner)).1
  | register => exact .of_eq (parts_register w _ _).1
  | take => exact .of_eq (parts_takeFinalizer w _).1
  | lent =>
      unfold takeLent
      split
      · exact .of_eq (parts_takeFinalizer w _).1
      · exact .of_eq rfl
  | close => exact .of_eq (parts_requestClose w _ _).1
  | claim => exact .of_eq rfl
  | @publish s e =>
      exact .of_eq (serve_wakes (L := .none) .succeed ((w.scope s).publish e).2
        { w with scopes := w.scopes.set s ((w.scope s).publish e).1 }).1

theorem Changes.there {w w' : World σ} (h : Changes L actor w w') : KeepsFutures w w' := by
  induction h with
  | refl => exact .of_eq rfl
  | tail _ hstep ih => exact ih.trans hstep.there

/-! ## The end of a step -/

theorem tends_park {w : World σ} {f : Key .fiber} {x y : Fiber σ} (m : Machine σ)
    (hx : w.fibers.get? f = some x) (hdone : y.done = x.done) : Tends L w (w.park f y m).1 := by
  have hset : Tends L w { w with fibers := w.fibers.set f (y.park m).1 } :=
    tends_set_fiber hx fun _ _ ho _ => hdone ▸ ho
  unfold park
  dsimp only
  split
  · exact hset.trans (tends_queue _ _)
  · exact hset

/-- Whoever comes to wait for something forgets nobody else who does. -/
theorem tends_subscribe (w : World σ) (k : Wake) (a : Awaited) : Tends L w (w.subscribe k a) := by
  cases a with
  | future f =>
      simp only [subscribe, watchFuture]
      cases hcell : w.future f with
      | pending os next =>
          refine tends_set_future fun o ho => ?_
          rw [hcell] at ho
          exact List.mem_append_left _ ho
      | settled outcome => exact tends_queue w _
  | done f =>
      simp only [subscribe, watchFiber]
      cases hget : w.fibers.get? f with
      | none => exact .refl w
      | some x =>
          dsimp only
          cases hdone : x.done with
          | pending os next =>
              simp only [Cell.attach?, modifyFiber, Store.modify_eq_set _ hget]
              refine tends_set_fiber hget fun _ o ho _ => ?_
              rw [hdone] at ho
              exact List.mem_append_left _ ho
          | settled outcome =>
              simp only [Cell.attach?]
              split
              · exact tends_queue w _
              · exact .refl w
  | closed s =>
      simp only [subscribe]
      cases hcell : (w.scope s).closed with
      | pending os next =>
          refine .of_keeps (.of_eq rfl) (keepsClosers_set rfl fun o ho => ?_) rfl rfl fun _ _ hq => hq
          rw [hcell] at ho
          exact List.mem_append_left _ ho
      | settled outcome => exact .refl w
  | decided t =>
      simp only [subscribe]
      cases hcell : (w.tally t).decided with
      | pending os next =>
          refine .of_tallies fun j u hj => ?_
          obtain ⟨c, hc, o, ho, hoj⟩ := hj
          by_cases htu : t = u
          · subst htu
            rw [tally, hc] at hcell
            rw [show c.decided = .pending os next from hcell] at ho
            exact ⟨_, Store.get?_set_of_some hc, o, List.mem_append_left _ ho, hoj⟩
          · exact ⟨c, by rw [Store.get?_set, if_neg htu, hc], o, ho, hoj⟩
      | settled outcome => exact .refl w

theorem tends_notifyDone (f : Key .fiber) (e : AnyExit) (w : World σ) (o : DoneWatcher σ) :
    Tends L w (notifyDone f e w o) := by
  by_cases hwake : ∃ k, o = .wake k
  · obtain ⟨k, rfl⟩ := hwake
    exact tends_queue w _
  · exact (elsewhere_notifyDone f e w fun k heq => hwake ⟨k, heq⟩).tends

/-- Whoever waits for the end of a fiber is resumed when it is told. -/
theorem woken_notifyDone {f : Key .fiber} {e : AnyExit} {os : List (DoneWatcher σ)} {k : Wake}
    (hk : .wake k ∈ os) (w : World σ) : (os.foldl (notifyDone f e) w).Woken k := by
  induction os generalizing w with
  | nil => cases hk
  | cons o rest ih =>
      rcases List.mem_cons.mp hk with rfl | hk
      · have htends : Tends .none (w.wake k (.succeed (.exit e))) (rest.foldl (notifyDone f e) _) :=
          .foldl (tends_notifyDone f e) rest _
        exact (woken_wake w k _).tends htends
      · exact ih hk _

theorem tends_finishFiber (w : World σ) (f : Key .fiber) (e : AnyExit) :
    Tends L w (w.finishFiber f e) := by
  unfold finishFiber
  cases hget : w.fibers.get? f with
  | none => exact .refl w
  | some x =>
      dsimp only
      cases hdone : x.done with
      | settled outcome =>
          simp only [Cell.settle?, modifyFiber, Store.modify_eq_set _ hget]
          exact tends_set_fiber hget fun _ _ ho _ => ho
      | pending os next =>
          simp only [Cell.settle?, modifyFiber, Store.modify_eq_set _ hget]
          set w₁ : World σ := { w with fibers :=
            (w.fibers.set f { x with phase := .done e, done := .settled (.resolved e) }) } with hw₁
          have htends : Tends L w₁ ((os.map (·.2)).foldl (notifyDone f e) w₁) :=
            .foldl (tends_notifyDone f e) _ w₁
          refine ⟨fun k r hq => htends.queued k r hq, fun k a ha hk => ?_⟩
          by_cases haf : a = .done f
          · subst haf
            obtain ⟨y, hy, o, ho, hok⟩ := hk
            obtain rfl := Option.some.inj (hget.symm.trans hy)
            rw [hdone] at ho
            exact Or.inr (woken_notifyDone (List.mem_map.mpr ⟨o, ho, hok⟩) w₁)
          · refine htends.observed k a ha ?_
            cases a with
            | future g => exact hk
            | done g =>
                obtain ⟨y, hy, hob⟩ := hk
                exact ⟨y, by rw [hw₁, Store.get?_set, if_neg fun h => haf (by rw [h]), hy], hob⟩
            | closed s => exact hk
            | decided t => exact hk

theorem tends_conclude (f : Key .fiber) (stepped : World σ × Stepped σ) :
    Tends L stepped.1 (conclude f stepped).world := by
  obtain ⟨w, m, d⟩ := stepped
  cases d with
  | proceed => exact .refl w
  | yield =>
      simp only [conclude]
      cases hget : w.fibers.get? f with
      | none => exact .refl w
      | some x => exact (tends_park m hget rfl).trans (tends_queue _ _)
  | await a release =>
      simp only [conclude]
      cases hget : w.fibers.get? f with
      | none => exact .refl w
      | some x =>
          dsimp only
          have hpark : Tends L w (w.park f { x with ops := 0 } (m.holding release)).1 :=
            tends_park _ hget rfl
          split
          · exact hpark.trans (tends_subscribe _ _ a)
          · exact hpark.trans (.of_keeps (keepsWaiters_modify rfl fun _ => rfl) (.of_eq rfl) rfl rfl
              fun _ _ hq => hq)
  | done e => exact tends_finishFiber w f e

end Fibers.World
