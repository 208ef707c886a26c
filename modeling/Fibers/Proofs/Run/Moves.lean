import Fibers.Proofs.Run.Moment

set_option autoImplicit false

/-! # What a move keeps

The steps of a turn come down to elementary changes; this module adds what happens at the end of a
turn and between turns: a machine is put aside, a fiber waits, ends, or is resumed. Every move goes
forward, and it keeps the world within any licence that covers what the fiber in its turn has on
its machine.
-/

namespace Fibers

variable {σ : Type} {L : Licence}

/-- What a fiber can turn into in the course of a move. -/
structure Fiber.Onward (x x' : Fiber σ) : Prop where
  context : x'.context = x.context
  scope : x'.scope = x.scope
  terminating : x.terminating = true → x'.terminating = true
  outcome : ∀ o, x.done.outcome? = some o → x'.done.outcome? = some o

/-- What happens to a fiber in a move of somebody else: it stands aside, or it is started. -/
structure Fiber.Waits (x x' : Fiber σ) : Prop where
  aside : x.Aside x'
  phase : x'.phase = x.phase ∧ x'.nextToken = x.nextToken ∨
    ∃ m, x.phase = .notStarted m ∧ x'.phase = .suspended x.nextToken m ∧
      x'.nextToken = x.nextToken + 1

theorem Fiber.Onward.refl (x : Fiber σ) : x.Onward x := ⟨rfl, rfl, id, fun _ => id⟩

theorem Fiber.Onward.trans {a b c : Fiber σ} (h : a.Onward b) (h' : b.Onward c) : a.Onward c :=
  ⟨h'.context.trans h.context, h'.scope.trans h.scope, fun ht => h'.terminating (h.terminating ht),
    fun o ho => h'.outcome o (h.outcome o ho)⟩

theorem Fiber.Later.onward {x x' : Fiber σ} (h : x.Later x') : x.Onward x' :=
  ⟨h.context, h.scope, h.terminating, fun _ ho => h.outcome.trans ho⟩

theorem Fiber.Waits.refl (x : Fiber σ) : x.Waits x := ⟨.refl x, Or.inl ⟨rfl, rfl⟩⟩

theorem Fiber.Waits.trans {a b c : Fiber σ} (h : a.Waits b) (h' : b.Waits c) : a.Waits c where
  aside := h.aside.trans h'.aside
  phase := by
    rcases h.phase with ⟨hp, ht⟩ | ⟨m, hp, hp', ht⟩
    · rcases h'.phase with ⟨hq, hu⟩ | ⟨m, hq, hq', hu⟩
      · exact Or.inl ⟨hq.trans hp, hu.trans ht⟩
      · exact Or.inr ⟨m, hp ▸ hq, by rw [← ht]; exact hq', by rw [← ht]; exact hu⟩
    · rcases h'.phase with ⟨hq, hu⟩ | ⟨m', hq, -, -⟩
      · exact Or.inr ⟨m, hp, hq.trans hp', hu.trans ht⟩
      · rw [hp'] at hq
        cases hq

namespace World

/-- The order of worlds under the moves of `actor`. -/
structure Onward (actor : Option (Key .fiber)) (w w' : World σ) : Prop where
  fibers : ∀ f x, w.fibers.get? f = some x → ∃ x', w'.fibers.get? f = some x' ∧ x.Onward x' ∧
    (actor ≠ some f → x.Waits x')
  scopes : ScopesLater w w'

variable {actor : Option (Key .fiber)}

theorem Grows.onward {w w' : World σ} (h : Grows actor w w') : Onward actor w w' where
  fibers := by
    intro f x hx
    obtain ⟨x', hx', hlater, haside⟩ := h.fibers f x hx
    exact ⟨x', hx', hlater.onward, fun hf => ⟨haside hf, hlater.phase⟩⟩
  scopes := h.scopes

theorem Onward.refl (w : World σ) : Onward actor w w := (Grows.refl w).onward

theorem Onward.trans {w₁ w₂ w₃ : World σ} (h : Onward actor w₁ w₂) (h' : Onward actor w₂ w₃) :
    Onward actor w₁ w₃ where
  fibers := by
    intro f x hx
    obtain ⟨x', hx', honward, hwaits⟩ := h.fibers f x hx
    obtain ⟨x'', hx'', honward', hwaits'⟩ := h'.fibers f x' hx'
    exact ⟨x'', hx'', honward.trans honward', fun hf => (hwaits hf).trans (hwaits' hf)⟩
  scopes := by
    intro s sc hsc
    obtain ⟨sc', hsc', hlater⟩ := h.scopes s sc hsc
    obtain ⟨sc'', hsc'', hlater'⟩ := h'.scopes s sc' hsc'
    exact ⟨sc'', hsc'', hlater.trans hlater'⟩

theorem onward_of_eq {w w' : World σ} (hfibers : w'.fibers = w.fibers)
    (hscopes : w'.scopes = w.scopes) : Onward actor w w' := (grows_of_eq hfibers hscopes).onward

/-- A fiber in its own move. -/
theorem onward_set_fiber {w : World σ} {f : Key .fiber} {x x' : Fiber σ}
    (hx : w.fibers.get? f = some x) (h : x.Onward x') :
    Onward (some f) w { w with fibers := w.fibers.set f x' } where
  fibers := by
    intro g y hy
    by_cases hfg : f = g
    · subst hfg
      obtain rfl : x = y := Option.some.inj (hx.symm.trans hy)
      exact ⟨x', Store.get?_set_of_some hy, h, fun hne => absurd rfl hne⟩
    · exact ⟨y, by rw [Store.get?_set, if_neg hfg, hy], .refl y, fun _ => .refl y⟩
  scopes := fun _ sc h => ⟨sc, h, .refl sc⟩

/-! ## Waiting -/

/-- A fiber that waits for a future reaches only futures and tasks. -/
theorem parts_watchFuture (w : World σ) (f : Key .future) (o : FutureWatcher σ) :
    (w.watchFuture f o).1.fibers = w.fibers ∧ (w.watchFuture f o).1.scopes = w.scopes := by
  unfold watchFuture
  split
  · exact ⟨rfl, rfl⟩
  · split
    · cases o with
      | wake k => exact ⟨rfl, rfl⟩
      | react r => exact ⟨rfl, rfl⟩
    · exact ⟨rfl, rfl⟩

theorem grows_subscribe (w : World σ) (k : Wake) (a : Awaited) :
    Grows actor w (w.subscribe k a) := by
  cases a with
  | future f => exact grows_of_eq (parts_watchFuture w f _).1 (parts_watchFuture w f _).2
  | done f =>
      simp only [subscribe, watchFiber]
      cases hget : w.fibers.get? f with
      | none => exact .refl w
      | some x =>
          dsimp only
          cases hdone : x.done with
          | pending os next =>
              simp only [Cell.attach?, modifyFiber, Store.modify_eq_set _ hget]
              refine grows_set_fiber fun y hy => ?_
              obtain rfl : x = y := Option.some.inj (hget.symm.trans hy)
              exact ⟨⟨rfl, rfl, Or.inl ⟨rfl, rfl⟩, id, by rw [hdone]; rfl⟩,
                fun _ => ⟨rfl, rfl, rfl, rfl, rfl, by rw [hdone]; rfl, .of_eq rfl⟩⟩
          | settled o =>
              simp only [Cell.attach?]
              cases x.exit? with
              | none => exact .refl w
              | some e => exact grows_of_eq rfl rfl
  | closed s =>
      simp only [subscribe]
      split
      · refine grows_set_scope fun sc hsc => ?_
        rw [scope_of_get hsc]
        exact ⟨rfl, rfl, .refl _⟩
      · exact .refl w
  | decided t =>
      simp only [subscribe]
      split
      · exact grows_of_eq rfl rfl
      · exact .refl w

theorem licensed_subscribe {w : World σ} (hw : w.Licensed L) (k : Wake) (a : Awaited) :
    (w.subscribe k a).Licensed L := by
  cases a with
  | future f =>
      simp only [subscribe, watchFuture]
      cases hcell : w.future f with
      | pending os next =>
          simp only [Cell.attach?]
          refine ⟨hw.machines, hw.finalizers, hw.parents, fun g c hc p hp => ?_, hw.tasks,
            hw.errands⟩
          rw [Store.get?_set] at hc
          split at hc
          · obtain ⟨_, -, rfl⟩ := Option.map_eq_some_iff.mp hc
            cases hp
          · exact hw.futures g c hc p hp
      | settled o =>
          simp only [Cell.attach?, Cell.outcome?]
          refine licensed_queue hw ?_
          cases o with
          | resolved p =>
              unfold World.future at hcell
              cases hget : w.futures.get? f with
              | none =>
                  rw [hget] at hcell
                  cases hcell
              | some cell =>
                  rw [hget] at hcell
                  have hcell' : cell = .settled (.resolved p) := hcell
                  exact hw.futures f cell hget p (by rw [hcell']; rfl)
          | interrupted id => exact .failCause
  | done f =>
      simp only [subscribe, watchFiber]
      cases hget : w.fibers.get? f with
      | none => exact hw
      | some x =>
          dsimp only
          cases hdone : x.done with
          | pending os next =>
              simp only [Cell.attach?, modifyFiber, Store.modify_eq_set _ hget]
              exact licensed_set_fiber hw fun hf => hw.machines f x hget hf
          | settled o =>
              simp only [Cell.attach?]
              cases x.exit? with
              | none => exact hw
              | some e => exact licensed_queue hw .succeed
  | closed s =>
      simp only [subscribe]
      split
      · obtain ⟨hstate, hparent⟩ := licensed_scope hw s
        exact licensed_set_scope hw hstate hparent
      · exact hw
  | decided t =>
      simp only [subscribe]
      split
      · exact ⟨hw.machines, hw.finalizers, hw.parents, hw.futures, hw.tasks, hw.errands⟩
      · exact hw

/-- What a wait goes on with at once. -/
theorem licensed_settledProgram {w : World σ} (hw : w.Licensed L) {a : Awaited} {p : Program σ}
    (h : w.settledProgram? a = some p) : p.Licensed L := by
  cases a with
  | future f =>
      obtain ⟨o, ho, rfl⟩ := Option.map_eq_some_iff.mp h
      cases o with
      | resolved p =>
          unfold World.future at ho
          cases hget : w.futures.get? f with
          | none =>
              rw [hget] at ho
              cases ho
          | some cell =>
              rw [hget] at ho
              exact hw.futures f cell hget p ho
      | interrupted id => exact .failCause
  | done f =>
      obtain ⟨e, -, rfl⟩ := Option.map_eq_some_iff.mp h
      exact .succeed
  | closed s =>
      simp only [settledProgram?] at h
      split at h
      · cases h
        exact .succeed
      · cases h
        exact .failCause
      · cases h
  | decided t =>
      simp only [settledProgram?] at h
      split at h
      · cases h
        exact .succeed
      · cases h
        exact .failCause
      · cases h

/-! ## The end of a fiber -/

/-- Telling the end of a fiber to those who watch it. -/
theorem licensed_notifyDone (f : Key .fiber) (e : AnyExit) {w : World σ} (hw : w.Licensed L)
    (o : DoneWatcher σ) : (notifyDone f e w o).Licensed L := by
  cases o with
  | wake k => exact licensed_queue hw .succeed
  | racer t place => exact (elsewhere_notifyDone f e w fun k h => by cases h).licensed hw
  | member t place => exact (elsewhere_notifyDone f e w fun k h => by cases h).licensed hw
  | root => exact (elsewhere_notifyDone f e w fun k h => by cases h).licensed hw
  | react r => exact (elsewhere_notifyDone f e w fun k h => by cases h).licensed hw

theorem licensed_finishFiber {w : World σ} (hw : w.Licensed L) (f : Key .fiber) (e : AnyExit) :
    (w.finishFiber f e).Licensed L := by
  unfold finishFiber
  split
  · exact hw
  · rename_i x hx
    split
    · simp only [modifyFiber, Store.modify_eq_set _ hx]
      exact licensed_set_fiber hw fun _ => trivial
    · refine licensed_foldl (fun w o hw => licensed_notifyDone f e hw o) _ ?_
      simp only [modifyFiber, Store.modify_eq_set _ hx]
      exact licensed_set_fiber hw fun _ => trivial

theorem onward_finishFiber (w : World σ) (f : Key .fiber) (e : AnyExit) :
    Onward (some f) w (w.finishFiber f e) := by
  unfold finishFiber
  split
  · exact .refl w
  · rename_i x hx
    split
    · simp only [modifyFiber, Store.modify_eq_set _ hx]
      exact onward_set_fiber hx ⟨rfl, rfl, id, fun _ => id⟩
    · rename_i cell watchers hsettle
      have hset : Onward (some f) w { w with
          fibers := (w.fibers.set f { x with phase := .done e, done := cell }) } := by
        refine onward_set_fiber hx ⟨rfl, rfl, id, fun o ho => ?_⟩
        unfold Cell.settle? at hsettle
        split at hsettle
        · rename_i os next hdone
          rw [hdone] at ho
          cases ho
        · cases hsettle
      simp only [modifyFiber, Store.modify_eq_set _ hx]
      refine hset.trans (onward_of_eq ?_ ?_)
      · exact foldl_keeps fibers _ (fun w o => fibers_notifyDone f e w o) watchers _
      · exact foldl_keeps scopes _ (fun w o => scopes_notifyDone f e w o) watchers _

/-! ## Hooks -/

theorem hooked_modifyFiber {w : World σ} (hw : w.Hooked) (f : Key .fiber)
    {g : Fiber σ → Fiber σ} (hscope : ∀ x, (g x).scope = x.scope)
    (hterm : ∀ x, (g x).terminating = x.terminating) : (w.modifyFiber f g).Hooked := by
  cases hget : w.fibers.get? f with
  | none =>
      rw [modifyFiber, Store.modify_eq_self _ hget]
      exact hw
  | some x =>
      rw [modifyFiber, Store.modify_eq_set _ hget]
      exact hooked_set_fiber hw hget (hscope x) (hterm x)

theorem hooked_subscribe {w : World σ} (hw : w.Hooked) (k : Wake) (a : Awaited) :
    (w.subscribe k a).Hooked := by
  cases a with
  | future f => exact HookedBut.of_eq hw (parts_watchFuture w f _).1 (parts_watchFuture w f _).2
  | done f =>
      simp only [subscribe, watchFiber]
      split
      · exact hw
      · split
        · exact hooked_modifyFiber hw f (fun _ => rfl) fun _ => rfl
        · split
          · exact HookedBut.of_eq hw rfl rfl
          · exact hw
  | closed s =>
      simp only [subscribe]
      split
      · exact hooked_set_scope hw fun fs hooks n hstate => ⟨fs, hooks, n, hstate, fun _ h => h⟩
      · exact hw
  | decided t =>
      simp only [subscribe]
      split
      · exact HookedBut.of_eq hw rfl rfl
      · exact hw

theorem hooked_running {w : World σ} (hw : w.Hooked) (f : Key .fiber) :
    (w.modifyFiber f fun fiber => { fiber with phase := .running }).Hooked :=
  hooked_modifyFiber hw f (fun _ => rfl) fun _ => rfl

theorem hooked_finishFiber {w : World σ} (hw : w.Hooked) (f : Key .fiber) (e : AnyExit) :
    (w.finishFiber f e).Hooked := by
  unfold finishFiber
  split
  · exact hw
  · split
    · exact hooked_modifyFiber hw f (fun _ => rfl) fun _ => rfl
    · rename_i cell watchers _
      have hset : (w.modifyFiber f fun fiber =>
          { fiber with phase := .done e, done := cell }).Hooked :=
        hooked_modifyFiber hw f (fun _ => rfl) fun _ => rfl
      refine HookedBut.of_eq hset ?_ ?_
      · exact foldl_keeps fibers _ (fun w o => fibers_notifyDone f e w o) _ _
      · exact foldl_keeps scopes _ (fun w o => scopes_notifyDone f e w o) _ _

/-! ## The end of a step -/

theorem licensed_park {w : World σ} {f : Key .fiber} {fiber : Fiber σ} {m : Machine σ}
    (hw : w.Licensed L) (hm : ¬ L.exempt f → m.Licensed L) :
    (w.park f fiber m).1.Licensed L := by
  have hset : World.Licensed L { w with fibers := w.fibers.set f (fiber.park m).1 } :=
    licensed_set_fiber hw hm
  unfold park
  dsimp only
  split
  · exact licensed_queue hset trivial
  · exact hset

theorem onward_park {w : World σ} {f : Key .fiber} {x fiber : Fiber σ} (m : Machine σ)
    (hx : w.fibers.get? f = some x) (h : x.Onward fiber) :
    Onward (some f) w (w.park f fiber m).1 := by
  have hset : Onward (some f) w { w with fibers := w.fibers.set f (fiber.park m).1 } :=
    onward_set_fiber hx ⟨h.context, h.scope, h.terminating, h.outcome⟩
  unfold park
  dsimp only
  split
  · exact hset.trans (onward_of_eq rfl rfl)
  · exact hset

theorem licensed_running {w : World σ} (hw : w.Licensed L) (f : Key .fiber) :
    (w.modifyFiber f fun fiber => { fiber with phase := .running }).Licensed L := by
  cases hget : w.fibers.get? f with
  | none =>
      rw [modifyFiber, Store.modify_eq_self _ hget]
      exact hw
  | some x =>
      rw [modifyFiber, Store.modify_eq_set _ hget]
      exact licensed_set_fiber hw fun _ => trivial

theorem onward_running (w : World σ) (f : Key .fiber) :
    Onward (some f) w (w.modifyFiber f fun fiber => { fiber with phase := .running }) := by
  cases hget : w.fibers.get? f with
  | none =>
      rw [modifyFiber, Store.modify_eq_self _ hget]
      exact .refl w
  | some x =>
      rw [modifyFiber, Store.modify_eq_set _ hget]
      exact onward_set_fiber hget ⟨rfl, rfl, id, fun _ => id⟩

/-- The end of a step goes forward. -/
theorem onward_conclude (f : Key .fiber) (stepped : World σ × Stepped σ) :
    Onward (some f) stepped.1 (conclude f stepped).world := by
  obtain ⟨w, m, d⟩ := stepped
  cases d with
  | proceed => exact .refl w
  | yield =>
      simp only [conclude]
      cases hget : w.fibers.get? f with
      | none => exact .refl w
      | some x => exact (onward_park m hget (.refl x)).trans (onward_of_eq rfl rfl)
  | await a release =>
      simp only [conclude]
      cases hget : w.fibers.get? f with
      | none => exact .refl w
      | some x =>
          dsimp only
          have hpark : ∀ m, Onward (some f) w (w.park f { x with ops := 0 } m).1 := fun m =>
            onward_park m hget ⟨rfl, rfl, id, fun _ => id⟩
          split
          · exact (hpark _).trans (grows_subscribe _ _ a).onward
          · exact (hpark _).trans (onward_running _ f)
  | done e => exact onward_finishFiber w f e

/-- The end of a step leaves the fibers hooked. -/
theorem hooked_conclude {f : Key .fiber} {stepped : World σ × Stepped σ}
    (hw : stepped.1.Hooked) : (conclude f stepped).world.Hooked := by
  obtain ⟨w, m, d⟩ := stepped
  have hpark : ∀ x y m, w.fibers.get? f = some x → y.scope = x.scope →
      y.terminating = x.terminating → (w.park f y m).1.Hooked := by
    intro x y m hx hscope hterm
    have hset : Hooked { w with fibers := w.fibers.set f (y.park m).1 } :=
      hooked_set_fiber hw hx hscope hterm
    unfold park
    dsimp only
    split
    · exact HookedBut.of_eq hset rfl rfl
    · exact hset
  cases d with
  | proceed => exact hw
  | yield =>
      simp only [conclude]
      cases hget : w.fibers.get? f with
      | none => exact hw
      | some x => exact HookedBut.of_eq (hpark x x m hget rfl rfl) rfl rfl
  | await a release =>
      simp only [conclude]
      cases hget : w.fibers.get? f with
      | none => exact hw
      | some x =>
          dsimp only
          have hparked := hpark x { x with ops := 0 } (m.holding release) hget rfl rfl
          split
          · exact hooked_subscribe hparked _ a
          · exact hooked_running hparked f
  | done e => exact hooked_finishFiber hw f e

end World

/-- A moment that keeps to a licence. -/
structure Moment.Licensed (L : Licence) (x : Moment σ) : Prop where
  world : x.world.Licensed L
  active : ∀ f m, x.active = some (f, m) → ¬ L.exempt f → m.Licensed L

namespace World

variable {actor : Option (Key .fiber)}

/-- The end of a step keeps to the licence. -/
theorem licensed_conclude {f : Key .fiber} {stepped : World σ × Stepped σ}
    (hw : stepped.1.Licensed L) (hm : ¬ L.exempt f → stepped.2.machine.Licensed L)
    (hrelease : ¬ L.exempt f → ∀ a h, stepped.2.decision = .await a (some h) →
      L.hold h ∧ ∀ e, stepped.2.machine.control ≠ .leave e) :
    (conclude f stepped).Licensed L := by
  obtain ⟨w, m, d⟩ := stepped
  have hidle : ∀ w' : World σ, w'.Licensed L → Moment.Licensed L ⟨w', none⟩ :=
    fun w' hw' => ⟨hw', fun g m' h => by cases h⟩
  cases d with
  | proceed => exact ⟨hw, fun g m' h hg => by cases h; exact hm hg⟩
  | yield =>
      simp only [conclude]
      cases hget : w.fibers.get? f with
      | none => exact hidle w hw
      | some x => exact hidle _ (licensed_queue (licensed_park hw hm) trivial)
  | await a release =>
      simp only [conclude]
      cases hget : w.fibers.get? f with
      | none => exact hidle w hw
      | some x =>
          dsimp only
          have hholding : ¬ L.exempt f → (m.holding release).Licensed L := by
            intro hf
            cases release with
            | none => exact hm hf
            | some h =>
                obtain ⟨hhold, hstay⟩ := hrelease hf a h rfl
                refine ⟨(hm hf).control, fun y hy => ?_, fun e he => absurd he (hstay e)⟩
                rcases List.mem_cons.mp hy with rfl | hy
                · exact hhold
                · exact (hm hf).stack y hy
          have hpark : (w.park f { x with ops := 0 } (m.holding release)).1.Licensed L :=
            licensed_park hw hholding
          split
          · exact hidle _ (licensed_subscribe hpark _ a)
          · rename_i p hp
            refine ⟨licensed_running hpark f, fun g m'' h hg => ?_⟩
            cases h
            exact ⟨licensed_settledProgram hpark hp, (hholding hg).stack, fun e he => by cases he⟩
  | done e => exact hidle _ (licensed_finishFiber hw f e)

/-- The end of a sound step above frames that keep to the licence. -/
theorem StepSound.licensed_conclude {w : World σ} {f : Key .fiber} {exiting : Bool}
    {base : List (Waiting σ)} {stepped : World σ × Stepped σ}
    (h : StepSound L actor w exiting base stepped) (hw : stepped.1.Licensed L)
    (hbase : ∀ z ∈ base, z.Licensed L) : (conclude f stepped).Licensed L := by
  obtain ⟨pushed, heq, hpushed⟩ := h.stack
  refine World.licensed_conclude hw (fun _ => ⟨h.control, fun z hz => ?_, h.leaving⟩) fun _ => h.release
  rw [heq] at hz
  rcases List.mem_append.mp hz with hz | hz
  · exact hpushed z hz
  · exact hbase z hz

/-! ## A step of a turn -/

/-- A step keeps to a licence that covers the handles it gives out. -/
theorem stepSound_step {w : World σ} {f : Key .fiber} {fiber : Fiber σ} {m : Machine σ}
    (hm : m.Licensed L) (hfins : ∀ s sc, w.scopes.get? s = some sc → sc.state.Licensed L)
    (hclaims : ∀ s, m.control = .instruct (.duty (.finish s)) →
      fiber.ops < fiber.context.limits.maxOps → ClaimLicensed L w s)
    (hnew : ∀ h, ¬ Issued w h → Issued (w.step f fiber m).1 h → L.hold h) :
    ∃ exiting, StepSound L (some f) w exiting [] (w.step f fiber m) := by
  obtain ⟨control, stack, exiting⟩ := m
  -- the steps that only change the control of the machine
  have hbare : ∀ (w' : World σ) (c : Control σ) (d : Decision), Changes L (some f) w w' →
      c.Licensed L → (∀ e, c ≠ .leave e) → d = .proceed ∨ d = .yield →
      StepSound L (some f) w exiting [] (w', ⟨⟨c, stack, exiting⟩, d⟩) := by
    intro w' c d hchanges hc hstay hd
    refine ⟨hchanges, hc, ⟨stack, (List.append_nil stack).symm, hm.stack⟩, rfl,
      fun e he => absurd he (hstay e), fun a h ha => ?_, fun e he => ?_⟩
    · rcases hd with rfl | rfl <;> cases ha
    · rcases hd with rfl | rfl <;> cases he
  have hcount : Changes L (some f) w
      (w.modifyFiber f fun fiber => { fiber with ops := fiber.ops + 1 }) :=
    changes_own rfl fun x => rfl
  have hreset : Changes L (some f) w (w.modifyFiber f fun fiber => { fiber with ops := 0 }) :=
    changes_own rfl fun x => rfl
  have hunwind : ∀ e : AnyExit, StepSound L (some f) w exiting []
      (unwind f exiting e stack
        (w.modifyFiber f fun fiber => { fiber with ops := fiber.ops + 1 })) := fun e =>
    (stepSound_unwind hm.stack _).after hcount
  cases control with
  | start p => exact ⟨exiting, hbare w _ _ (.refl w) hm.control nofun (Or.inl rfl)⟩
  | leave exit =>
      have hunwound : Changes L (some f) w (w.modifyFiber f fun fiber =>
          { fiber.unwind with masks := fiber.unwind.masks.push false }) :=
        changes_own rfl fun x => rfl
      refine ⟨true, hunwound, ?_, ⟨[], rfl, fun x hx => by cases hx⟩, rfl, fun _ _ => rfl,
        (fun a h ha => by cases ha), nofun⟩
      cases exit with
      | none => exact licensed_awaitScope _
      | some e => exact licensed_closeOrWaitScope _ _
  | value v =>
      refine ⟨exiting, ?_⟩
      simp only [step]
      split
      · exact hbare _ _ _ hreset trivial nofun (Or.inr rfl)
      · exact hunwind (.success v)
  | failure c =>
      refine ⟨exiting, ?_⟩
      simp only [step]
      split
      · exact hbare _ _ _ hreset trivial nofun (Or.inr rfl)
      · exact hunwind (.failure c)
  | instruct p =>
      refine ⟨exiting, ?_⟩
      simp only [step] at hnew ⊢
      split
      · exact hbare _ _ _ hreset hm.control nofun (Or.inr rfl)
      · rename_i hbudget
        rw [if_neg hbudget] at hnew
        set w₁ := w.modifyFiber f fun fiber => { fiber with ops := fiber.ops + 1 } with hw₁
        have hsound : StepSound L (some f) w₁ exiting stack
            (w₁.instruct f fiber ⟨.instruct p, stack, exiting⟩ p) := by
          refine stepSound_instruct (m := ⟨.instruct p, stack, exiting⟩) (fun _ => rfl) hm.control
            hm.control nofun (fun s sc hsc => hfins s sc hsc)
            (fun s hs => hclaims s (by rw [hs]) (Nat.not_le.mp hbudget)) ?_
          exact fun h hold => hnew h hold
        -- an instruction keeps the stack and pushes on it
        obtain ⟨pushed, heq, hpushed⟩ := hsound.stack
        refine (StepSound.after hcount ⟨hsound.changes, hsound.control, ⟨pushed ++ stack, ?_, ?_⟩,
          hsound.exiting, hsound.leaving, hsound.release, hsound.done⟩)
        · rw [heq, List.append_nil]
        · intro y hy
          rcases List.mem_append.mp hy with hy | hy
          · exact hpushed y hy
          · exact hm.stack y hy

/-! ## Tasks -/

theorem licensed_timers {w : World σ} {timers : Timers (Task σ)} (hw : w.Licensed L)
    (h : ∀ u ∈ timers.live, u ∈ w.timers.live) : World.Licensed L { w with timers } :=
  ⟨hw.machines, hw.finalizers, hw.parents, hw.futures, fun t ht => hw.tasks t (h t ht), hw.errands⟩

theorem licensed_awaken {w : World σ} {f : Key .fiber} {token : Nat} {r : Resume σ}
    (hw : w.Licensed L) (hr : ∀ p, r = .program p → p.Licensed L) :
    (w.awaken f token r).Licensed L := by
  have hidle : Moment.Licensed L ⟨w, none⟩ := ⟨hw, fun g m' h => by cases h⟩
  unfold awaken
  split
  · exact hidle
  · rename_i x hx
    split
    · rename_i current m hphase
      have hm : ¬ L.exempt f → m.Licensed L := by
        intro hf
        have hlicensed := hw.machines f x hx hf
        rw [hphase] at hlicensed
        exact hlicensed
      have hrunning := licensed_running hw f
      split
      · exact hidle
      · cases r with
        | proceed => exact ⟨hrunning, fun g m' h hg => by cases h; exact hm hg⟩
        | program p =>
            exact ⟨hrunning, fun g m' h hg => by cases h; exact ⟨hr p rfl, (hm hg).stack, nofun⟩⟩
        | terminate =>
            dsimp only
            split
            · exact hidle
            · exact ⟨hrunning, fun g m' h hg => by cases h; exact hm hg⟩
    · exact hidle

theorem onward_awaken (w : World σ) (f : Key .fiber) (token : Nat) (r : Resume σ) :
    Onward (some f) w (w.awaken f token r).world := by
  unfold awaken
  split
  · exact .refl w
  · split
    · split
      · exact .refl w
      · cases r with
        | proceed => exact onward_running w f
        | program p => exact onward_running w f
        | terminate =>
            dsimp only
            split
            · exact .refl w
            · exact onward_running w f
    · exact .refl w

/-! ## From outside -/

/-- Starting a root fiber comes down to elementary changes. -/
theorem changes_runFiber (w : World σ) {p : Program σ}
    (hp : ¬ L.exempt (w.runFiber p).2 → p.Licensed L) : Changes L actor w (w.runFiber p).1 := by
  set w₁ := w.nextId.1 with hw₁
  set w₂ := (w₁.newRefs .empty).1 with hw₂
  set w₃ := (w₂.newScope w.nextId.2 w₂.limits.finalization).1 with hw₃
  have h₂ : Changes L actor w w₂ := changes_of_eq rfl rfl rfl rfl rfl rfl (.of_eq rfl)
  have h₃ : Changes L actor w₂ w₃ := Change.newScope.changes
  have hrest : Changes L actor w₃ (w.runFiber p).1 := by
    have hscope : w₃.scopes.get? (w₂.newScope w.nextId.2 w₂.limits.finalization).2 =
        some (.new w.nextId.2 w₂.limits.finalization) := by
      rw [hw₃, newScope, Store.get?_add, if_pos rfl]
    have hnew : ∀ c : Context, c.interruptible = true → Changes L actor w₃ (w₃.newFiber c
        (w₂.newScope w.nextId.2 w₂.limits.finalization).2 p w₃.services []).1 :=
      fun c hc => (Change.enlist (Option.isSome_of_eq_some hscope) (fun _ => hc) hp).changes
    have hroots : ∀ (w : World σ) rs, Changes L actor w { w with roots := rs } :=
      fun w rs => changes_of_eq rfl rfl rfl rfl rfl rfl (.of_eq rfl)
    have hwatch : ∀ (w : World σ) g, Changes L actor w (w.watchFiber g .root).1 :=
      fun w g => changes_watchFiber w g (fun k h => by cases h) fun _ => rfl
    have hstart : ∀ (w : World σ) g, Changes L actor w (w.startFiber g) :=
      fun w g => Change.launch.changes
    exact (((hnew _ rfl).trans (hroots _ _)).trans (hwatch _ _)).trans (hstart _ _)
  exact (h₂.trans h₃).trans hrest

theorem elsewhere_runErrand {w : World σ} {e : Errand σ} {others : List (Errand σ)}
    (he : e.program.Licensed L) (hothers : ∀ g ∈ others, g ∈ w.errands) :
    Elsewhere L w (w.runErrand e others) := by
  have hwait : Elsewhere L w
      { w with timers := w.timers.advanceTo e.due, errands := others } :=
    ⟨rfl, rfl, fun h => ⟨h.machines, h.finalizers, h.parents, h.futures, h.tasks,
      fun g hg => h.errands g (hothers g hg)⟩, fun E k hk => ⟨hk.futures, hk.tallies⟩,
      fun E k r _ h => Or.inl h, fun k r h => Or.inl h, .of_eq rfl rfl rfl rfl fun _ _ h => h,
      .of_eq rfl, .of_eq rfl, .of_eq rfl, (Timers.passes_advanceTo _ _).onward, .of_eq rfl⟩
  exact hwait.trans (elsewhere_resolve _ _ he)

end World

/-! ## Moves -/

/-- A moment that keeps to its own law, with its fibers hooked. -/
structure Moment.Lawful (x : Moment σ) : Prop where
  licensed : x.Licensed x.world.law
  hooked : x.world.Hooked

/-- A machine that heeds its fiber keeps to the licence. -/
theorem Machine.Licensed.heed {m : Machine σ} (hm : m.Licensed L) (fiber : Fiber σ) :
    (m.heed fiber).Licensed L := by
  unfold Machine.heed
  split
  · exact ⟨trivial, (fun x hx => by cases hx), fun _ _ => rfl⟩
  · exact hm

namespace World

/-- A step of a turn comes down to elementary changes under the law of the world, whatever handles
it gives out. -/
theorem step_changes {w : World σ} {f : Key .fiber} {m : Machine σ}
    (hx : Moment.Lawful ⟨w, some (f, m)⟩) (fiber : Fiber σ) :
    Changes { w.law with hold := fun _ => True } (some f) w (w.step f fiber (m.heed fiber)).1 := by
  have hle : w.law ≤ { w.law with hold := fun _ => True } :=
    ⟨fun _ h => h, fun _ h => h, fun _ _ => trivial, id⟩
  have hm : m.Licensed w.law := hx.licensed.active f m rfl id
  obtain ⟨exiting, hsound⟩ := stepSound_step ((hm.mono hle).heed fiber)
    (hx.licensed.world.mono hle fun _ h => h).finalizers (fun s _ _ => claimLicensed_law w s)
    fun _ _ _ => trivial
  exact hsound.changes

/-- What the step of a turn does in a lawful moment. -/
theorem advance_lawful {w : World σ} {f : Key .fiber} {m : Machine σ}
    (hx : Moment.Lawful ⟨w, some (f, m)⟩) :
    (w.advance f m).Lawful ∧ Onward (some f) w (w.advance f m).world := by
  have hm : m.Licensed w.law := hx.licensed.active f m rfl id
  unfold advance
  cases hget : w.fibers.get? f with
  | none => exact ⟨⟨⟨hx.licensed.world, fun g m' h => by cases h⟩, hx.hooked⟩, .refl w⟩
  | some fiber =>
      dsimp only
      set stepped := w.step f fiber (m.heed fiber) with hstepped
      have hgrows : Grows (some f) w stepped.1 := (step_changes hx fiber).grows
      have hlater := (onward_conclude f stepped).scopes
      have honward : Onward (some f) w (conclude f stepped).world :=
        hgrows.onward.trans (onward_conclude f stepped)
      -- the law of the start, with the handles that the step gives out
      set L : Licence := { w.law with hold := Issued stepped.1 } with hL
      have hle : w.law ≤ L :=
        ⟨fun _ h => h, fun _ h => h, fun _ h => h.mono hgrows.scopes, id⟩
      have hle' : L ≤ (conclude f stepped).world.law :=
        ⟨fun _ h => h.mono honward.scopes, fun _ h => h.mono honward.scopes,
          fun _ h => h.mono hlater, id⟩
      obtain ⟨exiting, hsound⟩ := stepSound_step ((hm.mono hle).heed fiber)
        (hx.licensed.world.mono hle fun _ h => h).finalizers (fun s _ _ => claimLicensed_law w s)
        (fun _ _ h => h)
      have hconclude : (conclude f stepped).Licensed L := hsound.licensed_conclude
        (hsound.changes.licensed (fun _ _ h => h) (hx.licensed.world.mono hle fun _ h => h)) nofun
      refine ⟨⟨⟨hconclude.world.mono hle' fun _ h => h, fun g m' h hg => ?_⟩, ?_⟩, honward⟩
      · exact (hconclude.active g m' h hg).mono hle'
      · exact hooked_conclude (hsound.changes.hooked (fun s h => h) hx.hooked)

end World

end Fibers
