import Fibers.Proofs.Detour.Steps

set_option autoImplicit false

/-! # References and sleep

What a fiber does with its references and with the clock takes several instructions: it asks for
its context, goes on with a function of it, and for a sleep it sets a timer and waits. This module
takes these arrangements as wholes. A sleep is the one place where a program lets time pass: the
fiber waits for the ring of its timer, and the ring queues its next turn.
-/

namespace Fibers.Detour

open World Direct

variable {σ S α : Type} {f : Key .fiber} {home : Home} {view : σ → S} {out : Outlet σ f home}
  {w w' : World σ} {x x' x₁ : Place σ S} {P : Option (Scope (Finalizer σ)) → Prop}
  {p q : Program σ} {e : AnyExit}

/-- A program that ends at once with a value. -/
theorem follows_succeed {v : Value} (hcalm : Calm x.fiber) :
    Follows view f home out (.succeed v) (.success v) x x P :=
  follows_leaf hcalm hcalm fun w _ _ h _ => ⟨w, rfl, .refl f home w, h⟩

/-- A program made from the context of the fiber. -/
theorem follows_fiberContext {g : Value → Act σ .program} (hcalm : Calm x.fiber)
    (hcalm' : Calm x'.fiber)
    (hcall : CallFollows view f home out (fun w => w.run (g (.context x.fiber.context))) e x x' P) :
    Follows view f home out (Program.fiberContext.bindAny g) e x x' P := by
  have hcontext : Follows view f home out .fiberContext (.success (.context x.fiber.context)) x x P :=
    follows_leaf hcalm hcalm fun w actual _ h hvaries => ⟨w, by
      obtain ⟨ops, token, cell, -, rfl⟩ := hvaries
      rfl, .refl f home w, h⟩
  exact follows_frame hcalm hcalm' (fun _ _ _ => rfl) (fun _ _ => rfl) hcontext hcall

/-! ## References -/

theorem Stands.refMap (h : Stands view f home w x P) : w.refMap x.fiber.context.refs = x.refs := by
  simp only [World.refMap, h.refsKey, h.map, Option.getD_some]

theorem follows_getRef (r : FiberRef) (hcalm : Calm x.fiber) :
    Follows view f home out (.getRef r) (.success (.datum (x.refs.read r))) x x P := by
  refine follows_fiberContext hcalm hcalm
    (Or.inr ⟨.succeed (.datum (x.refs.read r)), x, fun w h => ⟨w, ?_, .refl f home w, h⟩,
      follows_succeed hcalm⟩)
  show World.run (Act.value (.datum ((w.refMap x.fiber.context.refs).read r))) w = _
  rw [h.refMap]
  rfl

/-- The fiber writes one of its references. -/
theorem Stands.writeRef (h : Stands view f home w x P) (r : FiberRef) (d : Datum) :
    Stands view f home { w with refs := w.refs.modify x.fiber.context.refs (·.write r d) }
        { x with refs := x.refs.write r d } P ∧
      Stirs f home w { w with refs := w.refs.modify x.fiber.context.refs (·.write r d) } := by
  have hother : ∀ m, m ≠ home.refs →
      (w.refs.modify x.fiber.context.refs (·.write r d)).get? m = w.refs.get? m := by
    intro m hm
    rw [Store.get?_modify, if_neg]
    rw [h.refsKey]
    exact Ne.symm hm
  have hstirs : Stirs f home w { w with refs := w.refs.modify x.fiber.context.refs (·.write r d) } :=
    ⟨⟨fun _ _ => rfl, rfl, hother, rfl⟩, rfl⟩
  refine ⟨⟨h.actual, h.scopeKey, h.refsKey, h.scope, ?_, h.permits, h.board, h.now⟩, hstirs⟩
  show (w.refs.modify x.fiber.context.refs (·.write r d)).get? home.refs = _
  rw [h.refsKey, Store.get?_modify, if_pos rfl, h.map]
  rfl

theorem follows_setRef (r : FiberRef) (d : Datum) (hcalm : Calm x.fiber) :
    Follows view f home out (.setRef r d) (.success .unit) x { x with refs := x.refs.write r d } P :=
  follows_fiberContext hcalm hcalm
    (Or.inr ⟨.succeed .unit, { x with refs := x.refs.write r d },
      fun _ h => ⟨_, rfl, (h.writeRef r d).2, (h.writeRef r d).1⟩, follows_succeed hcalm⟩)

/-- An update of a reference: the function is given the value, and what it computes is written. -/
theorem follows_updateRef (r : FiberRef) {g : Datum → (Datum → Act σ .program) → Act σ .program}
    {d : Datum} {s' : S} (hcalm : Calm x.fiber)
    (hg : Computes view (g (x.refs.read r)) x.board (.ok d) s') :
    Follows view f home out (.updateRef r g) (.success .unit) x
      { x with refs := x.refs.write r d, board := s' } P := by
  refine follows_fiberContext hcalm hcalm
    (Or.inr ⟨.succeed .unit, { x with refs := x.refs.write r d, board := s' }, fun w h => ?_,
      follows_succeed hcalm⟩)
  obtain ⟨b, rfl, hrun⟩ := hg w
    (fun d => .call (.writeRef x.fiber.context.refs r d) fun _ => .value .unit) h.board
  obtain ⟨h₁, hstirs₁⟩ := h.setBoard (b := b)
  obtain ⟨h₂, hstirs₂⟩ := h₁.writeRef r d
  refine ⟨_, ?_, hstirs₁.trans hstirs₂, h₂⟩
  show World.run (g ((w.refMap x.fiber.context.refs).read r) _) w = _
  rw [h.refMap, hrun]
  rfl

/-- An update of a reference whose function panics. -/
theorem follows_updateRef_panic (r : FiberRef)
    {g : Datum → (Datum → Act σ .program) → Act σ .program} {d : Defect} {s' : S}
    (hcalm : Calm x.fiber) (hg : Computes view (g (x.refs.read r)) x.board (.error d) s') :
    Follows view f home out (.updateRef r g) (panicked x d) x { x with board := s' } P := by
  refine follows_fiberContext hcalm hcalm (Or.inl ⟨d, fun w h => ?_, rfl⟩)
  obtain ⟨b, rfl, hrun⟩ := hg w
    (fun d => .call (.writeRef x.fiber.context.refs r d) fun _ => .value .unit) h.board
  obtain ⟨h₁, hstirs₁⟩ := h.setBoard (b := b)
  refine ⟨{ w with board := b }, ?_, hstirs₁, h₁⟩
  show World.run (g ((w.refMap x.fiber.context.refs).read r) _) w = _
  rw [h.refMap, hrun]
  rfl

/-! ## Sleep -/

/-- The program that drops the timer of a sleep. -/
def dropTimer (id : Nat) : Program σ :=
  .lazy (.call (.cancelTimer id) fun _ => .exit (.success .unit))

/-- The registration of a sleep. -/
def setAlarm (span : Duration) (cb : Key .future) : Act σ .registration :=
  .call (.alarm span cb) fun id => .pending (some (dropTimer id))

/-- A fiber that sleeps: `t` is its timer, `m` what it goes on with, and its scope keeps the
program that drops the timer. -/
structure Asleep (view : σ → S) (f : Key .fiber) (home : Home) (w : World σ) (x : Place σ S)
    (P : Option (Scope (Finalizer σ)) → Prop) (t : Timer (Task σ)) (m : Machine σ) : Prop where
  task : ∃ cb token, t.task = .ring cb ∧
    w.futures.get? cb = some (.pending [(0, .wake ⟨f, token⟩)] 1) ∧
    Stands view f home w { x with fiber := { x.fiber with phase := .suspended token m } } P
  queued : t ∈ w.timers.live
  due : w.now.nanos ≤ t.deadline.nanos

theorem awaken_program {m : Machine σ} {actual : Fiber σ} {token : Nat} (p : Program σ)
    (hget : w.fibers.get? f = some actual) (hphase : actual.phase = .suspended token m) :
    w.awaken f token (.program p) =
      ⟨w.modifyFiber f fun fiber => { fiber with phase := .running },
        some (f, { m with control := .instruct p })⟩ := by
  simp only [World.awaken, hget, hphase, ne_eq, not_true_eq_false, if_false]

/-- The ring of the timer queues the next turn of the sleeper. -/
theorem begin_ring {cb : Key .future} {token n : Nat}
    (hcb : w.futures.get? cb = some (.pending [(0, .wake ⟨f, token⟩)] n)) :
    World.begin w (.ring cb) =
      ⟨World.queue { w with futures := w.futures.set cb (.settled (.resolved .unit)) }
        (.resume f token (.program .unit)), none⟩ := by
  have hfuture : w.future cb = .pending [(0, .wake ⟨f, token⟩)] n := by
    simp only [World.future, hcb, Option.getD_some]
  simp only [World.begin, World.resolve, World.settle, hfuture, Cell.settle?]
  rfl

/-- A sleeper leaves if it runs on once the span has passed. -/
theorem Asleep.life {t : Timer (Task σ)} {m : Machine σ}
    (hrunning : x.fiber.phase = .running) (h : Asleep view f home w x P t m)
    (k : ∀ w', Stands view f home w' { x with now := t.deadline } P →
      Runs view f home out { m with control := .instruct .unit } w') :
    Life view f home out t w := by
  obtain ⟨⟨cb, token, htask, hcb, hstands⟩, hqueued, hdue⟩ := h
  obtain ⟨actual, hget, -⟩ := hstands.actual
  refine Life.intro hqueued hdue fun rest w₁ hminds hnext => ?_
  obtain ⟨h₁, actual₁, hget₁, -⟩ := hstands.minds hget hminds
  have hcb₁ : (w₁.withQueue rest).futures.get? cb = some (.pending [(0, .wake ⟨f, token⟩)] 1) :=
    hminds.futures cb _ hcb ⟨_, List.mem_singleton.mpr rfl, token, rfl⟩
  rw [hnext.now] at h₁
  set rung : World σ := { w₁.withQueue rest with
    futures := (w₁.withQueue rest).futures.set cb (.settled (.resolved .unit)) } with hrung
  have h₂ : Stands view f home rung
      { x with fiber := { x.fiber with phase := .suspended token m }, now := t.deadline } P := by
    have h₃ := h₁.withQueue rest
    exact ⟨h₃.actual, h₃.scopeKey, h₃.refsKey, h₃.scope, h₃.map, h₃.permits, h₃.board, h₃.now⟩
  rw [htask, begin_ring hcb₁]
  refine Ends.of_life (t := prompt rung f token (.program .unit))
    ⟨fun _ _ => rfl, rfl, fun _ _ => rfl, rfl⟩ rfl ?_
  exact life_of_resume (x := { x with now := t.deadline }) (Timers.mem_insert.mpr (Or.inl rfl)) rfl
    (deadline_prompt rung f _ _).symm hrunning (h₂.queue _) hget₁
    (fun w' actual' => awaken_program .unit) (fun w' _ h' _ _ => k w' h')

/-- The future that the timer of a sleep resolves. -/
def bell (w : World σ) : Key .future := (w.futures.add .fresh).2

/-- The world with a future for a sleep, and the timer that resolves it. -/
def alarmed (w : World σ) (span : Duration) : World σ :=
  { w with
    futures := (w.futures.add .fresh).1
    timers := (w.timers.set span (.ring (bell w))).1 }

theorem instruct_setAlarm (w : World σ) (f : Key .fiber) (fiber : Fiber σ) (m : Machine σ)
    (span : Duration) {w₁ : World σ} {handle : Option Handle}
    (hregister : (alarmed w span).register fiber.scope (.canceler (dropTimer w.timers.nextId)) =
      (w₁, handle)) :
    w.instruct f fiber m (.async (setAlarm span)) =
      (w₁, { machine := m, decision := .await (.future (bell w)) handle }) :=
  congrArg (fun r : World σ × Option Handle =>
    (r.1, ({ machine := m, decision := .await (.future (bell w)) r.2 } : Stepped σ))) hregister

theorem Stands.alarmed (span : Duration) (h : Stands view f home w x P) :
    Stands view f home (alarmed w span) x P ∧ Keeps f home w (alarmed w span) :=
  ⟨⟨h.actual, h.scopeKey, h.refsKey, h.scope, h.map, h.permits, h.board, h.now⟩,
    ⟨fun _ _ => rfl, rfl, fun _ _ => rfl, rfl⟩⟩

/-- A fiber that waits for a future that is fresh is put aside as its one observer. -/
theorem subscribe_fresh {cb : Key .future} (token : Nat) (hcb : w.futures.get? cb = some .fresh) :
    w.settledProgram? (.future cb) = none ∧
      w.subscribe ⟨f, token⟩ (.future cb) =
        { w with futures := w.futures.set cb (.pending [(0, .wake ⟨f, token⟩)] 1) } := by
  have hfuture : w.future cb = .fresh := by simp only [World.future, hcb, Option.getD_some]
  refine ⟨by simp only [settledProgram?, hfuture]; rfl, ?_⟩
  simp only [subscribe, watchFuture, hfuture]
  rfl

variable {base : Scope (Finalizer σ)} {hooks : List (Key .fiber)} {fs : List (Nat × Finalizer σ)}

/-- A frame that dropped a canceler: unwinding past it is unwinding the rest. -/
theorem unwinds_release {key : Nat} {fin : Finalizer σ} {stack : List (Waiting σ)}
    (hkeys : ∀ x ∈ fs, x.1 < key)
    (h : Stands view f home w x (Holds base hooks (fs ++ [(key, fin)])))
    (k : ∀ w', Stands view f home w' x (Holds base hooks fs) →
      Unwinds view f home out false e stack w') :
    Unwinds view f home out false e (.release ⟨home.scope, key⟩ :: stack) w := by
  obtain ⟨w₁, hcancel, hstirs, h₁⟩ := cancelFinalizer_of_holds hkeys h
  refine .of_pass ?_ hstirs (k w₁ h₁)
  cases e with
  | success v => simp only [World.unwind, unwindValue, hcancel]
  | failure c => simp only [World.unwind, unwindFailure, hcancel]

/-- The step in which a fiber goes to sleep. -/
theorem advance_setAlarm (span : Duration) (stack : List (Waiting σ)) {actual : Fiber σ}
    (hcalm : Calm x.fiber) (h : Stands view f home w x (Holds base hooks fs))
    (hget : w.fibers.get? f = some actual) (hvaries : Varies x.fiber actual)
    (hops : actual.ops < x.fiber.context.limits.maxOps) :
    ∃ w' t key fin, (∀ x ∈ fs, x.1 < key) ∧ t.deadline = x.now.add span ∧
      w.advance f ⟨.instruct (.async (setAlarm span)), stack, false⟩ = ⟨w', none⟩ ∧
      Keeps f home w w' ∧ w'.timers.live = Timers.insert t w.timers.live ∧
      Asleep view f home w' x (Holds base hooks (fs ++ [(key, fin)])) t
        ⟨.instruct (.async (setAlarm span)), .release ⟨home.scope, key⟩ :: stack, false⟩ := by
  obtain ⟨h₁, hkeeps₁⟩ := h.count.alarmed span
  obtain ⟨scopes, key, hregister, hkeys, h₂⟩ :=
    register_of_holds (.canceler (dropTimer (w.count f).timers.nextId)) h₁
  set w₂ : World σ := { alarmed (w.count f) span with scopes } with hw₂
  have hscope : actual.scope = home.scope := by
    obtain ⟨ops, token, cell, -, rfl⟩ := hvaries
    exact h.scopeKey
  have hstep : w.step f actual ⟨.instruct (.async (setAlarm span)), stack, false⟩ =
      (w₂, ⟨⟨.instruct (.async (setAlarm span)), stack, false⟩,
        .await (.future (bell (w.count f))) (some ⟨home.scope, key⟩)⟩) := by
    rw [step_instruct rfl (by rw [hvaries.context]; exact hops)]
    exact instruct_setAlarm (w.count f) f actual _ span (by rw [hscope]; exact hregister)
  -- the fiber is put aside, with the frame that takes the canceler out of the scope again
  obtain ⟨actual₂, hget₂, hvaries₂⟩ := h₂.actual
  set idle : Fiber σ := { actual₂ with ops := 0 } with hidle
  set m : Machine σ := ⟨.instruct (.async (setAlarm span)), .release ⟨home.scope, key⟩ :: stack, false⟩
    with hm
  have hidles : Varies x.fiber idle := by
    obtain ⟨ops, token, cell, hcell, rfl⟩ := hvaries₂
    exact ⟨0, token, cell, hcell, rfl⟩
  set w₃ : World σ := { w₂ with fibers := w₂.fibers.set f (idle.park m).1 } with hw₃
  have hstirs₃ : Stirs f home w₂ w₃ := stirs_park m hget₂ rfl
  have hcb : w₃.futures.get? (bell (w.count f)) = some .fresh := by
    show ((w.count f).futures.add .fresh).1.get? (bell (w.count f)) = _
    rw [Store.get?_add]
    exact if_pos rfl
  obtain ⟨hpending, hsubscribe⟩ := subscribe_fresh (f := f) idle.nextToken hcb
  set w₄ : World σ := { w₃ with
    futures := w₃.futures.set (bell (w.count f)) (.pending [(0, .wake ⟨f, idle.nextToken⟩)] 1) } with hw₄
  have hadvance : w.advance f ⟨.instruct (.async (setAlarm span)), stack, false⟩ = ⟨w₄, none⟩ := by
    rw [advance_of_free hget (free_of_stays (Or.inr hcalm.terminating) hvaries), hstep]
    simp only [conclude, hget₂, Machine.holding]
    rw [park_of_stays hidles (Or.inr hcalm.terminating)]
    dsimp only
    rw [hpending]
    exact congrArg (Moment.mk · none) hsubscribe
  have hnow : (w.count f).timers.now = x.now := h.count.now
  set t : Timer (Task σ) :=
    ⟨x.now.add span, (w.count f).timers.nextId, .ring (bell (w.count f))⟩ with ht
  have hlive : w₄.timers.live = Timers.insert t w.timers.live := by
    show Timers.insert ⟨(w.count f).timers.now.add span, _, _⟩ _ = _
    rw [hnow]
    rfl
  have hsilent : Keeps f home w₃ w₄ := ⟨fun _ _ => rfl, rfl, fun _ _ => rfl, rfl⟩
  have hkeeps : Keeps f home w w₄ :=
    (((stirs_count home w).toKeeps.trans hkeeps₁).trans
      ((stirs_scopes f home _ scopes).trans hstirs₃).toKeeps).trans hsilent
  have h₃ := h₂.park (m := m) hget₂ hidles
  refine ⟨w₄, t, key, .canceler (dropTimer (w.count f).timers.nextId), hkeys, rfl, hadvance, hkeeps, hlive,
    ⟨bell (w.count f), idle.nextToken, rfl, Store.get?_set_of_some hcb, ?_⟩, ?_, ?_⟩
  · exact ⟨h₃.actual, h₃.scopeKey, h₃.refsKey, h₃.scope, h₃.map, h₃.permits, h₃.board, h₃.now⟩
  · rw [hlive]
    exact Timers.mem_insert.mpr (Or.inl rfl)
  · show (w.count f).timers.now.nanos ≤ (x.now.add span).nanos
    rw [hnow]
    exact Time.le_add x.now span

/-- Waiting for a timer: the fiber is put aside, and once the span has passed it goes on with
nothing. -/
theorem follows_nap (span : Duration) (hcalm : Calm x.fiber) :
    Follows view f home out (.async (setAlarm span)) (.success .unit) x
      { x with now := x.now.add span } (Holds base hooks fs) := by
  intro stack w hstands k
  refine runs_of_unspent hcalm.toSteady (Or.inr hcalm.terminating) (Or.inl ⟨_, rfl⟩) hstands ?_
  intro w₁ actual h₁ hget hvaries hops
  obtain ⟨w₂, t, key, fin, hkeys, hdue, hadvance, hkeeps, hlive, hasleep⟩ :=
    advance_setAlarm span stack hcalm h₁ hget hvaries hops
  refine Ends.of_stride ?_
  show Ends view f home out w₁ (w₁.advance f _)
  rw [hadvance]
  refine Ends.of_life hkeeps hlive (hasleep.life hcalm.running fun w' h' => ?_)
  rw [hdue] at h'
  refine follows_succeed (by exact hcalm) (.release ⟨home.scope, key⟩ :: stack) w' h' fun w₃ h₃ => ?_
  exact unwinds_release hkeys h₃ k

/-- A sleep. -/
theorem follows_sleep (span : Duration) (hcalm : Calm x.fiber) :
    Follows view f home out (.sleep span) (.success .unit) x
      { x with now := x.now.add span } (Holds base hooks fs) :=
  follows_fiberContext hcalm hcalm
    (Or.inr ⟨.async (setAlarm span), x, fun w h => ⟨w, rfl, .refl f home w, h⟩, follows_nap span hcalm⟩)

end Fibers.Detour
