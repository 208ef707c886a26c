import Fibers.Proofs.Detour.Deeds

set_option autoImplicit false

/-! # Two fibers with alike programs

Two fibers are twins where they stand if they have the same services, the same view of the board and
the same time, and their references are bound to one another by a relation `Q` that is kept when both
write the same. Twins that work on alike programs come to exits that agree but for traces, and are
twins again: at every instruction the functions of both are given alike arguments, so they give alike
programs or panic with the same defect. The traces of a panic differ, since they tell where it
happened, and this is all that differs.
-/

namespace Fibers.Detour

open World Direct

variable {σ S : Type} {view : σ → S} {refs : FiberRef → Prop} {Q : FiberRefs → FiberRefs → Prop}

/-! ## What a program comes to, wherever it is run -/

/-- Wherever a fiber stands at `x`, working on `p` comes to the exit `e` and leads to `y`. -/
def Comes (view : σ → S) (p : Program σ) (e : AnyExit) (x y : Place σ S) : Prop :=
  ∀ (f : Key .fiber) (home : Home) (out : Outlet σ f home) (base : Scope (Finalizer σ))
    (hooks : List (Key .fiber)) (fs : List (Nat × Finalizer σ)),
    Follows view f home out p e x y (Holds base hooks fs)

/-- Wherever a fiber stands at `x`, going on with what the function gives comes to the exit `e` and
leads to `y`. -/
def CallComes (view : σ → S) (call : World σ → World σ × Except Defect (Program σ)) (e : AnyExit)
    (x y : Place σ S) : Prop :=
  ∀ (f : Key .fiber) (home : Home) (out : Outlet σ f home) (base : Scope (Finalizer σ))
    (hooks : List (Key .fiber)) (fs : List (Nat × Finalizer σ)),
    CallFollows view f home out call e x y (Holds base hooks fs)

/-- The place with other references, another board and another time. -/
def Place.moved (x : Place σ S) (m : FiberRefs) (s : S) (t : Time) : Place σ S :=
  { x with refs := m, board := s, now := t }

/-- The place of the fiber with interruption let in or put off. -/
def Place.masked (x : Place σ S) (interruptible : Bool) : Place σ S :=
  { x with fiber := { x.fiber with masks := x.fiber.masks.push interruptible } }

variable {x y z : Place σ S} {p q : Program σ} {k : Cont σ} {h : Handler σ} {e e₁ : AnyExit}
  {c : AnyCause} {v : Value}

theorem calm_masked (hcalm : Calm x.fiber) (interruptible : Bool) :
    Calm (x.masked interruptible).fiber :=
  ⟨⟨hcalm.budget, hcalm.running⟩, hcalm.terminating, hcalm.deferred⟩

/-- An instruction that works on `p` under a frame, when the frame goes on with what a function
gives. -/
theorem comes_frame {inner : Program σ} {frame : Waiting σ}
    {call : World σ → World σ × Except Defect (Program σ)} (hcalm : Calm x.fiber)
    (hcalm' : Calm z.fiber)
    (hinstruct : ∀ (w : World σ) f fiber stack, w.instruct f fiber ⟨.instruct p, stack, false⟩ p =
      (w, { machine := ⟨.instruct inner, frame :: stack, false⟩ }))
    (hunwind : ∀ (w : World σ) f stack, World.unwind f false e₁ (frame :: stack) w =
      enter f ⟨.ofExit e₁, stack, false⟩ (call w))
    (hinner : Comes view inner e₁ x y) (hcall : CallComes view call e y z) : Comes view p e x z := by
  intro f home out base hooks fs
  exact follows_frame hcalm hcalm' (fun w => hinstruct w f) (fun w => hunwind w f)
    (hinner f home out base hooks fs) (hcall f home out base hooks fs)

theorem comes_flatMap (hcalm : Calm x.fiber) (hcalm' : Calm z.fiber)
    (hp : Comes view p (.success v) x y) (hk : CallComes view (fun w => w.proceedWith k v) e y z) :
    Comes view (.flatMap p k) e x z :=
  comes_frame hcalm hcalm' (fun _ _ _ _ => rfl) (fun _ _ _ => rfl) hp hk

theorem comes_flatMap_failure (hcalm : Calm x.fiber) (hp : Comes view p (.failure c) x y) :
    Comes view (.flatMap p k) (.failure c) x y := fun f home out base hooks fs =>
  follows_inner hcalm
    (fun _ w _ hstands _ next => ⟨w, _, rfl, .refl f home w, hstands, next⟩)
    (hp f home out base hooks fs)

theorem comes_fold (hcalm : Calm x.fiber) (hcalm' : Calm z.fiber)
    (hp : Comes view p (.success v) x y) (hk : CallComes view (fun w => w.proceedWith k v) e y z) :
    Comes view (.fold p h k) e x z :=
  comes_frame hcalm hcalm' (fun _ _ _ _ => rfl) (fun _ _ _ => rfl) hp hk

theorem comes_fold_failure (hcalm : Calm x.fiber) (hcalm' : Calm z.fiber)
    (hp : Comes view p (.failure c) x y) (hh : CallComes view (fun w => w.recoverWith h c) e y z) :
    Comes view (.fold p h k) e x z :=
  comes_frame hcalm hcalm' (fun _ _ _ _ => rfl) (fun _ _ _ => rfl) hp hh

theorem comes_provide {inner : Services} (hcalm : Calm x.fiber) {m : FiberRefs} {s : S} {t : Time}
    (hp : Comes view p e
      { x with fiber := { x.fiber with services := x.fiber.services.push (x.fiber.services.top.union inner) } }
      (Place.moved
        { x with fiber := { x.fiber with services := x.fiber.services.push (x.fiber.services.top.union inner) } }
        m s t)) :
    Comes view (.provide p inner) e x (x.moved m s t) := by
  intro f home out base hooks fs
  have hpushed : Calm { x.fiber with
      services := x.fiber.services.push (x.fiber.services.top.union inner) } :=
    ⟨⟨hcalm.budget, hcalm.running⟩, hcalm.terminating, hcalm.deferred⟩
  refine follows_region .services hcalm (by exact hpushed) rfl (fun stack w actual hstands hvaries => ?_)
    (hp f home out base hooks fs)
  refine ⟨_, rfl, stirs_modifyFiber home w fun _ => rfl, hstands.modify _ rfl rfl ?_⟩
  rintro _ ⟨ops, token, cell, hcell, rfl⟩
  exact ⟨ops, token, cell, hcell, rfl⟩

theorem comes_addFrame {frame : Frame} (hcalm : Calm x.fiber) {m : FiberRefs} {s : S} {t : Time}
    (hp : Comes view p e { x with fiber := { x.fiber with labels := frame :: x.fiber.labels } }
      (Place.moved { x with fiber := { x.fiber with labels := frame :: x.fiber.labels } } m s t)) :
    Comes view (.addFrame p frame) e x (x.moved m s t) := by
  intro f home out base hooks fs
  have hpushed : Calm { x.fiber with labels := frame :: x.fiber.labels } :=
    ⟨⟨hcalm.budget, hcalm.running⟩, hcalm.terminating, hcalm.deferred⟩
  refine follows_region .label hcalm (by exact hpushed) rfl (fun stack w actual hstands hvaries => ?_)
    (hp f home out base hooks fs)
  refine ⟨_, rfl, stirs_modifyFiber home w fun _ => rfl, hstands.modify _ rfl rfl ?_⟩
  rintro _ ⟨ops, token, cell, hcell, rfl⟩
  exact ⟨ops, token, cell, hcell, rfl⟩

theorem comes_mask {interruptible : Bool} (hcalm : Calm x.fiber) {m : FiberRefs} {s : S} {t : Time}
    (hp : Comes view p e (x.masked interruptible) ((x.masked interruptible).moved m s t)) :
    Comes view (.mask p interruptible) e x (x.moved m s t) := by
  intro f home out base hooks fs
  have hpushed := calm_masked hcalm interruptible
  refine follows_region .interruptible hcalm (by exact hpushed) rfl
    (fun stack w actual hstands hvaries => ?_) (hp f home out base hooks fs)
  have hmasked : Stands view f home (w.modifyFiber f fun fiber =>
      { fiber with masks := fiber.masks.push interruptible }) (x.masked interruptible)
      (Holds base hooks fs) := by
    refine hstands.modify _ rfl rfl ?_
    rintro _ ⟨ops, token, cell, hcell, rfl⟩
    exact ⟨ops, token, cell, hcell, rfl⟩
  have hstirs : Stirs f home w (w.modifyFiber f fun fiber =>
      { fiber with masks := fiber.masks.push interruptible }) := stirs_modifyFiber home w fun _ => rfl
  refine ⟨_, ?_, hstirs, hmasked⟩
  simp only [instruct, applyDeferred_of_calm hpushed hmasked, ite_self]

theorem comes_yieldNow (hcalm : Calm x.fiber) :
    Comes view .yieldNow (.success .unit) x x := by
  intro f home out base hooks fs stack w hstands next
  refine runs_of_unspent hcalm.toSteady (Or.inr hcalm.terminating) (Or.inl ⟨_, rfl⟩) hstands ?_
  intro w₁ actual h₁ hget hvaries hops
  obtain ⟨actual₁, hget₁, -⟩ := h₁.count.actual
  have hstays : ∀ c, Stays ⟨c, stack, false⟩ x.fiber := fun _ => Or.inr hcalm.terminating
  refine runs_of_yield hcalm.running (hstays _) (hstays (.value .unit)) hget hvaries ?_
    (stirs_count home w₁) h₁.count hget₁ ?_
  · rw [step_instruct rfl (by rw [hvaries.context]; exact hops)]
    rfl
  · intro w₂ actual' h₂ _ _
    exact runs_of_unwinds (e := .success .unit) hcalm.toSteady (hstays _) rfl h₂ next

theorem comes_ensuring {fin : Finalizer σ} {outcome : AnyExit} (hcalm : Calm x.fiber)
    {m₁ m₂ : FiberRefs} {s₁ s₂ : S} {t₁ t₂ : Time} (hp : Comes view p e x (x.moved m₁ s₁ t₁))
    (hfin : CallComes view (fun w => w.finalizeWith fin e) outcome ((x.moved m₁ s₁ t₁).masked false)
      ((x.moved m₂ s₂ t₂).masked false)) :
    Comes view (.ensuring p fin) (World.combine e outcome) x (x.moved m₂ s₂ t₂) :=
  fun f home out base hooks fs =>
    follows_ensuring hcalm (show (x.moved m₁ s₁ t₁).fiber = x.fiber from rfl)
      (show (x.moved m₂ s₂ t₂).fiber = x.fiber from rfl) (fun key => hp f home out base hooks (fs ++ [(key, fin)]))
      (hfin f home out base hooks fs)

theorem comes_leaf (hcalm : Calm x.fiber) (hcalm' : Calm y.fiber)
    (h : ∀ (f : Key .fiber) (home : Home) (P : Option (Scope (Finalizer σ)) → Prop) (w : World σ) actual m,
      Stands view f home w x P → Varies x.fiber actual →
      ∃ w', w.instruct f actual m p = (w', { machine := { m with control := .ofExit e } }) ∧
        Stirs f home w w' ∧ Stands view f home w' y P) : Comes view p e x y :=
  fun f home _ _ _ _ => follows_leaf hcalm hcalm' fun w actual m => h f home _ w actual m

theorem comes_ofExit (hcalm : Calm x.fiber) (e : AnyExit) : Comes view (.ofExit e) e x x := by
  refine comes_leaf hcalm hcalm fun f home P w actual m h _ => ⟨w, ?_, .refl f home w, h⟩
  cases e <;> rfl

theorem comes_lazy {thunk : Act σ .exit} {s : S} (hcalm : Calm x.fiber)
    (hthunk : Does view (fun w => w.run thunk) x.board (.ok e) s) :
    Comes view (.lazy thunk) e x { x with board := s } := by
  refine comes_leaf hcalm hcalm fun f home P w actual m h _ => ?_
  obtain ⟨w', hrun, hstirs, h'⟩ := hthunk.serves w h
  exact ⟨w', by simp only [instruct, hrun], hstirs, h'⟩

theorem comes_lazy_panic {thunk : Act σ .exit} {s : S} {d : Defect} (hcalm : Calm x.fiber)
    (hthunk : Does view (fun w => w.run thunk) x.board (.error d) s) :
    Comes view (.lazy thunk) (panicked x d) x { x with board := s } := by
  refine comes_leaf hcalm hcalm fun f home P w actual m h _ => ?_
  obtain ⟨w', hrun, hstirs, h'⟩ := hthunk.serves w h
  refine ⟨w', ?_, hstirs, h'⟩
  simp only [instruct, hrun, enter, traceOf_eq h', panicked, thrown, Control.ofExit]

/-- An instruction that goes on with what a function gives. -/
theorem comes_call {call : World σ → World σ × Except Defect (Program σ)} (hcalm : Calm x.fiber)
    (hcalm' : Calm y.fiber)
    (h : ∀ (w : World σ) f actual m, Varies x.fiber actual →
      w.instruct f actual m p = enter f m (call w))
    (hcall : CallComes view call e x y) : Comes view p e x y := fun f home out base hooks fs =>
  follows_call hcalm hcalm' (fun w actual m => h w f actual m) (hcall f home out base hooks fs)

/-! ## Twins -/

/-- Two fibers that stand alike, as far as their programs can tell. -/
structure Twins (Q : FiberRefs → FiberRefs → Prop) (x x' : Place σ S) : Prop where
  calm : Calm x.fiber
  calm' : Calm x'.fiber
  services : x.fiber.services.top = x'.fiber.services.top
  board : x.board = x'.board
  now : x.now = x'.now
  refs : Q x.refs x'.refs

/-- What the two do leads twins to twins, with exits that agree but for traces. -/
def Agree (Q : FiberRefs → FiberRefs → Prop) (does does' : AnyExit → Place σ S → Place σ S → Prop) :
    Prop :=
  ∀ x x', Twins Q x x' → ∃ e e' m m' s t, Value.eraseExit e = Value.eraseExit e' ∧ Q m m' ∧
    does e x (x.moved m s t) ∧ does' e' x' (x'.moved m' s t)

/-- The relation binds maps in which the references `refs` read alike, and it is kept when the same is
written to both. -/
structure Binds (refs : FiberRef → Prop) (Q : FiberRefs → FiberRefs → Prop) : Prop where
  read : ∀ {m m' r}, Q m m' → refs r → m.read r = m'.read r
  write : ∀ {m m' r} (d : Datum), Q m m' → refs r → Q (m.write r d) (m'.write r d)

variable {x' : Place σ S} {p' inner inner' : Program σ} {k' : Cont σ} {h' : Handler σ}
  {call call' : World σ → World σ × Except Defect (Program σ)}

theorem Twins.moved (htwins : Twins Q x x') {m m' : FiberRefs} (hm : Q m m') (s : S) (t : Time) :
    Twins Q (x.moved m s t) (x'.moved m' s t) :=
  ⟨htwins.calm, htwins.calm', htwins.services, rfl, rfl, hm⟩

theorem Twins.masked (htwins : Twins Q x x') (interruptible : Bool) :
    Twins Q (x.masked interruptible) (x'.masked interruptible) :=
  ⟨calm_masked htwins.calm _, calm_masked htwins.calm' _, htwins.services, htwins.board, htwins.now,
    htwins.refs⟩

theorem erase_panicked (x x' : Place σ S) (d : Defect) :
    Value.eraseExit (panicked x d) = Value.eraseExit (panicked x' d) := by
  simp only [panicked, thrown, Value.eraseExit, Value.eraseCause_withTrace]

/-- Exits that agree but for traces are of one kind. -/
theorem erase_cases {e e' : AnyExit} (he : Value.eraseExit e = Value.eraseExit e') :
    (∃ v v', e = .success v ∧ e' = .success v' ∧ v.erase = v'.erase) ∨
      ∃ c c', e = .failure c ∧ e' = .failure c' ∧ Value.eraseCause c = Value.eraseCause c' := by
  cases e with
  | success v =>
      cases e' with
      | success v' =>
          simp only [Value.eraseExit, Exit.success.injEq] at he
          exact Or.inl ⟨v, v', rfl, rfl, he⟩
      | failure c' => cases he
  | failure c =>
      cases e' with
      | success v' => cases he
      | failure c' =>
          simp only [Value.eraseExit, Exit.failure.injEq] at he
          exact Or.inr ⟨c, c', rfl, rfl, he⟩

/-- Instructions that end at once. -/
theorem agree_of_exits {e e' : AnyExit} (he : Value.eraseExit e = Value.eraseExit e') :
    Agree Q (Comes view (.ofExit e)) (Comes view (.ofExit e')) := fun x x' htwins =>
  ⟨e, e', x.refs, x'.refs, x.board, x.now, he, htwins.refs, comes_ofExit htwins.calm e, by
    rw [htwins.board, htwins.now]
    exact comes_ofExit htwins.calm' e'⟩

theorem agree_lazy {thunk thunk' : Act σ .exit} {r r' : S → Except Defect AnyExit} {next : S → S}
    (hthunk : ∀ s, Does view (fun w => w.run thunk) s (r s) (next s))
    (hthunk' : ∀ s, Does view (fun w => w.run thunk') s (r' s) (next s))
    (halike : ∀ s e e', r s = .ok e → r' s = .ok e' → Value.eraseExit e = Value.eraseExit e')
    (hpanics : ∀ s d, r s = .error d ↔ r' s = .error d) :
    Agree Q (Comes view (.lazy thunk)) (Comes view (.lazy thunk')) := by
  intro x x' htwins
  have hdoes := hthunk x.board
  have hdoes' := hthunk' x'.board
  rw [← htwins.board] at hdoes'
  cases hr : r x.board with
  | error d =>
      have hr' := (hpanics _ _).mp hr
      rw [hr] at hdoes
      rw [hr', htwins.board] at hdoes'
      refine ⟨_, _, x.refs, x'.refs, next x.board, x.now, erase_panicked x x' d, htwins.refs,
        comes_lazy_panic htwins.calm hdoes, ?_⟩
      rw [htwins.board, htwins.now]
      exact comes_lazy_panic htwins.calm' hdoes'
  | ok e =>
      cases hr' : r' x.board with
      | error d => rw [(hpanics _ _).mpr hr'] at hr; cases hr
      | ok e' =>
          rw [hr] at hdoes
          rw [hr', htwins.board] at hdoes'
          refine ⟨e, e', x.refs, x'.refs, next x.board, x.now, halike _ _ _ hr hr', htwins.refs,
            comes_lazy htwins.calm hdoes, ?_⟩
          rw [htwins.board, htwins.now]
          exact comes_lazy htwins.calm' hdoes'

/-- Functions that panic with the same defect or give programs that agree. -/
theorem agree_calls {r r' : S → Except Defect (Program σ)} {next : S → S}
    (hcall : ∀ s, Does view call s (r s) (next s)) (hcall' : ∀ s, Does view call' s (r' s) (next s))
    (halike : ∀ s p p', r s = .ok p → r' s = .ok p' → Agree Q (Comes view p) (Comes view p'))
    (hpanics : ∀ s d, r s = .error d ↔ r' s = .error d) :
    Agree Q (CallComes view call) (CallComes view call') := by
  intro x x' htwins
  have hserves : ∀ f home P, Serves view f home call x (r x.board) { x with board := next x.board } P :=
    fun f home P => (hcall x.board).serves
  have hserves' : ∀ f home P,
      Serves view f home call' x' (r' x.board) { x' with board := next x.board } P := by
    rw [htwins.board]
    exact fun f home P => (hcall' x'.board).serves
  cases hr : r x.board with
  | error d =>
      rw [hr] at hserves
      rw [(hpanics _ _).mp hr] at hserves'
      refine ⟨_, _, x.refs, x'.refs, next x.board, x.now, erase_panicked x x' d, htwins.refs,
        fun f home out base hooks fs => Or.inl ⟨d, hserves f home _, rfl⟩, ?_⟩
      rw [htwins.now]
      exact fun f home out base hooks fs => Or.inl ⟨d, hserves' f home _, rfl⟩
  | ok p =>
      cases hr' : r' x.board with
      | error d => rw [(hpanics _ _).mpr hr'] at hr; cases hr
      | ok p' =>
          rw [hr] at hserves
          rw [hr'] at hserves'
          have htwins' := htwins.moved htwins.refs (next x.board) x.now
          obtain ⟨e, e', m, m', s, t, he, hm, hp, hp'⟩ := halike _ _ _ hr hr' _ _ htwins'
          rw [htwins.now] at hp'
          exact ⟨e, e', m, m', s, t, he, hm,
            fun f home out base hooks fs => Or.inr ⟨p, _, hserves f home _, hp f home out base hooks fs⟩,
            fun f home out base hooks fs => Or.inr ⟨p', _, hserves' f home _, hp' f home out base hooks fs⟩⟩

/-- Instructions that go on with what a function gives. -/
theorem agree_instructions
    (hinstruct : ∀ (w : World σ) f actual m, w.instruct f actual m p = enter f m (call w))
    (hinstruct' : ∀ (w : World σ) f actual m, w.instruct f actual m p' = enter f m (call' w))
    (hcalls : Agree Q (CallComes view call) (CallComes view call')) :
    Agree Q (Comes view p) (Comes view p') := by
  intro x x' htwins
  obtain ⟨e, e', m, m', s, t, he, hm, hp, hp'⟩ := hcalls x x' htwins
  exact ⟨e, e', m, m', s, t, he, hm,
    comes_call htwins.calm htwins.calm (fun w f actual m _ => hinstruct w f actual m) hp,
    comes_call htwins.calm' htwins.calm' (fun w f actual m _ => hinstruct' w f actual m) hp'⟩

theorem agree_access {g g' : Services → Act σ .program}
    (hcalls : ∀ env, Agree Q (CallComes view fun w => w.run (g env)) (CallComes view fun w => w.run (g' env))) :
    Agree Q (Comes view (.access g)) (Comes view (.access g')) := by
  intro x x' htwins
  obtain ⟨e, e', m, m', s, t, he, hm, hp, hp'⟩ := hcalls x.fiber.services.top x x' htwins
  refine ⟨e, e', m, m', s, t, he, hm, comes_call htwins.calm htwins.calm ?_ hp,
    comes_call htwins.calm' htwins.calm' ?_ hp'⟩
  · rintro w f _ machine ⟨ops, token, cell, -, rfl⟩
    rfl
  · rintro w f _ machine ⟨ops, token, cell, -, rfl⟩
    rw [htwins.services]
    rfl

/-- A program that is followed by another on a value. -/
theorem agree_flatMap (hp : Agree Q (Comes view p) (Comes view p'))
    (hk : ∀ v v', v.erase = v'.erase →
      Agree Q (CallComes view fun w => w.proceedWith k v) (CallComes view fun w => w.proceedWith k' v')) :
    Agree Q (Comes view (.flatMap p k)) (Comes view (.flatMap p' k')) := by
  intro x x' htwins
  obtain ⟨e, e', m, m', s, t, he, hm, hp, hp'⟩ := hp x x' htwins
  obtain ⟨v, v', rfl, rfl, hv⟩ | ⟨c, c', rfl, rfl, -⟩ := erase_cases he
  · obtain ⟨e, e', m₁, m₁', s₁, t₁, he₁, hm₁, hk, hk'⟩ := hk v v' hv _ _ (htwins.moved hm s t)
    exact ⟨e, e', m₁, m₁', s₁, t₁, he₁, hm₁, comes_flatMap htwins.calm htwins.calm hp hk,
      comes_flatMap htwins.calm' htwins.calm' hp' hk'⟩
  · exact ⟨_, _, m, m', s, t, he, hm, comes_flatMap_failure htwins.calm hp,
      comes_flatMap_failure htwins.calm' hp'⟩

/-- A program that is followed by another on a value and by a third on a failure. -/
theorem agree_fold (hp : Agree Q (Comes view p) (Comes view p'))
    (hh : ∀ c c', Value.eraseCause c = Value.eraseCause c' →
      Agree Q (CallComes view fun w => w.recoverWith h c) (CallComes view fun w => w.recoverWith h' c'))
    (hk : ∀ v v', v.erase = v'.erase →
      Agree Q (CallComes view fun w => w.proceedWith k v) (CallComes view fun w => w.proceedWith k' v')) :
    Agree Q (Comes view (.fold p h k)) (Comes view (.fold p' h' k')) := by
  intro x x' htwins
  obtain ⟨e, e', m, m', s, t, he, hm, hp, hp'⟩ := hp x x' htwins
  obtain ⟨v, v', rfl, rfl, hv⟩ | ⟨c, c', rfl, rfl, hc⟩ := erase_cases he
  · obtain ⟨e, e', m₁, m₁', s₁, t₁, he₁, hm₁, hk, hk'⟩ := hk v v' hv _ _ (htwins.moved hm s t)
    exact ⟨e, e', m₁, m₁', s₁, t₁, he₁, hm₁, comes_fold htwins.calm htwins.calm hp hk,
      comes_fold htwins.calm' htwins.calm' hp' hk'⟩
  · obtain ⟨e, e', m₁, m₁', s₁, t₁, he₁, hm₁, hh, hh'⟩ := hh c c' hc _ _ (htwins.moved hm s t)
    exact ⟨e, e', m₁, m₁', s₁, t₁, he₁, hm₁, comes_fold_failure htwins.calm htwins.calm hp hh,
      comes_fold_failure htwins.calm' htwins.calm' hp' hh'⟩

theorem agree_provide {services : Services} (hp : Agree Q (Comes view p) (Comes view p')) :
    Agree Q (Comes view (.provide p services)) (Comes view (.provide p' services)) := by
  intro x x' htwins
  have htwins' : Twins Q
      { x with fiber := { x.fiber with
          services := x.fiber.services.push (x.fiber.services.top.union services) } }
      { x' with fiber := { x'.fiber with
          services := x'.fiber.services.push (x'.fiber.services.top.union services) } } :=
    ⟨⟨⟨htwins.calm.budget, htwins.calm.running⟩, htwins.calm.terminating, htwins.calm.deferred⟩,
      ⟨⟨htwins.calm'.budget, htwins.calm'.running⟩, htwins.calm'.terminating, htwins.calm'.deferred⟩,
      by simp only [Stack.top_push, htwins.services], htwins.board, htwins.now, htwins.refs⟩
  obtain ⟨e, e', m, m', s, t, he, hm, hp, hp'⟩ := hp _ _ htwins'
  exact ⟨e, e', m, m', s, t, he, hm, comes_provide htwins.calm hp, comes_provide htwins.calm' hp'⟩

theorem agree_addFrame {frame : Frame} (hp : Agree Q (Comes view p) (Comes view p')) :
    Agree Q (Comes view (.addFrame p frame)) (Comes view (.addFrame p' frame)) := by
  intro x x' htwins
  have htwins' : Twins Q { x with fiber := { x.fiber with labels := frame :: x.fiber.labels } }
      { x' with fiber := { x'.fiber with labels := frame :: x'.fiber.labels } } :=
    ⟨⟨⟨htwins.calm.budget, htwins.calm.running⟩, htwins.calm.terminating, htwins.calm.deferred⟩,
      ⟨⟨htwins.calm'.budget, htwins.calm'.running⟩, htwins.calm'.terminating, htwins.calm'.deferred⟩,
      htwins.services, htwins.board, htwins.now, htwins.refs⟩
  obtain ⟨e, e', m, m', s, t, he, hm, hp, hp'⟩ := hp _ _ htwins'
  exact ⟨e, e', m, m', s, t, he, hm, comes_addFrame htwins.calm hp, comes_addFrame htwins.calm' hp'⟩

theorem agree_mask {interruptible : Bool} (hp : Agree Q (Comes view p) (Comes view p')) :
    Agree Q (Comes view (.mask p interruptible)) (Comes view (.mask p' interruptible)) := by
  intro x x' htwins
  obtain ⟨e, e', m, m', s, t, he, hm, hp, hp'⟩ := hp _ _ (htwins.masked interruptible)
  exact ⟨e, e', m, m', s, t, he, hm, comes_mask htwins.calm hp, comes_mask htwins.calm' hp'⟩

/-- A program with a finalizer. -/
theorem agree_ensuring {fin fin' : Finalizer σ} (hp : Agree Q (Comes view p) (Comes view p'))
    (hfin : ∀ e e', Value.eraseExit e = Value.eraseExit e' →
      Agree Q (CallComes view fun w => w.finalizeWith fin e) (CallComes view fun w => w.finalizeWith fin' e')) :
    Agree Q (Comes view (.ensuring p fin)) (Comes view (.ensuring p' fin')) := by
  intro x x' htwins
  obtain ⟨e, e', m, m', s, t, he, hm, hp, hp'⟩ := hp x x' htwins
  obtain ⟨o, o', m₁, m₁', s₁, t₁, ho, hm₁, hfin, hfin'⟩ :=
    hfin e e' he _ _ ((htwins.moved hm s t).masked false)
  exact ⟨_, _, m₁, m₁', s₁, t₁, Value.eraseExit_combine he ho, hm₁,
    comes_ensuring htwins.calm hp hfin, comes_ensuring htwins.calm' hp' hfin'⟩

theorem agree_yieldNow : Agree Q (Comes view .yieldNow) (Comes (σ := σ) view .yieldNow) :=
  fun x x' htwins => ⟨_, _, x.refs, x'.refs, x.board, x.now, rfl, htwins.refs,
    comes_yieldNow htwins.calm, by
      rw [htwins.board, htwins.now]
      exact comes_yieldNow htwins.calm'⟩

theorem agree_sleep (span : Duration) :
    Agree Q (Comes view (.sleep span)) (Comes (σ := σ) view (.sleep span)) :=
  fun x x' htwins => ⟨_, _, x.refs, x'.refs, x.board, x.now.add span, rfl, htwins.refs,
    fun f home out base hooks fs => follows_sleep span htwins.calm, by
      rw [htwins.board, htwins.now]
      exact fun f home out base hooks fs => follows_sleep span htwins.calm'⟩

/-! ## References -/

theorem agree_getRef {r : FiberRef} (hQ : Binds refs Q) (hr : refs r) :
    Agree Q (Comes view (.getRef r)) (Comes (σ := σ) view (.getRef r)) := by
  intro x x' htwins
  refine ⟨.success (.datum (x.refs.read r)), _, x.refs, x'.refs, x.board, x.now, rfl, htwins.refs,
    fun f home out base hooks fs => follows_getRef r htwins.calm, ?_⟩
  rw [hQ.read htwins.refs hr, htwins.board, htwins.now]
  exact fun f home out base hooks fs => follows_getRef r htwins.calm'

theorem agree_setRef {r : FiberRef} {d : Datum} (hQ : Binds refs Q) (hr : refs r) :
    Agree Q (Comes view (.setRef r d)) (Comes (σ := σ) view (.setRef r d)) := by
  intro x x' htwins
  refine ⟨.success .unit, .success .unit, _, _, x.board, x.now, rfl, hQ.write d htwins.refs hr,
    fun f home out base hooks fs => follows_setRef r d htwins.calm, ?_⟩
  rw [htwins.board, htwins.now]
  exact fun f home out base hooks fs => follows_setRef r d htwins.calm'

theorem agree_updateRef {r : FiberRef} {g : Datum → (Datum → Act σ .program) → Act σ .program}
    {result : Datum → S → Except Defect Datum} {next : Datum → S → S} (hQ : Binds refs Q) (hr : refs r)
    (hg : ∀ d s, Computes view (g d) s (result d s) (next d s)) :
    Agree Q (Comes view (.updateRef r g)) (Comes view (.updateRef r g)) := by
  intro x x' htwins
  have hdoes := hg (x.refs.read r) x.board
  have hdoes' := hg (x.refs.read r) x.board
  nth_rewrite 1 [hQ.read htwins.refs hr] at hdoes'
  nth_rewrite 1 [htwins.board] at hdoes'
  cases hresult : result (x.refs.read r) x.board with
  | error d =>
      rw [hresult] at hdoes hdoes'
      refine ⟨_, _, x.refs, x'.refs, next (x.refs.read r) x.board, x.now, erase_panicked x x' d, htwins.refs,
        fun f home out base hooks fs => follows_updateRef_panic r htwins.calm hdoes, ?_⟩
      rw [htwins.now]
      exact fun f home out base hooks fs => follows_updateRef_panic r htwins.calm' hdoes'
  | ok d =>
      rw [hresult] at hdoes hdoes'
      refine ⟨.success .unit, .success .unit, _, _, next (x.refs.read r) x.board, x.now, rfl,
        hQ.write d htwins.refs hr,
        fun f home out base hooks fs => follows_updateRef r htwins.calm hdoes, ?_⟩
      rw [htwins.now]
      exact fun f home out base hooks fs => follows_updateRef r htwins.calm' hdoes'

/-! ## Alike programs -/

mutual

/-- Twins that work on alike programs come to exits that agree but for traces, and are twins again. -/
theorem Alike.agree (hQ : Binds refs Q) {p p' : Program σ} :
    Alike view refs p p' → Agree Q (Comes view p) (Comes view p')
  | @Alike.succeed _ _ _ _ v v' hv =>
      agree_of_exits (e := .success v) (show _ = Value.eraseExit (.success v') from congrArg Exit.success hv)
  | @Alike.failCause _ _ _ _ c c' hc =>
      agree_of_exits (e := .failure c) (show _ = Value.eraseExit (.failure c') from congrArg Exit.failure hc)
  | .lazy hthunk hthunk' halike hpanics => agree_lazy hthunk hthunk' halike hpanics
  | .defer hcalls => agree_instructions (fun _ _ _ _ => rfl) (fun _ _ _ _ => rfl) (hcalls.agree hQ)
  | .flatMap hp hk => agree_flatMap (hp.agree hQ) fun v v' hv => (hk v v' hv).agree hQ
  | .fold hp hh hk => agree_fold (hp.agree hQ) (fun c c' hc => (hh c c' hc).agree hQ)
      fun v v' hv => (hk v v' hv).agree hQ
  | .access hcalls => agree_access fun env => (hcalls env).agree hQ
  | .provide hp => agree_provide (hp.agree hQ)
  | .ensuring hp hfin => agree_ensuring (hp.agree hQ) fun e e' he => (hfin e e' he).agree hQ
  | .addFrame hp => agree_addFrame (hp.agree hQ)
  | .mask hp => agree_mask (hp.agree hQ)
  | .yieldNow => agree_yieldNow
  | .sleep => agree_sleep _
  | .getRef hr => agree_getRef hQ hr
  | .setRef hr => agree_setRef hQ hr
  | .updateRef hr hg => agree_updateRef hQ hr hg

theorem AlikeCalls.agree (hQ : Binds refs Q)
    {call call' : World σ → World σ × Except Defect (Program σ)} :
    AlikeCalls view refs call call' → Agree Q (CallComes view call) (CallComes view call')
  | .intro hcall hcall' halike hpanics => agree_calls hcall hcall'
      (fun s p p' hp hp' => (halike s p p' hp hp').agree hQ) hpanics

end

end Fibers.Detour
