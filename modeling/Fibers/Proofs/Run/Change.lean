import Mathlib.Logic.Relation
import Fibers.Proofs.Run.Elsewhere

set_option autoImplicit false

/-! # Elementary changes

Whatever a call of a user's function, an instruction or the unwinding of a stack does to a world
comes down to a sequence of elementary changes. `Change` lists them: the changes elsewhere, and
about a dozen operations that reach fibers or scopes. A property of worlds is checked against this
list once, instead of against every instruction.

A change is made under a licence, for the texts it brings in and the finalizers it drops, by the
fiber `actor` if there is one.
-/

namespace Fibers.World

variable {σ : Type}

/-! ## Changes of a fiber -/

/-- Interruptions of a fiber that were put off, in the order they came. This happens to a fiber that
is masked. -/
def PutsOff (x x' : Fiber σ) : Prop :=
  ∃ ids : List FiberId, x'.deferred = ids.foldl (fun acc id => id.insert acc) x.deferred ∧
    (ids ≠ [] → x.interruptible = false)

theorem PutsOff.refl (x : Fiber σ) : PutsOff x x := ⟨[], rfl, fun h => absurd rfl h⟩

theorem PutsOff.of_eq {x x' : Fiber σ} (h : x'.deferred = x.deferred) : PutsOff x x' :=
  ⟨[], h, fun h => absurd rfl h⟩

theorem PutsOff.trans {x x' x'' : Fiber σ} (h : PutsOff x x') (hmasks : x'.masks = x.masks)
    (h' : PutsOff x' x'') : PutsOff x x'' := by
  obtain ⟨ids, hids, hmasked⟩ := h
  obtain ⟨ids', hids', hmasked'⟩ := h'
  refine ⟨ids ++ ids', by rw [List.foldl_append, ← hids, hids'], fun hne => ?_⟩
  by_cases hnil : ids = []
  · subst hnil
    rw [Fiber.interruptible, ← hmasks]
    exact hmasked' hne
  · exact hmasked hnil

/-- What anybody can do to a fiber: watch its end, stop watching unless to wait, and, if it is masked,
leave word that it is to be interrupted. -/
structure Touches (x x' : Fiber σ) : Prop where
  rest : x' = { x with done := x'.done, deferred := x'.deferred }
  outcome : x'.done.outcome? = x.done.outcome?
  observers : ∀ k, (∀ o ∈ x.done.observers, o.2 ≠ .wake k) →
    ∀ o ∈ x'.done.observers, o.2 ≠ .wake k
  waiters : ∀ k, ∀ o ∈ x.done.observers, o.2 = .wake k → o ∈ x'.done.observers
  word : PutsOff x x'

/-- What a fiber does to itself in the course of a step: it counts the step, pushes and pops its
stacks, and takes up the interruptions that were put off. -/
def Owns (x x' : Fiber σ) : Prop :=
  x' = { x with
    ops := x'.ops, semaphores := x'.semaphores, masks := x'.masks, services := x'.services
    labels := x'.labels, deferred := x'.deferred }

/-! ## The list -/

/-- A step in the opening of the contest `t`: a change elsewhere, or one of the watchers of a fiber, that
concerns no other contest. -/
inductive Opens (L : Licence) (t : Key .tally) : World σ → World σ → Prop
  | elsewhere {w w' : World σ} :
      Elsewhere L w w' → (∀ u, u ≠ t → KeepsTally u w w') → Opens L t w w'
  | touch {w : World σ} {f : Key .fiber} {x x' : Fiber σ} :
      w.fibers.get? f = some x → Touches x x' → (∀ u, u ≠ t → x'.reports u = x.reports u) →
      Opens L t w { w with fibers := w.fibers.set f x' }

/-- An elementary change. -/
inductive Change (L : Licence) (actor : Option (Key .fiber)) :
    World σ → World σ → Prop
  | elsewhere {w w' : World σ} :
      Elsewhere L w w' → (∀ u, KeepsTally u w w') → Change L actor w w'
  | touch {w : World σ} {f : Key .fiber} {x x' : Fiber σ} :
      w.fibers.get? f = some x → Touches x x' → (∀ u, x'.reports u = x.reports u) →
      Change L actor w { w with fibers := w.fibers.set f x' }
  | contest {w w' : World σ} {t : Key .tally} :
      w.tallies.get? t = none → (w'.tallies.get? t).isSome = true →
      Relation.ReflTransGen (Opens L t) w w' → Change L actor w w'
  | own {w : World σ} {f : Key .fiber} {x x' : Fiber σ} :
      actor = some f → w.fibers.get? f = some x → Owns x x' →
      Change L actor w { w with fibers := w.fibers.set f x' }
  | enlist {w : World σ} {c : Context} {s : Key .scope} {p : Program σ} {services : Services}
      {inherited : List Frame} :
      (w.scopes.get? s).isSome = true →
      ((∀ g y, w.fibers.get? g = some y → y.context.interruptible = true) → c.interruptible = true) →
      (¬ L.exempt (w.newFiber c s p services inherited).2 → p.Licensed L) →
      Change L actor w (w.newFiber c s p services inherited).1
  | launch {w : World σ} {f : Key .fiber} : Change L actor w (w.startFiber f)
  | newScope {w : World σ} {owner : FiberId} {strategy : Strategy} :
      Change L actor w (w.newScope owner strategy).1
  | forkScope {w : World σ} {s : Key .scope} {owner : FiberId} :
      Change L actor w (w.forkScope s owner).1
  | register {w : World σ} {s : Key .scope} {fin : Finalizer σ} :
      fin.Licensed L → Change L actor w (w.register s fin).1
  | take {w : World σ} {h : Handle} : L.hold h → Change L actor w (w.takeFinalizer h).1
  | lent {w : World σ} {h : Handle} : Change L actor w (w.takeLent h).1
  | close {w : World σ} {s : Key .scope} {e : AnyExit} :
      Change L actor w (w.requestClose s e).1
  | claim {w : World σ} {s : Key .scope} {sc : Scope (Finalizer σ)} {e : AnyExit}
      {fins : List (Nat × Finalizer σ)} :
      L.publish s → (w.scope s).claim? = some (sc, e, fins) →
      Change L actor w { w with scopes := w.scopes.set s sc }
  | publish {w : World σ} {s : Key .scope} {e : AnyExit} :
      L.publish s → Change L actor w (w.publish s e)

/-- A sequence of elementary changes. -/
def Changes (L : Licence) (actor : Option (Key .fiber)) :
    World σ → World σ → Prop := Relation.ReflTransGen (Change L actor)

variable {L : Licence} {actor : Option (Key .fiber)}

theorem Change.changes {w w' : World σ} (h : Change L actor w w') :
    Changes L actor w w' := .single h

theorem Elsewhere.changes {w w' : World σ} (h : Elsewhere L w w')
    (htallies : w'.tallies = w.tallies) :
    Changes L actor w w' := .single (.elsewhere h fun _ => .of_eq htallies)

/-- A change of the parts that hold neither texts nor observers. -/
theorem changes_of_eq {w w' : World σ} (fibers : w'.fibers = w.fibers)
    (scopes : w'.scopes = w.scopes) (futures : w'.futures = w.futures)
    (tallies : w'.tallies = w.tallies) (timers : w'.timers = w.timers)
    (errands : w'.errands = w.errands) (permits : Permits w w') :
    Changes L actor w w' :=
  (Elsewhere.of_eq fibers scopes futures tallies timers errands permits).changes tallies

/-- The opening of a contest reaches no scope. -/
theorem scopes_of_opens {w w' : World σ} {t : Key .tally}
    (h : Relation.ReflTransGen (Opens L t) w w') : w'.scopes = w.scopes := by
  induction h with
  | refl => rfl
  | tail _ hstep ih =>
      cases hstep with
      | elsewhere he => exact he.scopes.trans ih
      | touch => exact ih

/-- It makes no fiber. -/
theorem isSome_of_opens {w w' : World σ} {t : Key .tally} {f : Key .fiber}
    (h : Relation.ReflTransGen (Opens L t) w w') :
    (w'.fibers.get? f).isSome = (w.fibers.get? f).isSome := by
  induction h with
  | refl => rfl
  | tail _ hstep ih =>
      rw [← ih]
      cases hstep with
      | elsewhere he => rw [he.fibers]
      | touch =>
          rw [Store.get?_set]
          split
          · exact Option.isSome_map
          · rfl

theorem Changes.refl (w : World σ) : Changes L actor w w := Relation.ReflTransGen.refl

theorem Changes.trans {w₁ w₂ w₃ : World σ} (h : Changes L actor w₁ w₂)
    (h' : Changes L actor w₂ w₃) : Changes L actor w₁ w₃ :=
  Relation.ReflTransGen.trans h h'

/-- A fold of changes. -/
theorem Changes.foldl {α : Type} {g : World σ → α → World σ}
    (h : ∀ w a, Changes L actor w (g w a)) (as : List α) (w : World σ) :
    Changes L actor w (as.foldl g w) := by
  induction as generalizing w with
  | nil => exact .refl w
  | cons a rest ih => exact (h w a).trans (ih (g w a))

/-- A fiber that touches another, or nobody. -/
theorem changes_touch {w : World σ} {f : Key .fiber} {g : Fiber σ → Fiber σ}
    (h : ∀ x, w.fibers.get? f = some x → Touches x (g x) ∧ ∀ u, (g x).reports u = x.reports u) :
    Changes L actor w (w.modifyFiber f g) := by
  cases hget : w.fibers.get? f with
  | none =>
      rw [modifyFiber, Store.modify_eq_self g hget]
      exact .refl w
  | some x =>
      rw [modifyFiber, Store.modify_eq_set g hget]
      exact (Change.touch hget (h x hget).1 (h x hget).2).changes

/-- A fiber that changes itself. -/
theorem changes_own {w : World σ} {f : Key .fiber} {g : Fiber σ → Fiber σ}
    (hactor : actor = some f) (h : ∀ x, Owns x (g x)) :
    Changes L actor w (w.modifyFiber f g) := by
  cases hget : w.fibers.get? f with
  | none =>
      rw [modifyFiber, Store.modify_eq_self g hget]
      exact .refl w
  | some x =>
      rw [modifyFiber, Store.modify_eq_set g hget]
      exact (Change.own hactor hget (h x)).changes

/-! ## Operations on fibers -/

/-- Dropping a watcher of the program's drops none that reports to a contest. -/
theorem reports_forget (os : List (Nat × DoneWatcher σ)) (key : Nat) (t : Key .tally) :
    ((os.filter fun o => !(o.1 == key && o.2.isOwn)).map (·.2)).filter (·.reportsTo t) =
      (os.map (·.2)).filter (·.reportsTo t) := by
  rw [List.filter_map, List.filter_map, List.filter_filter]
  refine congrArg (List.map _) (List.filter_congr fun o _ => ?_)
  obtain ⟨n, o⟩ := o
  cases o <;> simp [DoneWatcher.isOwn, DoneWatcher.reportsTo]

/-- A fiber that is watched by somebody who does not wait gets the watcher, unless it is done: then the
watcher is told. -/
theorem watchFiber_touches (w : World σ) (f : Key .fiber) {o : DoneWatcher σ}
    (ho : ∀ k, o ≠ .wake k) : (w.watchFiber f o).1 = w ∨
      (∃ x x', w.fibers.get? f = some x ∧ Touches x x' ∧
        (∀ u, o.reportsTo u = false → x'.reports u = x.reports u) ∧
        (w.watchFiber f o).1 = { w with fibers := w.fibers.set f x' }) ∨
      ∃ e, (w.watchFiber f o).1 = notifyDone f e w o := by
  unfold watchFiber
  cases hget : w.fibers.get? f with
  | none => exact Or.inl rfl
  | some x =>
      dsimp only
      cases hdone : x.done with
      | pending os next =>
          simp only [Cell.attach?]
          refine Or.inr (Or.inl ⟨x, { x with done := .pending (os ++ [(next, o)]) (next + 1) }, rfl,
            ⟨rfl, by rw [hdone]; rfl, fun k hk p hp => ?_, fun k p hp _ => ?_, .of_eq rfl⟩,
            fun u hu => ?_, by rw [modifyFiber, Store.modify_eq_set _ hget]⟩)
          · rcases List.mem_append.mp hp with hp | hp
            · exact hk p (by rw [hdone]; exact hp)
            · rw [List.mem_singleton.mp hp]
              exact ho k
          · rw [hdone] at hp
            exact List.mem_append_left _ hp
          · simp only [Fiber.reports, hdone, Cell.observers, List.map_append, List.map_cons,
              List.map_nil, List.filter_append, List.filter_cons, hu, List.filter_nil,
              Bool.false_eq_true, if_false, List.append_nil]
      | settled outcome =>
          simp only [Cell.attach?]
          cases hexit : x.exit? with
          | none => exact Or.inl rfl
          | some e => exact Or.inr (Or.inr ⟨e, rfl⟩)

theorem changes_watchFiber (w : World σ) (f : Key .fiber) {o : DoneWatcher σ}
    (ho : ∀ k, o ≠ .wake k) (hreports : ∀ u, o.reportsTo u = false) :
    Changes L actor w (w.watchFiber f o).1 := by
  rcases watchFiber_touches w f ho with heq | ⟨x, x', hx, htouches, hsame, heq⟩ | ⟨e, heq⟩
  · rw [heq]
    exact .refl w
  · rw [heq]
    exact (Change.touch hx htouches fun u => hsame u (hreports u)).changes
  · rw [heq]
    exact .single (.elsewhere (elsewhere_notifyDone f e w ho) fun u =>
      .of_get (tallies_notifyDone_of_not f e w (hreports u)))

/-- A member of a contest is watched. -/
theorem opens_watchFiber (w : World σ) (f : Key .fiber) {t : Key .tally} {o : DoneWatcher σ}
    (ho : ∀ k, o ≠ .wake k) (hreports : ∀ u, u ≠ t → o.reportsTo u = false) :
    Relation.ReflTransGen (Opens L t) w (w.watchFiber f o).1 := by
  rcases watchFiber_touches w f ho with heq | ⟨x, x', hx, htouches, hsame, heq⟩ | ⟨e, heq⟩
  · rw [heq]
  · rw [heq]
    exact .single (.touch hx htouches fun u hu => hsame u (hreports u hu))
  · rw [heq]
    exact .single (.elsewhere (elsewhere_notifyDone f e w ho) fun u hu =>
      .of_get (tallies_notifyDone_of_not f e w (hreports u hu)))

theorem changes_interruptFiber (w : World σ) (f : Key .fiber) (id : FiberId) :
    Changes L actor w (w.interruptFiber f id) := by
  unfold interruptFiber
  split
  · exact .refl w
  · split
    · exact .refl w
    · split
      · exact Change.close.changes
      · rename_i y hy _ hmasked
        refine changes_touch fun x hx =>
          ⟨⟨rfl, rfl, fun _ h => h, fun _ _ h _ => h, [id], rfl, ?_⟩, fun _ => rfl⟩
        obtain rfl : x = y := Option.some.inj (hx.symm.trans hy)
        exact fun _ => Bool.not_eq_true _ ▸ hmasked

theorem changes_interruptAll (w : World σ) (fs : List (Key .fiber)) (id : FiberId) :
    Changes L actor w (w.interruptAll fs id) :=
  Changes.foldl (fun w f => changes_interruptFiber w f id) fs w

theorem changes_cancelFinalizer {w : World σ} {h : Handle} (hh : L.hold h) :
    Changes L actor w (w.cancelFinalizer h).1 := (Change.take hh).changes

/-! ## Acts -/

theorem changes_command (w : World σ) {c : Call} (hc : c.forgets = true → L.forget) :
    Changes L actor w (w.command c).1 := by
  cases c with
  | interruptFiber f id => exact changes_interruptFiber w f id
  | unwatchFiber f key =>
      simp only [command]
      cases hget : w.fibers.get? f with
      | none => exact .refl w
      | some x =>
          dsimp only
          cases hcell : x.done.forgetIf? DoneWatcher.isOwn key with
          | none => exact .refl w
          | some cell =>
              refine changes_touch fun y hy => ?_
              obtain rfl : x = y := Option.some.inj (hget.symm.trans hy)
              unfold Cell.forgetIf? at hcell
              cases hdone : x.done with
              | settled outcome =>
                  rw [hdone] at hcell
                  cases hcell
              | pending os next =>
                  rw [hdone] at hcell
                  simp only [Option.ite_none_right_eq_some, Option.some.injEq] at hcell
                  obtain ⟨-, rfl⟩ := hcell
                  refine ⟨⟨rfl, by rw [hdone]; rfl, fun k hk p hp => ?_, fun k p hp hwake => ?_,
                    .of_eq rfl⟩, fun u => ?_⟩
                  · exact hk p (by rw [hdone]; exact (List.mem_filter.mp hp).1)
                  · rw [hdone] at hp
                    refine List.mem_filter.mpr ⟨hp, ?_⟩
                    simp [hwake, DoneWatcher.isOwn]
                  · simp only [Fiber.reports, hdone, Cell.observers]
                    exact reports_forget os key u
  | newFuture => exact (elsewhere_newFuture w).changes rfl
  | interruptFuture f id =>
      have hsettled : SettledLicensed L (.interrupted id : Settled (Program σ)) := trivial
      exact (elsewhere_settle w f hsettled).changes (tallies_settle w f _)
  | unwatchFuture f key =>
      simp only [command]
      cases hcell : (w.future f).forget? key with
      | none => exact .refl w
      | some cell => exact (elsewhere_forget (hc rfl) hcell).changes rfl
  | newSemaphore permits =>
      exact changes_of_eq rfl rfl rfl rfl rfl rfl (permits_newSemaphore w permits)
  | tryAcquire s =>
      simp only [command]
      split
      · rename_i sem ticket heq
        exact changes_of_eq rfl rfl rfl rfl rfl rfl (permits_set (Semaphore.later_tryTake heq) rfl)
      · exact .refl w
  | relinquish s ticket => exact (elsewhere_relinquish w s ticket).changes (tallies_relinquish w s ticket)
  | newScope owner strategy => exact Change.newScope.changes
  | forkScope s owner => exact Change.forkScope.changes
  | cancelFinalizer h => exact Change.lent.changes
  | newRef initial policy => exact changes_of_eq rfl rfl rfl rfl rfl rfl (.of_eq rfl)
  | newRefs => exact changes_of_eq rfl rfl rfl rfl rfl rfl (.of_eq rfl)
  | forkRefs m => exact (elsewhere_forkRefs w m).changes (tallies_forkRefs w m)
  | joinRefs m child => exact (elsewhere_joinRefs w m child).changes (tallies_joinRefs w m child)
  | writeRef m r value => exact changes_of_eq rfl rfl rfl rfl rfl rfl (.of_eq rfl)
  | alarm delay f =>
      have htask : (Task.ring f : Task σ).Licensed L := trivial
      exact (elsewhere_set htask rfl).changes rfl
  | cancelTimer id =>
      simp only [command]
      cases hcancel : w.timers.cancelIf? Task.isOwn id with
      | none => exact .refl w
      | some timers => exact (elsewhere_cancel hcancel).changes rfl

/-- What an act gives back keeps to a licence. -/
def ResultLicensed (L : Licence) : (e : Ending) → e.Result σ → Prop
  | .program, p => Program.Licensed L p
  | .exit, _ => True
  | .unit, _ => True
  | .registration, .ready p => p.Licensed L
  | .registration, .pending canceler => ∀ p, canceler = some p → p.Licensed L

/-- A call that comes down to elementary changes and, unless it panics, gives back what keeps to
the licence. -/
structure Sound {α : Type} (L : Licence) (actor : Option (Key .fiber))
    (good : α → Prop) (w : World σ) (called : World σ × Except Defect α) : Prop where
  changes : Changes L actor w called.1
  result : ∀ a, called.2 = .ok a → good a

theorem Sound.after {α : Type} {good : α → Prop} {w w' : World σ}
    {called : World σ × Except Defect α} (h : Changes L actor w w')
    (hs : Sound L actor good w' called) : Sound L actor good w called :=
  ⟨h.trans hs.changes, hs.result⟩

theorem sound_ok {α : Type} {good : α → Prop} {w w' : World σ} {a : α}
    (h : Changes L actor w w') (ha : good a) :
    Sound L actor good w (w', .ok a) :=
  ⟨h, fun _ hb => by cases hb; exact ha⟩

theorem sound_error {α : Type} {good : α → Prop} {w w' : World σ} {d : Defect}
    (h : Changes L actor w w') :
    Sound L actor good w (w', (.error d : Except Defect α)) :=
  ⟨h, fun _ hb => by cases hb⟩

/-- An errand that somebody was sent on. -/
theorem elsewhere_errand {w : World σ} (due : Time) (f : Key .future) {p : Program σ}
    (hp : p.Licensed L) : Elsewhere L w { w with errands := w.errands ++ [⟨due, f, p⟩] } := by
  refine ⟨rfl, rfl, fun h => ⟨h.machines, h.finalizers, h.parents, h.futures, h.tasks, fun x hx => ?_⟩,
    fun E k hk => ⟨hk.futures, hk.tallies⟩, fun E k r _ h => Or.inl h,
    fun k r h => Or.inl h, .of_eq rfl rfl rfl rfl fun _ _ h => h, .of_eq rfl, .of_eq rfl, .of_eq rfl,
    .refl _, .of_eq rfl⟩
  rcases List.mem_append.mp hx with hx | hx
  · exact h.errands x hx
  · rw [List.mem_singleton.mp hx]
    exact hp

/-- A task of the program's, set for later. -/
theorem elsewhere_after (w : World σ) (delay : Duration) {task : Act σ .unit}
    (ht : task.Licensed L) :
    Elsewhere L w { w with timers := (w.timers.set delay (.run task)).1 } := elsewhere_set ht rfl

/-- Running an act. -/
theorem sound_run {e : Ending} {act : Act σ e} (h : act.Licensed L) (w : World σ) :
    Sound L actor (ResultLicensed L e) w (w.run act) :=
  match h, w with
  | .program hp, w => sound_ok (.refl w) hp
  | .exit, w => sound_ok (.refl w) trivial
  | .done, w => sound_ok (.refl w) trivial
  | .ready hp, w => sound_ok (.refl w) hp
  | .pending hc, w => sound_ok (.refl w) hc
  | .panic, w => sound_error (.refl w)
  | .look hk, w => sound_run (hk w.board) w
  | .tell (b := b) hk, w => by
      have hboard : Changes L actor w { w with board := b } :=
        changes_of_eq rfl rfl rfl rfl rfl rfl (.of_eq rfl)
      exact (sound_run hk { w with board := b }).after hboard
  | .ask (q := q) hk, w => sound_run (hk (w.answer q)) w
  | .call (c := c) hforget hk, w => by
      simp only [run]
      have hc : Changes L actor w (w.command c).1 := changes_command w hforget
      split
      · rename_i w' reply heq
        rw [heq] at hc
        exact (sound_run (hk reply) w').after hc
      · rename_i w' d heq
        rw [heq] at hc
        exact sound_error hc
  | .resolve (f := f) hp hk, w => by
      exact (sound_run (hk _) _).after
        ((elsewhere_resolve w f hp).changes (tallies_settle w f _))
  | .register hg hk, w => by
      exact (sound_run (hk _) _).after (Change.register (.lent hg)).changes
  | @Act.Licensed.after _ _ _ delay _ _ ht hk, w => by
      exact (sound_run (hk _) _).after ((elsewhere_after w delay ht).changes rfl)
  | .watchFiber (f := f) hk, w => by
      exact (sound_run (hk _) _).after
        (changes_watchFiber w f (fun k h => by cases h) fun _ => rfl)
  | .watchFuture (f := f) (r := r) hk, w => by
      exact (sound_run (hk _) _).after
        ((elsewhere_watchFuture w f r).changes (tallies_watchFuture w f _))
  | @Act.Licensed.elsewhere _ _ _ delay f _ _ hp hk, w => by
      exact (sound_run hk _).after ((elsewhere_errand (w.now.add delay) f hp).changes rfl)

end Fibers.World
