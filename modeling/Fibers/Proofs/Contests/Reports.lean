import Fibers.Proofs.Run.Attention

set_option autoImplicit false

/-! # What contests hear

A contest is decided by the ends of its members. Every member has a watcher that reports to the tally of
the contest, and nothing else reaches the tally: in a move no fiber ends and the contest is left alone
(`Spectates`), or one fiber ends, and the tally hears what its watchers report (`Tally.hear`).
-/

namespace Fibers

variable {σ : Type}

/-! ## What a tally makes of a report -/

/-- The tally decided, unless it is decided. -/
def Tally.decide (tally : Tally) (result : Option (Nat × AnyExit)) : Tally :=
  match tally.decided with
  | .pending _ _ => { tally with decided := .settled (.resolved result) }
  | .settled _ => tally

/-- The tally with a member less to wait for. -/
def Tally.countDown (tally : Tally) : Tally :=
  let counted := { tally with remaining := tally.remaining - 1 }
  if tally.remaining = 1 then counted.decide none else counted

/-- The tally after a watcher has been told of an exit. -/
def Tally.hear (e : AnyExit) (tally : Tally) : DoneWatcher σ → Tally
  | .racer _ place => tally.decide (some (place, e))
  | .member _ place => if e.isFailure then tally.decide (some (place, e)) else tally.countDown
  | _ => tally

namespace World

variable {L : Licence} {actor : Option (Key .fiber)} {t : Key .tally}

theorem get?_decide (w : World σ) (t : Key .tally) (result : Option (Nat × AnyExit)) :
    (w.decide t result).tallies.get? t = (w.tallies.get? t).map (·.decide result) := by
  cases hget : w.tallies.get? t with
  | none =>
      unfold World.decide
      dsimp only
      split
      · rw [tallies_wakeAll, Store.get?_set, if_pos rfl, hget]
        rfl
      · exact hget
  | some tally =>
      have htally : w.tally t = tally := by rw [World.tally, hget]; rfl
      simp only [World.decide, htally, Option.map_some, Tally.decide]
      cases hcell : tally.decided with
      | pending os next =>
          simp only [Cell.settle?]
          rw [tallies_wakeAll, Store.get?_set_of_some hget]
      | settled o => exact hget

theorem get?_countDown (w : World σ) (t : Key .tally) :
    (w.countDown t).tallies.get? t = (w.tallies.get? t).map (·.countDown) := by
  cases hget : w.tallies.get? t with
  | none =>
      unfold World.countDown
      dsimp only
      split
      · rw [get?_decide, Store.get?_set, if_pos rfl, hget]
        rfl
      · rw [Store.get?_set, if_pos rfl, hget]
        rfl
  | some tally =>
      have htally : w.tally t = tally := by rw [World.tally, hget]; rfl
      simp only [World.countDown, htally, Option.map_some, Tally.countDown]
      split
      · rw [get?_decide, Store.get?_set_of_some hget, Option.map_some]
      · rw [Store.get?_set_of_some hget]

/-- A watcher that is told of the end of a fiber reports it to its own contest. -/
theorem get?_notifyDone (f : Key .fiber) (e : AnyExit) (w : World σ) (o : DoneWatcher σ) :
    (notifyDone f e w o).tallies.get? t =
      if o.reportsTo t then (w.tallies.get? t).map (·.hear e o) else w.tallies.get? t := by
  by_cases ho : o.reportsTo t = true
  · rw [if_pos ho]
    cases o with
    | racer u place =>
        obtain rfl : u = t := of_decide_eq_true ho
        exact get?_decide w u _
    | member u place =>
        obtain rfl : u = t := of_decide_eq_true ho
        simp only [notifyDone, Tally.hear]
        split
        · exact get?_decide w u _
        · exact get?_countDown w u
    | wake k => cases ho
    | root => cases ho
    | react r => cases ho
  · rw [if_neg ho]
    exact tallies_notifyDone_of_not f e w (Bool.not_eq_true _ ▸ ho)

theorem get?_notifyAll (f : Key .fiber) (e : AnyExit) (os : List (DoneWatcher σ)) (w : World σ) :
    (os.foldl (notifyDone f e) w).tallies.get? t =
      (w.tallies.get? t).map fun tally => (os.filter (·.reportsTo t)).foldl (Tally.hear e) tally := by
  induction os generalizing w with
  | nil => exact Option.map_id'.symm
  | cons o rest ih =>
      rw [List.foldl_cons, ih, get?_notifyDone, List.filter_cons]
      split
      · rw [Option.map_map]
        rfl
      · rfl

/-! ## A contest left alone -/

/-- The watchers of the fiber `f` that report to the contest `t`. -/
def reports (w : World σ) (t : Key .tally) (f : Key .fiber) : List (DoneWatcher σ) :=
  ((w.fibers.get? f).map (·.reports t)).getD []

/-- No fiber ends, and what happens does not concern the contest `t`. -/
structure Spectates (t : Key .tally) (w w' : World σ) : Prop where
  tally : KeepsTally t w w'
  reports : ∀ f, w'.reports t f = w.reports t f
  exits : ∀ f, w'.exitOf f = w.exitOf f

theorem Spectates.refl (w : World σ) : Spectates t w w := ⟨.of_eq rfl, fun _ => rfl, fun _ => rfl⟩

theorem Spectates.trans {w₁ w₂ w₃ : World σ} (h : Spectates t w₁ w₂) (h' : Spectates t w₂ w₃) :
    Spectates t w₁ w₃ :=
  ⟨h.tally.trans h'.tally, fun f => (h'.reports f).trans (h.reports f),
    fun f => (h'.exits f).trans (h.exits f)⟩

/-- What a fiber reports, and its exit, are read off its cell. -/
theorem reports_eq (w : World σ) (t : Key .tally) (f : Key .fiber) :
    w.reports t f = (((w.fibers.get? f).map (·.done)).map fun cell =>
      (cell.observers.map (·.2)).filter (·.reportsTo t)).getD [] := by
  rw [reports, Option.map_map]
  rfl

theorem exitOf_eq (w : World σ) (f : Key .fiber) :
    w.exitOf f = ((w.fibers.get? f).map (·.done)).bind fun cell => cell.outcome?.map fun s =>
      match s with
      | .resolved e => e
      | .interrupted id => .interrupt id := by
  rw [exitOf, Option.bind_map]
  rfl

/-- A change that reaches neither the tallies nor the ends of the fibers. -/
theorem spectates_of_done {w w' : World σ} (htallies : w'.tallies = w.tallies)
    (h : ∀ f, (w'.fibers.get? f).map (·.done) = (w.fibers.get? f).map (·.done)) :
    Spectates t w w' :=
  ⟨.of_eq htallies, fun f => by rw [reports_eq, reports_eq, h f],
    fun f => by rw [exitOf_eq, exitOf_eq, h f]⟩

theorem done_set {w : World σ} {f : Key .fiber} {x x' : Fiber σ} (hx : w.fibers.get? f = some x)
    (hdone : x'.done = x.done) (g : Key .fiber) :
    ((w.fibers.set f x').get? g).map (·.done) = (w.fibers.get? g).map (·.done) := by
  rw [Store.get?_set]
  split
  · rename_i hfg
    subst hfg
    rw [hx, Option.map_some, Option.map_some, Option.map_some, hdone]
  · rfl

theorem done_modify {w : World σ} {f : Key .fiber} {change : Fiber σ → Fiber σ}
    (hdone : ∀ x, (change x).done = x.done) (g : Key .fiber) :
    ((w.modifyFiber f change).fibers.get? g).map (·.done) = (w.fibers.get? g).map (·.done) := by
  rw [modifyFiber, Store.get?_modify]
  split
  · rw [Option.map_map]
    exact congrArg (fun c => (w.fibers.get? g).map c) (funext hdone)
  · rfl

/-- One more watcher, or one less, that reports to another contest. -/
theorem spectates_touch {w : World σ} {f : Key .fiber} {x x' : Fiber σ}
    (hx : w.fibers.get? f = some x) (ht : Touches x x') (hreports : x'.reports t = x.reports t) :
    Spectates t w { w with fibers := w.fibers.set f x' } := by
  have hother : ∀ g, f ≠ g → (w.fibers.set f x').get? g = w.fibers.get? g := fun g hfg => by
    rw [Store.get?_set, if_neg hfg]
  have hself : (w.fibers.set f x').get? f = some x' := Store.get?_set_of_some hx
  refine ⟨.of_eq rfl, fun g => ?_, fun g => ?_⟩
  · by_cases hfg : f = g
    · subst hfg
      simp only [reports, hself, hx, Option.map_some, Option.getD_some, hreports]
    · simp only [reports, hother g hfg]
  · by_cases hfg : f = g
    · subst hfg
      simp only [exitOf, hself, hx, Option.bind_some, Fiber.exit?, ht.outcome]
    · simp only [exitOf, hother g hfg]

/-- The opening of another contest. -/
theorem spectates_opens {w w' : World σ} {u : Key .tally} (htu : t ≠ u)
    (h : Relation.ReflTransGen (Opens L u) w w') : Spectates t w w' := by
  induction h with
  | refl => exact .refl w
  | tail _ hstep ih =>
      refine ih.trans ?_
      cases hstep with
      | elsewhere he hkeeps =>
          exact ⟨hkeeps t htu, fun f => by simp only [World.reports, he.fibers],
            fun f => by simp only [exitOf, he.fibers]⟩
      | touch hx ht hreports => exact spectates_touch hx ht (hreports t htu)

/-- Telling fibers of a closing changes nothing of their ends. -/
theorem done_of_told {w w' : World σ} (hgrows : Grows actor w w')
    (h : ∀ f x', w'.fibers.get? f = some x' →
      ∃ x, w.fibers.get? f = some x ∧ x' = { x with terminating := x'.terminating })
    (f : Key .fiber) : (w'.fibers.get? f).map (·.done) = (w.fibers.get? f).map (·.done) := by
  cases hx : w.fibers.get? f with
  | some x =>
      obtain ⟨x', hx', -⟩ := hgrows.fibers f x hx
      obtain ⟨x₀, hx₀, heq⟩ := h f x' hx'
      obtain rfl : x₀ = x := Option.some.inj (hx₀.symm.trans hx)
      rw [hx', heq]
      rfl
  | none =>
      cases hx' : w'.fibers.get? f with
      | none => rfl
      | some x' =>
          obtain ⟨x, hx₀, -⟩ := h f x' hx'
          rw [hx] at hx₀
          cases hx₀

theorem spectates_scopes {w w' : World σ} (htallies : w'.tallies = w.tallies)
    (hfibers : w'.fibers = w.fibers) : Spectates t w w' :=
  spectates_of_done htallies fun f => by rw [hfibers]

/-- A new fiber reports to no contest. -/
theorem spectates_newFiber (w : World σ) (c : Context) (s : Key .scope) (p : Program σ)
    (services : Services) (inherited : List Frame) :
    Spectates t w (w.newFiber c s p services inherited).1 := by
  obtain ⟨x, hfresh, hnew⟩ : ∃ x : Fiber σ, x.done = .fresh ∧
      (w.newFiber c s p services inherited).1 = hook { (w.newSemaphore c.concurrency).1 with
        fibers := (w.fibers.add x).1 } s (w.fibers.add x).2 := ⟨_, rfl, rfl⟩
  rw [hnew]
  set w₁ : World σ := { (w.newSemaphore c.concurrency).1 with fibers := (w.fibers.add x).1 } with hw₁
  obtain ⟨-, htallies, htold⟩ := parts_hook w₁ s (w.fibers.add x).2
  have hgrows : Grows none w₁ (w₁.hook s (w.fibers.add x).2) := grows_hook _ _ _
  have hadd : Spectates t w w₁ := by
    have hget : ∀ f, w₁.fibers.get? f = if f = (w.fibers.add x).2 then some x else w.fibers.get? f :=
      fun f => Store.get?_add w.fibers x f
    refine ⟨.of_eq rfl, fun f => ?_, fun f => ?_⟩
    · rw [reports, hget]
      split
      · rename_i heq
        subst heq
        rw [reports, Store.get?_next, Option.map_some, Option.getD_some, Fiber.reports, hfresh]
        rfl
      · rfl
    · rw [exitOf, hget]
      split
      · rename_i heq
        subst heq
        rw [exitOf, Store.get?_next, Option.bind_some, Fiber.exit?, hfresh]
        rfl
      · rfl
  exact hadd.trans (spectates_of_done htallies (done_of_told hgrows htold))

theorem spectates_startFiber (w : World σ) (f : Key .fiber) : Spectates t w (w.startFiber f) := by
  unfold startFiber
  cases hx : w.fibers.get? f with
  | none => exact .refl w
  | some x =>
      dsimp only
      cases hphase : x.phase with
      | notStarted m => exact spectates_of_done rfl (done_set hx rfl)
      | running => exact .refl w
      | suspended token m => exact .refl w
      | done e => exact .refl w

/-- Every elementary change leaves the contests alone that are there, and those that are not there
afterwards either. -/
theorem Change.spectates {w w' : World σ} (h : Change L actor w w')
    (ht : (w.tallies.get? t).isSome = true ∨ w'.tallies.get? t = none) : Spectates t w w' := by
  have hgrows := h.grows
  cases h with
  | elsewhere he hkeeps =>
      exact ⟨hkeeps t, fun f => by simp only [World.reports, he.fibers],
        fun f => by simp only [exitOf, he.fibers]⟩
  | touch hx htouches hreports => exact spectates_touch hx htouches (hreports t)
  | contest hfresh hthere hopens =>
      refine spectates_opens ?_ hopens
      rintro rfl
      rcases ht with ht | ht
      · rw [hfresh] at ht
        cases ht
      · rw [ht] at hthere
        cases hthere
  | @own f x x' hactor hx ho => exact spectates_of_done rfl (done_set hx (by rw [ho]))
  | enlist => exact spectates_newFiber w _ _ _ _ _
  | launch => exact spectates_startFiber w _
  | newScope => exact spectates_scopes rfl rfl
  | @forkScope s owner =>
      obtain ⟨-, htallies, hfibers⟩ := parts_register (w.newScope owner (w.scope s).strategy).1 s
        (.closeChild (w.newScope owner (w.scope s).strategy).2 (w.scope s).owner)
      exact spectates_scopes htallies hfibers
  | @register s fin _ =>
      obtain ⟨-, htallies, hfibers⟩ := parts_register w s fin
      exact spectates_scopes htallies hfibers
  | @take h _ => exact spectates_scopes (parts_takeFinalizer w h).2 (fibers_takeFinalizer w h)
  | @lent h =>
      unfold takeLent
      split
      · exact spectates_scopes (parts_takeFinalizer w h).2 (fibers_takeFinalizer w h)
      · exact .refl w
  | @close s e =>
      obtain ⟨-, htallies, htold⟩ := parts_requestClose w s e
      exact spectates_of_done htallies (done_of_told hgrows htold)
  | claim => exact spectates_scopes rfl rfl
  | @publish s e _ => exact spectates_scopes (tallies_wakeAll _ _ _) (fibers_publish w s e)

theorem KeepsTally.isSome {w w' : World σ} (h : KeepsTally t w w')
    (ht : (w.tallies.get? t).isSome = true) : (w'.tallies.get? t).isSome = true := by
  obtain ⟨tally, htally⟩ := Option.isSome_iff_exists.mp ht
  obtain ⟨tally', htally', -⟩ := h tally htally
  exact Option.isSome_of_eq_some htally'

theorem Spectates.isSome {w w' : World σ} (h : Spectates t w w')
    (ht : (w.tallies.get? t).isSome = true) : (w'.tallies.get? t).isSome = true := h.tally.isSome ht

theorem Changes.spectates {w w' : World σ} (h : Changes L actor w w')
    (ht : (w.tallies.get? t).isSome = true ∨ w'.tallies.get? t = none) : Spectates t w w' := by
  induction h with
  | refl => exact .refl w
  | @tail w₁ w₂ _ hstep ih =>
      by_cases hthere : (w₁.tallies.get? t).isSome = true
      · have hstep' := hstep.spectates (Or.inl hthere)
        refine (ih (Or.inl (ht.resolve_right fun hnone => ?_))).trans hstep'
        have hthere' := hstep'.isSome hthere
        rw [hnone] at hthere'
        cases hthere'
      · have hnone : w₁.tallies.get? t = none := Option.not_isSome_iff_eq_none.mp hthere
        have hbefore := ih (Or.inr hnone)
        refine hbefore.trans (hstep.spectates (Or.inr (ht.resolve_left fun hsome => ?_)))
        exact hthere (hbefore.isSome hsome)

/-! ## The end of a step -/

theorem spectates_park {w : World σ} {f : Key .fiber} {x : Fiber σ} (y : Fiber σ) (m : Machine σ)
    (hx : w.fibers.get? f = some x) (hdone : y.done = x.done) : Spectates t w (w.park f y m).1 := by
  have hset : Spectates t w { w with fibers := w.fibers.set f (y.park m).1 } :=
    spectates_of_done rfl (done_set hx hdone)
  unfold park
  dsimp only
  split
  · exact hset.trans (spectates_scopes rfl rfl)
  · exact hset

theorem spectates_subscribe (w : World σ) (k : Wake) (a : Awaited) :
    Spectates t w (w.subscribe k a) := by
  cases a with
  | future f =>
      exact spectates_scopes (tallies_watchFuture w f _) (parts_watchFuture w f _).1
  | closed s =>
      simp only [subscribe]
      split
      · exact spectates_scopes rfl rfl
      · exact .refl w
  | decided u =>
      simp only [subscribe]
      cases hcell : (w.tally u).decided with
      | settled o => exact .refl w
      | pending os next =>
          simp only [Cell.attach?]
          refine ⟨fun tally htally => ?_, fun f => rfl, fun f => rfl⟩
          rw [Store.get?_set]
          split
          · rename_i hut
            have heq : w.tally u = tally := by rw [World.tally, hut, htally]; rfl
            refine ⟨_, by rw [htally, Option.map_some], ?_, by rw [heq]⟩
            rw [← heq, hcell]
            rfl
          · exact ⟨tally, htally, rfl, rfl⟩
  | done f =>
      simp only [subscribe, watchFiber]
      cases hx : w.fibers.get? f with
      | none => exact .refl w
      | some x =>
          dsimp only
          cases hdone : x.done with
          | settled o =>
              simp only [Cell.attach?]
              split
              · exact spectates_scopes rfl rfl
              · exact .refl w
          | pending os next =>
              simp only [Cell.attach?, modifyFiber, Store.modify_eq_set _ hx]
              have hself : (w.fibers.set f { x with
                  done := .pending (os ++ [(next, .wake k)]) (next + 1) }).get? f = some _ :=
                Store.get?_set_of_some hx
              refine ⟨.of_eq rfl, fun g => ?_, fun g => ?_⟩
              · by_cases hfg : f = g
                · subst hfg
                  simp only [reports, hself, hx, Option.map_some, Option.getD_some, Fiber.reports, hdone,
                    Cell.observers, List.map_append, List.map_cons, List.map_nil, List.filter_append,
                    List.filter_cons, DoneWatcher.reportsTo, List.filter_nil, Bool.false_eq_true,
                    if_false, List.append_nil]
                · simp only [reports, Store.get?_set, if_neg hfg]
              · by_cases hfg : f = g
                · subst hfg
                  simp only [exitOf, hself, hx, Option.bind_some, Fiber.exit?, hdone, Cell.outcome?]
                · simp only [exitOf, Store.get?_set, if_neg hfg]

/-- A fiber ends. -/
structure Ends (f : Key .fiber) (e : AnyExit) (w w' : World σ) : Prop where
  fiber : ∃ x, w.fibers.get? f = some x ∧ x.done.isPending = true
  finish : w' = w.finishFiber f e

/-- The contest after a fiber has ended. -/
theorem Ends.tally {w w' : World σ} {f : Key .fiber} {e : AnyExit} (h : Ends f e w w') :
    w'.tallies.get? t =
      (w.tallies.get? t).map fun tally => (w.reports t f).foldl (Tally.hear e) tally := by
  obtain ⟨⟨x, hx, hpending⟩, rfl⟩ := h
  cases hdone : x.done with
  | settled o =>
      rw [hdone] at hpending
      cases hpending
  | pending os next =>
      simp only [finishFiber, hx, hdone, Cell.settle?, reports, Option.map_some, Option.getD_some,
        Fiber.reports, Cell.observers]
      exact get?_notifyAll f e _ _

theorem Ends.get? {w w' : World σ} {f : Key .fiber} {e : AnyExit} (h : Ends f e w w')
    {g : Key .fiber} (hfg : f ≠ g) : w'.fibers.get? g = w.fibers.get? g := by
  obtain ⟨⟨x, hx, -⟩, rfl⟩ := h
  unfold finishFiber
  rw [hx]
  dsimp only
  split
  · rw [modifyFiber, Store.get?_modify, if_neg hfg]
  · rw [foldl_keeps fibers _ (fun w o => fibers_notifyDone f e w o), modifyFiber, Store.get?_modify,
      if_neg hfg]

/-- The fiber that has ended has its exit, and reports to nobody any more. -/
theorem Ends.self {w w' : World σ} {f : Key .fiber} {e : AnyExit} (h : Ends f e w w') :
    w'.exitOf f = some e ∧ w'.reports t f = [] := by
  obtain ⟨⟨x, hx, hpending⟩, rfl⟩ := h
  rw [exitOf, reports, get?_finishFiber e hx hpending]
  exact ⟨rfl, rfl⟩

theorem Ends.other {w w' : World σ} {f : Key .fiber} {e : AnyExit} (h : Ends f e w w')
    {g : Key .fiber} (hfg : f ≠ g) : w'.exitOf g = w.exitOf g ∧ w'.reports t g = w.reports t g := by
  rw [exitOf, exitOf, reports, reports, h.get? hfg]
  exact ⟨rfl, rfl⟩

/-- A fiber that ends had no exit. -/
theorem Ends.before {w w' : World σ} {f : Key .fiber} {e : AnyExit} (h : Ends f e w w') :
    w.exitOf f = none := by
  obtain ⟨⟨x, hx, hpending⟩, -⟩ := h
  rw [exitOf, hx, Option.bind_some, Fiber.exit?, Option.map_eq_none_iff]
  exact Option.isNone_iff_eq_none.mp hpending

/-- What the end of a step does to a contest: nothing, unless the fiber ends. -/
theorem spectates_conclude (f : Key .fiber) (stepped : World σ × Stepped σ) :
    Spectates t stepped.1 (conclude f stepped).world ∨
      ∃ e, Ends f e stepped.1 (conclude f stepped).world := by
  obtain ⟨w, m, d⟩ := stepped
  cases d with
  | proceed => exact Or.inl (.refl w)
  | yield =>
      simp only [conclude]
      cases hx : w.fibers.get? f with
      | none => exact Or.inl (.refl w)
      | some x =>
          exact Or.inl ((spectates_park x m hx rfl).trans (spectates_scopes rfl rfl))
  | await a release =>
      simp only [conclude]
      cases hx : w.fibers.get? f with
      | none => exact Or.inl (.refl w)
      | some x =>
          dsimp only
          have hpark : Spectates t w (w.park f { x with ops := 0 } (m.holding release)).1 :=
            spectates_park _ _ hx rfl
          left
          split
          · exact hpark.trans (spectates_subscribe _ _ a)
          · exact hpark.trans (spectates_of_done rfl (done_modify fun _ => rfl))
  | done e =>
      simp only [conclude]
      cases hx : w.fibers.get? f with
      | none =>
          left
          rw [finishFiber, hx]
          exact .refl w
      | some x =>
          cases hdone : x.done with
          | pending os next => exact Or.inr ⟨e, ⟨x, hx, by rw [hdone]; rfl⟩, rfl⟩
          | settled o =>
              left
              simp only [finishFiber, hx, hdone, Cell.settle?, modifyFiber, Store.modify_eq_set _ hx]
              exact spectates_of_done rfl (done_set hx hdone.symm)

end World

/-! ## Moves -/

/-- What a move does to a contest that is there, or is not there afterwards either: nothing, unless a
fiber ends. -/
theorem Move.spectates {x x' : Moment σ} {t : Key .tally} (h : Move x x') (hx : x.Lawful)
    (ht : (x.world.tallies.get? t).isSome = true ∨ x'.world.tallies.get? t = none) :
    World.Spectates t x.world x'.world ∨
      ∃ f e w, World.Spectates t x.world w ∧ World.Ends f e w x'.world := by
  obtain ⟨w, active⟩ := x
  cases active with
  | none =>
      left
      obtain ⟨timers, -, ⟨f, token, r, -, rfl⟩ | ⟨w', rfl, hchanges⟩⟩ := World.quiet_cases h
      · rcases World.awaken_cases { w with timers } f token r with heq | ⟨y, m, c, hy, -, -, -, heq⟩
        · rw [heq]
          exact World.spectates_scopes rfl rfl
        · rw [heq]
          exact World.spectates_of_done rfl (World.done_set (w := w) hy rfl)
      · have hbefore : World.Spectates t w { w with timers } := World.spectates_scopes rfl rfl
        exact hbefore.trans ((hchanges w.law trivial hx.licensed.world).spectates ht)
  | some fm =>
      obtain ⟨f, m⟩ := fm
      cases h with
      | advance =>
          change _ ∨ (w.advance f m).world.tallies.get? t = none at ht
          show World.Spectates t w (w.advance f m).world ∨ _
          unfold World.advance at ht ⊢
          cases hget : w.fibers.get? f with
          | none => exact Or.inl (.refl w)
          | some y =>
              rw [hget] at ht
              dsimp only at ht ⊢
              have hend := World.spectates_conclude (t := t) f (w.step f y (m.heed y))
              have hstep : World.Spectates t w (w.step f y (m.heed y)).1 := by
                refine (World.step_changes hx y).spectates (ht.imp_right fun hnone => ?_)
                by_contra hne
                have hsome := Option.isSome_iff_ne_none.mpr hne
                rcases hend with h | ⟨e, h⟩
                · have hsome' := h.isSome hsome
                  rw [hnone] at hsome'
                  cases hsome'
                · rw [h.tally, Option.map_eq_none_iff] at hnone
                  exact hne hnone
              rcases hend with h | ⟨e, h⟩
              · exact Or.inl (hstep.trans h)
              · exact Or.inr ⟨f, e, _, hstep, h⟩

/-- Nobody reports to a contest that has not been opened. -/
theorem Run.reports_of_none (r : Run σ) {k : Nat} {t : Key .tally}
    (ht : (r.moment k).world.tallies.get? t = none) (f : Key .fiber) :
    (r.moment k).world.reports t f = [] := by
  induction k with
  | zero =>
      rw [r.start]
      rfl
  | succ k ih =>
      rcases (r.move k).spectates (r.lawful k) (Or.inr ht) with h | ⟨g, e, w, h, hends⟩
      · rw [h.reports]
        refine ih (Option.not_isSome_iff_eq_none.mp fun hsome => ?_)
        have hsome' := h.isSome hsome
        rw [ht] at hsome'
        cases hsome'
      · have hbefore : w.reports t f = [] := by
          rw [h.reports]
          refine ih (Option.not_isSome_iff_eq_none.mp fun hsome => ?_)
          obtain ⟨tally, htally⟩ := Option.isSome_iff_exists.mp (h.isSome hsome)
          rw [hends.tally, htally] at ht
          cases ht
        by_cases hgf : g = f
        · subst hgf
          exact hends.self.2
        · exact (hends.other hgf).2.trans hbefore

end Fibers
