import Fibers.Proofs.Detour.Company
import Fibers.Proofs.Detour.Deeds
import Fibers.Proofs.Detour.Departure

set_option autoImplicit false

/-! # A parent and its child on a virtual clock

A parent that has started a child goes on to wait for it. On the way it may yield, and the child has its
turns; the child yields and sleeps, and the parent may have its own. Either the child ends before the parent
gets to wait, or the parent waits and is told. `Life.eventually` lets the course of a fiber go on among other
tasks; with it the child is company to its parent (`yields_kid`), and tells it when it waits
(`eventually_told`).
-/

namespace Fibers.Detour

open World Direct

variable {σ S : Type} {view : σ → S} {f c : Key .fiber} {home : Home} {out : Outlet σ c home}
  {w w₁ w' : World σ} {t u : Timer (Task σ)} {ts rest : List (Timer (Task σ))} {P : Moment σ → Prop}
  {e : AnyExit} {fiber : Fiber σ} {refs : FiberRefs} {ops : Nat} {m : Machine σ} {y : Place σ S}

/-! ## The course of a fiber among other tasks -/

/-- The others may mind the home of the fiber before its next turn. -/
theorem Life.of_minds (h : Life view c home out t w) (hminds : Minds view c home w w')
    (ht : t ∈ w'.timers.live) (hnow : w'.now.nanos ≤ t.deadline.nanos) : Life view c home out t w' := by
  cases h with
  | turn after again _ _ hrun hagain hlife hleads =>
      exact .turn after again ht hnow (fun rest w₁ h₁ => hrun rest w₁ (hminds.trans h₁))
        (fun rest w₁ t' h₁ => hagain rest w₁ t' (hminds.trans h₁))
        (fun rest w₁ t' h₁ => hlife rest w₁ t' (hminds.trans h₁))
        fun rest w₁ h₁ => hleads rest w₁ (hminds.trans h₁)

/-- From `w` to `w'` the fiber `c` has kept to its home, but time may have passed. -/
structure Spares (c : Key .fiber) (home : Home) (w w' : World σ) : Prop where
  fibers : ∀ g, g ≠ c → w'.fibers.get? g = w.fibers.get? g
  own : (w'.fibers.get? c).map (fun y => (y.done, y.context)) =
    (w.fibers.get? c).map fun y => (y.done, y.context)
  refs : ∀ m, m ≠ home.refs → w'.refs.get? m = w.refs.get? m
  now : w.now.nanos ≤ w'.now.nanos

theorem Keeps.spares (h : Keeps c home w w') : Spares c home w w' :=
  ⟨h.fibers, h.own, h.refs, Nat.le_of_eq (congrArg Time.nanos h.now.symm)⟩

theorem spares_timers (c : Key .fiber) (home : Home) (w : World σ) {q : Timers (Task σ)}
    (h : w.now.nanos ≤ q.now.nanos) : Spares c home w { w with timers := q } :=
  ⟨fun _ _ => rfl, rfl, fun _ _ => rfl, h⟩

/-- A task has its place before or after the first of the others. -/
theorem insert_cases (t : Timer (Task σ)) (rest : List (Timer (Task σ))) :
    Timers.insert t rest = t :: rest ∨
      ∃ u later, rest = u :: later ∧ Timers.insert t rest = u :: Timers.insert t later := by
  cases rest with
  | nil => exact Or.inl rfl
  | cons u later =>
      by_cases hbefore : t.before u = true
      · exact Or.inl (by simp only [Timers.insert, if_pos hbefore])
      · exact Or.inr ⟨u, later, rfl, by simp only [Timers.insert, if_neg hbefore]⟩

/-- A fiber goes on among the tasks `rest` of others, until one of them comes first or the fiber leaves its
course. `J` is what the others know, which outlasts the turns of the fiber. -/
theorem Life.eventually (rest : List (Timer (Task σ))) {J : World σ → Prop} (hJ : ∀ w w', J w → Spares c home w w' → J w')
    (hother : ∀ w t u later, Life view c home out t w → J w → rest = u :: later →
      w.timers.live = u :: Timers.insert t later → Moment.Eventually P ⟨w, none⟩)
    (hended : ∀ w x, J w → w.timers.live = rest → out.leads w x → x.Eventually P)
    (h : Life view c home out t w) (hw : J w)
    (hlive : w.timers.live = t :: rest ∨
      ∃ u later, rest = u :: later ∧ w.timers.live = u :: Timers.insert t later) :
    Moment.Eventually P ⟨w, none⟩ := by
  refine Life.induct (motive := fun t w => J w → (w.timers.live = t :: rest ∨
    ∃ u later, rest = u :: later ∧ w.timers.live = u :: Timers.insert t later) →
    Moment.Eventually P ⟨w, none⟩) ?_ h hw hlive
  intro t w ht hnow hturn hw hlive
  rcases hlive with hlive | ⟨u, later, hrest, hlive⟩
  · -- the task of the fiber is the first
    refine .of_first hlive fun q hq hclock => ?_
    have hdeadline : q.now = t.deadline := by
      rw [hclock, Time.latest, if_pos hnow]
    obtain ⟨n, x, hstrides, hends⟩ := hturn rest { w with timers := q }
      ⟨rfl, rfl, rfl, rfl, fun _ _ h _ => h, rfl⟩ ⟨hq, hdeadline⟩
    have hw' : J (World.withQueue { w with timers := q } rest) := by
      refine hJ w _ hw (spares_timers c home w ?_)
      show w.now.nanos ≤ q.now.nanos
      rw [hdeadline]
      exact hnow
    refine .of_strides hstrides ?_
    rcases hends with ⟨t', hidle, hkeeps, hlive', -, ih⟩ | hleads
    · obtain ⟨w', active⟩ := x
      obtain rfl : active = none := hidle
      refine ih (hJ _ w' hw' hkeeps.spares) ?_
      rcases insert_cases t' rest with heq | ⟨u, later, hrest, heq⟩
      · exact Or.inl (hlive'.trans heq)
      · exact Or.inr ⟨u, later, hrest, hlive'.trans heq⟩
    · exact hended _ x hw' rfl hleads
  · refine hother w t u later (Life.intro ht hnow fun rest' w' h₁ h₂ => ?_) hw hrest hlive
    obtain ⟨n, x, hstrides, ⟨t', hidle, hkeeps, hlive', hlife, -⟩ | hleads⟩ := hturn rest' w' h₁ h₂
    · exact ⟨n, x, hstrides, Or.inl ⟨t', hidle, hkeeps, hlive', hlife⟩⟩
    · exact ⟨n, x, hstrides, Or.inr hleads⟩

/-! ## A child, under way and gone -/

/-- The fiber `f` is not touched by a fiber with another home. -/
theorem At.spares (hne : f ≠ c) (hrefs : fiber.context.refs ≠ home.refs) (h : At f fiber refs ops w)
    (hspares : Spares c home w w') : At f fiber refs ops w' := by
  obtain ⟨⟨actual, hget, hrest⟩, hmap⟩ := h
  exact ⟨⟨actual, (hspares.fibers f hne).trans hget, hrest⟩, (hspares.refs _ hrefs).trans hmap⟩

theorem Yielded.spares (hne : f ≠ c) (hrefs : fiber.context.refs ≠ home.refs)
    (h : Yielded f fiber refs m t w) (hspares : Spares c home w w') : Yielded f fiber refs m t w' := by
  obtain ⟨⟨token, htask, hat⟩, hdue⟩ := h
  exact ⟨⟨token, htask, hat.spares hne hrefs hspares⟩, Nat.le_trans hdue hspares.now⟩

/-- The child keeps the observers of its end in `cell`, and its references at home. -/
def Kept (c : Key .fiber) (home : Home) (cell : Cell AnyExit (DoneWatcher σ)) (w : World σ) : Prop :=
  ∃ record, w.fibers.get? c = some record ∧ record.done = cell ∧ record.context.refs = home.refs

theorem Kept.spares {cell : Cell AnyExit (DoneWatcher σ)} (h : Kept c home cell w)
    (hspares : Spares c home w w') : Kept c home cell w' := by
  obtain ⟨record, hget, hdone, hcontext⟩ := h
  have hown := hspares.own
  rw [hget, Option.map_some] at hown
  obtain ⟨record', hget', heq⟩ := Option.map_eq_some_iff.mp hown
  obtain ⟨hdone', hcontext'⟩ := Prod.ext_iff.mp heq
  exact ⟨record', hget', hdone'.trans hdone, (congrArg Context.refs hcontext').trans hcontext⟩

/-- The child has ended with `e`, and what it had a hand in is as `y` says. -/
structure Gone (view : σ → S) (c : Key .fiber) (home : Home) (e : AnyExit) (y : Place σ S)
    (w : World σ) : Prop where
  exit : ∃ record, w.fibers.get? c = some record ∧ record.exit? = some e ∧
    record.context.refs = home.refs
  map : w.refs.get? home.refs = some y.refs
  permits : w.semaphores.get? home.permits = some y.permits
  board : view w.board = y.board
  now : w.now = y.now

theorem Gone.idles (hne : c ≠ f) (h : Gone view c home e y w) (hidles : Idles f w w') :
    Gone view c home e y w' := by
  obtain ⟨⟨record, hget, hrest⟩, hmap, hpermits, hboard, hnow⟩ := h
  refine ⟨⟨record, (hidles.others c hne).trans hget, hrest⟩, ?_, ?_, ?_, hidles.now.trans hnow⟩
  · rw [congrArg World.refs hidles.rest]
    exact hmap
  · rw [congrArg World.semaphores hidles.rest]
    exact hpermits
  · rw [congrArg World.board hidles.rest]
    exact hboard

/-- The end of a child is published. -/
def ending (w : World σ) (c : Key .fiber) (e : AnyExit) : World σ :=
  w.modifyFiber c fun fiber => { fiber with phase := .done e, done := .settled (.resolved e) }

theorem gone_ending (h : Stands view c home w { y with fiber } (fun _ => True)) :
    Gone view c home e y (ending w c e) := by
  obtain ⟨actual, hget, hvaries⟩ := h.actual
  refine ⟨⟨{ actual with phase := .done e, done := .settled (.resolved e) }, ?_, rfl, ?_⟩, h.map, h.permits,
    h.board, h.now⟩
  · simp only [ending, modifyFiber, Store.get?_modify, hget, if_pos, Option.map_some]
  · exact (congrArg Context.refs hvaries.context).trans h.refsKey

/-- The last step of a child tells those who watch its end. -/
theorem finishFiber_of_kept {os : List (Nat × DoneWatcher σ)} {n : Nat} (h : Kept c home (.pending os n) w) :
    w.finishFiber c e = (os.map (·.2)).foldl (notifyDone c e) (ending w c e) := by
  obtain ⟨record, hget, hdone, -⟩ := h
  simp only [finishFiber, hget, hdone, Cell.settle?, ending]

/-- What has happened to others when a child has published its end. -/
theorem at_ending (hne : f ≠ c) (h : At f fiber refs ops w) : At f fiber refs ops (ending w c e) := by
  obtain ⟨⟨actual, hget, hrest⟩, hmap⟩ := h
  refine ⟨⟨actual, ?_, hrest⟩, hmap⟩
  simp only [ending, modifyFiber, Store.get?_modify, if_neg (Ne.symm hne), hget]

/-! ## The child as company -/

/-- The child is under way with its next turn in the queue, and nobody watches its end; or it is gone. -/
def Kid (view : σ → S) (c : Key .fiber) (home : Home) (e : AnyExit) (y : Place σ S) (w : World σ)
    (ts : List (Timer (Task σ))) : Prop :=
  ts = [] ∧ Gone view c home e y w ∨
    ∃ t, ts = [t] ∧ Life view c home (ended view c home e y) t w ∧ Kept c home .fresh w

theorem unconcerned_kid (hne : c ≠ f) : Unconcerned f (Kid view c home e y) := by
  intro w w' ts hK hidles hlive
  rcases hK with ⟨rfl, hgone⟩ | ⟨t, rfl, hlife, hkept⟩
  · exact Or.inl ⟨rfl, hgone.idles hne hidles⟩
  · have hdue : w.now.nanos ≤ t.deadline.nanos := by
      cases hlife with
      | turn _ _ _ hnow => exact hnow
    refine Or.inr ⟨t, rfl, hlife.of_minds (hidles.minds view home hne) (hlive t (by simp)) ?_, ?_⟩
    · rw [hidles.now]
      exact hdue
    · obtain ⟨record, hget, hrest⟩ := hkept
      exact ⟨record, (hidles.others c hne).trans hget, hrest⟩

/-- The child lets its parent have its next turn. -/
theorem yields_kid (hne : f ≠ c) (hrefs : fiber.context.refs ≠ home.refs)
    (hrunning : fiber.phase = .running) : Yields f fiber refs (Kid view c home e y) P := by
  intro w ts t m hK hyielded hlive k
  -- the next turn of the parent, when it comes first
  have hnext : ∀ w rest, Yielded f fiber refs m t w → w.timers.live = t :: rest →
      (∀ w', Idles f w w' → w'.timers.live = rest → Kid view c home e y w' rest) →
      Moment.Eventually P ⟨w, none⟩ := by
    intro w rest hyielded hlive hK
    obtain ⟨w', hbegin, hat, hidles, hlive'⟩ := hyielded.begin hrunning rest
    refine .of_tick ?_
    have htick : Moment.tick ⟨w, none⟩ = World.begin (w.withQueue rest) t.task := by
      simp only [Moment.tick, hlive, if_pos hyielded.due]
    rw [htick, hbegin]
    exact k w' rest (hK w' hidles hlive') hat hlive'
  have hgone : ∀ w, Gone view c home e y w → Yielded f fiber refs m t w → w.timers.live = [t] →
      Moment.Eventually P ⟨w, none⟩ := fun w hgone hyielded hlive =>
    hnext w [] hyielded hlive fun w' hidles _ => Or.inl ⟨rfl, hgone.idles hne.symm hidles⟩
  rcases hK with ⟨rfl, hgone'⟩ | ⟨u, rfl, hlife, hkept⟩
  · exact hgone w hgone' hyielded hlive
  · refine hlife.eventually [t]
      (J := fun w => Kept c home .fresh w ∧ Yielded f fiber refs m t w) ?_ ?_ ?_ ⟨hkept, hyielded⟩ ?_
    · exact fun w w' hw hspares =>
        ⟨hw.1.spares hspares, hw.2.spares hne hrefs hspares⟩
    · rintro w u t' later hlife ⟨hkept, hyielded⟩ hrest hlive
      obtain ⟨rfl, rfl⟩ := List.cons.inj hrest
      refine hnext w [u] hyielded hlive fun w' hidles hlive' => ?_
      exact unconcerned_kid hne.symm w w' [u] (Or.inr ⟨u, rfl, hlife, hkept⟩) hidles
        fun v hv => by rw [hlive']; exact hv
    · rintro w x ⟨hkept, hyielded⟩ hlive ⟨w₁, _, hstirs, hstands, rfl⟩
      rw [finishFiber_of_kept (hkept.spares hstirs.toKeeps.spares)]
      obtain ⟨⟨token, htask, hat⟩, hdue⟩ := hyielded.spares hne hrefs hstirs.toKeeps.spares
      exact hgone _ (gone_ending hstands) ⟨⟨token, htask, at_ending hne hat⟩, hdue⟩
        (hstirs.live.trans hlive)
    · rw [hlive]
      rcases insert_cases t [u] with heq | ⟨v, later, hv, heq⟩
      · exact Or.inr ⟨t, [], rfl, heq⟩
      · obtain ⟨rfl, rfl⟩ := List.cons.inj hv
        exact Or.inl heq

/-! ## The child that is waited for -/

/-- A parent that waits for its child is told when it ends. -/
theorem eventually_told {token : Nat} (hne : f ≠ c) (hrefs : fiber.context.refs ≠ home.refs)
    (hrunning : fiber.phase = .running)
    (k : ∀ w, Gone view c home e y w → At f fiber refs 0 w → w.timers.live = [] →
      Moment.Eventually P ⟨w, some (f, { m with control := .instruct (.succeed (.exit e)) })⟩)
    (hlife : Life view c home (ended view c home e y) t w)
    (hkept : Kept c home (.pending [(0, .wake ⟨f, token⟩)] 1) w)
    (hat : At f { fiber with phase := .suspended token m } refs 0 w) (hlive : w.timers.live = [t]) :
    Moment.Eventually P ⟨w, none⟩ := by
  refine hlife.eventually [] (J := fun w => Kept c home (.pending [(0, .wake ⟨f, token⟩)] 1) w ∧
    At f { fiber with phase := .suspended token m } refs 0 w) ?_ ?_ ?_ ⟨hkept, hat⟩ (Or.inl hlive)
  · exact fun w w' hw hspares =>
      ⟨hw.1.spares hspares, hw.2.spares hne (by exact hrefs) hspares⟩
  · rintro w t u later - - hrest
    cases hrest
  · rintro w x ⟨hkept, hat⟩ hlive ⟨w₁, _, hstirs, hstands, rfl⟩
    have hat₁ := at_ending (e := e) hne (hat.spares hne (by exact hrefs) hstirs.toKeeps.spares)
    rw [finishFiber_of_kept (hkept.spares hstirs.toKeeps.spares)]
    -- the parent is queued, and is the only one
    set after : World σ := ending w₁ c e with hafter
    have hlive₁ : (after.queue (.resume f token (.program (.succeed (.exit e))))).timers.live =
        [prompt after f token (.program (.succeed (.exit e)))] := by
      show Timers.insert _ after.timers.live = _
      rw [hafter, ending, modifyFiber, hstirs.live, hlive]
      rfl
    obtain ⟨actual, hget, hvaries, -⟩ := hat₁.found
    have hphase : actual.phase = .suspended token m := by
      obtain ⟨_, _, _, -, rfl⟩ := hvaries
      rfl
    refine .of_first hlive₁ fun q _ hclock => ?_
    have hnow : q.now = after.now := by
      rw [hclock, deadline_prompt]
      exact ite_self _
    set waiting : World σ := World.withQueue
      { after.queue (.resume f token (.program (.succeed (.exit e)))) with timers := q } [] with hwaiting
    have hidles : Idles f after waiting := idles_timers f after hnow
    have hgone := (gone_ending (e := e) hstands).idles hne.symm
      (hidles.trans (idles_modifyFiber f waiting fun fiber => { fiber with phase := .running }))
    have hback : At f fiber refs 0 (waiting.modifyFiber f fun fiber => { fiber with phase := .running }) := by
      have hat₂ : At f { fiber with phase := .suspended token m } refs 0 waiting := ⟨hat₁.found, hat₁.map⟩
      refine hat₂.modify rfl ?_
      rintro _ ⟨n, token, cell, hcell, rfl⟩ hops
      exact ⟨⟨n, token, cell, hcell, by rw [← hrunning]⟩, hops⟩
    have hbegin := awaken_program (w := waiting) (.succeed (.exit e)) hget hphase
    show Moment.Eventually P (waiting.awaken f token (.program (.succeed (.exit e))))
    rw [hbegin]
    exact k _ hgone hback rfl

/-- Watching the end of a child that is under way leaves its course as it is. -/
theorem watch_kept (view : σ → S) (o : DoneWatcher σ) (h : Kept c home .fresh w) :
    (w.watchFiber c o).1 = w.modifyFiber c (fun fiber => { fiber with done := .pending [(0, o)] 1 }) ∧
      Kept c home (.pending [(0, o)] 1)
        (w.modifyFiber c fun fiber => { fiber with done := .pending [(0, o)] 1 }) ∧
      Minds view c home w (w.modifyFiber c fun fiber => { fiber with done := .pending [(0, o)] 1 }) := by
  obtain ⟨record, hget, hdone, hcontext⟩ := h
  have hget' : (w.modifyFiber c fun fiber => { fiber with done := .pending [(0, o)] 1 }).fibers.get? c =
      some { record with done := .pending [(0, o)] 1 } := by
    simp only [modifyFiber, Store.get?_modify, hget, if_pos, Option.map_some]
  refine ⟨?_, ⟨_, hget', rfl, hcontext⟩, ⟨?_, rfl, rfl, rfl, fun _ _ h _ => h, rfl⟩⟩
  · simp only [watchFiber, hget, hdone, Cell.fresh, Cell.attach?, List.nil_append]
  · rw [hget', hget, Option.map_some, Option.map_some, hdone]
    rfl

/-- A parent that comes to wait for its child goes on with the exit of the child. -/
theorem eventually_wait {stack : List (Waiting σ)} (hne : f ≠ c)
    (hrefs : fiber.context.refs ≠ home.refs) (hcalm : Calm fiber)
    (k : ∀ w, Gone view c home e y w → At f fiber refs 0 w → w.timers.live = [] →
      Moment.Eventually P ⟨w, some (f, ⟨.instruct (.succeed (.exit e)), stack, false⟩)⟩)
    (hK : Kid view c home e y w ts) (hat : At f fiber refs ops w)
    (hbudget : ops < fiber.context.limits.maxOps) (hlive : w.timers.live = ts) :
    Moment.Eventually P ⟨w, some (f, ⟨.instruct (.wait (.done c)), stack, false⟩)⟩ := by
  set m : Machine σ := ⟨.instruct (.wait (.done c)), stack, false⟩ with hm
  obtain ⟨⟨actual, hget, hvaries, rfl⟩, hmap⟩ := hat
  have hget₁ : (w.count f).fibers.get? f = some { actual with ops := actual.ops + 1 } := by
    simp only [World.count, modifyFiber, Store.get?_modify, hget, if_pos, Option.map_some]
  set idle : Fiber σ := { actual with ops := 0 } with hidle
  have hidles : Varies fiber idle := by
    obtain ⟨ops, token, cell, hcell, rfl⟩ := hvaries
    exact ⟨0, token, cell, hcell, rfl⟩
  set parked : World σ := { w.count f with fibers := (w.count f).fibers.set f (idle.park m).1 } with hparked
  have hmoves : Idles f w parked := (idles_modifyFiber f w _).trans (idles_setFiber f (w.count f) _)
  have haside : At f { fiber with phase := .suspended idle.nextToken m } refs 0 parked := by
    refine ⟨⟨_, Store.get?_set_of_some hget₁, ?_, rfl⟩, hmap⟩
    obtain ⟨ops, token, cell, hcell, rfl⟩ := hvaries
    exact ⟨0, token + 1, cell, hcell, rfl⟩
  have hK₁ : Kid view c home e y parked ts :=
    unconcerned_kid hne.symm w parked ts hK hmoves fun t ht => by rw [← hlive] at ht; exact ht
  refine .of_tick ?_
  show Moment.Eventually P (w.advance f m)
  rw [advance_of_free hget (free_of_stays (Or.inr hcalm.terminating) hvaries),
    step_instruct rfl (by rw [hvaries.context]; exact hbudget)]
  simp only [hm, instruct, conclude, hget₁, Machine.holding]
  rw [← hm, show ({ actual with ops := 0 } : Fiber σ) = idle from rfl,
    park_of_stays hidles (Or.inr hcalm.terminating)]
  dsimp only
  rcases hK₁ with ⟨rfl, hgone⟩ | ⟨t, rfl, hlife, hkept⟩
  · obtain ⟨record, hrecord, hexit, -⟩ := hgone.exit
    have hsettled : parked.settledProgram? (.done c) = some (.succeed (.exit e)) := by
      simp only [settledProgram?, hrecord, Option.bind_some, hexit, Option.map_some]
    rw [hsettled]
    refine k _ (hgone.idles hne.symm (idles_modifyFiber f parked _)) (haside.modify rfl ?_) hlive
    rintro _ ⟨n, token, cell, hcell, rfl⟩ hops
    exact ⟨⟨n, token, cell, hcell, by rw [← hcalm.running]⟩, hops⟩
  · obtain ⟨record, hrecord, hdone, -⟩ := id hkept
    have hsettled : parked.settledProgram? (.done c) = none := by
      simp only [settledProgram?, hrecord, Option.bind_some, Fiber.exit?, hdone]
      rfl
    obtain ⟨hwatch, hkept', hminds⟩ := watch_kept view (.wake ⟨f, idle.nextToken⟩) hkept
    have hsubscribe : parked.subscribe ⟨f, idle.nextToken⟩ (.done c) = parked.modifyFiber c fun fiber =>
        { fiber with done := .pending [(0, .wake ⟨f, idle.nextToken⟩)] 1 } := hwatch
    rw [hsettled]
    dsimp only
    rw [hsubscribe]
    have hdue : parked.now.nanos ≤ t.deadline.nanos := by
      cases hlife with
      | turn _ _ _ hnow => exact hnow
    have hlive' : parked.timers.live = [t] := hlive
    refine eventually_told (m := m) hne hrefs hcalm.running k (hlife.of_minds hminds ?_ hdue) hkept' ?_ hlive'
    · show t ∈ parked.timers.live
      rw [hlive']
      exact List.mem_singleton.mpr rfl
    · obtain ⟨⟨actual', hget', hrest⟩, hmap'⟩ := haside
      refine ⟨⟨actual', ?_, hrest⟩, hmap'⟩
      simp only [modifyFiber, Store.get?_modify, if_neg hne.symm, hget']

end Fibers.Detour
