import Fibers.Proofs.Run.Summons
import Fibers.Proofs.Suspensions.Notice

set_option autoImplicit false

/-! # What a move keeps of those who wait

While a fiber is suspended under a token, the tasks that let it go on stay in the queue, and where it is an
observer it stays one until a task is in the queue for it (`Exact.keeps`). The exception is a move with a
text at hand that drops observers of a future by their numbers (`Moment.Forgets`): the number says nothing
of who was added under it. And a fiber that is suspended was so before the move, or it is let go on by a
task, or it has come to wait for something in that move (`Exact.onset`).
-/

namespace Fibers

variable {σ : Type} {L : Licence} {x x' : Moment σ} {k : Wake} {r : Resume σ}

/-- The licence of texts that drop no observer of a future. The machines of fibers are not looked at. -/
def Licence.mindful : Licence :=
  { finalize := fun _ => True, publish := fun _ => True, hold := fun _ => True, forget := False
    exempt := fun _ => True }

/-- A move with a text at hand that drops observers of futures by their numbers: the program of the fiber
whose turn it is or a finalizer that it can release, the act of a task, or an act from outside. -/
inductive Moment.Forgets : Moment σ → Moment σ → Prop
  | turn {w : World σ} {f : Key .fiber} {m : Machine σ} :
      ¬ (m.Licensed .mindful ∧ ∀ s sc, w.scopes.get? s = some sc → sc.state.Licensed .mindful) →
      Forgets ⟨w, some (f, m)⟩ (w.advance f m)
  | task {w : World σ} {t : Timer (Task σ)} {timers : Timers (Task σ)} {act : Act σ .unit} :
      w.timers.Draws t timers → t.task = .run act → ¬ act.Licensed .mindful →
      Forgets ⟨w, none⟩ (World.begin { w with timers } t.task)
  | act {w : World σ} {e : Ending} {a : Act σ e} :
      ¬ a.Licensed .mindful → Forgets ⟨w, none⟩ ⟨(w.run a).1, none⟩

namespace World

variable {w w' : World σ}

/-- A fiber that is resumed stays in the minds of all, as far as it is an observer. -/
theorem tends_awaken (w : World σ) (f : Key .fiber) (token : Nat) (r : Resume σ) :
    Tends L w (w.awaken f token r).world := by
  rcases awaken_cases w f token r with heq | ⟨y, m, c, hy, -, -, -, heq⟩
  · exact heq ▸ .refl w
  · rw [heq]
    exact tends_set_fiber hy fun _ _ ho _ => ho

theorem tends_run {e : Ending} {a : Act σ e} (h : a.Licensed L) (w : World σ) : Tends L w (w.run a).1 := by
  have hsound : Sound L none _ w (w.run a) := sound_run h w
  exact hsound.changes.tends

theorem tends_step {f : Key .fiber} {m : Machine σ} (hx : Moment.Lawful ⟨w, some (f, m)⟩) (y : Fiber σ) :
    ∃ L : Licence, (L.forget → Moment.Forgets ⟨w, some (f, m)⟩ (w.advance f m)) ∧
      Tends L w (w.step f y (m.heed y)).1 := by
  by_cases hmindful : m.Licensed .mindful ∧ ∀ s sc, w.scopes.get? s = some sc → sc.state.Licensed .mindful
  · have hmoves : ∃ exiting, StepSound .mindful (some f) w exiting [] (w.step f y (m.heed y)) :=
      stepSound_step (hmindful.1.heed y) hmindful.2
        (fun s _ _ sc e fins _ => ⟨trivial, fun _ _ => trivial⟩) fun _ _ _ => trivial
    obtain ⟨exiting, hsound⟩ := hmoves
    exact ⟨.mindful, False.elim, hsound.changes.tends⟩
  · exact ⟨_, fun _ => .turn hmindful, (step_changes hx y).tends⟩

theorem tends_begin {t : Timer (Task σ)} {timers : Timers (Task σ)} (hx : Moment.Lawful ⟨w, none⟩)
    (hdraws : w.timers.Draws t timers) :
    ∃ L : Licence, (L.forget → Moment.Forgets ⟨w, none⟩ (World.begin { w with timers } t.task)) ∧
      Tends L { w with timers } (World.begin { w with timers } t.task).world := by
  cases htask : t.task with
  | resume f token r => exact ⟨.mindful, False.elim, tends_awaken _ f token r⟩
  | ring f => exact ⟨.mindful, False.elim, tends_settle _ f _⟩
  | run act =>
      by_cases hmindful : act.Licensed .mindful
      · exact ⟨.mindful, False.elim, tends_run hmindful { w with timers }⟩
      · have hact : act.Licensed w.law := by
          have hlicensed := hx.licensed.world.tasks t hdraws.mem
          rw [htask] at hlicensed
          exact hlicensed
        exact ⟨w.law, fun _ => htask ▸ .task hdraws htask hmindful, tends_run hact { w with timers }⟩

/-- What the tending of a change comes to for a fiber that waits. -/
theorem Tends.keeps {P : Prop} (h : Tends L w w') (hforget : L.forget → P) {a : Awaited}
    (hk : w.Observed k a) : w'.Observed k a ∨ w'.Woken k ∨ P ∧ ∃ f, a = .future f := by
  by_cases ha : L.forget ∧ ∃ f, a = .future f
  · exact Or.inr (Or.inr ⟨hforget ha.1, ha.2⟩)
  · exact (h.observed k a (fun hL f hf => ha ⟨hL, f, hf⟩) hk).imp_right Or.inl

/-- A task of the queue is still there when another has been handed over. -/
theorem Queued.drawn {t : Timer (Task σ)} {timers : Timers (Task σ)} (hk : w.Queued k r)
    (hdraws : w.timers.Draws t timers) (hne : t.task ≠ .resume k.fiber k.token r) :
    World.Queued { w with timers } k r := by
  obtain ⟨u, hu, htask⟩ := hk
  obtain ⟨before, after, hlive, hlive'⟩ := hdraws.live
  refine ⟨u, ?_, htask⟩
  show u ∈ timers.live
  rw [hlive] at hu
  rw [hlive']
  rcases List.mem_append.mp hu with hu | hu
  · exact List.mem_append_left _ hu
  · rcases List.mem_cons.mp hu with rfl | hu
    · exact absurd htask hne
    · exact List.mem_append_right _ hu

end World

/-- A move that takes no task out of the queue forgets nobody, unless it drops observers. -/
theorem Exact.tends (h : Exact x x') (hx : x.Lawful) :
    (∃ L : Licence, (L.forget → Moment.Forgets x x') ∧ World.Tends L x.world x'.world) ∨
    ∃ (w : World σ) (t : Timer (Task σ)) (timers : Timers (Task σ)), x = ⟨w, none⟩ ∧
      w.timers.Draws t timers ∧ x' = World.begin { w with timers } t.task := by
  cases h with
  | @advance w f m =>
      left
      cases hget : w.fibers.get? f with
      | none =>
          have hsame : w.advance f m = ⟨w, none⟩ := by simp only [World.advance, hget]
          exact ⟨.mindful, False.elim, hsame ▸ .refl w⟩
      | some y =>
          obtain ⟨L, hforget, hstep⟩ := World.tends_step hx y
          have hsame : w.advance f m = World.conclude f (w.step f y (m.heed y)) := by
            simp only [World.advance, hget]
          exact ⟨L, hforget, hsame ▸ hstep.trans (World.tends_conclude f _)⟩
  | @task w t timers hdraws => exact Or.inr ⟨w, t, timers, rfl, hdraws, rfl⟩
  | @pass w timers hpasses =>
      exact Or.inl ⟨.mindful, False.elim, .of_eq rfl rfl rfl rfl fun k r hk => by
        rwa [World.Queued, hpasses.live]⟩
  | @errand w e others =>
      have hpassed : World.Tends .mindful w
          { w with timers := w.timers.advanceTo e.due, errands := others } :=
        .of_eq rfl rfl rfl rfl fun _ _ hk => hk
      exact Or.inl ⟨.mindful, False.elim, hpassed.trans (World.tends_settle _ _ _)⟩
  | @root w p =>
      have hchanges : World.Changes .mindful none w (w.runFiber p).1 :=
        World.changes_runFiber w fun hlooked => absurd trivial hlooked
      exact Or.inl ⟨.mindful, False.elim, hchanges.tends⟩
  | @act w e a ha =>
      by_cases hmindful : a.Licensed .mindful
      · exact Or.inl ⟨.mindful, False.elim, World.tends_run hmindful w⟩
      · exact Or.inl ⟨.none, fun _ => .act hmindful, World.tends_run ha w⟩

/-- A move keeps of a fiber that it leaves suspended the tasks that will let it go on, and the one that will
end it if the fiber hears it. Where the fiber is an observer it stays one until a task is in the queue for
it, unless the move drops observers of that future. -/
theorem Exact.keeps (h : Exact x x') (hx : x.Lawful) {y : Fiber σ} {m : Machine σ}
    (hy : x.world.fibers.get? k.fiber = some y) (hphase : y.phase = .suspended k.token m)
    (hk' : x'.world.Suspended k) :
    (∀ r, (r = .terminate → m.exiting = false ∧ y.interruptible = true) →
      x.world.Queued k r → x'.world.Queued k r) ∧
    ∀ a, x.world.Observed k a → x'.world.Observed k a ∨ x'.world.Woken k ∨
      Moment.Forgets x x' ∧ ∃ f, a = .future f := by
  rcases h.tends hx with ⟨L, hforget, htends⟩ | ⟨w, t, timers, rfl, hdraws, rfl⟩
  · exact ⟨fun r _ hr => htends.queued k r hr, fun a ha => htends.keeps hforget ha⟩
  · obtain ⟨L, hforget, htends⟩ := World.tends_begin hx hdraws
    refine ⟨fun r hr hq => ?_, fun a ha => htends.keeps hforget (w := { w with timers }) ?_⟩
    · by_cases hdrawn : t.task = .resume k.fiber k.token r
      · -- the task that is begun is for the fiber, which does not hear it and stays suspended
        exfalso
        obtain ⟨y', m', hy', hphase'⟩ := hk'
        rw [hdrawn, World.begin, World.awaken_suspended (w := { w with timers }) hy hphase r] at hy'
        have hrunning : (w.fibers.set k.fiber { y with phase := .running }).get? k.fiber = some y' →
            False := by
          intro hget
          rw [Store.get?_set_of_some hy] at hget
          cases hget
          cases hphase'
        cases r with
        | proceed => exact hrunning hy'
        | program p => exact hrunning hy'
        | terminate =>
            obtain ⟨hexiting, hinterruptible⟩ := hr rfl
            simp only [hexiting, hinterruptible, Bool.not_true, Bool.or_self, Bool.false_eq_true,
              if_false] at hy'
            exact hrunning hy'
      · exact htends.queued k r (hq.drawn hdraws hdrawn)
    · cases a <;> exact ha

/-! ## The move in which a suspension begins -/

/-- The fiber of `k` comes to wait for `a` in its turn, under the token of `k`, and it has not happened. -/
def Moment.Awaits (x : Moment σ) (k : Wake) (a : Awaited) : Prop :=
  ∃ m y w m' release, x.active = some (k.fiber, m) ∧ x.world.fibers.get? k.fiber = some y ∧
    y.nextToken = k.token ∧ x.world.step k.fiber y (m.heed y) = (w, ⟨m', .await a release⟩) ∧
    w.settledProgram? a = none

/-- The fiber of `k` comes to wait for something that is not there. -/
def Moment.Misses (x : Moment σ) (k : Wake) (a : Awaited) : Prop :=
  x.Awaits k a ∧ ¬ x.world.Has a ∧ ∃ m, x.active = some (k.fiber, m) ∧ m.control = .instruct (.wait a)

namespace World

variable {w w' : World σ}

theorem has_count {f : Key .fiber} {a : Awaited} : (w.count f).Has a ↔ w.Has a := by
  cases a with
  | done g =>
      simp only [Has, count, modifyFiber, Store.get?_modify]
      split
      · rw [Option.isSome_map]
      · rfl
  | future g => rfl
  | closed s => rfl
  | decided t => rfl

theorem has_newFuture (w : World σ) : w.newFuture.1.Has (.future w.newFuture.2) := by
  simp only [Has, newFuture, Store.get?_add, if_pos, Option.isSome_some]

/-- What a fiber comes to wait for is there, unless it names what it waits for and that is not there. A
callback is there. -/
theorem has_of_await {f : Key .fiber} {m m' : Machine σ} {y : Fiber σ} {a : Awaited}
    {release : Option Handle} (hx : Moment.Lawful ⟨w, some (f, m)⟩)
    (h : w.step f y (m.heed y) = (w', ⟨m', .await a release⟩)) :
    w'.Has a ∨ ¬ w.Has a ∧ m.control = .instruct (.wait a) := by
  have hm : (m.heed y).Licensed w.law := (hx.licensed.active f m rfl id).heed y
  rcases (step_await h).2 with ⟨hwait, rfl⟩ | ⟨reg, hasync, rfl, hfutures⟩
  · by_cases hhas : w.Has a
    · exact Or.inl (has_count.mpr hhas)
    · refine Or.inr ⟨hhas, ?_⟩
      unfold Machine.heed at hwait
      split at hwait
      · cases hwait
      · exact hwait
  · left
    have hreg : ∀ g, (reg g).Licensed w.law := by
      have hcontrol := hm.control
      rw [hasync] at hcontrol
      cases hcontrol with
      | async hr => exact hr
    have hsound : Sound w.law none _ _ _ :=
      sound_run (hreg (w.count f).newFuture.2) (w.count f).newFuture.1
    have hthere := hsound.changes.there _ (has_newFuture (w.count f))
    rwa [Has, hfutures]

end World

/-- A fiber that is suspended after a move is let go on by a task, or it was suspended before, or it has
come to wait for something. Then it is an observer of that, if it is there. -/
theorem Move.onset (h : Move x x') (hx : x.Lawful) (hturned : x.Turned) {y' : Fiber σ} {m : Machine σ}
    (hy' : x'.world.fibers.get? k.fiber = some y') (hphase : y'.phase = .suspended k.token m) :
    x'.world.Queued k .proceed ∨
    (∃ y, x.world.fibers.get? k.fiber = some y ∧ World.Rests x'.world k y y') ∨
    ∃ a, x.Awaits k a ∧ (x'.world.Observed k a ∨ x.Misses k a) ∧
      (m.exiting = false → y'.terminating = true → x'.world.Queued k .terminate) := by
  obtain ⟨w, active⟩ := x
  cases active with
  | some fn =>
      obtain ⟨f, n⟩ := fn
      obtain ⟨y, hy, hrun⟩ := hturned f n rfl
      have hget : w.fibers.get? f = some y := hy
      cases h with
      | advance =>
          simp only [World.advance, hget] at hy' ⊢
          have hchanges := World.step_changes hx y
          by_cases hf : f = k.fiber
          · subst hf
            obtain ⟨y₁, hy₁, hlater, -⟩ := hchanges.grows.fibers _ y hget
            have hkept : y₁.phase = .running ∧ y₁.nextToken = y.nextToken := by
              rcases hlater.phase with ⟨hp, ht⟩ | ⟨_, hp, -, -⟩
              · exact ⟨hp.trans hrun, ht⟩
              · rw [hrun] at hp
                cases hp
            obtain ⟨htoken, hproceed | ⟨a, release, hawait, hnone, hobserved, hterm⟩⟩ :=
              World.suspended_conclude hy₁ hkept.1 hy' hphase
            · exact Or.inl hproceed
            · right
              right
              have hstep : w.step k.fiber y (n.heed y) = ((w.step k.fiber y (n.heed y)).1,
                  ⟨(w.step k.fiber y (n.heed y)).2.machine, .await a release⟩) := by rw [← hawait]
              have hawaits : Moment.Awaits ⟨w, some (k.fiber, n)⟩ k a :=
                ⟨n, y, _, _, release, rfl, hget, hkept.2.symm.trans htoken.symm, hstep, hnone⟩
              refine ⟨a, hawaits, ?_, hterm⟩
              rcases World.has_of_await hx hstep with hhas | ⟨hmissing, hwait⟩
              · exact Or.inl (hobserved hhas)
              · exact Or.inr ⟨hawaits, hmissing, n, rfl, hwait⟩
          · obtain ⟨y₁, hy₁, heq⟩ := World.get?_conclude_of_ne hf hy'
            have htends : World.Tends .none (w.step f y (n.heed y)).1
                (World.conclude f (w.step f y (n.heed y))).world := World.tends_conclude f _
            have hphase₁ : y₁.phase = .suspended k.token m := by
              rw [heq] at hphase
              exact hphase
            rcases hchanges.rests (fun hf' => hf (Option.some.inj hf')) hy₁ hphase₁ with hq | ⟨z, hz, hrests⟩
            · exact Or.inl (htends.queued k _ hq)
            · refine Or.inr (Or.inl ⟨z, hz, hrests.trans htends (.of_eq ?_)⟩)
              rw [heq]
  | none =>
      obtain ⟨timers, hlive, ⟨g, token, r', hqueued, rfl⟩ | ⟨w', rfl, hchanges⟩⟩ := World.quiet_cases h
      · rcases World.awaken_cases { w with timers } g token r' with heq | ⟨z, n, c, hz, -, -, -, heq⟩
        · rw [heq] at hy' ⊢
          exact Or.inr (Or.inl ⟨y', hy', .refl _ k y'⟩)
        · rw [heq] at hy' ⊢
          by_cases hg : g = k.fiber
          · subst hg
            rw [Store.get?_set_of_some hz] at hy'
            cases hy'
            cases hphase
          · rw [Store.get?_set, if_neg hg] at hy'
            exact Or.inr (Or.inl ⟨y', hy', .refl _ k y'⟩)
      · rcases (hchanges _ trivial hx.licensed.world).rests (fun h => by cases h) hy' hphase with hq | hrests
        · exact Or.inl hq
        · exact Or.inr (Or.inl hrests)

end Fibers
