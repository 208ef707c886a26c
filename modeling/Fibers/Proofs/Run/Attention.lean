import Fibers.Proofs.Run.Tokens
import Fibers.Proofs.Run.Turns

set_option autoImplicit false

/-! # What a waiting fiber listens to

A fiber that yields waits for nothing, and a fiber that waits for a future, for the closing of a
scope, for the end of another or for the decision of a contest, waits for nothing else. Every move keeps
this, since a fiber is put aside under a fresh token and is then made to wait for one thing at most. So a
fiber that yielded goes on where it was.
-/

namespace Fibers

/-- What a machine that was put aside waits for is of `E`, if it waits for anything. A machine does not
know the future that its registration was called with. -/
def Control.Minds {σ : Type} (E : Awaited → Prop) : Control σ → Prop
  | .instruct (.wait a) => E a
  | .instruct (.async _) => False
  | _ => True

/-- A fiber as it is made. -/
structure Fiber.Newborn {σ : Type} (y : Fiber σ) : Prop where
  phase : ∃ p, y.phase = .notStarted { control := .start p }
  masks : y.masks = ⟨y.context.interruptible, []⟩
  deferred : y.deferred = []
  done : y.done = .fresh
  ops : y.ops = 0

namespace World

variable {σ : Type} {L : Licence} {actor : Option (Key .fiber)}

/-- Every fiber listens to nothing but what it waits for, and to nothing under a token that was
not given out yet. -/
structure Attentive (w : World σ) : Prop where
  sane : w.Sane
  fresh : ∀ f t, (∀ x, w.fibers.get? f = some x → x.nextToken ≤ t) →
    w.Untold (fun _ => False) ⟨f, t⟩
  issued : ∀ f x t m, w.fibers.get? f = some x → x.phase = .suspended t m → t < x.nextToken
  waits : ∀ f x t m E, w.fibers.get? f = some x → x.phase = .suspended t m →
    m.control.Minds E → w.Untold E ⟨f, t⟩

/-- A fresh token is not listened to for anything. -/
theorem Untold.weaken {E E' : Awaited → Prop} {w : World σ} {k : Wake} (hk : w.Untold E k)
    (h : ∀ a, E a → E' a) : w.Untold E' k :=
  ⟨⟨fun f c hc hf => hk.unobserved.futures f c hc fun hE => hf (h _ hE),
      fun t c hc ht => hk.unobserved.tallies t c hc fun hE => ht (h _ hE)⟩,
    fun f x hx hf => hk.fibers f x hx fun hE => hf (h _ hE),
    fun s sc hsc hs => hk.scopes s sc hsc fun hE => hs (h _ hE),
    fun p hp => (hk.queue p hp).imp fun a ha => ⟨h a ha.1, ha.2⟩⟩

/-- A fiber that a change makes is as fibers are made. It can be interrupted, like all others. -/
theorem Change.newborn {w w' : World σ} (h : Change L actor w w') {f : Key .fiber} {x' : Fiber σ}
    (hx' : w'.fibers.get? f = some x') :
    (∃ x, w.fibers.get? f = some x) ∨ x'.Newborn ∧
      ((∀ g y, w.fibers.get? g = some y → y.context.interruptible = true) →
        x'.context.interruptible = true) := by
  have hset : ∀ (g : Key .fiber) (y : Fiber σ), (w.fibers.set g y).get? f = some x' →
      ∃ x, w.fibers.get? f = some x := by
    intro g y hy
    rw [Store.get?_set] at hy
    split at hy
    · obtain ⟨x, hx, -⟩ := Option.map_eq_some_iff.mp hy
      exact ⟨x, hx⟩
    · exact ⟨x', hy⟩
  cases h with
  | elsewhere he => exact Or.inl ⟨x', he.fibers ▸ hx'⟩
  | touch => exact Or.inl (hset _ _ hx')
  | contest _ _ h =>
      have hsome := isSome_of_opens (f := f) h
      rw [hx', Option.isSome_some] at hsome
      exact Or.inl (Option.isSome_iff_exists.mp hsome.symm)
  | own => exact Or.inl (hset _ _ hx')
  | @enlist c s p services inherited _ hinterruptible _ =>
      obtain ⟨x₀, hborn, hcontext, hnew⟩ : ∃ x₀ : Fiber σ, x₀.Newborn ∧ x₀.context = c ∧
          (w.newFiber c s p services inherited).1 = hook { (w.newSemaphore c.concurrency).1 with
            fibers := (w.fibers.add x₀).1 } s (w.fibers.add x₀).2 :=
        ⟨_, ⟨⟨p, rfl⟩, rfl, rfl, rfl, rfl⟩, rfl, rfl⟩
      rw [hnew] at hx'
      obtain ⟨-, -, hhook⟩ := parts_hook { (w.newSemaphore c.concurrency).1 with
        fibers := (w.fibers.add x₀).1 } s (w.fibers.add x₀).2
      obtain ⟨x, hx, heq⟩ := hhook f x' hx'
      rw [Store.get?_add] at hx
      split at hx
      · cases hx
        rw [heq]
        exact Or.inr ⟨⟨hborn.phase, hborn.masks, hborn.deferred, hborn.done, hborn.ops⟩,
          fun hall => hcontext ▸ hinterruptible hall⟩
      · exact Or.inl ⟨x, hx⟩
  | @launch g =>
      unfold startFiber at hx'
      split at hx'
      · exact Or.inl ⟨x', hx'⟩
      · split at hx'
        · exact Or.inl (hset _ _ hx')
        · exact Or.inl ⟨x', hx'⟩
  | newScope => exact Or.inl ⟨x', hx'⟩
  | @forkScope s owner =>
      obtain ⟨-, -, hfibers⟩ := parts_register (w.newScope owner (w.scope s).strategy).1 s
        (.closeChild (w.newScope owner (w.scope s).strategy).2 (w.scope s).owner)
      rw [show (w.forkScope s owner).1.fibers = w.fibers from hfibers] at hx'
      exact Or.inl ⟨x', hx'⟩
  | @register s fin _ =>
      rw [(parts_register w s fin).2.2] at hx'
      exact Or.inl ⟨x', hx'⟩
  | take =>
      rw [fibers_takeFinalizer] at hx'
      exact Or.inl ⟨x', hx'⟩
  | lent =>
      unfold takeLent at hx'
      split at hx'
      · rw [fibers_takeFinalizer] at hx'
        exact Or.inl ⟨x', hx'⟩
      · exact Or.inl ⟨x', hx'⟩
  | close =>
      obtain ⟨x, hx, -⟩ := (parts_requestClose w _ _).2.2 f x' hx'
      exact Or.inl ⟨x, hx⟩
  | claim => exact Or.inl ⟨x', hx'⟩
  | publish =>
      rw [fibers_publish] at hx'
      exact Or.inl ⟨x', hx'⟩

/-- Elementary changes keep the fibers attentive: what is suspended afterwards was so before, or it
was started under a fresh token. -/
theorem Change.attentive {w w' : World σ} (h : Change L actor w w') (hw : w.Attentive) :
    w'.Attentive := by
  have hlater : ∀ f x t m, w'.fibers.get? f = some x → x.phase = .suspended t m →
      ∃ x₀, w.fibers.get? f = some x₀ ∧ x₀.Later x := by
    intro f x t m hx hphase
    rcases h.newborn hx with ⟨x₀, hx₀⟩ | ⟨hnew, -⟩
    · obtain ⟨x₁, hx₁, hl, -⟩ := h.grows.fibers f x₀ hx₀
      obtain rfl : x₁ = x := Option.some.inj (hx₁.symm.trans hx)
      exact ⟨x₀, hx₀, hl⟩
    · obtain ⟨p, hstart⟩ := hnew.phase
      rw [hstart] at hphase
      cases hphase
  refine ⟨h.mutes.sane hw.sane, fun f t ht => h.untold (hw.fresh f t fun x hx => ?_), ?_, ?_⟩
  · obtain ⟨x', hx', hl, -⟩ := h.grows.fibers f x hx
    exact Nat.le_trans (Fiber.Later.nextToken hl) (ht x' hx')
  · intro f x t m hx hphase
    obtain ⟨x₀, hx₀, hl⟩ := hlater f x t m hx hphase
    rcases hl.phase with ⟨hp, ht⟩ | ⟨m', -, hp, ht⟩
    · rw [ht]
      exact hw.issued f x₀ t m hx₀ (hp ▸ hphase)
    · rw [hp] at hphase
      cases hphase
      omega
  · intro f x t m E hx hphase hminds
    obtain ⟨x₀, hx₀, hl⟩ := hlater f x t m hx hphase
    rcases hl.phase with ⟨hp, -⟩ | ⟨m', -, hp, -⟩
    · exact h.untold (hw.waits f x₀ t m E hx₀ (hp ▸ hphase) hminds)
    · rw [hp] at hphase
      cases hphase
      refine h.untold ((hw.fresh f x₀.nextToken fun y hy => ?_).weaken fun _ => False.elim)
      obtain rfl : x₀ = y := Option.some.inj (hx₀.symm.trans hy)
      exact Nat.le_refl _

theorem Changes.attentive {w w' : World σ} (h : Changes L actor w w') (hw : w.Attentive) :
    w'.Attentive := by
  induction h with
  | refl => exact hw
  | tail _ hstep ih => exact hstep.attentive ih

/-! ## The ends of steps -/

variable {E : Awaited → Prop} {k : Wake}

theorem untold_timers {w : World σ} {timers : Timers (Task σ)} (hk : w.Untold E k)
    (h : ∀ u ∈ timers.live, u ∈ w.timers.live) : Untold E { w with timers } k :=
  ⟨⟨hk.unobserved.futures, hk.unobserved.tallies⟩, hk.fibers, hk.scopes, fun p hp =>
    (hk.queue p (hp.imp fun _ ht => ⟨h _ ht.1, ht.2⟩)).imp fun _ ha =>
      ⟨ha.1, ha.2.of_eq rfl rfl (.of_eq rfl) (.of_eq rfl)⟩⟩

theorem untold_queue {w : World σ} {t : Task σ} (hk : w.Untold E k)
    (ht : ∀ p, t = .resume k.fiber k.token (.program p) → ∃ a, E a ∧ w.Tells a p) :
    (w.queue t).Untold E k :=
  ⟨⟨hk.unobserved.futures, hk.unobserved.tallies⟩, hk.fibers, hk.scopes, fun p hp =>
    ((queued_queue hp).elim (hk.queue p) (ht p)).imp fun _ ha =>
      ⟨ha.1, ha.2.of_eq rfl rfl (.of_eq rfl) (.of_eq rfl)⟩⟩

theorem untold_set_fiber {w : World σ} {f : Key .fiber} {x : Fiber σ} (hk : w.Untold E k)
    (h : ¬ E (.done f) → ∀ o ∈ x.done.observers, o.2 ≠ .wake k)
    (hdone : ∀ y, w.fibers.get? f = some y → ∀ o, y.done.outcome? = some o → x.done.outcome? = some o) :
    Untold E { w with fibers := w.fibers.set f x } k := by
  have hkeeps : KeepsOutcomes w { w with fibers := w.fibers.set f x } := by
    intro g y o hy ho
    by_cases hfg : f = g
    · subst hfg
      exact ⟨x, Store.get?_set_of_some hy, hdone y hy o ho⟩
    · exact ⟨y, by rw [Store.get?_set, if_neg hfg, hy], ho⟩
  have hmutes : Mutes w { w with fibers := w.fibers.set f x } := .of_eq rfl
  refine ⟨⟨hk.unobserved.futures, hk.unobserved.tallies⟩, fun g y hy => ?_, hk.scopes,
    fun p hp => (hk.queue p hp).imp fun _ ha => ⟨ha.1, ha.2.mutes hmutes hkeeps (.of_eq rfl) (.of_eq rfl)⟩⟩
  rw [Store.get?_set] at hy
  split at hy
  · rename_i hfg
    subst hfg
    obtain ⟨_, -, rfl⟩ := Option.map_eq_some_iff.mp hy
    exact h
  · exact hk.fibers g y hy

/-- A fiber that waits is told nothing on behalf of another. -/
theorem untold_wake {w : World σ} {k' : Wake} {p : Program σ} (hk : w.Untold E k)
    (h : k ≠ k' ∨ ∃ a, E a ∧ w.Tells a p) : (w.wake k' p).Untold E k := by
  refine untold_queue hk fun q heq => ?_
  injection heq with hfiber htoken hresume
  rcases h with hne | ⟨a, ha, htells⟩
  · refine absurd ?_ hne
    cases k
    cases k'
    simp only [Wake.mk.injEq]
    exact ⟨hfiber.symm, htoken.symm⟩
  · injection hresume with hresume
    exact ⟨a, ha, hresume ▸ htells⟩

/-- One more observer, who is somebody else. -/
theorem ne_of_mem_concat {α : Type} {os : List (Nat × α)} {n : Nat} {a b : α}
    (hos : ∀ o ∈ os, o.2 ≠ a) (hne : b ≠ a) : ∀ o ∈ os ++ [(n, b)], o.2 ≠ a := by
  intro o ho
  rcases List.mem_append.mp ho with ho | ho
  · exact hos o ho
  · rw [List.mem_singleton.mp ho]
    exact hne

/-- A future that is found settled is there. -/
theorem get_of_future_settled {w : World σ} {f : Key .future} {settled : Settled (Program σ)}
    (h : w.future f = .settled settled) : w.futures.get? f = some (.settled settled) := by
  unfold World.future at h
  cases hget : w.futures.get? f with
  | none =>
      rw [hget] at h
      cases h
  | some cell =>
      rw [hget] at h
      exact congrArg some h

theorem untold_subscribe {w : World σ} {k' : Wake} {a : Awaited} (hk : w.Untold E k)
    (h : k ≠ k' ∨ E a) : (w.subscribe k' a).Untold E k := by
  -- what has settled already wakes the waiting fiber at once, and that is another one; what is pending
  -- gets one observer more, and that is not the one under the token
  cases a with
  | future f =>
      simp only [subscribe, watchFuture]
      cases hcell : w.future f with
      | settled outcome =>
          exact untold_wake hk (h.imp_right fun hE =>
            ⟨.future f, hE, outcome, get_of_future_settled hcell, rfl⟩)
      | pending os next =>
          simp only [Cell.attach?]
          -- the future that gets the observer is pending, so it told nobody
          have hsettled : KeepsSettled w { w with futures := (w.futures.set f
              (.pending (os ++ [(next, .wake k')]) (next + 1))) } :=
            settled_set (by rw [hcell]; rfl) rfl
          refine ⟨⟨fun x cell hx hE => ?_, hk.unobserved.tallies⟩, hk.fibers, hk.scopes, fun p hp =>
            (hk.queue p hp).imp fun a ha => ⟨ha.1, ha.2.of_eq (w := w) rfl rfl (.of_eq rfl) hsettled⟩⟩
          rw [Store.get?_set] at hx
          split at hx
          · rename_i hfx
            subst hfx
            obtain ⟨c₀, hc₀, rfl⟩ := Option.map_eq_some_iff.mp hx
            have hne : k ≠ k' := h.resolve_right hE
            refine ne_of_mem_concat (fun o ho => hk.unobserved.futures f c₀ hc₀ hE o ?_) fun heq => ?_
            · rw [World.future, hc₀, Option.getD_some] at hcell
              rw [hcell]
              exact ho
            · injection heq with heq
              exact hne heq.symm
          · exact hk.unobserved.futures x cell hx hE
  | done f =>
      simp only [subscribe, watchFiber]
      cases hget : w.fibers.get? f with
      | none => exact hk
      | some x =>
          dsimp only
          cases hdone : x.done with
          | settled outcome =>
              simp only [Cell.attach?]
              cases hexit : x.exit? with
              | none => exact hk
              | some e =>
                  exact untold_wake hk (h.imp_right fun hE => ⟨.done f, hE, x, e, hget, hexit, rfl⟩)
          | pending os next =>
              simp only [Cell.attach?, modifyFiber, Store.modify_eq_set _ hget]
              refine untold_set_fiber hk (fun hE => ne_of_mem_concat (fun o ho => ?_) fun heq => ?_)
                fun y hy o ho => ?_
              · exact hk.fibers f x hget hE o (by rw [hdone]; exact ho)
              · injection heq with heq
                exact h.resolve_right hE heq.symm
              · obtain rfl := Option.some.inj (hget.symm.trans hy)
                rw [hdone] at ho
                cases ho
  | closed s =>
      simp only [subscribe]
      cases hcell : (w.scope s).closed with
      | settled outcome => exact hk
      | pending os next =>
          simp only [Cell.attach?]
          -- the cell that gets the observer is pending, so it told nobody
          have htells : ∀ a p, w.Tells a p → Tells { w with scopes := (w.scopes.set s
              { w.scope s with closed := .pending (os ++ [(next, k')]) (next + 1) }) } a p := by
            intro a p htells
            cases a with
            | future f => exact htells
            | done f => exact htells
            | decided t => exact htells
            | closed t =>
            obtain ⟨sc, e, hsc, hsettled, hp⟩ := htells
            have hst : s ≠ t := by
              rintro rfl
              rw [scope_of_get hsc, hsettled] at hcell
              cases hcell
            exact ⟨sc, e, by rw [Store.get?_set, if_neg hst, hsc], hsettled, hp⟩
          refine ⟨⟨hk.unobserved.futures, hk.unobserved.tallies⟩, hk.fibers, fun t sc ht hE => ?_,
            fun p hp => (hk.queue p hp).imp fun a ha => ⟨ha.1, htells a p ha.2⟩⟩
          rw [Store.get?_set] at ht
          split at ht
          · rename_i hst
            subst hst
            obtain ⟨sc₀, hsc₀, rfl⟩ := Option.map_eq_some_iff.mp ht
            have hne : k ≠ k' := h.resolve_right hE
            refine ne_of_mem_concat (fun o ho => hk.scopes s sc₀ hsc₀ hE o ?_) hne.symm
            rw [scope_of_get hsc₀] at hcell
            rw [hcell]
            exact ho
          · exact hk.scopes t sc ht hE
  | decided t =>
      simp only [subscribe]
      cases hcell : (w.tally t).decided with
      | settled outcome => exact hk
      | pending os next =>
          simp only [Cell.attach?]
          set tally : Tally := { w.tally t with decided := .pending (os ++ [(next, k')]) (next + 1) }
            with htally
          -- the tally that gets the observer is not decided, so it told nobody
          have hdecisions : KeepsDecisions w { w with tallies := w.tallies.set t tally } := by
            intro u c o hc ho
            have htu : t ≠ u := by
              rintro rfl
              rw [World.tally, hc, Option.getD_some, ho] at hcell
              cases hcell
            exact ⟨c, by rw [Store.get?_set, if_neg htu, hc], ho⟩
          refine ⟨⟨hk.unobserved.futures, fun x c hx hE => ?_⟩, hk.fibers, hk.scopes, fun p hp =>
            (hk.queue p hp).imp fun a ha => ⟨ha.1, ha.2.of_eq (w := w) rfl rfl hdecisions (.of_eq rfl)⟩⟩
          rw [Store.get?_set] at hx
          split at hx
          · rename_i htx
            subst htx
            obtain ⟨t₀, ht₀, rfl⟩ := Option.map_eq_some_iff.mp hx
            have hne : k ≠ k' := h.resolve_right hE
            refine ne_of_mem_concat (fun o ho => hk.unobserved.tallies t t₀ ht₀ hE o ?_) hne.symm
            rw [World.tally, ht₀, Option.getD_some] at hcell
            rw [hcell]
            exact ho
          · exact hk.unobserved.tallies x c hx hE

theorem untold_finishFiber {w : World σ} (hk : w.Untold E k) (f : Key .fiber) (e : AnyExit) :
    (w.finishFiber f e).Untold E k := by
  unfold finishFiber
  cases hget : w.fibers.get? f with
  | none => exact hk
  | some x =>
      dsimp only
      cases hdone : x.done with
      | settled outcome =>
          simp only [Cell.settle?, modifyFiber, Store.modify_eq_set _ hget]
          refine untold_set_fiber hk (hk.fibers f x hget) fun y hy o ho => ?_
          obtain rfl := Option.some.inj (hget.symm.trans hy)
          exact ho
      | pending os next =>
          simp only [Cell.settle?, modifyFiber, Store.modify_eq_set _ hget]
          have hos : ∀ o ∈ os.map (·.2), o = .wake k → E (.done f) := by
            rintro o ho rfl
            obtain ⟨o', ho', heq⟩ := List.mem_map.mp ho
            by_contra hE
            exact hk.fibers f x hget hE o' (by rw [hdone]; exact ho') heq
          have hset : Untold E { w with fibers := (w.fibers.set f
              { x with phase := .done e, done := .settled (.resolved e) }) } k := by
            refine untold_set_fiber hk (fun _ o ho => by cases ho) fun y hy o ho => ?_
            obtain rfl := Option.some.inj (hget.symm.trans hy)
            rw [hdone] at ho
            cases ho
          -- the fiber is done before the first watcher is served
          have htells : Tells { w with fibers := (w.fibers.set f
              { x with phase := .done e, done := .settled (.resolved e) }) } (.done f)
              (.succeed (.exit e)) := ⟨_, e, Store.get?_set_of_some hget, rfl, rfl⟩
          have hserve : ∀ (os : List (DoneWatcher σ)) (w : World σ),
              (∀ o ∈ os, o = .wake k → E (.done f)) → w.Tells (.done f) (.succeed (.exit e)) →
              w.Untold E k → (os.foldl (notifyDone f e) w).Untold E k := by
            intro os
            induction os with
            | nil => exact fun w _ _ hk => hk
            | cons o rest ih =>
                intro w hos htells hk
                refine ih _ (fun o ho => hos o (List.mem_cons_of_mem _ ho))
                  (htells.of_eq (fibers_notifyDone f e w o) (scopes_notifyDone f e w o)
                    (keepsDecisions_notifyDone f e w o) (keepsSettled_notifyDone f e w o)) ?_
                by_cases hwake : ∃ k', o = .wake k'
                · obtain ⟨k', rfl⟩ := hwake
                  refine untold_wake hk ?_
                  by_cases hkk : k = k'
                  · exact Or.inr ⟨_, hos _ List.mem_cons_self (by rw [hkk]), htells⟩
                  · exact Or.inl hkk
                · have helse : Elsewhere .none w (notifyDone f e w o) :=
                    elsewhere_notifyDone f e w fun k' heq => hwake ⟨k', heq⟩
                  exact helse.untold hk
          exact hserve _ _ hos htells hset

/-! ## Attention in the course of moves -/

theorem attentive_timers {w : World σ} {timers : Timers (Task σ)} (hw : w.Attentive)
    (h : ∀ u ∈ timers.live, u ∈ w.timers.live) : Attentive { w with timers } :=
  ⟨hw.sane, fun f t ht => untold_timers (hw.fresh f t ht) h, hw.issued,
    fun f x t m E hx hphase hminds => untold_timers (hw.waits f x t m E hx hphase hminds) h⟩

theorem attentive_queue {w : World σ} {t : Task σ} (hw : w.Attentive)
    (ht : ∀ f n p, t ≠ .resume f n (.program p)) : (w.queue t).Attentive :=
  ⟨hw.sane, fun f n hn => untold_queue (hw.fresh f n hn) fun p heq => absurd heq (ht f n p),
    hw.issued, fun f x n m E hx hphase hminds =>
      untold_queue (hw.waits f x n m E hx hphase hminds) fun p heq => absurd heq (ht f n p)⟩

theorem attentive_set_fiber {w : World σ} {f : Key .fiber} {x x' : Fiber σ} (hw : w.Attentive)
    (hx : w.fibers.get? f = some x) (hdone : x'.done = x.done)
    (htoken : x.nextToken ≤ x'.nextToken)
    (hphase : ∀ t m, x'.phase = .suspended t m →
      t < x'.nextToken ∧ ∀ E, m.control.Minds E → w.Untold E ⟨f, t⟩) :
    Attentive { w with fibers := w.fibers.set f x' } := by
  have huntold : ∀ E k, w.Untold E k → Untold E { w with fibers := w.fibers.set f x' } k :=
    fun E k hk => untold_set_fiber hk (fun hE o ho => hk.fibers f x hx hE o (hdone ▸ ho))
      fun y hy o ho => by
        obtain rfl := Option.some.inj (hx.symm.trans hy)
        rw [hdone]
        exact ho
  have hnew : (w.fibers.set f x').get? f = some x' := Store.get?_set_of_some hx
  refine ⟨hw.sane, fun g t ht => huntold _ _ (hw.fresh g t fun y hy => ?_), fun g y t m hy hp => ?_,
    fun g y t m E hy hp hminds => huntold _ _ ?_⟩
  · by_cases hfg : f = g
    · subst hfg
      obtain rfl : x = y := Option.some.inj (hx.symm.trans hy)
      exact Nat.le_trans htoken (ht x' hnew)
    · exact ht y (by rw [Store.get?_set, if_neg hfg, hy])
  · rw [Store.get?_set] at hy
    split at hy
    · obtain ⟨_, -, rfl⟩ := Option.map_eq_some_iff.mp hy
      exact (hphase t m hp).1
    · exact hw.issued g y t m hy hp
  · rw [Store.get?_set] at hy
    split at hy
    · rename_i hfg
      subst hfg
      obtain ⟨_, -, rfl⟩ := Option.map_eq_some_iff.mp hy
      exact (hphase t m hp).2 E hminds
    · exact hw.waits g y t m E hy hp hminds

theorem attentive_park {w : World σ} {f : Key .fiber} {x y : Fiber σ} (m : Machine σ)
    (hw : w.Attentive) (hx : w.fibers.get? f = some x) (hdone : y.done = x.done)
    (htoken : y.nextToken = x.nextToken) : (w.park f y m).1.Attentive := by
  have hset : Attentive { w with fibers := w.fibers.set f (y.park m).1 } := by
    refine attentive_set_fiber hw hx hdone ?_ fun t m' hp => ?_
    · rw [← htoken]
      exact Nat.le_succ _
    · cases hp
      refine ⟨Nat.lt_succ_self _, fun E _ => (hw.fresh f _ fun z hz => ?_).weaken fun _ => False.elim⟩
      obtain rfl : x = z := Option.some.inj (hx.symm.trans hz)
      exact Nat.le_of_eq htoken.symm
  unfold park
  dsimp only
  split
  · exact attentive_queue hset fun g n p heq => by cases heq
  · exact hset

theorem attentive_running {w : World σ} (hw : w.Attentive) (f : Key .fiber) :
    (w.modifyFiber f fun fiber => { fiber with phase := .running }).Attentive := by
  cases hget : w.fibers.get? f with
  | none =>
      rw [modifyFiber, Store.modify_eq_self _ hget]
      exact hw
  | some x =>
      rw [modifyFiber, Store.modify_eq_set _ hget]
      exact attentive_set_fiber hw hget rfl (Nat.le_refl _) fun t m hp => by cases hp

theorem attentive_finishFiber {w : World σ} (hw : w.Attentive) (f : Key .fiber) (e : AnyExit) :
    (w.finishFiber f e).Attentive := by
  have hparts : (w.finishFiber f e).scopes = w.scopes ∧
      ∀ g y', (w.finishFiber f e).fibers.get? g = some y' → ∃ y, w.fibers.get? g = some y ∧
        y'.nextToken = y.nextToken ∧ (y'.phase = y.phase ∨ y'.phase = .done e) := by
    have hset : ∀ x x', w.fibers.get? f = some x → x'.nextToken = x.nextToken →
        x'.phase = .done e → ∀ g y', (w.fibers.set f x').get? g = some y' →
          ∃ y, w.fibers.get? g = some y ∧ y'.nextToken = y.nextToken ∧
            (y'.phase = y.phase ∨ y'.phase = .done e) := by
      intro x x' hx htoken hphase g y' hy'
      rw [Store.get?_set] at hy'
      split at hy'
      · rename_i hfg
        subst hfg
        obtain ⟨_, -, rfl⟩ := Option.map_eq_some_iff.mp hy'
        exact ⟨x, hx, htoken, Or.inr hphase⟩
      · exact ⟨y', hy', rfl, Or.inl rfl⟩
    unfold finishFiber
    cases hget : w.fibers.get? f with
    | none => exact ⟨rfl, fun g y' hy' => ⟨y', hy', rfl, Or.inl rfl⟩⟩
    | some x =>
        dsimp only
        split
        · rw [modifyFiber, Store.modify_eq_set _ hget]
          exact ⟨rfl, hset x _ hget rfl rfl⟩
        · rename_i cell watchers _
          rw [foldl_keeps World.scopes _ (fun w o => scopes_notifyDone f e w o),
            foldl_keeps World.fibers _ (fun w o => fibers_notifyDone f e w o), modifyFiber,
            Store.modify_eq_set _ hget]
          exact ⟨rfl, hset x _ hget rfl rfl⟩
  obtain ⟨hscopes, hfibers⟩ := hparts
  refine ⟨(Mutes.of_eq hscopes).sane hw.sane, fun g t ht => untold_finishFiber
    (hw.fresh g t fun y hy => ?_) f e, fun g y' t m hy' hp => ?_,
    fun g y' t m E hy' hp hminds => ?_⟩
  · obtain ⟨y', hy', -⟩ := (onward_finishFiber w f e).fibers g y hy
    obtain ⟨y₀, hy₀, htoken, -⟩ := hfibers g y' hy'
    obtain rfl : y₀ = y := Option.some.inj (hy₀.symm.trans hy)
    exact htoken ▸ ht y' hy'
  · obtain ⟨y, hy, htoken, hphase | hphase⟩ := hfibers g y' hy'
    · rw [htoken]
      exact hw.issued g y t m hy (hphase ▸ hp)
    · rw [hp] at hphase
      cases hphase
  · obtain ⟨y, hy, -, hphase | hphase⟩ := hfibers g y' hy'
    · exact untold_finishFiber (hw.waits g y t m E hy (hphase ▸ hp) hminds) f e
    · rw [hp] at hphase
      cases hphase

/-- A fiber that waits changes at most who watches the end of a fiber. -/
theorem fibers_subscribe {w : World σ} {k' : Wake} {a : Awaited} {g : Key .fiber} {y' : Fiber σ}
    (hy' : (w.subscribe k' a).fibers.get? g = some y') :
    ∃ y, w.fibers.get? g = some y ∧ y' = { y with done := y'.done } := by
  have hsame : (w.subscribe k' a).fibers = w.fibers →
      ∃ y, w.fibers.get? g = some y ∧ y' = { y with done := y'.done } :=
    fun heq => ⟨y', heq ▸ hy', rfl⟩
  cases a with
  | future f => exact hsame (parts_watchFuture w f _).1
  | done f =>
      simp only [subscribe, watchFiber] at hy' hsame
      cases hget : w.fibers.get? f with
      | none =>
          rw [hget] at hsame
          exact hsame rfl
      | some x =>
          rw [hget] at hy' hsame
          dsimp only at hy' hsame
          cases hdone : x.done with
          | settled outcome =>
              simp only [hdone, Cell.attach?] at hsame
              split at hsame
              · exact hsame rfl
              · exact hsame rfl
          | pending os next =>
              simp only [hdone, Cell.attach?, modifyFiber, Store.modify_eq_set _ hget] at hy'
              rw [Store.get?_set] at hy'
              split at hy'
              · rename_i hfg
                subst hfg
                obtain ⟨_, -, rfl⟩ := Option.map_eq_some_iff.mp hy'
                exact ⟨x, hget, rfl⟩
              · exact ⟨y', hy', rfl⟩
  | closed s =>
      simp only [subscribe] at hsame
      split at hsame
      · exact hsame rfl
      · exact hsame rfl
  | decided t =>
      simp only [subscribe] at hsame
      split at hsame
      · exact hsame rfl
      · exact hsame rfl

theorem sane_subscribe {w : World σ} (hw : w.Sane) (k' : Wake) (a : Awaited) :
    (w.subscribe k' a).Sane := by
  cases a with
  | future f => exact (Mutes.of_eq (parts_watchFuture w f _).2).sane hw
  | done f =>
      refine (Mutes.of_eq ?_).sane hw
      simp only [subscribe, watchFiber]
      split
      · rfl
      · split
        · rfl
        · split
          · rfl
          · rfl
  | closed s =>
      simp only [subscribe]
      cases hcell : (w.scope s).closed with
      | settled outcome => exact hw
      | pending os next =>
          simp only [Cell.attach?]
          intro t sc ht hsettled
          rw [Store.get?_set] at ht
          split at ht
          · obtain ⟨_, -, rfl⟩ := Option.map_eq_some_iff.mp ht
            cases hsettled
          · exact hw t sc ht hsettled
  | decided t =>
      refine (Mutes.of_eq ?_).sane hw
      simp only [subscribe]
      split
      · rfl
      · rfl

theorem attentive_subscribe {w : World σ} {f : Key .fiber} {x : Fiber σ} {t : Nat}
    {m : Machine σ} {a : Awaited} (hw : w.Attentive) (hx : w.fibers.get? f = some x)
    (hphase : x.phase = .suspended t m)
    (ha : ∀ E, m.control.Minds E → E a) :
    (w.subscribe ⟨f, t⟩ a).Attentive := by
  refine ⟨sane_subscribe hw.sane _ a, fun g n hn => ?_, fun g y n m' hy hp => ?_,
    fun g y n m' E hy hp hminds => ?_⟩
  · have hg : ∀ y, w.fibers.get? g = some y → y.nextToken ≤ n := by
      intro y hy
      have hgrows : Grows none w (w.subscribe ⟨f, t⟩ a) := grows_subscribe w ⟨f, t⟩ a
      obtain ⟨y', hy', hlater, -⟩ := hgrows.fibers g y hy
      exact Nat.le_trans (Fiber.Later.nextToken hlater) (hn y' hy')
    refine untold_subscribe (hw.fresh g n hg) (Or.inl fun heq => ?_)
    cases heq
    have hissued := hw.issued f x t m hx hphase
    have hle := hg x hx
    omega
  · obtain ⟨y₀, hy₀, heq⟩ := fibers_subscribe hy
    rw [heq] at hp ⊢
    exact hw.issued g y₀ n m' hy₀ hp
  · obtain ⟨y₀, hy₀, heq⟩ := fibers_subscribe hy
    have hp₀ : y₀.phase = .suspended n m' := by
      rw [heq] at hp
      exact hp
    refine untold_subscribe (hw.waits g y₀ n m' E hy₀ hp₀ hminds) ?_
    by_cases hk : (⟨g, n⟩ : Wake) = ⟨f, t⟩
    · cases hk
      obtain rfl : x = y₀ := Option.some.inj (hx.symm.trans hy₀)
      rw [hphase] at hp₀
      cases hp₀
      exact Or.inr (ha E hminds)
    · exact Or.inl hk

theorem decision_enter (f : Key .fiber) (m : Machine σ)
    (called : World σ × Except Defect (Program σ)) :
    (enter f m called).2.decision = .proceed := by
  rcases called with ⟨w, result⟩
  cases result with
  | ok p => rfl
  | error d => rfl

/-- An exit that goes down a stack ends in no wait. -/
theorem decision_unwind (f : Key .fiber) (exiting : Bool) (e : AnyExit) (stack : List (Waiting σ))
    (w : World σ) (a : Awaited) (release : Option Handle) :
    (unwind f exiting e stack w).2.decision ≠ .await a release := by
  have hend : ∀ (m : Machine σ) (x : AnyExit), (endWith m x).decision ≠ .await a release := by
    intro m x
    unfold endWith
    split
    · exact fun h => by cases h
    · exact fun h => by cases h
  have henter : ∀ m called, (enter (σ := σ) f m called).2.decision ≠ .await a release := by
    intro m called
    rw [decision_enter]
    exact fun h => by cases h
  induction stack generalizing w with
  | nil =>
      cases e with
      | success v => exact hend _ _
      | failure c => exact hend _ _
  | cons x rest ih =>
      cases e with
      | success v =>
          simp only [unwind] at ih ⊢
          cases x with
          | map k => exact henter _ _
          | fold h k => exact henter _ _
          | restore r =>
              simp only [unwindValue]
              split
              · exact fun h => by cases h
              · exact ih _
          | release h => exact ih _
          | finalizer ho fin =>
              simp only [unwindValue]
              split
              · exact henter _ _
              · exact ih _
          | resumeWith saved => exact fun h => by cases h
      | failure c =>
          simp only [unwind] at ih ⊢
          cases x with
          | map k => exact ih _
          | fold h k => exact henter _ _
          | restore r =>
              simp only [unwindFailure]
              split
              · exact fun h => by cases h
              · exact ih _
          | release h => exact ih _
          | finalizer ho fin =>
              simp only [unwindFailure]
              split
              · exact henter _ _
              · exact ih _
          | resumeWith saved => exact fun h => by cases h

/-- A step that ends in a wait leaves the machine at the instruction that waits. If it is one for a
callback, the future is new, and the registration has been run. -/
theorem step_await {w w' : World σ} {f : Key .fiber} {fiber : Fiber σ} {m m' : Machine σ}
    {a : Awaited} {release : Option Handle}
    (h : w.step f fiber m = (w', ⟨m', .await a release⟩)) :
    m' = m ∧ (m.control = .instruct (.wait a) ∧ w' = w.count f ∨
      ∃ reg, m.control = .instruct (.async reg) ∧ a = .future (w.count f).newFuture.2 ∧
        w'.futures = ((w.count f).newFuture.1.run (reg (w.count f).newFuture.2)).1.futures) := by
  have hdecision : (w.step f fiber m).2.decision = .await a release := by rw [h]
  have hmachine : (w.step f fiber m).2.machine = m' := by rw [h]
  have hworld : (w.step f fiber m).1 = w' := by rw [h]
  have henter : ∀ m called, (enter (σ := σ) f m called).2.decision ≠ .await a release := by
    intro m called
    rw [decision_enter]
    exact nofun
  -- of all steps only two give the decision to wait; the others proceed, yield or are done
  obtain ⟨control, stack, exiting⟩ := m
  cases control with
  | start p => cases hdecision
  | leave exit => cases hdecision
  | value v =>
      simp only [step] at hdecision
      split at hdecision
      · cases hdecision
      · exact absurd hdecision (decision_unwind f exiting (.success v) stack _ a release)
  | failure c =>
      simp only [step] at hdecision
      split at hdecision
      · cases hdecision
      · exact absurd hdecision (decision_unwind f exiting (.failure c) stack _ a release)
  | instruct p =>
      simp only [step] at hdecision hmachine hworld
      split at hdecision
      · cases hdecision
      · rename_i hbudget
        rw [if_neg hbudget] at hmachine hworld
        cases p with
        | succeed v => cases hdecision
        | failCause c => cases hdecision
        | lazy thunk =>
            simp only [instruct] at hdecision
            split at hdecision
            · cases hdecision
            · exact absurd hdecision (henter _ _)
        | defer make => exact absurd hdecision (henter _ _)
        | flatMap p k => cases hdecision
        | fold p h k => cases hdecision
        | access g => exact absurd hdecision (henter _ _)
        | provide p s => cases hdecision
        | async reg =>
            have hcalled : ∀ called : World σ × Except Defect (Registration σ),
                (w.count f).newFuture.1.run (reg (w.count f).newFuture.2) = called →
                w'.futures = called.1.futures →
                w'.futures = ((w.count f).newFuture.1.run (reg (w.count f).newFuture.2)).1.futures :=
              fun called heq hw' => by rw [heq, hw']
            simp only [instruct] at hdecision hmachine hworld
            split at hdecision
            · cases hdecision
            · rename_i heq
              rw [heq] at hmachine hworld
              cases hdecision
              exact ⟨hmachine.symm, Or.inr ⟨reg, rfl, rfl, hcalled _ heq (by rw [← hworld])⟩⟩
            · rename_i w₁ canceler heq
              rw [heq] at hmachine hworld
              cases hdecision
              refine ⟨hmachine.symm, Or.inr ⟨reg, rfl, rfl, hcalled _ heq ?_⟩⟩
              rw [← hworld]
              exact (parts_register w₁ fiber.scope (.canceler canceler)).1
            · exact absurd hdecision (henter _ _)
        | ensuring p fin => cases hdecision
        | fork p params =>
            simp only [instruct] at hdecision
            split at hdecision
            · cases hdecision
            · exact absurd hdecision (henter _ _)
        | fiberContext => cases hdecision
        | fiberScope => cases hdecision
        | fiberTrace => cases hdecision
        | join child => cases hdecision
        | raceAll ps =>
            cases ps with
            | nil => cases hdecision
            | cons p rest => exact absurd hdecision (henter _ _)
        | zipAll ps =>
            cases ps with
            | nil => cases hdecision
            | cons p rest => exact absurd hdecision (henter _ _)
        | mask p interruptible => cases hdecision
        | withConcurrency p level => cases hdecision
        | addFrame p frame => cases hdecision
        | wait b =>
            cases hdecision
            exact ⟨hmachine.symm, Or.inl ⟨rfl, hworld.symm⟩⟩
        | yieldNow => cases hdecision
        | duty d => exact absurd hdecision (henter _ _)

/-- The end of a step keeps the fibers attentive. -/
theorem attentive_conclude {f : Key .fiber} {stepped : World σ × Stepped σ}
    (hw : stepped.1.Attentive) (hcontrol : ∀ a release, stepped.2.decision = .await a release →
      stepped.2.machine.control = .instruct (.wait a) ∨
        ∃ reg, stepped.2.machine.control = .instruct (.async reg)) :
    (conclude f stepped).world.Attentive := by
  obtain ⟨w, m, d⟩ := stepped
  cases d with
  | proceed => exact hw
  | yield =>
      simp only [conclude]
      cases hget : w.fibers.get? f with
      | none => exact hw
      | some x => exact attentive_queue (attentive_park m hw hget rfl rfl) fun g n p heq => by cases heq
  | await a release =>
      simp only [conclude]
      cases hget : w.fibers.get? f with
      | none => exact hw
      | some x =>
          dsimp only
          have hpark := attentive_park (y := { x with ops := 0 }) (m.holding release) hw hget rfl rfl
          split
          · rw [snd_park]
            refine attentive_subscribe hpark (get?_park _ _ hget) rfl fun E hminds => ?_
            have hholding : (m.holding release).control = m.control := by cases release <;> rfl
            rw [hholding] at hminds
            rcases hcontrol a release rfl with hwait | ⟨reg, hasync⟩
            · rw [show m.control = _ from hwait] at hminds
              exact hminds
            · rw [show m.control = _ from hasync] at hminds
              exact hminds.elim
          · exact attentive_running hpark f
  | done e => exact attentive_finishFiber hw f e

theorem attentive_awaken {w : World σ} (hw : w.Attentive) (f : Key .fiber) (token : Nat)
    (r : Resume σ) : (w.awaken f token r).world.Attentive := by
  rcases awaken_cases w f token r with heq | ⟨y, m, c, hy, -, -, -, heq⟩
  · rw [heq]
    exact hw
  · rw [heq]
    exact attentive_set_fiber hw hy rfl (Nat.le_refl _) fun t m hp => by cases hp

end World

variable {σ : Type}

/-- Every move keeps the fibers attentive. -/
theorem Move.attentive {x x' : Moment σ} (h : Move x x') (hx : x.Lawful)
    (hw : x.world.Attentive) : x'.world.Attentive := by
  obtain ⟨w, active⟩ := x
  cases active with
  | some fm =>
      obtain ⟨f, m⟩ := fm
      cases h with
      | advance =>
          unfold World.advance
          cases hget : w.fibers.get? f with
          | none => exact hw
          | some fiber =>
              refine World.attentive_conclude ((World.step_changes hx fiber).attentive hw)
                fun a release hd => ?_
              have hawait : w.step f fiber (m.heed fiber) =
                  ((w.step f fiber (m.heed fiber)).1,
                    ⟨(w.step f fiber (m.heed fiber)).2.machine, .await a release⟩) := by rw [← hd]
              obtain ⟨heq, hcontrol⟩ := World.step_await hawait
              rw [heq]
              rcases hcontrol with ⟨hwait, -⟩ | ⟨reg, hasync, -⟩
              · exact Or.inl hwait
              · exact Or.inr ⟨reg, hasync⟩
  | none =>
      obtain ⟨timers, hlive, ⟨f, token, r, -, rfl⟩ | ⟨w', rfl, hchanges⟩⟩ := World.quiet_cases h
      · exact World.attentive_awaken (World.attentive_timers hw hlive) f token r
      · exact (hchanges _ trivial hx.licensed.world).attentive (World.attentive_timers hw hlive)

/-- In every moment of a run the fibers are attentive. -/
theorem Run.attentive (r : Run σ) (k : Nat) : (r.moment k).world.Attentive := by
  induction k with
  | zero =>
      rw [r.start]
      refine ⟨(fun s sc hs => by cases hs), fun f t _ => ⟨⟨?_, ?_⟩, ?_, ?_, ?_⟩,
        (fun f x t m hx => by cases hx), fun f x t m E hx => by cases hx⟩
      · intro x cell hx
        cases hx
      · intro x tally hx
        cases hx
      · intro f x hx
        cases hx
      · intro s sc hs
        cases hs
      · rintro p ⟨t, ht, -⟩
        cases ht
  | succ k ih => exact (r.move k).attentive (r.lawful k) ih

/-- A fiber that waits for nothing is resumed where it was. -/
theorem Moment.Resumes.proceed {x x' : Moment σ} {f : Key .fiber} {y : Fiber σ}
    (h : x.Resumes x' f y) (hw : x.world.Attentive) (hy : x.world.fibers.get? f = some y)
    {m : Machine σ} (hm : y.phase.machine? = some m)
    (hminds : m.control.Minds fun _ => False) : x'.active = some (f, m) := by
  obtain ⟨t, m', c, hphase, hc, hactive⟩ := h
  rw [hphase] at hm
  obtain rfl : m' = m := Option.some.inj hm
  rcases hc with rfl | ⟨p, hqueued, -⟩
  · exact hactive
  · obtain ⟨s, hs, -⟩ := (hw.waits f y t m' _ hy hphase hminds).queue p hqueued
    exact hs.elim

end Fibers
