import Fibers.Proofs.Run.Licence
import Fibers.Proofs.Semaphores.Balance
import Fibers.Proofs.Timers.Numbers
import Fibers.Proofs.World.Frame

set_option autoImplicit false

/-! # Changes outside fibers and scopes

Most operations of a world reach neither fibers nor scopes: they settle futures, decide contests,
set timers, write the board. For what happens to fibers and scopes all of them are one thing, a
change `Elsewhere`. It brings in no text that a licence does not allow, and it resumes no fiber
that does not wait for a future or a decision.
-/

namespace Fibers

variable {σ : Type}

/-- Whether a watcher reports the end of a fiber to the contest `t`. -/
def DoneWatcher.reportsTo (t : Key .tally) : DoneWatcher σ → Bool
  | .racer u _ => decide (u = t)
  | .member u _ => decide (u = t)
  | _ => false

/-- The watchers that report the end of a fiber to the contest `t`. -/
def Fiber.reports (x : Fiber σ) (t : Key .tally) : List (DoneWatcher σ) :=
  (x.done.observers.map (·.2)).filter (·.reportsTo t)

namespace World

/-! ## The relation -/

/-- No future has an observer that resumes the fiber of `k` under its token, and no tally, but those
of `E`. -/
structure Unobserved (E : Awaited → Prop) (w : World σ) (k : Wake) : Prop where
  futures : ∀ x cell, w.futures.get? x = some cell → ¬ E (.future x) →
    ∀ o ∈ cell.observers, o.2 ≠ .wake k
  tallies : ∀ t tally, w.tallies.get? t = some tally → ¬ E (.decided t) →
    ∀ o ∈ tally.decided.observers, o.2 ≠ k

/-- The program that tells those who wait how the tally was decided. -/
def Announces (w : World σ) (t : Key .tally) (p : Program σ) : Prop :=
  ∃ tally r, w.tallies.get? t = some tally ∧ tally.decided = .settled (.resolved r) ∧
    p = .succeed (.decided r)

/-- The program that a fiber goes on with when the scope it waited for has published its exit, the
fiber it waited for is done, the tally is decided, or the future has settled. -/
def Tells (w : World σ) (a : Awaited) (p : Program σ) : Prop :=
  match a with
  | .closed s =>
      ∃ sc e, w.scopes.get? s = some sc ∧ sc.closed = .settled (.resolved e) ∧ p = .succeed (.exit e)
  | .done f =>
      ∃ x e, w.fibers.get? f = some x ∧ x.exit? = some e ∧ p = .succeed (.exit e)
  | .decided t => w.Announces t p
  | .future f =>
      ∃ settled, w.futures.get? f = some (.settled settled) ∧ p = settledProgram settled

/-- A future that is there stays there. -/
def KeepsFutures (w w' : World σ) : Prop :=
  ∀ f, (w.futures.get? f).isSome = true → (w'.futures.get? f).isSome = true

/-- A future that has settled stays so. -/
def KeepsSettled (w w' : World σ) : Prop :=
  ∀ f settled, w.futures.get? f = some (.settled settled) →
    w'.futures.get? f = some (.settled settled)

/-- A tally that is decided stays so. -/
def KeepsDecisions (w w' : World σ) : Prop :=
  ∀ t tally o, w.tallies.get? t = some tally → tally.decided = .settled o →
    ∃ tally', w'.tallies.get? t = some tally' ∧ tally'.decided = .settled o

/-- The tally `t` stays as it is, but for who waits for its decision. -/
def KeepsTally (t : Key .tally) (w w' : World σ) : Prop :=
  ∀ tally, w.tallies.get? t = some tally → ∃ tally', w'.tallies.get? t = some tally' ∧
    tally'.decided.outcome? = tally.decided.outcome? ∧ tally'.remaining = tally.remaining

/-- A task in the queue resumes the fiber of `k` under its token. -/
def Queued (w : World σ) (k : Wake) (r : Resume σ) : Prop :=
  ∃ t ∈ w.timers.live, t.task = .resume k.fiber k.token r

/-- The fiber of `k` will be resumed under its token when what it waits for has happened. -/
def Observed (w : World σ) (k : Wake) : Awaited → Prop
  | .future f => ∃ cell, w.futures.get? f = some cell ∧ ∃ o ∈ cell.observers, o.2 = .wake k
  | .done f => ∃ x, w.fibers.get? f = some x ∧ ∃ o ∈ x.done.observers, o.2 = .wake k
  | .closed s => ∃ sc, w.scopes.get? s = some sc ∧ ∃ o ∈ sc.closed.observers, o.2 = k
  | .decided t => ∃ tally, w.tallies.get? t = some tally ∧ ∃ o ∈ tally.decided.observers, o.2 = k

/-- A task in the queue lets the fiber of `k` go on. -/
def Woken (w : World σ) (k : Wake) : Prop := w.Queued k .proceed ∨ ∃ p, w.Queued k (.program p)

/-- A change after which the resumptions in the queue are still there. It forgets nobody who is to be
resumed: he still is, or his resumption is in the queue. A licence to forget is about those who wait
for a future. -/
structure Tends (L : Licence) (w w' : World σ) : Prop where
  queued : ∀ k r, w.Queued k r → w'.Queued k r
  observed : ∀ k a, (L.forget → ∀ f, a ≠ .future f) → w.Observed k a → w'.Observed k a ∨ w'.Woken k

/-- A change that reaches neither fibers nor scopes. It keeps to the licence, wakes nobody who is not
observed, and those who are only with a program, and tends those who wait. The permits of the semaphores
stay as many as they were, and the queue goes on. -/
structure Elsewhere (L : Licence) (w w' : World σ) : Prop where
  fibers : w'.fibers = w.fibers
  scopes : w'.scopes = w.scopes
  licensed : w.Licensed L → w'.Licensed L
  unobserved : ∀ E k, w.Unobserved E k → w'.Unobserved E k
  quiet : ∀ E k r, w.Unobserved E k → w'.Queued k r →
    w.Queued k r ∨ ∃ a p, E a ∧ w'.Tells a p ∧ r = .program p
  programs : ∀ k r, w'.Queued k r → w.Queued k r ∨ ∃ p, r = .program p
  tends : Tends L w w'
  permits : Permits w w'
  decisions : KeepsDecisions w w'
  settled : KeepsSettled w w'
  timers : w.timers.Onward Task.isOwn w'.timers
  there : KeepsFutures w w'

variable {L : Licence}

theorem KeepsFutures.of_eq {w w' : World σ} (h : w'.futures = w.futures) : KeepsFutures w w' :=
  fun _ hf => h ▸ hf

theorem KeepsFutures.trans {w₁ w₂ w₃ : World σ} (h : KeepsFutures w₁ w₂) (h' : KeepsFutures w₂ w₃) :
    KeepsFutures w₁ w₃ := fun f hf => h' f (h f hf)

theorem KeepsDecisions.of_eq {w w' : World σ} (h : w'.tallies = w.tallies) : KeepsDecisions w w' :=
  fun _ tally _ ht ho => ⟨tally, h ▸ ht, ho⟩

theorem KeepsSettled.of_eq {w w' : World σ} (h : w'.futures = w.futures) : KeepsSettled w w' :=
  fun _ _ hf => h ▸ hf

theorem KeepsSettled.trans {w₁ w₂ w₃ : World σ} (h : KeepsSettled w₁ w₂) (h' : KeepsSettled w₂ w₃) :
    KeepsSettled w₁ w₃ := fun f settled hf => h' f settled (h f settled hf)

theorem KeepsDecisions.trans {w₁ w₂ w₃ : World σ} (h : KeepsDecisions w₁ w₂)
    (h' : KeepsDecisions w₂ w₃) : KeepsDecisions w₁ w₃ := by
  intro t tally o ht ho
  obtain ⟨tally', ht', ho'⟩ := h t tally o ht ho
  exact h' t tally' o ht' ho'

theorem KeepsTally.of_get {w w' : World σ} {t : Key .tally}
    (h : w'.tallies.get? t = w.tallies.get? t) : KeepsTally t w w' :=
  fun tally ht => ⟨tally, h.trans ht, rfl, rfl⟩

theorem KeepsTally.of_eq {w w' : World σ} {t : Key .tally} (h : w'.tallies = w.tallies) :
    KeepsTally t w w' := .of_get (by rw [h])

theorem KeepsTally.trans {w₁ w₂ w₃ : World σ} {t : Key .tally} (h : KeepsTally t w₁ w₂)
    (h' : KeepsTally t w₂ w₃) : KeepsTally t w₁ w₃ := by
  intro tally ht
  obtain ⟨tally', ht', houtcome, hremaining⟩ := h tally ht
  obtain ⟨tally'', ht'', houtcome', hremaining'⟩ := h' tally' ht'
  exact ⟨tally'', ht'', houtcome'.trans houtcome, hremaining'.trans hremaining⟩

theorem Announces.keeps {w w' : World σ} {t : Key .tally} {p : Program σ} (h : KeepsDecisions w w')
    (hv : w.Announces t p) : w'.Announces t p := by
  obtain ⟨tally, r, ht, ho, hp⟩ := hv
  obtain ⟨tally', ht', ho'⟩ := h t tally _ ht ho
  exact ⟨tally', r, ht', ho', hp⟩

/-- What is told stays so where fibers and scopes stay as they are, and so does what has settled. -/
theorem Tells.of_eq {w w' : World σ} {a : Awaited} {p : Program σ} (hfibers : w'.fibers = w.fibers)
    (hscopes : w'.scopes = w.scopes) (hdecisions : KeepsDecisions w w') (hsettled : KeepsSettled w w')
    (h : w.Tells a p) : w'.Tells a p := by
  cases a with
  | closed s => simpa only [Tells, hscopes] using h
  | done f => simpa only [Tells, hfibers] using h
  | decided t => exact Announces.keeps hdecisions h
  | future f =>
      obtain ⟨settled, hf, hp⟩ := h
      exact ⟨settled, hsettled f settled hf, hp⟩

theorem Tends.refl (w : World σ) : Tends L w w := ⟨fun _ _ h => h, fun _ _ _ h => Or.inl h⟩

theorem Woken.tends {w w' : World σ} {k : Wake} (h : Tends L w w') (hk : w.Woken k) : w'.Woken k :=
  hk.imp (h.queued k _) fun ⟨p, hp⟩ => ⟨p, h.queued k _ hp⟩

theorem Tends.trans {w₁ w₂ w₃ : World σ} (h : Tends L w₁ w₂) (h' : Tends L w₂ w₃) :
    Tends L w₁ w₃ := by
  refine ⟨fun k r hk => h'.queued k r (h.queued k r hk), fun k a ha hk => ?_⟩
  rcases h.observed k a ha hk with hk | hk
  · exact h'.observed k a ha hk
  · exact Or.inr (hk.tends h')

/-- A fold of changes that forget nobody. -/
theorem Tends.foldl {α : Type} {g : World σ → α → World σ} (h : ∀ w a, Tends L w (g w a))
    (as : List α) (w : World σ) : Tends L w (as.foldl g w) := by
  induction as generalizing w with
  | nil => exact .refl w
  | cons a rest ih => exact (h w a).trans (ih (g w a))

/-- Where nobody waits in other places, and the queue does not shrink, nobody is forgotten. -/
theorem Tends.of_eq {w w' : World σ} (fibers : w'.fibers = w.fibers) (scopes : w'.scopes = w.scopes)
    (futures : w'.futures = w.futures) (tallies : w'.tallies = w.tallies)
    (queued : ∀ k r, w.Queued k r → w'.Queued k r) : Tends L w w' := by
  refine ⟨queued, fun k a _ hk => Or.inl ?_⟩
  cases a with
  | future f => rwa [Observed, futures]
  | done f => rwa [Observed, fibers]
  | closed s => rwa [Observed, scopes]
  | decided t => rwa [Observed, tallies]

theorem Elsewhere.refl (w : World σ) : Elsewhere L w w :=
  ⟨rfl, rfl, id, fun _ _ => id, fun _ _ _ _ => Or.inl, fun _ _ => Or.inl, .refl w, .refl w,
    .of_eq rfl, .of_eq rfl, .refl _, .of_eq rfl⟩

theorem Elsewhere.trans {w₁ w₂ w₃ : World σ} (h : Elsewhere L w₁ w₂) (h' : Elsewhere L w₂ w₃) :
    Elsewhere L w₁ w₃ where
  fibers := h'.fibers.trans h.fibers
  scopes := h'.scopes.trans h.scopes
  licensed := fun hw => h'.licensed (h.licensed hw)
  unobserved := fun E k hk => h'.unobserved E k (h.unobserved E k hk)
  quiet := fun E k r hk hq => by
    rcases h'.quiet E k r (h.unobserved E k hk) hq with hq | hq
    · exact (h.quiet E k r hk hq).imp_right fun ⟨a, p, ha, htells, hr⟩ =>
        ⟨a, p, ha, htells.of_eq h'.fibers h'.scopes h'.decisions h'.settled, hr⟩
    · exact Or.inr hq
  programs := fun k r hq => (h'.programs k r hq).elim (h.programs k r) Or.inr
  tends := h.tends.trans h'.tends
  permits := h.permits.trans h'.permits
  decisions := h.decisions.trans h'.decisions
  settled := h.settled.trans h'.settled
  timers := h.timers.trans h'.timers
  there := h.there.trans h'.there

/-- A fold of changes elsewhere is one. -/
theorem Elsewhere.foldl {α : Type} {g : World σ → α → World σ} {as : List α}
    (h : ∀ w, ∀ a ∈ as, Elsewhere L w (g w a)) (w : World σ) :
    Elsewhere L w (as.foldl g w) := by
  induction as generalizing w with
  | nil => exact .refl w
  | cons a rest ih =>
      exact (h w a List.mem_cons_self).trans
        (ih (fun w a ha => h w a (List.mem_cons_of_mem _ ha)) (g w a))

/-- A change of the parts that hold neither texts nor observers, which may be one of semaphores. -/
theorem Elsewhere.of_eq {w w' : World σ} (fibers : w'.fibers = w.fibers)
    (scopes : w'.scopes = w.scopes) (futures : w'.futures = w.futures)
    (tallies : w'.tallies = w.tallies) (timers : w'.timers = w.timers)
    (errands : w'.errands = w.errands) (permits : Permits w w') :
    Elsewhere L w w' where
  fibers := fibers
  scopes := scopes
  licensed := fun h => ⟨by rw [fibers]; exact h.machines, by rw [scopes]; exact h.finalizers,
    by rw [scopes]; exact h.parents,
    by rw [futures]; exact h.futures, by rw [timers]; exact h.tasks,
    by rw [errands]; exact h.errands⟩
  unobserved := fun E k h => ⟨by rw [futures]; exact h.futures, by rw [tallies]; exact h.tallies⟩
  quiet := fun E k r _ h => Or.inl (by rw [Queued, ← timers]; exact h)
  programs := fun k r h => Or.inl (by rw [Queued, ← timers]; exact h)
  tends := .of_eq fibers scopes futures tallies fun k r h => by rw [Queued, timers]; exact h
  permits := permits
  decisions := .of_eq tallies
  settled := .of_eq futures
  timers := by rw [timers]; exact .refl _
  there := .of_eq futures

/-- Another task in the queue. -/
theorem tends_set (w : World σ) (delay : Duration) (task : Task σ) :
    Tends L w { w with timers := (w.timers.set delay task).1 } :=
  .of_eq rfl rfl rfl rfl fun _ _ ⟨t, ht, heq⟩ => ⟨t, Timers.mem_insert.mpr (Or.inr ht), heq⟩

theorem tends_queue (w : World σ) (t : Task σ) : Tends L w (w.queue t) := tends_set w 0 t

theorem queued_self (w : World σ) (k : Wake) (r : Resume σ) :
    (w.queue (.resume k.fiber k.token r)).Queued k r :=
  ⟨_, Timers.mem_insert.mpr (Or.inl rfl), rfl⟩

theorem woken_wake (w : World σ) (k : Wake) (p : Program σ) : (w.wake k p).Woken k :=
  Or.inr ⟨p, queued_self w k _⟩

/-- A task of the program's resumes nobody. -/
theorem queued_own {w : World σ} {delay : Duration} {task : Task σ} (hown : task.isOwn = true)
    {k : Wake} {r : Resume σ} (h : World.Queued { w with timers := (w.timers.set delay task).1 } k r) :
    w.Queued k r := by
  obtain ⟨t, ht, heq⟩ := h
  rcases Timers.mem_insert.mp ht with rfl | ht
  · rw [show task = .resume k.fiber k.token r from heq] at hown
    cases hown
  · exact ⟨t, ht, heq⟩

/-- A task of the program's. -/
theorem elsewhere_set {w : World σ} {delay : Duration} {task : Task σ} (htask : task.Licensed L)
    (hown : task.isOwn = true) :
    Elsewhere L w { w with timers := (w.timers.set delay task).1 } where
  fibers := rfl
  scopes := rfl
  licensed := fun h => by
    refine ⟨h.machines, h.finalizers, h.parents, h.futures, fun t ht => ?_, h.errands⟩
    rcases Timers.mem_insert.mp ht with rfl | ht
    · exact htask
    · exact h.tasks t ht
  unobserved := fun E k h => ⟨h.futures, h.tallies⟩
  quiet := fun E k r _ h => Or.inl (queued_own hown h)
  programs := fun k r h => Or.inl (queued_own hown h)
  tends := tends_set w delay task
  permits := .of_eq rfl
  decisions := .of_eq rfl
  settled := .of_eq rfl
  timers := Timers.onward_set fun h => by rw [hown] at h; cases h
  there := .of_eq rfl

/-! ## Futures -/

/-- Nothing is lost of a store of futures in which one is changed. -/
theorem keepsFutures_set {w w' : World σ} {f : Key .future} {cell : Cell (Program σ) (FutureWatcher σ)}
    (h : w'.futures = w.futures.set f cell) : KeepsFutures w w' := by
  intro g hg
  rw [h, Store.get?_set]
  split
  · rwa [Option.isSome_map]
  · exact hg

/-- Where only futures change, it is enough to look at these. -/
theorem Tends.of_futures {w : World σ} {futures : Store .future (Cell (Program σ) (FutureWatcher σ))}
    (h : ∀ k f, w.Observed k (.future f) →
      World.Observed { w with futures } k (.future f) ∨ w.Woken k) :
    Tends L w { w with futures } := by
  refine ⟨fun k r hk => hk, fun k a _ hk => ?_⟩
  cases a with
  | future f => exact h k f hk
  | done f => exact Or.inl hk
  | closed s => exact Or.inl hk
  | decided t => exact Or.inl hk

/-- Where only futures change, under a licence to forget, nobody else is forgotten. -/
theorem Tends.of_forget {w : World σ} {futures : Store .future (Cell (Program σ) (FutureWatcher σ))}
    (hL : L.forget) : Tends L w { w with futures } := by
  refine ⟨fun k r hk => hk, fun k a ha hk => Or.inl ?_⟩
  cases a with
  | future f => exact absurd rfl (ha hL f)
  | done f => exact hk
  | closed s => exact hk
  | decided t => exact hk

/-- A future whose observers stay, or are joined by others. -/
theorem tends_set_future {w : World σ} {f : Key .future} {cell : Cell (Program σ) (FutureWatcher σ)}
    (h : ∀ o ∈ (w.future f).observers, o ∈ cell.observers) :
    Tends L w { w with futures := w.futures.set f cell } := by
  refine .of_futures fun k g ⟨c, hc, o, ho, hok⟩ => Or.inl ?_
  by_cases hfg : f = g
  · subst hfg
    rw [World.future, hc] at h
    exact ⟨cell, Store.get?_set_of_some hc, o, h o ho, hok⟩
  · exact ⟨c, by rw [Store.get?_set, if_neg hfg, hc], o, ho, hok⟩

theorem elsewhere_newFuture (w : World σ) : Elsewhere L w w.newFuture.1 where
  fibers := rfl
  scopes := rfl
  licensed := fun h => by
    refine ⟨h.machines, h.finalizers, h.parents, fun f c hf p hp => ?_, h.tasks, h.errands⟩
    simp only [newFuture, Store.get?_add] at hf
    split at hf
    · cases hf
      cases hp
    · exact h.futures f c hf p hp
  unobserved := fun E k h => by
    refine ⟨fun x c hx hE o ho => ?_, h.tallies⟩
    simp only [newFuture, Store.get?_add] at hx
    split at hx
    · cases hx
      cases ho
    · exact h.futures x c hx hE o ho
  quiet := fun E k r _ h => Or.inl h
  programs := fun k r h => Or.inl h
  tends := .of_futures fun k f ⟨cell, hcell, ho⟩ =>
    Or.inl ⟨cell, Store.get?_add_of_some _ hcell, ho⟩
  permits := .of_eq rfl
  decisions := .of_eq rfl
  settled := fun f settled hf => Store.get?_add_of_some _ hf
  timers := .refl _
  there := fun f hf => by
    obtain ⟨cell, hcell⟩ := Option.isSome_iff_exists.mp hf
    exact Option.isSome_of_eq_some (Store.get?_add_of_some _ hcell)

theorem queued_queue {w : World σ} {t : Task σ} {k : Wake} {r : Resume σ}
    (h : (w.queue t).Queued k r) : w.Queued k r ∨ t = .resume k.fiber k.token r := by
  obtain ⟨u, hu, heq⟩ := h
  rcases Timers.mem_insert.mp hu with rfl | hu
  · exact Or.inr heq
  · exact Or.inl ⟨u, hu, heq⟩

theorem queued_wake {w : World σ} {k k' : Wake} {p : Program σ} {r : Resume σ}
    (h : (w.wake k' p).Queued k r) : w.Queued k r ∨ k = k' ∧ r = .program p := by
  rcases queued_queue h with h | heq
  · exact Or.inl h
  · right
    obtain ⟨f, t⟩ := k
    obtain ⟨f', t'⟩ := k'
    simp only [Task.resume.injEq] at heq
    rw [heq.1, heq.2.1, heq.2.2]
    exact ⟨rfl, rfl⟩

/-- A task that comes into the queue by itself is due at once. -/
theorem onward_queue (w : World σ) (t : Task σ) :
    w.timers.Onward Task.isOwn (w.queue t).timers := Timers.onward_set fun _ => rfl

theorem onward_foldl {α : Type} {g : World σ → α → World σ}
    (h : ∀ (w : World σ) a, w.timers.Onward Task.isOwn (g w a).timers) (as : List α) (w : World σ) :
    w.timers.Onward Task.isOwn (as.foldl g w).timers := by
  induction as generalizing w with
  | nil => exact .refl _
  | cons a rest ih => exact (h w a).trans (ih (g w a))

theorem licensed_queue {w : World σ} {t : Task σ} (h : w.Licensed L) (ht : t.Licensed L) :
    (w.queue t).Licensed L := by
  refine ⟨h.machines, h.finalizers, h.parents, h.futures, fun u hu => ?_, h.errands⟩
  rcases Timers.mem_insert.mp hu with rfl | hu
  · exact ht
  · exact h.tasks u hu

/-- The outcome of a future keeps to a licence. -/
def SettledLicensed (L : Licence) : Settled (Program σ) → Prop
  | .resolved p => p.Licensed L
  | .interrupted _ => True

theorem SettledLicensed.program {settled : Settled (Program σ)} (h : SettledLicensed L settled) :
    (settledProgram settled).Licensed L := by
  cases settled with
  | resolved p => exact h
  | interrupted id => exact .failCause

/-- Serving the observers of a future queues a task for each that waits, and writes the board. -/
theorem serve_futures (settled : Settled (Program σ)) (os : List (FutureWatcher σ)) (w : World σ) :
    let w' := os.foldl (notifyFuture settled) w
    w'.fibers = w.fibers ∧ w'.scopes = w.scopes ∧ w'.futures = w.futures ∧
      w'.tallies = w.tallies ∧ (SettledLicensed L settled → w.Licensed L → w'.Licensed L) ∧
      (∀ k r, w'.Queued k r →
        w.Queued k r ∨ .wake k ∈ os ∧ r = .program (settledProgram settled)) ∧ Tends L w w' ∧
      ∀ k, .wake k ∈ os → w'.Woken k := by
  induction os generalizing w with
  | nil => exact ⟨rfl, rfl, rfl, rfl, fun _ => id, fun k r h => Or.inl h, .refl w, fun k h => by cases h⟩
  | cons o rest ih =>
      obtain ⟨hf, hs, hx, ht, hl, hq, htends, hwoken⟩ := ih (notifyFuture settled w o)
      cases o with
      | wake k' =>
          refine ⟨hf, hs, hx, ht, fun hlicensed h => hl hlicensed (licensed_queue h hlicensed.program),
            fun k r h => ?_,
            (tends_queue (L := L) w _).trans htends, fun k hk => ?_⟩
          · rcases hq k r h with h | ⟨h, hp⟩
            · rcases queued_wake h with h | ⟨rfl, rfl⟩
              · exact Or.inl h
              · exact Or.inr ⟨List.mem_cons_self, rfl⟩
            · exact Or.inr ⟨List.mem_cons_of_mem _ h, hp⟩
          · rcases List.mem_cons.mp hk with heq | hk
            · cases heq
              exact (woken_wake w _ _).tends htends
            · exact hwoken k hk
      | react r =>
          have hboard : Tends L w (notifyFuture settled w (.react r)) :=
            .of_eq rfl rfl rfl rfl fun _ _ h => h
          refine ⟨hf, hs, hx, ht, fun hlicensed h => hl hlicensed ⟨h.machines, h.finalizers, h.parents,
            h.futures, h.tasks, h.errands⟩, fun k r' h => ?_, hboard.trans htends, fun k hk => ?_⟩
          · rcases hq k r' h with h | ⟨h, hp⟩
            · exact Or.inl h
            · exact Or.inr ⟨List.mem_cons_of_mem _ h, hp⟩
          · rcases List.mem_cons.mp hk with heq | hk
            · cases heq
            · exact hwoken k hk

/-- Where only a future that is pending changes, what has settled stays so. -/
theorem settled_set {w w' : World σ} {f : Key .future} {cell : Cell (Program σ) (FutureWatcher σ)}
    (hf : (w.future f).isPending = true) (hw' : w'.futures = w.futures.set f cell) :
    KeepsSettled w w' := by
  intro g settled hg
  rw [hw', Store.get?_set]
  split
  · rename_i hfg
    subst hfg
    rw [World.future, hg] at hf
    cases hf
  · exact hg

theorem onward_notifyFuture (settled : Settled (Program σ)) (w : World σ) (o : FutureWatcher σ) :
    w.timers.Onward Task.isOwn (notifyFuture settled w o).timers := by
  cases o with
  | wake k => exact onward_queue w _
  | react r => exact .refl _

/-- Whoever waits for a future is resumed when it settles, and nobody else is forgotten. -/
theorem tends_settle (w : World σ) (f : Key .future) (settled : Settled (Program σ)) :
    Tends L w (w.settle f settled).1 := by
  unfold settle
  cases hcell : w.future f with
  | settled outcome => exact .refl w
  | pending os next =>
      simp only [Cell.settle?]
      set w₁ : World σ := { w with futures := w.futures.set f (.settled settled) } with hw₁
      obtain ⟨-, -, -, -, -, -, htends, hwoken⟩ := serve_futures (L := L) settled (os.map (·.2)) w₁
      refine ⟨fun k r hk => htends.queued k r hk, fun k a ha hk => ?_⟩
      by_cases haf : a = .future f
      · subst haf
        obtain ⟨c, hc, o, ho, hok⟩ := hk
        rw [World.future, hc] at hcell
        rw [show c = .pending os next from hcell] at ho
        exact Or.inr (hwoken k (List.mem_map.mpr ⟨o, ho, hok⟩))
      · refine htends.observed k a ha ?_
        cases a with
        | future g =>
            obtain ⟨c, hc, hob⟩ := hk
            exact ⟨c, by rw [hw₁, Store.get?_set, if_neg fun h => haf (by rw [h]), hc], hob⟩
        | done g => exact hk
        | closed s => exact hk
        | decided t => exact hk

/-- Settling a future reaches only futures, tasks and the board. -/
theorem elsewhere_settle (w : World σ) (f : Key .future) {settled : Settled (Program σ)}
    (hlicensed : SettledLicensed L settled) : Elsewhere L w (w.settle f settled).1 := by
  have htends : Tends L w (w.settle f settled).1 := tends_settle w f settled
  unfold settle at htends ⊢
  cases hcell : w.future f with
  | settled outcome => exact .refl w
  | pending os next =>
      simp only [hcell, Cell.settle?] at htends ⊢
      set w₁ : World σ := { w with futures := w.futures.set f (.settled settled) } with hw₁
      obtain ⟨hf, hs, hx, ht, hl, hq, -, -⟩ := serve_futures (L := L) settled (os.map (·.2)) w₁
      -- a key that leads nowhere has a pending cell without observers
      have hos : ∀ o ∈ os, w.futures.get? f = some (.pending os next) := by
        intro o ho
        unfold World.future at hcell
        cases hget : w.futures.get? f with
        | none =>
            rw [hget] at hcell
            cases hcell
            cases ho
        | some cell =>
            rw [hget] at hcell
            rw [← hcell]
            rfl
      refine ⟨hf, hs, fun h => hl hlicensed ⟨h.machines, h.finalizers, h.parents, ?_, h.tasks, h.errands⟩,
        ?_, ?_, fun k r hqueued => (hq k r hqueued).imp_right fun h => ⟨_, h.2⟩, htends,
        .of_eq (foldl_keeps World.semaphores (notifyFuture settled) (fun w o => by cases o <;> rfl) _ w₁),
        .of_eq ht, settled_set (by rw [hcell]; rfl) hx, onward_foldl (onward_notifyFuture settled) _ w₁,
        keepsFutures_set hx⟩
      · intro x c hc p hp
        rw [hw₁, Store.get?_set] at hc
        split at hc
        · obtain ⟨_, -, rfl⟩ := Option.map_eq_some_iff.mp hc
          simp only [Cell.outcome?, Option.some.injEq] at hp
          rw [hp] at hlicensed
          exact hlicensed
        · exact h.futures x c hc p hp
      · intro E k hk
        refine ⟨fun x c hc hE o ho => ?_, by rw [ht]; exact hk.tallies⟩
        rw [hx, hw₁, Store.get?_set] at hc
        split at hc
        · obtain ⟨_, -, rfl⟩ := Option.map_eq_some_iff.mp hc
          cases ho
        · exact hk.futures x c hc hE o ho
      · intro E k r hk hqueued
        rcases hq k r hqueued with h | ⟨h, hresume⟩
        · exact Or.inl h
        · obtain ⟨o, ho, heq⟩ := List.mem_map.mp h
          refine Or.inr ⟨.future f, _, by_contra fun hE => hk.futures f _ (hos o ho) hE o ho heq,
            ⟨settled, ?_, rfl⟩, hresume⟩
          rw [hx, hw₁, Store.get?_set_of_some (hos o ho)]

theorem elsewhere_resolve (w : World σ) (f : Key .future) {p : Program σ} (hp : p.Licensed L) :
    Elsewhere L w (w.resolve f p).1 := elsewhere_settle w f hp

/-- An observer of the program's reaches only futures and the board. -/
theorem elsewhere_watchFuture (w : World σ) (f : Key .future) (r : Outcome → Reaction σ) :
    Elsewhere L w (w.watchFuture f (.react r)).1 := by
  unfold watchFuture
  cases hcell : w.future f with
  | settled outcome => exact .of_eq rfl rfl rfl rfl rfl rfl (.of_eq rfl)
  | pending os next =>
      simp only [Cell.attach?]
      refine ⟨rfl, rfl, fun h => ⟨h.machines, h.finalizers, h.parents, ?_, h.tasks, h.errands⟩, ?_,
        fun E k r _ h => Or.inl h, fun k r h => Or.inl h, tends_set_future fun o ho => ?_,
        .of_eq rfl, .of_eq rfl, settled_set (by rw [hcell]; rfl) rfl, .refl _, keepsFutures_set rfl⟩
      · intro x c hc p hp
        rw [Store.get?_set] at hc
        split at hc
        · obtain ⟨_, -, rfl⟩ := Option.map_eq_some_iff.mp hc
          cases hp
        · exact h.futures x c hc p hp
      · intro E k hk
        refine ⟨fun x c hc hE o ho => ?_, hk.tallies⟩
        rw [Store.get?_set] at hc
        split at hc
        · rename_i hfx
          obtain ⟨c₀, hc₀, rfl⟩ := Option.map_eq_some_iff.mp hc
          have hc₁ : c₀ = .pending os next := by
            rw [← hcell, World.future, hfx, hc₀]
            rfl
          rcases List.mem_append.mp ho with ho | ho
          · exact hk.futures x c₀ hc₀ hE o (by rw [hc₁]; exact ho)
          · rw [List.mem_singleton.mp ho]
            exact nofun
        · exact hk.futures x c hc hE o ho
      · rw [hcell] at ho
        exact List.mem_append_left _ ho

/-- Dropping an observer of a future. -/
theorem elsewhere_forget {w : World σ} {f : Key .future} {key : Nat}
    {cell : Cell (Program σ) (FutureWatcher σ)} (hforget : L.forget)
    (hcell : (w.future f).forget? key = some cell) :
    Elsewhere L w { w with futures := w.futures.set f cell } := by
  unfold Cell.forget? at hcell
  cases hf : w.future f with
  | settled outcome =>
      rw [hf] at hcell
      cases hcell
  | pending os next =>
      rw [hf] at hcell
      simp only [Option.ite_none_right_eq_some, Option.some.injEq] at hcell
      obtain ⟨-, rfl⟩ := hcell
      refine ⟨rfl, rfl, fun h => ⟨h.machines, h.finalizers, h.parents, ?_, h.tasks, h.errands⟩, ?_,
        fun E k r _ h => Or.inl h, fun k r h => Or.inl h,
        .of_forget hforget, .of_eq rfl, .of_eq rfl,
        settled_set (by rw [hf]; rfl) rfl, .refl _, keepsFutures_set rfl⟩
      · intro x c hc p hp
        rw [Store.get?_set] at hc
        split at hc
        · obtain ⟨_, -, rfl⟩ := Option.map_eq_some_iff.mp hc
          cases hp
        · exact h.futures x c hc p hp
      · intro E k hk
        refine ⟨fun x c hc hE o ho => ?_, hk.tallies⟩
        rw [Store.get?_set] at hc
        split at hc
        · rename_i hfx
          obtain ⟨c₀, hc₀, rfl⟩ := Option.map_eq_some_iff.mp hc
          have hc₁ : c₀ = .pending os next := by
            rw [← hf, World.future, hfx, hc₀]
            rfl
          exact hk.futures x c₀ hc₀ hE o (by rw [hc₁]; exact (List.mem_filter.mp ho).1)
        · exact hk.futures x c hc hE o ho

/-! ## Tasks, semaphores, contests -/

/-- Fewer of the tasks that programs set. -/
theorem elsewhere_cancel {w : World σ} {id : Nat} {timers : Timers (Task σ)}
    (h : w.timers.cancelIf? Task.isOwn id = some timers) : Elsewhere L w { w with timers } := by
  have honward : w.timers.Onward Task.isOwn timers := Timers.onward_cancelIf h
  unfold Timers.cancelIf? at h
  simp only [Option.ite_none_right_eq_some, Option.some.injEq] at h
  obtain ⟨-, rfl⟩ := h
  refine ⟨rfl, rfl, fun h => ⟨h.machines, h.finalizers, h.parents, h.futures, fun t ht => ?_, h.errands⟩,
    fun E k hk => ⟨hk.futures, hk.tallies⟩, ?_, ?_, .of_eq rfl rfl rfl rfl ?_, .of_eq rfl,
    .of_eq rfl, .of_eq rfl, honward, .of_eq rfl⟩
  · exact h.tasks t (List.mem_filter.mp ht).1
  · rintro E k r - ⟨t, ht, heq⟩
    exact Or.inl ⟨t, (List.mem_filter.mp ht).1, heq⟩
  · rintro k r ⟨t, ht, heq⟩
    exact Or.inl ⟨t, (List.mem_filter.mp ht).1, heq⟩
  · rintro k r ⟨t, ht, heq⟩
    refine ⟨t, List.mem_filter.mpr ⟨ht, ?_⟩, heq⟩
    rw [heq]
    simp [Task.isOwn]

theorem elsewhere_relinquish (w : World σ) (s : Key .semaphore) (ticket : Nat) :
    Elsewhere L w (w.relinquish s ticket) := by
  unfold relinquish
  split
  rename_i sem grant heq
  have hlater : (w.semaphore s).Later sem := by
    rw [show sem = ((w.semaphore s).relinquish ticket).1 by rw [heq]]
    exact Semaphore.later_relinquish _ ticket
  have h₁ : Elsewhere L w { w with semaphores := w.semaphores.set s sem } :=
    .of_eq rfl rfl rfl rfl rfl rfl (permits_set hlater rfl)
  cases grant with
  | none => exact h₁
  | some g => exact h₁.trans (elsewhere_resolve _ g .succeed)

theorem elsewhere_joinRefs (w : World σ) (m child : Key .refs) :
    Elsewhere L w (w.joinRefs m child).1 := by
  unfold joinRefs
  split
  · exact .refl w
  · exact .of_eq rfl rfl rfl rfl rfl rfl (.of_eq rfl)

theorem elsewhere_forkRefs (w : World σ) (m : Key .refs) :
    Elsewhere L w (w.forkRefs m).1 := by
  unfold forkRefs
  split
  · exact .of_eq rfl rfl rfl rfl rfl rfl (.of_eq rfl)
  · exact .refl w

/-- Resuming a number of fibers queues a task for each. -/
theorem serve_wakes {p : Program σ} (hp : p.Licensed L) (ks : List Wake) (w : World σ) :
    let w' := w.wakeAll ks p
    w'.futures = w.futures ∧ w'.tallies = w.tallies ∧ (w.Licensed L → w'.Licensed L) ∧
      ∀ k r, w'.Queued k r → w.Queued k r ∨ k ∈ ks ∧ r = .program p := by
  induction ks generalizing w with
  | nil => exact ⟨rfl, rfl, id, fun k r h => Or.inl h⟩
  | cons k' rest ih =>
      obtain ⟨hx, ht, hl, hq⟩ := ih (w.wake k' p)
      refine ⟨hx, ht, fun h => hl (licensed_queue h hp), fun k r h => ?_⟩
      rcases hq k r h with h | ⟨h, hr⟩
      · rcases queued_queue h with h | heq
        · exact Or.inl h
        · obtain ⟨f, t⟩ := k
          obtain ⟨f', t'⟩ := k'
          simp only [Task.resume.injEq] at heq
          obtain ⟨rfl, rfl, rfl⟩ := heq
          exact Or.inr ⟨List.mem_cons_self, rfl⟩
      · exact Or.inr ⟨List.mem_cons_of_mem _ h, hr⟩

theorem tends_wakeAll (ks : List Wake) (p : Program σ) (w : World σ) :
    Tends L w (w.wakeAll ks p) :=
  Tends.foldl (g := fun w (k : Wake) => w.wake k p) (fun w _ => tends_queue w _) ks w

theorem onward_wakeAll (ks : List Wake) (p : Program σ) (w : World σ) :
    w.timers.Onward Task.isOwn (w.wakeAll ks p).timers :=
  onward_foldl (g := fun w (k : Wake) => w.wake k p) (fun w _ => onward_queue w _) ks w

theorem woken_wakeAll {p : Program σ} {ks : List Wake} {k : Wake} (hk : k ∈ ks) (w : World σ) :
    (w.wakeAll ks p).Woken k := by
  induction ks generalizing w with
  | nil => cases hk
  | cons k' rest ih =>
      rcases List.mem_cons.mp hk with rfl | hk
      · exact (woken_wake w k p).tends (tends_wakeAll (L := .none) rest p _)
      · exact ih hk (w.wake k' p)

/-- Where only tallies change, it is enough to look at these. -/
theorem Tends.of_tallies {w : World σ} {tallies : Store .tally Tally}
    (h : ∀ k t, w.Observed k (.decided t) → World.Observed { w with tallies } k (.decided t)) :
    Tends L w { w with tallies } := by
  refine ⟨fun k r hk => hk, fun k a _ hk => Or.inl ?_⟩
  cases a with
  | future f => exact hk
  | done f => exact hk
  | closed s => exact hk
  | decided t => exact h k t hk

theorem elsewhere_decide (w : World σ) (t : Key .tally) (r : Option (Nat × AnyExit)) :
    Elsewhere L w (w.decide t r) := by
  unfold decide
  dsimp only
  cases hcell : (w.tally t).decided with
  | settled outcome => exact .refl w
  | pending os next =>
      simp only [Cell.settle?]
      set tally : Tally := { w.tally t with decided := .settled (.resolved r) } with htally
      set w₁ : World σ := { w with tallies := w.tallies.set t tally } with hw₁
      obtain ⟨hx, ht, hl, hq⟩ := serve_wakes (.succeed : (Program.succeed (.decided r)).Licensed L)
        (os.map (·.2)) w₁
      -- a key that leads nowhere has a tally without observers
      have hos : ∀ o ∈ os, ∃ t₀, w.tallies.get? t = some t₀ ∧ o ∈ t₀.decided.observers := by
        intro o ho
        unfold World.tally at hcell
        cases hget : w.tallies.get? t with
        | none =>
            rw [hget] at hcell
            cases hcell
            cases ho
        | some t₀ =>
            rw [hget] at hcell
            exact ⟨t₀, rfl, by rw [show t₀.decided = .pending os next from hcell]; exact ho⟩
      have htends := tends_wakeAll (L := L) (os.map (·.2)) (.succeed (.decided r)) w₁
      refine ⟨fibers_wakeAll _ _ _, scopes_wakeAll _ _ _,
        fun h => hl ⟨h.machines, h.finalizers, h.parents, h.futures, h.tasks, h.errands⟩, ?_, ?_,
        fun k q hqueued => (hq k q hqueued).imp_right fun h => ⟨_, h.2⟩,
        ⟨fun k q hk => htends.queued k q hk, fun k a hL hk => ?_⟩,
        .of_eq (semaphores_wakeAll w₁ _ _), ?_, .of_eq hx, onward_wakeAll _ _ w₁, .of_eq hx⟩
      · intro E k hk
        refine ⟨by rw [hx]; exact hk.futures, fun x c hc hE o ho => ?_⟩
        rw [ht, hw₁, Store.get?_set] at hc
        split at hc
        · obtain ⟨_, -, rfl⟩ := Option.map_eq_some_iff.mp hc
          cases ho
        · exact hk.tallies x c hc hE o ho
      · intro E k q hk hqueued
        rcases hq k q hqueued with h | ⟨h, hresume⟩
        · exact Or.inl h
        · obtain ⟨o, ho, heq⟩ := List.mem_map.mp h
          obtain ⟨t₀, ht₀, ho₀⟩ := hos o ho
          refine Or.inr ⟨.decided t, _, by_contra fun hE => hk.tallies t t₀ ht₀ hE o ho₀ heq, ?_, hresume⟩
          exact ⟨tally, r, by rw [ht, hw₁, Store.get?_set_of_some ht₀], rfl, rfl⟩
      · by_cases ha : a = .decided t
        · subst ha
          obtain ⟨t₀, ht₀, o, ho, hok⟩ := hk
          rw [World.tally, ht₀] at hcell
          rw [show t₀.decided = .pending os next from hcell] at ho
          exact Or.inr (woken_wakeAll (List.mem_map.mpr ⟨o, ho, hok⟩) w₁)
        · refine htends.observed k a hL ?_
          cases a with
          | future g => exact hk
          | done g => exact hk
          | closed s => exact hk
          | decided u =>
              obtain ⟨t₀, ht₀, hob⟩ := hk
              exact ⟨t₀, by rw [hw₁, Store.get?_set, if_neg fun h => ha (by rw [h]), ht₀], hob⟩
      · intro u c o hc ho
        rw [ht, hw₁, Store.get?_set]
        split
        · rename_i htu
          rw [World.tally, htu, hc, Option.getD_some, ho] at hcell
          cases hcell
        · exact ⟨c, hc, ho⟩

theorem elsewhere_countDown (w : World σ) (t : Key .tally) :
    Elsewhere L w (w.countDown t) := by
  unfold countDown
  dsimp only
  set tally : Tally := { w.tally t with remaining := (w.tally t).remaining - 1 } with htally
  have h₁ : Elsewhere L w { w with tallies := w.tallies.set t tally } := by
    refine ⟨rfl, rfl, fun h => ⟨h.machines, h.finalizers, h.parents, h.futures, h.tasks, h.errands⟩,
      fun E k hk => ⟨hk.futures, fun x c hc hE o ho => ?_⟩, fun E k r _ h => Or.inl h,
      fun k r h => Or.inl h, .of_tallies fun k u ⟨c, hc, o, ho, hok⟩ => ?_, .of_eq rfl,
      fun u c o hc ho => ?_, .of_eq rfl, .refl _, .of_eq rfl⟩
    · rw [Store.get?_set] at hc
      split at hc
      · rename_i htx
        obtain ⟨c₀, hc₀, rfl⟩ := Option.map_eq_some_iff.mp hc
        have heq : w.tally t = c₀ := by rw [World.tally, htx, hc₀]; rfl
        exact hk.tallies x c₀ hc₀ hE o (by rw [← heq]; exact ho)
      · exact hk.tallies x c hc hE o ho
    · by_cases htu : t = u
      · subst htu
        have heq : w.tally t = c := by rw [World.tally, hc]; rfl
        refine ⟨tally, Store.get?_set_of_some hc, o, ?_, hok⟩
        rw [htally, heq]
        exact ho
      · exact ⟨c, by rw [Store.get?_set, if_neg htu, hc], o, ho, hok⟩
    · by_cases htu : t = u
      · subst htu
        have heq : w.tally t = c := by rw [World.tally, hc]; rfl
        exact ⟨tally, Store.get?_set_of_some hc, by rw [htally, heq]; exact ho⟩
      · exact ⟨c, by rw [Store.get?_set, if_neg htu, hc], ho⟩
  split
  · exact h₁.trans (elsewhere_decide _ t none)
  · exact h₁

theorem tallies_decide_of_ne (w : World σ) {t u : Key .tally} (htu : t ≠ u)
    (r : Option (Nat × AnyExit)) : (w.decide t r).tallies.get? u = w.tallies.get? u := by
  unfold decide
  dsimp only
  split
  · rw [tallies_wakeAll, Store.get?_set, if_neg htu]
  · rfl

theorem tallies_countDown_of_ne (w : World σ) {t u : Key .tally} (htu : t ≠ u) :
    (w.countDown t).tallies.get? u = w.tallies.get? u := by
  have hset : ∀ tally : Tally, (w.tallies.set t tally).get? u = w.tallies.get? u :=
    fun tally => by rw [Store.get?_set, if_neg htu]
  unfold countDown
  dsimp only
  split
  · exact (tallies_decide_of_ne _ htu none).trans (hset _)
  · exact hset _

/-- Telling the end of a fiber to a watcher that does not report to a contest changes nothing there. -/
theorem tallies_notifyDone_of_not (f : Key .fiber) (e : AnyExit) (w : World σ) {o : DoneWatcher σ}
    {u : Key .tally} (ho : o.reportsTo u = false) :
    (notifyDone f e w o).tallies.get? u = w.tallies.get? u := by
  cases o with
  | wake k => rfl
  | racer t place => exact tallies_decide_of_ne w (of_decide_eq_false ho) _
  | member t place =>
      simp only [notifyDone]
      split
      · exact tallies_decide_of_ne w (of_decide_eq_false ho) _
      · exact tallies_countDown_of_ne w (of_decide_eq_false ho)
  | root => rfl
  | react r => rfl

/-- Telling the end of a fiber to a watcher that is not waiting. -/
theorem elsewhere_notifyDone (f : Key .fiber) (e : AnyExit) (w : World σ) {o : DoneWatcher σ}
    (ho : ∀ k, o ≠ .wake k) : Elsewhere L w (notifyDone f e w o) := by
  cases o with
  | wake k => exact absurd rfl (ho k)
  | racer t place => exact elsewhere_decide w t _
  | member t place =>
      simp only [notifyDone]
      split
      · exact elsewhere_decide w t _
      · exact elsewhere_countDown w t
  | root => exact .of_eq rfl rfl rfl rfl rfl rfl (.of_eq rfl)
  | react r => exact .of_eq rfl rfl rfl rfl rfl rfl (.of_eq rfl)

/-- Telling the end of a fiber changes no decision. -/
theorem keepsDecisions_notifyDone (f : Key .fiber) (e : AnyExit) (w : World σ) (o : DoneWatcher σ) :
    KeepsDecisions w (notifyDone f e w o) := by
  cases o with
  | wake k => exact .of_eq rfl
  | racer t place => exact (elsewhere_decide (L := .none) w t _).decisions
  | member t place =>
      exact (elsewhere_notifyDone (L := .none) f e w fun k h => by cases h).decisions
  | root => exact .of_eq rfl
  | react r => exact .of_eq rfl

/-- It settles no future either. -/
theorem keepsSettled_notifyDone (f : Key .fiber) (e : AnyExit) (w : World σ) (o : DoneWatcher σ) :
    KeepsSettled w (notifyDone f e w o) := by
  cases o with
  | wake k => exact .of_eq rfl
  | racer t place => exact (elsewhere_decide (L := .none) w t _).settled
  | member t place =>
      exact (elsewhere_notifyDone (L := .none) f e w fun k h => by cases h).settled
  | root => exact .of_eq rfl
  | react r => exact .of_eq rfl

/-- A tally that nobody observes yet. -/
theorem elsewhere_addTally (w : World σ) (remaining : Nat) :
    Elsewhere L w { w with tallies := (w.tallies.add { remaining }).1 } where
  fibers := rfl
  scopes := rfl
  licensed := fun h => ⟨h.machines, h.finalizers, h.parents, h.futures, h.tasks, h.errands⟩
  unobserved := fun E k hk => by
    refine ⟨hk.futures, fun x c hc hE o ho => ?_⟩
    rw [Store.get?_add] at hc
    split at hc
    · cases hc
      cases ho
    · exact hk.tallies x c hc hE o ho
  quiet := fun E k r _ h => Or.inl h
  programs := fun k r h => Or.inl h
  tends := .of_tallies fun k t ⟨c, hc, ho⟩ => ⟨c, Store.get?_add_of_some _ hc, ho⟩
  permits := .of_eq rfl
  decisions := fun _ c _ hc ho => ⟨c, Store.get?_add_of_some _ hc, ho⟩
  settled := .of_eq rfl
  timers := .refl _
  there := .of_eq rfl

end World

end Fibers
