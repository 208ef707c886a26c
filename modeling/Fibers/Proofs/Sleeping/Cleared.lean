import Fibers.Proofs.Exits.Agreement
import Fibers.Proofs.Scopes.Children
import Fibers.Proofs.Sleeping.Asleep
import Fibers.Proofs.Timers.Until

set_option autoImplicit false

/-! # No sleep leaves a timer behind

When a fiber that slept is done, its scope is closed, and whoever closed it has run the finalizer that
drops the timer, unless the timer had run before. So when all fibers are done, what is left in the queue
of their sleeps is nothing, and what else is left are resumptions that come too late: a run of what is
due takes them out, and the queue is empty.
-/

namespace Fibers

variable {σ : Type} {r : Run σ} {g : Key .fiber}

/-! ## The finalizer at work -/

/-- A timer of a program's own that is dropped has left the queue. -/
theorem World.gone_cancelTimer {w : World σ} {id : Nat} (hnumbered : w.timers.Numbered)
    (hid : id < w.timers.nextId) (hown : ∀ t ∈ w.timers.live, t.id = id → t.task.isOwn = true) :
    (w.command (.cancelTimer id)).1.timers.Gone id := by
  by_cases hthere : ∃ t ∈ w.timers.live, t.id = id
  · obtain ⟨t, ht, rfl⟩ := hthere
    obtain ⟨timers, hcancel, hgone⟩ := Timers.gone_of_cancelIf hnumbered ht (hown t ht rfl)
    simp only [command, hcancel]
    exact hgone
  · -- there is no such timer, and nothing is dropped
    have hnone : w.timers.cancelIf? Task.isOwn id = none := by
      refine if_neg fun hany => hthere ?_
      obtain ⟨t, ht, heq⟩ := List.any_eq_true.mp hany
      simp only [Bool.and_eq_true, beq_iff_eq] at heq
      exact ⟨t, ht, heq.1⟩
    simp only [command, hnone]
    exact ⟨hid, fun t ht heq => hthere ⟨t, ht, heq⟩⟩

theorem World.instruct_dropTimer (w : World σ) (f : Key .fiber) (y : Fiber σ) (m : Machine σ) (id : Nat) :
    w.instruct f y m (.dropTimer id) =
      ((w.command (.cancelTimer id)).1, ⟨{ m with control := .value .unit }, .proceed⟩) := by
  cases hcancel : w.timers.cancelIf? Task.isOwn id with
  | none => simp only [instruct, Program.dropTimer, World.run, command, hcancel]; rfl
  | some timers => simp only [instruct, Program.dropTimer, World.run, command, hcancel]; rfl

/-- When the finalizer that drops a timer has been run, the timer has left the queue. -/
theorem Run.Performs.gone {h : Handle} {id a b : Nat} {e x : AnyExit} (hexact : r.Exact)
    (hperforms : r.Performs g (h, .canceler (.dropTimer id)) e a b x)
    (hid : id < (r.moment a).world.timers.nextId)
    (hown : ∀ l, a ≤ l → ∀ t ∈ (r.moment l).world.timers.live, t.id = id → t.task.isOwn = true) :
    (r.moment b).world.timers.Gone id := by
  obtain ⟨T, hT, ⟨y, m, hworks, hcontrol, rfl⟩, hkeeps, y', m', hends⟩ := hperforms
  have hstart : r.Heads g m.stack b (a + 1) { m with control := .instruct (.dropTimer id) } := by
    refine ⟨hkeeps.1, hT, ?_, fun l hal => hkeeps.2 l hal, x, y', m', hends⟩
    rw [Run.advance_of_turn hworks.turn, World.advance_duty hworks.here hcontrol rfl]
    exact Moment.machine?_active
  obtain ⟨j, w, z, haj, hjb, hj, hworks', -⟩ := hstart.works (Or.inl ⟨_, rfl⟩) trivial
  have hgone : (r.moment (j + 1)).world.timers.Gone id := by
    obtain rfl : (r.moment j).world = w := congrArg Moment.world hj
    rw [Run.advance_of_turn (congrArg Moment.active hj), World.advance_instruct hworks' rfl,
      World.instruct_dropTimer]
    exact World.gone_cancelTimer (hexact.numbered j)
      (Nat.lt_of_lt_of_le hid (hexact.onward (by omega)).nextId) (hown j (by omega))
  exact hgone.onward (hexact.onward hjb)

/-! ## A fiber that is done -/

namespace Sleep

variable (p : Sleep r) {h : Handle} {n : Nat}

/-- A finalizer is registered with an open scope. -/
theorem open_of_handle (hh : p.handle = some h) :
    h.scope = p.state.scope ∧ ¬ (r.moment p.start).world.Sealed p.state.scope := by
  have hopen : ¬ p.armed.Sealed p.state.scope := World.not_sealed_of_register hh
  exact ⟨(World.issued_register hh).1, hopen⟩

/-- When the scope with which the finalizer was registered is closed, the timer is gone. -/
theorem gone_of_closed (hexact : r.Exact) (hprivate : p.Private n) (hh : p.handle = some h)
    {sc : Scope (Finalizer σ)} {e : AnyExit}
    (hsc : (r.moment n).world.scopes.get? p.state.scope = some sc) (hclosed : sc.state = .closed e)
    (hseq : sc.strategy = .sequential) : (r.moment n).world.timers.Gone p.timer := by
  obtain ⟨hscope, hopen⟩ := p.open_of_handle hh
  obtain ⟨s, key⟩ := h
  obtain rfl : s = p.state.scope := hscope
  obtain ⟨log, hlog⟩ := r.exists_records p.state.scope
  obtain ⟨g, i, j, x, xs, hjn, hfinishes⟩ := Run.finished_of_closed hlog hsc hclosed hseq
  have hij : i < j := hfinishes.performed.lt
  have hstart : p.start < i := hfinishes.claims.after hopen
  rcases p.gone_or_stage hexact hprivate hstart (by omega) with hgone | ⟨-, hstage⟩
  · exact hgone.onward (hexact.onward (by omega))
  · obtain ⟨a, b, x', hia, hbj, hperforms⟩ :=
      hfinishes.performs hlog (by omega) (hstage.stands hh)
    have hgone : (r.moment b).world.timers.Gone p.timer :=
      hperforms.gone hexact (p.timer_lt hexact (by omega)) fun l hal t ht hid =>
        p.isOwn_timer hexact (by omega) ht hid
    exact hgone.onward (hexact.onward (by omega))

/-- When a fiber that slept is done, the timer is gone. -/
theorem gone_of_done (hexact : r.Exact) (hprivate : p.Private n) (hn : p.start < n) {y : Fiber σ}
    {e : AnyExit} (hy : (r.moment n).world.fibers.get? p.fiber = some y) (hdone : y.phase = .done e)
    (hseq : ((r.moment n).world.scope y.scope).strategy = .sequential) :
    (r.moment n).world.timers.Gone p.timer := by
  rcases p.gone_or_stage hexact hprivate hn (Nat.le_refl n) with hgone | ⟨-, hstage⟩
  · exact hgone
  · cases hstage with
    | asleep hwaiting _ =>
        obtain ⟨y', hy', hphase, -⟩ := hwaiting.fiber
        obtain rfl := Option.some.inj (hy'.symm.trans hy)
        rw [hdone] at hphase
        cases hphase
    | told _ _ _ hleaves =>
        obtain ⟨y', hy', hrunning⟩ := r.turned n _ _ hleaves.1
        obtain rfl := Option.some.inj (hy'.symm.trans hy)
        rw [hdone] at hrunning
        cases hrunning
    | left hh _ _ =>
        -- its scope is that with which the finalizer was registered, and was closed before it was done
        obtain ⟨y', hy', honward⟩ := r.onward (Nat.le_of_lt hn) p.works.fiber
        obtain rfl := Option.some.inj (hy'.symm.trans hy)
        obtain ⟨hscope, -⟩ := p.open_of_handle hh
        obtain ⟨sc, hsc, -⟩ := p.issued_after hh hn
        rw [honward.scope] at hseq
        rw [hscope] at hsc
        rw [World.scope_of_get hsc] at hseq
        obtain ⟨i, z, hin, -, -, -, hexit⟩ :=
          Run.ends_of_done (fun j => r.sequential_of hsc hseq j) hy honward.scope hdone
        exact p.gone_of_closed hexact hprivate hh hsc (World.closed_of_exit hsc (hexit n hin)) hseq

end Sleep

/-! ## When all fibers are done -/

/-- Every fiber that was started is done. -/
def World.Ended (w : World σ) : Prop :=
  ∀ f y, w.fibers.get? f = some y → (∃ m, y.phase = .notStarted m) ∨ ∃ e, y.phase = .done e

/-- A resumption comes too late for every fiber. -/
theorem World.perform_of_ended {w : World σ} (hended : w.Ended) (turns : Nat) (timers : Timers (Task σ))
    {task : Task σ} (hown : task.isOwn = false) :
    perform turns task { w with timers } = ({ w with timers }, .finished ()) := by
  cases task with
  | ring f => cases hown
  | run act => cases hown
  | resume f token r =>
      simp only [perform, resume]
      cases hget : w.fibers.get? f with
      | none => rfl
      | some y =>
          rcases hended f y hget with ⟨m, hphase⟩ | ⟨e, hphase⟩
          · simp only [hphase]
          · simp only [hphase]

/-- If only resumptions are left that are due, a run of what is due empties the queue. -/
theorem World.runReady_of_ended {w : World σ} (hended : w.Ended)
    (hresumptions : ∀ t ∈ w.timers.live,
      t.task.isOwn = false ∧ t.deadline.nanos ≤ w.timers.now.nanos) (turns : Nat) {fuel : Nat}
    (hfuel : w.timers.live.length < fuel) (ran : Nat) :
    ∃ w', (host turns).runReadyFrom fuel ran w = (w', .finished (ran + w.timers.live.length)) ∧
      w'.timers.live = [] := by
  induction hlive : w.timers.live generalizing w fuel ran with
  | nil =>
      obtain ⟨fuel, rfl⟩ := Nat.exists_eq_add_of_lt hfuel
      have hquiet : (host turns).Quiet w := by
        show w.timers.popDue? = none
        rw [Timers.popDue?, hlive]
      exact ⟨w, Host.runReadyFrom_of_quiet hquiet _ ran, hlive⟩
  | cons t rest ih =>
      rw [hlive] at hresumptions hfuel
      obtain ⟨hown, hdue⟩ := hresumptions t List.mem_cons_self
      obtain ⟨fuel, rfl⟩ : ∃ n, fuel = n + 1 := ⟨fuel - 1, by omega⟩
      obtain ⟨left, hleft⟩ : ∃ left : Timers (Task σ), left = { w.timers with live := rest } := ⟨_, rfl⟩
      have hpop : w.timers.popDue? = some (t.task, left) :=
        Timers.popDue?_eq_some.mpr ⟨t, rest, hlive, hdue, rfl, hleft⟩
      have hruns : (host turns).Runs w _ := .mk hpop (perform_of_ended hended turns left hown)
      have hlater : World.Ended { w with timers := left.countRun } := hended
      have hrest : left.countRun.live = rest := by rw [hleft]; rfl
      have hnow : left.countRun.now = w.timers.now := by rw [hleft]; rfl
      obtain ⟨w', hw', hempty⟩ := ih hlater
        (fun u hu => hnow ▸ hresumptions u (List.mem_cons_of_mem t (hrest ▸ hu)))
        (hrest ▸ Nat.lt_of_succ_lt_succ hfuel) (ran + 1) hrest
      refine ⟨w', ?_, hempty⟩
      rw [Host.runReadyFrom_of_runs hruns, List.length_cons,
        show ran + (rest.length + 1) = ran + 1 + rest.length by omega]
      exact hw'

/-- When every fiber that was started is done, and their scopes close in sequence, no timer of a sleep
is left; and if no other timers were set, a run of what is due leaves the queue empty. -/
theorem Run.no_timer_left (hexact : r.Exact) {n : Nat} (hended : (r.moment n).world.Ended)
    (hseq : ∀ f y, (r.moment n).world.fibers.get? f = some y →
      ((r.moment n).world.scope y.scope).strategy = .sequential)
    (hprivate : ∀ p : Sleep r, p.start < n → p.Private n) :
    (∀ p : Sleep r, p.start < n → (r.moment n).world.timers.Gone p.timer) ∧
    ((∀ t ∈ (r.moment n).world.timers.live, t.task.isOwn = true →
        ∃ p : Sleep r, p.start < n ∧ t.id = p.timer) →
      ∀ turns fuel, (r.moment n).world.timers.live.length < fuel →
        ∃ w, (World.host turns).runReady fuel (r.moment n).world =
          (w, .finished (r.moment n).world.timers.live.length) ∧ w.timers.live = []) := by
  have hgone : ∀ p : Sleep r, p.start < n → (r.moment n).world.timers.Gone p.timer := by
    intro p hn
    obtain ⟨y, hy, hrunning⟩ := r.turned p.start _ _ p.works.turn
    obtain ⟨y', hy', hstarted⟩ := r.started (Nat.le_of_lt hn) hy fun m hm => by
      rw [hrunning] at hm
      cases hm
    rcases hended p.fiber y' hy' with ⟨m, hm⟩ | ⟨e, hdone⟩
    · exact absurd hm (hstarted m)
    · exact p.gone_of_done hexact (hprivate p hn) hn hy' hdone (hseq p.fiber y' hy')
  refine ⟨hgone, fun hsleeps turns fuel hfuel => ?_⟩
  have hresumptions : ∀ t ∈ (r.moment n).world.timers.live, t.task.isOwn = false ∧
      t.deadline.nanos ≤ (r.moment n).world.timers.now.nanos := by
    intro t ht
    have hown : t.task.isOwn = false := by
      refine Bool.eq_false_iff.mpr fun hown => ?_
      obtain ⟨p, hn, hid⟩ := hsleeps t ht hown
      exact (hgone p hn).2 t ht hid
    exact ⟨hown, hexact.due ht hown⟩
  obtain ⟨w, hw, hempty⟩ := World.runReady_of_ended hended hresumptions turns hfuel 0
  exact ⟨w, by rw [Host.runReady, hw, Nat.zero_add], hempty⟩

/-- A child sleeps, and its parent does not wait for it. -/
def nap : Program Nat := (Program.fork (.sleep 100) {}).andThen (Protection.yields 1)

theorem licensed_nap : nap.Licensed .none :=
  .flatMap (.fork (Program.licensed_sleep .none 100)) (.next (Protection.licensed_yields 1))

/-- The run of the child and its parent. -/
def napRun : Run Nat := .inOrder .standard 0 nap licensed_nap

/-- The sleep of the child. -/
def napChild : Sleep napRun where
  start := 19
  fiber := ⟨1⟩
  state := ((napRun.moment 19).world.fibers.get? ⟨1⟩).get rfl
  machine := ((napRun.moment 19).active.get rfl).2
  span := 100
  works := ⟨rfl, rfl, Or.inr rfl, by decide, Or.inl ⟨_, rfl⟩⟩
  instruction := rfl

set_option maxRecDepth 1000 in
/-- The parent ends and closes the scope of the child, whose timer is dropped. The queue is empty. -/
theorem nap_cleared : (napRun.moment 30).world.timers.live.any (·.id == napChild.timer) = true ∧
    (napRun.moment 98).world.timers.Gone napChild.timer ∧
    ∃ w, (World.host 1).runReady 1 (napRun.moment 98).world = (w, .finished 0) ∧ w.timers.live = [] := by
  have hpending : ∀ k < 99, (napRun.moment k).world.futures.toList.all (·.isPending) = true := by
    decide +kernel
  have hscopes : (napRun.moment 98).world.fibers.toList.all (fun y =>
      ((napRun.moment 98).world.scope y.scope).strategy = .sequential) = true := by
    decide +kernel
  have hended : (napRun.moment 98).world.Ended := by
    rintro ⟨i⟩ y hy
    obtain ⟨hi, -⟩ := Array.getElem?_eq_some_iff.mp hy
    have htwo : i < 2 := hi
    interval_cases i
    · exact Or.inr ⟨_, congrArg Fiber.phase (Option.some.inj hy).symm⟩
    · exact Or.inr ⟨_, congrArg Fiber.phase (Option.some.inj hy).symm⟩
  have hprivate : ∀ p : Sleep napRun, p.start < 98 → p.Private 98 := by
    intro p _ k _ hk _ hresolved
    refine absurd ?_ hresolved
    rw [Sleep.Pending, World.future]
    cases hget : (napRun.moment (k + 1)).world.futures.get? p.callback with
    | none => rfl
    | some cell => exact Store.of_all (hpending (k + 1) (by omega)) hget
  have hcleared := Run.no_timer_left (Run.exact_inOrder _ _ _ _) hended
    (fun f y hy => of_decide_eq_true (Store.of_all hscopes hy)) hprivate
  have hnone : ∀ t ∈ (napRun.moment 98).world.timers.live, t.task.isOwn = true →
      ∃ p : Sleep napRun, p.start < 98 ∧ t.id = p.timer := fun t ht => absurd ht List.not_mem_nil
  exact ⟨rfl, hcleared.1 napChild (by decide), hcleared.2 hnone 1 1 (by decide)⟩

end Fibers
