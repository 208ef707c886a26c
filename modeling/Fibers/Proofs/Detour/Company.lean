import Fibers.Proofs.Detour.Standing

set_option autoImplicit false

/-! # A fiber that strolls in company

On a virtual clock the driver takes the tasks in order (`Moment.tick`), and `Eventually` says that it comes
to a moment of some kind. Here a fiber takes steps that change nothing but itself (`Strolls`) and so comes
from one machine to another (`Way`). Whenever its budget is spent it yields, and those it is in company with
may have their turns; what is known of the company, and the tasks that belong to it, are given by a relation
`K`. `eventually_way` says that the fiber gets to its goal, provided that the company lets it have its next
turn (`Yields`).
-/

namespace Fibers

variable {σ : Type}

/-! ## What the driver comes to -/

/-- On a virtual clock, with nothing done to the system from outside, a moment of this kind comes. -/
def Moment.Eventually (P : Moment σ → Prop) (x : Moment σ) : Prop := ∃ n, P (Moment.tick^[n] x)

namespace Moment.Eventually

variable {P Q : Moment σ → Prop} {x y : Moment σ}

theorem now (h : P x) : x.Eventually P := ⟨0, h⟩

theorem of_tick (h : x.tick.Eventually P) : x.Eventually P := by
  obtain ⟨n, hn⟩ := h
  exact ⟨n + 1, by rw [Function.iterate_succ_apply]; exact hn⟩

theorem trans (h : x.Eventually P) (hP : ∀ y, P y → y.Eventually Q) : x.Eventually Q := by
  obtain ⟨n, hn⟩ := h
  obtain ⟨k, hk⟩ := hP _ hn
  exact ⟨k + n, by rw [Function.iterate_add_apply]; exact hk⟩

/-- The driver sees a turn to its end. -/
theorem of_strides {n : Nat} (hx : Moment.stride^[n] x = y) (h : y.Eventually P) : x.Eventually P := by
  induction n generalizing x with
  | zero =>
      obtain rfl : x = y := hx
      exact h
  | succ n ih =>
      rw [Function.iterate_succ_apply] at hx
      obtain ⟨w, active⟩ := x
      cases active with
      | none => exact ih hx
      | some fm => exact of_tick (ih hx)

/-- The first task of the queue is begun once the clock shows its deadline. -/
theorem of_first {w : World σ} {t : Timer (Task σ)} {rest : List (Timer (Task σ))}
    (hlive : w.timers.live = t :: rest)
    (k : ∀ q : Timers (Task σ), q.live = t :: rest → q.now = Time.latest w.now t.deadline →
      (World.begin (World.withQueue { w with timers := q } rest) t.task).Eventually P) :
    Moment.Eventually P ⟨w, none⟩ := by
  by_cases hdue : t.deadline.nanos ≤ w.now.nanos
  · have hnow : w.timers.now = Time.latest w.now t.deadline := by
      unfold Time.latest
      split
      · rename_i hle
        exact Time.ext (Nat.le_antisymm hle hdue)
      · rfl
    refine of_tick ?_
    simp only [tick, hlive, if_pos hdue]
    exact k w.timers hlive hnow
  · -- the clock jumps first
    have hlt : w.now.nanos ≤ t.deadline.nanos := Nat.le_of_lt (Nat.lt_of_not_le hdue)
    have hdue' : t.deadline.nanos ≤
        (World.now { w with timers := w.timers.advanceTo t.deadline }).nanos := by
      show t.deadline.nanos ≤ (Time.latest w.now t.deadline).nanos
      simp only [Time.latest, if_pos hlt, Nat.le_refl]
    refine of_tick (of_tick ?_)
    have htick : tick ⟨w, none⟩ = ⟨{ w with timers := w.timers.advanceTo t.deadline }, none⟩ := by
      simp only [tick, hlive, if_neg hdue]
    have hlive' : (w.timers.advanceTo t.deadline).live = t :: rest := hlive
    rw [htick]
    simp only [tick, hlive', if_pos hdue']
    exact k _ hlive' rfl

end Moment.Eventually

namespace Detour

open World Direct

variable {S : Type} {f : Key .fiber} {fiber : Fiber σ} {w w₁ w' : World σ} {m m' goal : Machine σ}
  {refs : FiberRefs} {ops : Nat} {t : Timer (Task σ)} {ts rest : List (Timer (Task σ))}
  {K : World σ → List (Timer (Task σ)) → Prop} {P : Moment σ → Prop}

/-! ## A fiber that changes nothing else -/

/-- From `w` to `w'` nothing but the fiber `f` and the queue has changed. -/
structure Idles (f : Key .fiber) (w w' : World σ) : Prop where
  others : ∀ g, g ≠ f → w'.fibers.get? g = w.fibers.get? g
  rest : w' = { w with
    fibers := w'.fibers
    timers := w'.timers }
  now : w'.now = w.now

theorem Idles.refl (f : Key .fiber) (w : World σ) : Idles f w w := ⟨fun _ _ => rfl, rfl, rfl⟩

theorem Idles.trans (h : Idles f w w₁) (h' : Idles f w₁ w') : Idles f w w' := by
  refine ⟨fun g hg => (h'.others g hg).trans (h.others g hg), ?_, h'.now.trans h.now⟩
  rw [h'.rest, h.rest]

theorem idles_modifyFiber (f : Key .fiber) (w : World σ) (g : Fiber σ → Fiber σ) :
    Idles f w (w.modifyFiber f g) := by
  refine ⟨fun k hk => ?_, rfl, rfl⟩
  simp only [modifyFiber, Store.get?_modify, if_neg (Ne.symm hk)]

theorem idles_setFiber (f : Key .fiber) (w : World σ) (y : Fiber σ) :
    Idles f w { w with fibers := w.fibers.set f y } := by
  refine ⟨fun k hk => ?_, rfl, rfl⟩
  show (w.fibers.set f y).get? k = _
  rw [Store.get?_set, if_neg (Ne.symm hk)]

theorem idles_queue (f : Key .fiber) (w : World σ) (task : Task σ) : Idles f w (w.queue task) :=
  ⟨fun _ _ => rfl, rfl, rfl⟩

/-- Nothing but the queue has changed. -/
theorem idles_timers (f : Key .fiber) (w : World σ) {q : Timers (Task σ)} (h : q.now = w.now) :
    Idles f w { w with timers := q } := ⟨fun _ _ => rfl, rfl, h⟩

/-- A fiber that changes nothing else minds the home of any other. -/
theorem Idles.minds {c : Key .fiber} (view : σ → S) (home : Home) (hne : c ≠ f) (h : Idles f w w') :
    Minds view c home w w' := by
  refine ⟨by rw [h.others c hne], ?_, ?_, ?_, fun cb cell hcb _ => ?_, ?_⟩
  · rw [congrArg World.scopes h.rest]
  · rw [congrArg World.refs h.rest]
  · rw [congrArg World.semaphores h.rest]
  · rw [congrArg World.futures h.rest]
    exact hcb
  · rw [congrArg World.board h.rest]

/-- The fiber `f` is `fiber`, it has done `ops` steps of its budget, and its references are `refs`. -/
structure At (f : Key .fiber) (fiber : Fiber σ) (refs : FiberRefs) (ops : Nat) (w : World σ) : Prop where
  found : ∃ actual, w.fibers.get? f = some actual ∧ Varies fiber actual ∧ actual.ops = ops
  map : w.refs.get? fiber.context.refs = some refs

/-- A change of the fiber alone. -/
theorem At.modify {fiber' : Fiber σ} {ops' : Nat} {g : Fiber σ → Fiber σ} (h : At f fiber refs ops w)
    (hcontext : fiber'.context = fiber.context)
    (hg : ∀ actual, Varies fiber actual → actual.ops = ops →
      Varies fiber' (g actual) ∧ (g actual).ops = ops') :
    At f fiber' refs ops' (w.modifyFiber f g) := by
  obtain ⟨⟨actual, hget, hvaries, hops⟩, hmap⟩ := h
  obtain ⟨hvaries', hops'⟩ := hg actual hvaries hops
  refine ⟨⟨g actual, ?_, hvaries', hops'⟩, ?_⟩
  · simp only [modifyFiber, Store.get?_modify, hget, if_pos, Option.map_some]
  · rw [hcontext]
    exact hmap

theorem At.timers (h : At f fiber refs ops w) (q : Timers (Task σ)) :
    At f fiber refs ops { w with timers := q } := ⟨h.found, h.map⟩

/-- One more step. -/
theorem At.count (h : At f fiber refs ops w) : At f fiber refs (ops + 1) (w.count f) := by
  refine h.modify rfl ?_
  rintro _ ⟨n, token, cell, hcell, rfl⟩ rfl
  exact ⟨⟨n + 1, token, cell, hcell, rfl⟩, rfl⟩

/-- The fiber has yielded with the machine `m`, and its next turn is `t`. -/
structure Yielded (f : Key .fiber) (fiber : Fiber σ) (refs : FiberRefs) (m : Machine σ)
    (t : Timer (Task σ)) (w : World σ) : Prop where
  task : ∃ token, t.task = .resume f token .proceed ∧
    At f { fiber with phase := .suspended token m } refs 0 w
  due : t.deadline.nanos ≤ w.now.nanos

/-- It has its next turn. -/
theorem Yielded.begin (hrunning : fiber.phase = .running) (h : Yielded f fiber refs m t w)
    (rest : List (Timer (Task σ))) :
    ∃ w', World.begin (w.withQueue rest) t.task = ⟨w', some (f, m)⟩ ∧ At f fiber refs 0 w' ∧
      Idles f w w' ∧ w'.timers.live = rest := by
  obtain ⟨token, htask, hat⟩ := h.task
  have hat' : At f { fiber with phase := .suspended token m } refs 0 (w.withQueue rest) :=
    ⟨hat.found, hat.map⟩
  obtain ⟨actual, hget, hvaries, -⟩ := hat'.found
  have hphase : actual.phase = .suspended token m := by
    obtain ⟨_, _, _, -, rfl⟩ := hvaries
    rfl
  have hqueue : Idles f w (w.withQueue rest) := idles_timers f w rfl
  refine ⟨_, by rw [htask]; exact awaken_proceed hget hphase, hat'.modify rfl ?_,
    hqueue.trans (idles_modifyFiber f _ _), rfl⟩
  rintro _ ⟨n, token, cell, hcell, rfl⟩ hops
  exact ⟨⟨n, token, cell, hcell, by rw [← hrunning]⟩, hops⟩

/-! ## Steps in company -/

/-- The company that the fiber is in, with the tasks that belong to it, minds none of its steps. -/
def Unconcerned (f : Key .fiber) (K : World σ → List (Timer (Task σ)) → Prop) : Prop :=
  ∀ w w' ts, K w ts → Idles f w w' → (∀ t ∈ ts, t ∈ w'.timers.live) → K w' ts

/-- The company lets the fiber have its next turn after it has yielded. -/
def Yields (f : Key .fiber) (fiber : Fiber σ) (refs : FiberRefs)
    (K : World σ → List (Timer (Task σ)) → Prop) (P : Moment σ → Prop) : Prop :=
  ∀ w ts t m, K w ts → Yielded f fiber refs m t w → w.timers.live = Timers.insert t ts →
    (∀ w' ts', K w' ts' → At f fiber refs 0 w' → w'.timers.live = ts' →
      Moment.Eventually P ⟨w', some (f, m)⟩) →
    Moment.Eventually P ⟨w, none⟩

/-- A step from the machine `m` to `m'` that changes nothing but the fiber. -/
structure Strolls (f : Key .fiber) (fiber : Fiber σ) (K : World σ → List (Timer (Task σ)) → Prop)
    (m m' : Machine σ) : Prop where
  work : (∃ p, m.control = .instruct p) ∨ ∃ e, m.control = .ofExit e
  step : ∀ w ts actual, K w ts → Varies fiber actual → actual.ops < actual.context.limits.maxOps →
    w.step f actual m = (w.count f, { machine := m' })

/-- Steps that change nothing but the fiber lead to the goal. -/
inductive Way (f : Key .fiber) (fiber : Fiber σ) (K : World σ → List (Timer (Task σ)) → Prop)
    (goal : Machine σ) : Machine σ → Prop
  | here : Way f fiber K goal goal
  | step {m n : Machine σ} : Strolls f fiber K m n → Way f fiber K goal n → Way f fiber K goal m

/-- A fiber whose budget is spent yields. -/
theorem advance_tired (hcalm : Calm fiber)
    (hwork : (∃ p, m.control = .instruct p) ∨ ∃ e, m.control = .ofExit e)
    (hat : At f fiber refs ops w) (hspent : fiber.context.limits.maxOps ≤ ops) :
    ∃ w' t, w.advance f m = ⟨w', none⟩ ∧ Idles f w w' ∧ Yielded f fiber refs m t w' ∧
      w'.timers.live = Timers.insert t w.timers.live := by
  obtain ⟨⟨actual, hget, hvaries, rfl⟩, hmap⟩ := hat
  set w₁ : World σ := w.modifyFiber f fun fiber => { fiber with ops := 0 } with hw₁
  set idle : Fiber σ := { actual with ops := 0 } with hidle
  have hidles : Varies fiber idle := by
    obtain ⟨ops, token, cell, hcell, rfl⟩ := hvaries
    exact ⟨0, token, cell, hcell, rfl⟩
  have hget₁ : w₁.fibers.get? f = some idle := by
    simp only [hw₁, modifyFiber, Store.get?_modify, hget, if_pos, Option.map_some, hidle]
  set w₂ : World σ := { w₁ with fibers := w₁.fibers.set f (idle.park m).1 } with hw₂
  have hadvance : w.advance f m = ⟨w₂.queue (.resume f idle.nextToken .proceed), none⟩ := by
    rw [advance_of_free hget (free_of_stays (Or.inr hcalm.terminating) hvaries),
      step_tired hwork (by rw [hvaries.context]; exact hspent)]
    simp only [conclude]
    rw [hget₁]
    dsimp only
    rw [park_of_stays hidles (Or.inr hcalm.terminating)]
  have hmoves : Idles f w (w₂.queue (.resume f idle.nextToken .proceed)) :=
    ((idles_modifyFiber f w _).trans (idles_setFiber f w₁ _)).trans (idles_queue f w₂ _)
  refine ⟨_, prompt w₂ f idle.nextToken .proceed, hadvance, hmoves, ⟨⟨idle.nextToken, rfl, ⟨?_, hmap⟩⟩, ?_⟩, rfl⟩
  · refine ⟨_, Store.get?_set_of_some hget₁, ?_, rfl⟩
    obtain ⟨ops, token, cell, hcell, rfl⟩ := hvaries
    exact ⟨0, token + 1, cell, hcell, rfl⟩
  · exact Nat.le_of_eq (congrArg Time.nanos (deadline_prompt w₂ f _ _))

/-- It is enough to go on with a budget left. -/
theorem eventually_unspent (hcalm : Calm fiber)
    (hwork : (∃ p, m.control = .instruct p) ∨ ∃ e, m.control = .ofExit e)
    (hunconcerned : Unconcerned f K) (hyields : Yields f fiber refs K P)
    (k : ∀ w ts ops, K w ts → At f fiber refs ops w → ops < fiber.context.limits.maxOps →
      w.timers.live = ts → Moment.Eventually P ⟨w, some (f, m)⟩)
    (hK : K w ts) (hat : At f fiber refs ops w) (hlive : w.timers.live = ts) :
    Moment.Eventually P ⟨w, some (f, m)⟩ := by
  rcases Nat.lt_or_ge ops fiber.context.limits.maxOps with hlt | hge
  · exact k w ts ops hK hat hlt hlive
  · obtain ⟨w₁, t, hadvance, hidles, hyielded, hlive₁⟩ := advance_tired hcalm hwork hat hge
    rw [hlive] at hlive₁
    refine .of_tick ?_
    show Moment.Eventually P (w.advance f m)
    rw [hadvance]
    have hK₁ : K w₁ ts := hunconcerned w w₁ ts hK hidles fun u hu => by
      rw [hlive₁]
      exact Timers.mem_insert.mpr (Or.inr hu)
    refine hyields w₁ ts t m hK₁ hyielded hlive₁ fun w₂ ts₂ hK₂ hat₂ hlive₂ => ?_
    exact k w₂ ts₂ 0 hK₂ hat₂ hcalm.budget hlive₂

/-- The fiber gets to its goal. -/
theorem eventually_way (hcalm : Calm fiber) (hunconcerned : Unconcerned f K)
    (hyields : Yields f fiber refs K P)
    (hwork : (∃ p, goal.control = .instruct p) ∨ ∃ e, goal.control = .ofExit e)
    (k : ∀ w ts ops, K w ts → At f fiber refs ops w → ops < fiber.context.limits.maxOps →
      w.timers.live = ts → Moment.Eventually P ⟨w, some (f, goal)⟩)
    (hway : Way f fiber K goal m) (hK : K w ts) (hat : At f fiber refs ops w)
    (hlive : w.timers.live = ts) : Moment.Eventually P ⟨w, some (f, m)⟩ := by
  induction hway generalizing w ts ops with
  | here => exact eventually_unspent hcalm hwork hunconcerned hyields k hK hat hlive
  | @step m n hstrolls _ ih =>
      refine eventually_unspent hcalm hstrolls.work hunconcerned hyields ?_ hK hat hlive
      intro w ts ops hK hat hlt hlive
      have hcount : K (w.count f) ts := hunconcerned w _ ts hK (idles_modifyFiber f w _) fun u hu => by
        rw [← hlive] at hu
        exact hu
      obtain ⟨actual, hget, hvaries, rfl⟩ := hat.found
      refine .of_tick ?_
      show Moment.Eventually P (w.advance f m)
      rw [advance_of_free hget (free_of_stays (Or.inr hcalm.terminating) hvaries),
        hstrolls.step w ts actual hK hvaries (by rw [hvaries.context]; exact hlt)]
      exact ih hcount hat.count hlive

/-! ## Alone -/

/-- No company at all: what is known of the world outlasts the steps of the fiber. -/
def Alone (F : World σ → Prop) (w : World σ) (ts : List (Timer (Task σ))) : Prop := ts = [] ∧ F w

theorem unconcerned_alone {F : World σ → Prop} (hF : ∀ w w', F w → Idles f w w' → F w') :
    Unconcerned f (Alone F) := fun w w' _ hK hidles _ => ⟨hK.1, hF w w' hK.2 hidles⟩

/-- A fiber that is alone has its next turn at once. -/
theorem yields_alone {F : World σ → Prop} (hF : ∀ w w', F w → Idles f w w' → F w')
    (hrunning : fiber.phase = .running) : Yields f fiber refs (Alone F) P := by
  rintro w _ t m ⟨rfl, hw⟩ hyielded hlive k
  obtain ⟨w', hbegin, hat, hidles, hlive'⟩ := hyielded.begin hrunning []
  refine .of_tick ?_
  have htick : Moment.tick ⟨w, none⟩ = World.begin (w.withQueue []) t.task := by
    simp only [Moment.tick, hlive, Timers.insert, if_pos hyielded.due]
  rw [htick, hbegin]
  exact k w' [] ⟨rfl, hF w w' hw hidles⟩ hat hlive'

end Detour

end Fibers
