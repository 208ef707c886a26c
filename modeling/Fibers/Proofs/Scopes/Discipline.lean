import Fibers.Proofs.Run.Schedule
import Fibers.Proofs.Scopes.Custody

set_option autoImplicit false

/-! # The discipline of scopes

Along a run every scope has a log. Since its publication is in the hands of one fiber at most, the
log is a life of the scope. So the rules that hold of lives hold of every scope in every run, however
the fibers take turns: they are collected in `Discipline`.
-/

namespace Fibers

variable {σ : Type}

open ScopeEvent

/-! ## Stages -/

/-- How far a scope is in its life: open, closing, closed. -/
def ScopeState.stage {φ : Type} : ScopeState φ → Nat
  | .opened _ _ _ => 0
  | .closing _ _ => 1
  | .closed _ => 2

theorem ScopeState.Later.stage {φ : Type} {a b : ScopeState φ} (h : a.Later b) :
    a.stage ≤ b.stage := by
  cases a with
  | opened fs hooks n => exact Nat.zero_le _
  | closing e u =>
      cases b with
      | opened fs hooks n => exact h.elim
      | closing e' u' => exact Nat.le_refl _
      | closed e' => exact Nat.le_succ _
  | closed e =>
      cases b with
      | opened fs hooks n => exact h.elim
      | closing e' u' => exact h.elim
      | closed e' => exact Nat.le_refl _

/-! ## The log along a run -/

/-- The log of a scope in each moment of a run. -/
structure Run.Records (r : Run σ) (s : Key .scope) (log : Nat → List (ScopeEvent σ)) : Prop where
  start : log 0 = []
  move : ∀ k, ∃ new, log (k + 1) = log k ++ new ∧ (r.moment k).Logs s new (r.moment (k + 1))

theorem Run.exists_records (r : Run σ) (s : Key .scope) : ∃ log, r.Records s log := by
  have hmoves : ∀ k, ∃ new, (r.moment k).Logs s new (r.moment (k + 1)) := by
    intro k
    obtain ⟨keeper, hcustody, -⟩ := r.custody s k
    exact ((r.move k).custody (r.lawful k) (r.turned k) (r.attentive k) hcustody).2
  choose new hnew using hmoves
  refine ⟨fun k => (List.range k).flatMap new, rfl, fun k => ⟨new k, ?_, hnew k⟩⟩
  rw [List.range_succ, List.flatMap_append, List.flatMap_cons, List.flatMap_nil, List.append_nil]

variable {r : Run σ} {s : Key .scope} {log : Nat → List (ScopeEvent σ)}

namespace Run.Records

/-- The log is a life of the scope. -/
theorem lives (h : r.Records s log) (k : Nat) : World.Lives s (log k) (r.moment k).world := by
  induction k with
  | zero =>
      have hnone : (r.moment 0).world.status s = none := by
        rw [r.start]
        rfl
      rw [World.Lives, hnone]
      exact h.start
  | succ k ih =>
      obtain ⟨new, heq, hlogs⟩ := h.move k
      rw [heq]
      exact hlogs.passes.lives ih

theorem life (h : r.Records s log) {k : Nat} {sc : Scope (Finalizer σ)}
    (hsc : (r.moment k).world.scopes.get? s = some sc) :
    Life (log k) sc.state ∧ sc.closed.outcome? = World.tells sc.state := (h.lives k).of_get hsc

theorem grows (h : r.Records s log) {j k : Nat} (hjk : j ≤ k) : ∃ more, log k = log j ++ more := by
  induction hjk with
  | refl => exact ⟨[], (List.append_nil _).symm⟩
  | @step k _ ih =>
      obtain ⟨more, hmore⟩ := ih
      obtain ⟨new, hnew, -⟩ := h.move k
      exact ⟨more ++ new, by rw [hnew, hmore, List.append_assoc]⟩

/-- What happens at most once in the log happens in one move at most. -/
theorem once {α : Type} {read : List (ScopeEvent σ) → List α} (h : r.Records s log)
    (happend : ∀ a b, read (a ++ b) = read a ++ read b) (hread : ∀ k, (read (log k)).length ≤ 1)
    {i j : Nat} (hij : i < j) {new new' : List (ScopeEvent σ)} (hi : log (i + 1) = log i ++ new)
    (hj : log (j + 1) = log j ++ new') (hnew : read new ≠ []) : read new' = [] := by
  obtain ⟨more, hmore⟩ := h.grows (show i + 1 ≤ j from hij)
  have hbound := hread (j + 1)
  rw [hj, hmore, hi, happend, happend, happend] at hbound
  simp only [List.length_append] at hbound
  have hpositive : 0 < (read new).length := List.length_pos_of_ne_nil hnew
  exact List.length_eq_zero_iff.mp (by omega)

theorem at_most_once (h : r.Records s log) (k : Nat) :
    (claims (log k)).length ≤ 1 ∧ (publications (log k)).length ≤ 1 := by
  cases hget : (r.moment k).world.scopes.get? s with
  | none =>
      have hlives := h.lives k
      rw [World.Lives, World.status, hget] at hlives
      rw [show log k = [] from hlives]
      exact ⟨Nat.zero_le _, Nat.zero_le _⟩
  | some sc => exact (h.life hget).1.stage.at_most_once

/-- The finalizers of a scope are claimed in one move of a run at most. -/
theorem claims_unique (h : r.Records s log) {i j : Nat} {f g : Key .fiber}
    (hi : (r.moment i).Claims s f) (hj : (r.moment j).Claims s g) : i = j := by
  have hnever : ∀ {i j : Nat} {f g : Key .fiber}, i < j → (r.moment i).Claims s f →
      ¬ (r.moment j).Claims s g := by
    intro i j f g hij hi hj
    obtain ⟨new, hnew, hlogs⟩ := h.move i
    obtain ⟨new', hnew', hlogs'⟩ := h.move j
    exact hlogs'.claims.mpr ⟨g, hj⟩ (h.once claims_append (fun k => (h.at_most_once k).1) hij hnew
      hnew' (hlogs.claims.mpr ⟨f, hi⟩))
  rcases Nat.lt_trichotomy i j with hij | rfl | hij
  · exact absurd hj (hnever hij hi)
  · rfl
  · exact absurd hi (hnever hij hj)

/-- The exit of a scope is published in one move of a run at most. -/
theorem publishes_unique (h : r.Records s log) {i j : Nat} {f g : Key .fiber}
    (hi : (r.moment i).Publishes s f) (hj : (r.moment j).Publishes s g) : i = j := by
  have hnever : ∀ {i j : Nat} {f g : Key .fiber}, i < j → (r.moment i).Publishes s f →
      ¬ (r.moment j).Publishes s g := by
    intro i j f g hij hi hj
    obtain ⟨new, hnew, hlogs⟩ := h.move i
    obtain ⟨new', hnew', hlogs'⟩ := h.move j
    exact hlogs'.publications.mpr ⟨g, hj⟩ (h.once publications_append
      (fun k => (h.at_most_once k).2) hij hnew hnew' (hlogs.publications.mpr ⟨f, hi⟩))
  rcases Nat.lt_trichotomy i j with hij | rfl | hij
  · exact absurd hj (hnever hij hi)
  · rfl
  · exact absurd hi (hnever hij hj)

/-! ## Waiting for the exit -/

/-- What is told of a scope is the exit that was published, and that stays. -/
theorem exit_of_outcome (h : r.Records s log) {k : Nat} {o : Settled AnyExit}
    (ho : ((r.moment k).world.scope s).closed.outcome? = some o) :
    ∃ e, o = .resolved e ∧ ∀ l, k ≤ l → ((r.moment l).world.scope s).exit? = some e := by
  cases hget : (r.moment k).world.scopes.get? s with
  | none =>
      rw [World.scope, hget] at ho
      cases ho
  | some sc =>
      rw [World.scope_of_get hget] at ho
      obtain ⟨hlife, htold⟩ := h.life hget
      cases hstate : sc.state with
      | opened fs hs n =>
          rw [htold, hstate] at ho
          cases ho
      | closing e u =>
          rw [htold, hstate] at ho
          cases ho
      | closed e =>
          rw [htold, hstate] at ho
          obtain rfl : .resolved e = o := Option.some.inj ho
          refine ⟨e, rfl, fun l hkl => ?_⟩
          obtain ⟨sc', hsc', hlater⟩ := r.scopesLater hkl s sc hget
          have hstage := hlater.state.stage
          rw [hstate] at hlife hstage
          obtain ⟨-, -, -, -, hpublished, -⟩ := hlife.stage
          have hlife' := (h.life hsc').1
          cases hstate' : sc'.state with
          | opened fs hs n =>
              rw [hstate'] at hstage
              exact absurd hstage (by simp [ScopeState.stage])
          | closing e' u =>
              rw [hstate'] at hstage
              exact absurd hstage (by simp [ScopeState.stage])
          | closed e' =>
              rw [hstate'] at hlife'
              obtain ⟨-, -, -, -, hpublished', -⟩ := hlife'.stage
              -- the publication of the earlier moment is the one of the later
              obtain ⟨more, hmore⟩ := h.grows hkl
              rw [hmore, publications_append, hpublished] at hpublished'
              obtain rfl : e = e' := List.head_eq_of_cons_eq hpublished'
              rw [World.scope_of_get hsc', Scope.exit?, hstate']

end Run.Records

/-! ## Waiting -/

/-- A fiber that works on a wait is put aside, or goes on with what it waits for. -/
theorem World.advance_wait {w : World σ} {f : Key .fiber} {y : Fiber σ} {m : Machine σ}
    {a : Awaited} (h : Moment.Works ⟨w, some (f, m)⟩ f y m) (hm : m.control = .instruct (.wait a)) :
    (w.advance f m).machine? f = some m ∨ ∃ p : Program σ, w.settledProgram? a = some p ∧
      (w.advance f m).machine? f = some { m with control := .instruct p } := by
  have hcount : (w.count f).fibers.get? f = some { y with ops := y.ops + 1 } := get?_count h.fiber
  have hsettled : ((w.count f).park f { y with ops := 0 } m).1.settledProgram? a =
      w.settledProgram? a :=
    (settledProgram?_park (z := { y with ops := 0 }) hcount rfl m a).trans (settledProgram?_count h.fiber a)
  rw [advance_instruct h hm, instruct]
  simp only [conclude, hcount, Machine.holding, hsettled]
  split
  · left
    show parked? _ f = _
    rw [parked?_subscribe, parked?]
    rw [get?_park _ _ hcount]
    rfl
  · rename_i p hp
    exact Or.inr ⟨p, hp, if_pos rfl⟩

/-- A fiber that waits for the closing of a scope, the end of a fiber or the decision of a contest goes
on waiting, or it goes on with what that tells it, or it leaves its program. -/
theorem Run.waits_or_goes {k : Nat} {f : Key .fiber} {m : Machine σ} {a : Awaited}
    (hm : (r.moment k).machine? f = some m) (hwait : m.control = .instruct (.wait a))
    (hminds : m.control.Minds (· = a)) :
    (∃ y, (r.moment k).Leaves f y m) ∨ (r.moment (k + 1)).machine? f = some m ∨
      ∃ p, (r.moment k).world.settledProgram? a = some p ∧
        (r.moment (k + 1)).machine? f = some { m with control := .instruct p } := by
  rcases Moment.machine?_cases hm with hactive | ⟨haside, y, hy, hphase⟩
  · obtain ⟨y, hy, -⟩ := r.turned k f m hactive
    by_cases hleaves : (r.moment k).Leaves f y m
    · exact Or.inl ⟨y, hleaves⟩
    · right
      have hfree := Moment.free_of_not_leaves hactive hy hleaves
      rw [Run.advance_of_turn hactive]
      by_cases hbudget : y.ops < y.context.limits.maxOps
      · exact World.advance_wait ⟨rfl, hy, hfree, hbudget, Or.inl ⟨_, hwait⟩⟩ hwait
      · exact Or.inl (World.machine?_tired hy hfree (Or.inl ⟨_, hwait⟩) (Nat.le_of_not_lt hbudget))
  · right
    obtain ⟨y', hy', -, -, hmachine⟩ := (r.move k).aside (r.lawful k) haside hy
    rcases hmachine with heq | ⟨t, m', c, hsuspended, hc, hresumed⟩
    · exact Or.inl (heq.trans hm)
    · rw [hsuspended] at hphase
      obtain rfl : m' = m := Option.some.inj hphase
      rcases hc with rfl | ⟨p, hqueued, rfl⟩
      · exact Or.inl (Moment.machine?_of_active hresumed)
      · -- nobody else tells a fiber that waits anything
        obtain ⟨a', rfl, htells⟩ :=
          ((r.attentive k).waits f y t m' _ hy hsuspended hminds).queue p hqueued
        refine Or.inr ⟨p, ?_, Moment.machine?_of_active hresumed⟩
        cases a' with
        | closed s =>
            obtain ⟨sc, e, hsc, hcell, rfl⟩ := htells
            rw [World.settledProgram?, World.scope_of_get hsc, hcell]
            rfl
        | done g =>
            obtain ⟨x, e, hx, hexit, rfl⟩ := htells
            rw [World.settledProgram?, hx, Option.bind_some, hexit]
            rfl
        | decided d =>
            obtain ⟨c, e, hc, hcell, rfl⟩ := htells
            rw [World.settledProgram?, World.tally, hc, Option.getD_some, hcell]
            rfl
        | future g =>
            obtain ⟨settled, hf, rfl⟩ := htells
            rw [World.settledProgram?, World.future, hf]
            rfl

/-- A fiber that waits for the closing of a scope goes on waiting, or it goes on with the exit of the
scope, or it leaves its program. -/
theorem Run.Records.waiter (h : r.Records s log) {k : Nat} {f : Key .fiber} {m : Machine σ}
    (hm : (r.moment k).machine? f = some m) (hwait : m.control = .instruct (.wait (.closed s))) :
    (∃ y, (r.moment k).Leaves f y m) ∨ ∃ c, (r.moment (k + 1)).machine? f =
      some { m with control := c } ∧ (c = m.control ∨ ∃ e, c = .instruct (.succeed (.exit e)) ∧
        ∀ l, k < l → ((r.moment l).world.scope s).exit? = some e) := by
  have hminds : m.control.Minds (· = .closed s) := by
    rw [hwait]
    rfl
  rcases Run.waits_or_goes hm hwait hminds with hleaves | hstays | ⟨p, hp, hgoes⟩
  · exact Or.inl hleaves
  · exact Or.inr ⟨m.control, hstays, Or.inl rfl⟩
  · refine Or.inr ⟨_, hgoes, Or.inr ?_⟩
    rw [World.settledProgram?] at hp
    cases ho : ((r.moment k).world.scope s).closed.outcome? with
    | none =>
        rw [ho] at hp
        cases hp
    | some o =>
        obtain ⟨e, rfl, hexit⟩ := h.exit_of_outcome ho
        rw [ho] at hp
        cases hp
        exact ⟨e, rfl, fun l hl => hexit l (Nat.le_of_lt hl)⟩

/-! ## The rules -/

/-- The rules that a scope keeps to in a run, read off its log. -/
structure Run.Discipline (r : Run σ) (s : Key .scope) (log : Nat → List (ScopeEvent σ)) : Prop where
  /-- The log is a life that leads to the state of the scope. -/
  life : ∀ k sc, (r.moment k).world.scopes.get? s = some sc → Life (log k) sc.state
  /-- The scope goes from open to closing to closed, and never back. -/
  stages : ∀ j k sc sc', j ≤ k → (r.moment j).world.scopes.get? s = some sc →
    (r.moment k).world.scopes.get? s = some sc' → sc.state.stage ≤ sc'.state.stage
  /-- A request to close is granted if the scope is open. -/
  answer : ∀ (w : World σ) (e : AnyExit), (w.requestClose s e).2 = (w.scope s).isOpen
  /-- So exactly the first request is, and its exit is kept. -/
  requests : ∀ k sc, (r.moment k).world.scopes.get? s = some sc →
    sc.isOpen = true ∧ requests (log k) = [] ∨
      sc.isOpen = false ∧ ∃ e rest, requests (log k) = (e, true) :: rest ∧
        (∀ c ∈ rest, c.2 = false) ∧ ∀ e' u, sc.state = .closing e' u → e' = e
  /-- All that stand on the hooks, in time or late, are told once, and not while it is open. -/
  hooks : ∀ k sc, (r.moment k).world.scopes.get? s = some sc →
    told (log k) = if sc.isOpen then [] else hooks (log k)
  /-- No finalizer is handed out twice. -/
  handed : ∀ k, (handed (log k)).Nodup
  /-- The finalizers are claimed once, as they were registered and not taken out; the exit is
  published once, after that. -/
  stage : ∀ k sc, (r.moment k).world.scopes.get? s = some sc → Life.Stage (log k) sc.state
  /-- There is one claim in the whole run at most, -/
  claim : ∀ i j f g, (r.moment i).Claims s f → (r.moment j).Claims s g → i = j ∧ f = g
  /-- and one publication, -/
  publication : ∀ i j f g, (r.moment i).Publishes s f → (r.moment j).Publishes s g → i = j ∧ f = g
  /-- by the fiber that claimed before. -/
  owner : ∀ j g, (r.moment j).Publishes s g → ∃ i, i < j ∧ (r.moment i).Claims s g
  /-- Who waits for the closing goes on waiting, or goes on with the exit of the scope, or leaves its
  program. -/
  waiters : ∀ k f m, (r.moment k).machine? f = some m → m.control = .instruct (.wait (.closed s)) →
    (∃ y, (r.moment k).Leaves f y m) ∨ ∃ c, (r.moment (k + 1)).machine? f =
      some { m with control := c } ∧ (c = m.control ∨ ∃ e, c = .instruct (.succeed (.exit e)) ∧
        ∀ l, k < l → ((r.moment l).world.scope s).exit? = some e)

/-- A request is granted exactly if the scope is open. -/
theorem World.requestClose_answer (w : World σ) (s : Key .scope) (e : AnyExit) :
    (w.requestClose s e).2 = (w.scope s).isOpen := by
  cases hopen : (w.scope s).isOpen with
  | false => rw [requestClose_of_not_open hopen]
  | true =>
      cases hrequest : (w.scope s).requestClose? e with
      | none =>
          rw [((w.scope s).requestClose?_eq_none_iff e).mp hrequest] at hopen
          cases hopen
      | some closing =>
          obtain ⟨sc, c⟩ := closing
          obtain ⟨-, -, -, -, -, hgranted, -⟩ := requestClose_of_some hrequest
          exact hgranted

/-- Two moments at which one fiber works are works of that fiber in its turn. -/
theorem Moment.Works.unique {x : Moment σ} {f g : Key .fiber} {y z : Fiber σ} {m n : Machine σ}
    (h : x.Works f y m) (h' : x.Works g z n) : f = g := by
  have hactive := h.turn.symm.trans h'.turn
  injection hactive with hactive
  exact congrArg Prod.fst hactive

/-- Every scope keeps to the rules in every run. -/
theorem Run.discipline (r : Run σ) (s : Key .scope) :
    (∃ log, r.Records s log) ∧ ∀ log, r.Records s log → r.Discipline s log := by
  refine ⟨r.exists_records s, fun log h => ?_⟩
  have hnone : ∀ k, (r.moment k).world.scopes.get? s = none → log k = [] := by
    intro k hget
    have hlives := h.lives k
    rw [World.Lives, World.status, hget] at hlives
    exact hlives
  refine ⟨fun k sc hsc => (h.life hsc).1, fun j k sc sc' hjk hsc hsc' => ?_,
    fun w e => w.requestClose_answer s e, fun k sc hsc => ?_, fun k sc hsc => ?_, fun k => ?_,
    fun k sc hsc => (h.life hsc).1.stage, fun i j f g hi hj => ?_, fun i j f g hi hj => ?_,
    fun j g hj => r.claims_of_publishes hj, fun k f m hm hwait => h.waiter hm hwait⟩
  · obtain ⟨sc₁, hsc₁, hlater⟩ := r.scopesLater hjk s sc hsc
    obtain rfl : sc₁ = sc' := Option.some.inj (hsc₁.symm.trans hsc')
    exact hlater.state.stage
  · have hrequests := (h.life hsc).1.requests_eq
    rw [World.isOpen_state] at hrequests
    exact hrequests
  · have htold := (h.life hsc).1.told_eq
    rw [World.isOpen_state] at htold
    exact htold
  · cases hget : (r.moment k).world.scopes.get? s with
    | none =>
        rw [hnone k hget]
        exact List.nodup_nil
    | some sc => exact (h.life hget).1.handed_nodup
  · obtain rfl := h.claims_unique hi hj
    obtain ⟨y, m, hworks, -⟩ := hi
    obtain ⟨y', m', hworks', -⟩ := hj
    exact ⟨rfl, hworks.unique hworks'⟩
  · obtain rfl := h.publishes_unique hi hj
    obtain ⟨y, m, v, rest, hworks, -⟩ := hi
    obtain ⟨y', m', v', rest', hworks', -⟩ := hj
    exact ⟨rfl, hworks.unique hworks'⟩

/-- A program that cleans up. -/
def tidy : Program Nat := Program.unit.cleanup fun _ => .program .unit

/-- Its run. -/
def tidyRun : Run Nat :=
  .inOrder .standard 0 tidy (.ensuring .succeed (.apply fun _ => .program .succeed) rfl)

/-- The scope of the program is closed in the end, and has kept to the rules. -/
theorem tidy_discipline : ((tidyRun.moment 40).world.scope ⟨0⟩).isClosed = true ∧
    ∃ log, tidyRun.Records ⟨0⟩ log ∧ tidyRun.Discipline ⟨0⟩ log := by
  refine ⟨by rfl, ?_⟩
  obtain ⟨⟨log, hlog⟩, hall⟩ := tidyRun.discipline ⟨0⟩
  exact ⟨log, hlog, hall log hlog⟩

end Fibers
