import Fibers.Proofs.Run.Law
import Fibers.Proofs.Scopes.Life

set_option autoImplicit false

/-! # What an elementary change does to a scope

A scope is reached by eight operations of its world. `Does` lists them with the event that each of
them is. Whatever else happens leaves the state of the scope alone. So every elementary change
`Passes` a few events of each scope, and the log of a scope stays a life of it.
-/

namespace Fibers.World

variable {σ : Type} {L : Licence} {actor : Option (Key .fiber)} {s : Key .scope}

/-! ## Events -/

/-- The state of a scope and the outcome that its waiters are told, if the scope was made. -/
def status (w : World σ) (s : Key .scope) :
    Option (ScopeState (Finalizer σ) × Option (Settled AnyExit)) :=
  (w.scopes.get? s).map fun sc => (sc.state, sc.closed.outcome?)

/-- An operation on a scope, with the event that it is. A finalizer is handed out if the caller is
given it; the fibers on the hooks are told in the course of the first request. -/
inductive Does (s : Key .scope) : World σ → ScopeEvent σ → World σ → Prop
  | register {w : World σ} {key : Nat} {fin : Finalizer σ} :
      (w.register s fin).2 = some ⟨s, key⟩ →
      Does s w (.registered key fin) (w.register s fin).1
  | take {w : World σ} {key : Nat} {fin : Finalizer σ} :
      (w.takeFinalizer ⟨s, key⟩).2 = some fin →
      Does s w (.taken key fin) (w.takeFinalizer ⟨s, key⟩).1
  | hook {w : World σ} {f : Key .fiber} :
      (w.scope s).isOpen = true → Does s w (.hooked f) (w.hook s f)
  | late {w : World σ} {f : Key .fiber} :
      w.Sealed s → Does s w (.late f) (w.hook s f)
  | request {w : World σ} {e : AnyExit} {sc : Scope (Finalizer σ)} {c : Scope.Closing} :
      (w.scope s).requestClose? e = some (sc, c) →
      Does s w (.requested e c.hooks) (w.requestClose s e).1
  | refuse {w : World σ} {e : AnyExit} :
      w.Sealed s → (w.requestClose s e).2 = false → Does s w (.refused e) (w.requestClose s e).1
  | claim {w : World σ} {e : AnyExit} {sc : Scope (Finalizer σ)} {fins : List (Nat × Finalizer σ)} :
      (w.scope s).claim? = some (sc, e, fins) →
      Does s w (.claimed fins) { w with scopes := w.scopes.set s sc }
  | publish {w : World σ} {e x : AnyExit} :
      (w.scope s).state = .closing x none → Does s w (.published e) (w.publish s e)

/-- From one world to another a scope passes a number of events. -/
inductive Passes (s : Key .scope) (w : World σ) : List (ScopeEvent σ) → World σ → Prop
  | refl : Passes s w [] w
  | unmoved {log : List (ScopeEvent σ)} {w₁ w₂ : World σ} : Passes s w log w₁ →
      w₂.status s = w₁.status s → Passes s w log w₂
  | made {log : List (ScopeEvent σ)} {w₁ w₂ : World σ} : Passes s w log w₁ →
      w₁.status s = none → w₂.status s = some (.opened [] [] 0, none) → Passes s w log w₂
  | does {log : List (ScopeEvent σ)} {ev : ScopeEvent σ} {w₁ w₂ : World σ} : Passes s w log w₁ →
      Does s w₁ ev w₂ → Passes s w (log ++ [ev]) w₂

theorem Passes.trans {w₁ w₂ w₃ : World σ} {log log' : List (ScopeEvent σ)}
    (h : Passes s w₁ log w₂) (h' : Passes s w₂ log' w₃) : Passes s w₁ (log ++ log') w₃ := by
  induction h' with
  | refl =>
      rw [List.append_nil]
      exact h
  | unmoved _ heq ih => exact ih.unmoved heq
  | made _ hnone hsome ih => exact ih.made hnone hsome
  | does _ hev ih =>
      rw [← List.append_assoc]
      exact ih.does hev

/-! ## What the operations do to the state -/

theorem status_of_get {w : World σ} {sc : Scope (Finalizer σ)} (h : w.scopes.get? s = some sc) :
    w.status s = some (sc.state, sc.closed.outcome?) := by
  rw [status, h, Option.map_some]

theorem status_of_eq {w w' : World σ} (h : w'.scopes = w.scopes) : w'.status s = w.status s := by
  rw [status, status, h]

/-- A scope is reached by what is put in its place. -/
theorem status_set {w : World σ} {t : Key .scope} {sc : Scope (Finalizer σ)} (hst : t ≠ s) :
    status { w with scopes := w.scopes.set t sc } s = w.status s := by
  rw [status, status, Store.get?_set, if_neg hst]

theorem status_set_self {w : World σ} {sc sc' : Scope (Finalizer σ)}
    (h : w.scopes.get? s = some sc) :
    status { w with scopes := w.scopes.set s sc' } s = some (sc'.state, sc'.closed.outcome?) :=
  status_of_get (Store.get?_set_of_some h)

theorem status_scopesClosing (fs : List (Key .fiber)) (w : World σ) :
    (fs.foldl scopeClosing w).status s = w.status s :=
  status_of_eq (foldl_keeps World.scopes scopeClosing (fun w f => scopes_scopeClosing w f) fs w)

/-- Registering at another scope. -/
theorem status_register {w : World σ} {t : Key .scope} {fin : Finalizer σ} (hst : t ≠ s) :
    (w.register t fin).1.status s = w.status s := by
  unfold register
  split
  · exact status_set hst
  · rfl

/-- Taking out of another scope, or in vain. -/
theorem status_takeFinalizer {w : World σ} {h : Handle}
    (hh : h.scope ≠ s ∨ (w.takeFinalizer h).2 = none) :
    (w.takeFinalizer h).1.status s = w.status s := by
  unfold takeFinalizer at hh ⊢
  split
  · rename_i sc fin heq
    rcases hh with hst | hnone
    · exact status_set hst
    · rw [heq] at hnone
      cases hnone
  · rfl

theorem status_hook {w : World σ} {t : Key .scope} {f : Key .fiber}
    (ht : t ≠ s ∨ (w.scope t).isOpen = false) : (w.hook t f).status s = w.status s := by
  unfold hook
  split
  · rename_i sc heq
    rcases ht with hst | hclosed
    · exact status_set hst
    · unfold Scope.hook? at heq
      split at heq
      · rename_i hstate
        rw [Scope.isOpen, hstate] at hclosed
        cases hclosed
      · cases heq
  · exact status_of_eq (scopes_scopeClosing w f)

theorem register_of_some {w : World σ} {fin : Finalizer σ} {key : Nat}
    (h : (w.register s fin).2 = some ⟨s, key⟩) :
    ∃ sc fs hooks, w.scopes.get? s = some sc ∧ sc.state = .opened fs hooks key ∧
      (w.register s fin).1.status s =
        some (.opened (fs ++ [(key, fin)]) hooks (key + 1), sc.closed.outcome?) := by
  cases hstate : (w.scope s).state with
  | closing e u =>
      rw [register_of_not_open (by rw [Scope.isOpen, hstate])] at h
      cases h
  | closed e =>
      rw [register_of_not_open (by rw [Scope.isOpen, hstate])] at h
      cases h
  | opened fs hooks n =>
      have hget := get_of_opened hstate
      rw [register_of_opened hstate] at h ⊢
      cases h
      exact ⟨_, fs, hooks, hget, hstate, status_set_self hget⟩

theorem take_of_some {w : World σ} {key : Nat} {fin : Finalizer σ}
    (h : (w.takeFinalizer ⟨s, key⟩).2 = some fin) :
    ∃ sc fs hooks n, w.scopes.get? s = some sc ∧ sc.state = .opened fs hooks n ∧ (key, fin) ∈ fs ∧
      (w.takeFinalizer ⟨s, key⟩).1.status s =
        some (.opened (fs.filter (·.1 != key)) hooks n, sc.closed.outcome?) := by
  unfold takeFinalizer at h ⊢
  split at h
  · rename_i sc fin' heq
    obtain rfl : fin' = fin := Option.some.inj h
    unfold Scope.take? at heq
    split at heq
    · rename_i fs hooks n hstate
      obtain ⟨x, hx, hx'⟩ := Option.map_eq_some_iff.mp heq
      cases hx'
      have hget := get_of_opened hstate
      refine ⟨_, fs, hooks, n, hget, hstate, ?_, status_set_self hget⟩
      have hkey : x.1 = key := by simpa using List.find?_some hx
      rw [← hkey]
      exact List.mem_of_find?_eq_some hx
    · cases heq
  · cases h

/-- The first request freezes the finalizers and tells the hooks. -/
theorem requestClose_of_some {w : World σ} {e : AnyExit} {sc : Scope (Finalizer σ)}
    {c : Scope.Closing} (h : (w.scope s).requestClose? e = some (sc, c)) :
    ∃ sc₀ fs n, w.scopes.get? s = some sc₀ ∧ sc₀.state = .opened fs c.hooks n ∧
      (w.requestClose s e).2 = true ∧
      (w.requestClose s e).1.status s = some (.closing e (some fs), sc₀.closed.outcome?) := by
  unfold requestClose
  rw [h]
  unfold Scope.requestClose? at h
  split at h
  · rename_i fs hooks n hstate
    cases h
    have hget := get_of_opened hstate
    refine ⟨_, fs, n, hget, hstate, rfl, ?_⟩
    have hset : status { w with scopes := (w.scopes.set s
        { w.scope s with state := .closing e (some fs), parent := none }) } s =
        some (.closing e (some fs), (w.scope s).closed.outcome?) := status_set_self hget
    dsimp only
    rw [status_scopesClosing]
    split
    · rename_i h _
      refine Eq.trans (status_takeFinalizer ?_) hset
      -- a scope that is closing gives nothing, not even to itself
      by_cases hst : h.scope = s
      · right
        have hread : World.scope { w with scopes := (w.scopes.set s
            { w.scope s with state := .closing e (some fs), parent := none }) } h.scope =
            { w.scope s with state := .closing e (some fs), parent := none } := by
          rw [hst]
          exact scope_of_get (Store.get?_set_of_some hget)
        simp only [takeFinalizer, hread, Scope.take?]
      · exact Or.inl hst
    · exact hset
  · cases h

/-- A request that is not the first does nothing. -/
theorem requestClose_of_not_open {w : World σ} (h : (w.scope s).isOpen = false) (e : AnyExit) :
    w.requestClose s e = (w, false) := by
  rw [requestClose, ((w.scope s).requestClose?_eq_none_iff e).mpr h]

/-- Only a scope that is closing has finalizers to claim. -/
theorem claim_of_some {w : World σ} {e : AnyExit} {sc : Scope (Finalizer σ)}
    {fins : List (Nat × Finalizer σ)} (h : (w.scope s).claim? = some (sc, e, fins)) :
    ∃ sc₀, w.scopes.get? s = some sc₀ ∧ sc₀.state = .closing e (some fins) ∧
      sc = { sc₀ with state := .closing e none } := by
  cases hget : w.scopes.get? s with
  | none =>
      rw [World.scope, hget] at h
      cases h
  | some sc₀ =>
      rw [scope_of_get hget, Scope.claim?] at h
      split at h
      · rename_i exit fs hstate
        cases h
        exact ⟨sc₀, rfl, hstate, rfl⟩
      · cases h

/-! ## The log of a scope is a life of it -/

/-- What a scope's waiters are told in a state: the exit, once it is published. -/
def tells : ScopeState (Finalizer σ) → Option (Settled AnyExit)
  | .closed e => some (.resolved e)
  | _ => none

/-- The log is a life of the scope up to now; a scope that was not made has none. -/
def Lives (s : Key .scope) (log : List (ScopeEvent σ)) (w : World σ) : Prop :=
  match w.status s with
  | none => log = []
  | some (st, told) => Life log st ∧ told = tells st

theorem Lives.of_status {log : List (ScopeEvent σ)} {w w' : World σ} (h : Lives s log w)
    (hstatus : w'.status s = w.status s) : Lives s log w' := by
  rw [Lives, hstatus]
  exact h

theorem Lives.of_get {log : List (ScopeEvent σ)} {w : World σ} {sc : Scope (Finalizer σ)}
    (h : Lives s log w) (hsc : w.scopes.get? s = some sc) :
    Life log sc.state ∧ sc.closed.outcome? = tells sc.state := by
  rw [Lives, status_of_get hsc] at h
  exact h

theorem lives_of_status {log : List (ScopeEvent σ)} {w : World σ}
    {st : ScopeState (Finalizer σ)} {told : Option (Settled AnyExit)}
    (hstatus : w.status s = some (st, told)) (h : Life log st) (htold : told = tells st) :
    Lives s log w := by
  rw [Lives, hstatus]
  exact ⟨h, htold⟩

theorem isOpen_state (sc : Scope (Finalizer σ)) : sc.state.isOpen = sc.isOpen := by
  rw [Scope.isOpen]
  cases sc.state <;> rfl

/-- An operation adds its event to the life. -/
theorem Does.lives {log : List (ScopeEvent σ)} {ev : ScopeEvent σ} {w w' : World σ}
    (h : Does s w ev w') (hw : Lives s log w) : Lives s (log ++ [ev]) w' := by
  cases h with
  | register hreg =>
      obtain ⟨sc, fs, hooks, hsc, hstate, hstatus⟩ := register_of_some hreg
      obtain ⟨hlife, htold⟩ := hw.of_get hsc
      rw [hstate] at hlife htold
      exact lives_of_status hstatus hlife.register htold
  | take htake =>
      obtain ⟨sc, fs, hooks, n, hsc, hstate, hmem, hstatus⟩ := take_of_some htake
      obtain ⟨hlife, htold⟩ := hw.of_get hsc
      rw [hstate] at hlife htold
      exact lives_of_status hstatus (hlife.take hmem) htold
  | @hook f hopen =>
      cases hstate : (w.scope s).state with
      | closing e u =>
          rw [Scope.isOpen, hstate] at hopen
          cases hopen
      | closed e =>
          rw [Scope.isOpen, hstate] at hopen
          cases hopen
      | opened fs hooks n =>
          have hget := get_of_opened hstate
          obtain ⟨hlife, htold⟩ := hw.of_get hget
          rw [hstate] at hlife htold
          refine lives_of_status ?_ hlife.hook htold
          simp only [World.hook, Scope.hook?, hstate]
          exact status_set_self hget
  | late hsealed =>
      obtain ⟨sc, hsc, hopen⟩ := hsealed
      obtain ⟨hlife, htold⟩ := hw.of_get hsc
      refine lives_of_status ((status_hook ?_).trans (status_of_get hsc)) (hlife.late ?_) htold
      · rw [scope_of_get hsc]
        exact Or.inr hopen
      · rw [isOpen_state, hopen]
  | request hrequest =>
      obtain ⟨sc₀, fs, n, hsc, hstate, -, hstatus⟩ := requestClose_of_some hrequest
      obtain ⟨hlife, htold⟩ := hw.of_get hsc
      rw [hstate] at hlife htold
      exact lives_of_status hstatus hlife.request htold
  | refuse hsealed =>
      obtain ⟨sc, hsc, hopen⟩ := hsealed
      obtain ⟨hlife, htold⟩ := hw.of_get hsc
      rw [requestClose_of_not_open (by rw [scope_of_get hsc, hopen])]
      exact lives_of_status (status_of_get hsc) (hlife.refuse (by rw [isOpen_state, hopen])) htold
  | claim hclaim =>
      obtain ⟨sc₀, hget, hstate, rfl⟩ := claim_of_some hclaim
      obtain ⟨hlife, htold⟩ := hw.of_get hget
      rw [hstate] at hlife htold
      exact lives_of_status (status_set_self hget) hlife.claim htold
  | @publish e x hstate =>
      cases hget : w.scopes.get? s with
      | none =>
          rw [World.scope, hget] at hstate
          cases hstate
      | some sc₀ =>
          rw [scope_of_get hget] at hstate
          obtain ⟨hlife, htold⟩ := hw.of_get hget
          rw [hstate] at hlife htold
          have hstatus : (w.publish s e).status s = some (.closed e, some (.resolved e)) := by
            rw [status, scopes_publish, Store.get?_set, if_pos rfl, hget, scope_of_get hget,
              Scope.publish]
            -- a scope that is not closed has told nobody, so its cell is pending
            cases hcell : sc₀.closed with
            | pending os n => rfl
            | settled outcome =>
                rw [hcell] at htold
                cases htold
          exact lives_of_status hstatus hlife.publish rfl

/-- What a scope passes goes on with its life. -/
theorem Passes.lives {log new : List (ScopeEvent σ)} {w w' : World σ} (h : Passes s w new w')
    (hw : Lives s log w) : Lives s (log ++ new) w' := by
  induction h with
  | refl =>
      rw [List.append_nil]
      exact hw
  | unmoved _ hstatus ih => exact ih.of_status hstatus
  | made _ hnone hsome ih =>
      rw [Lives, hnone] at ih
      refine lives_of_status hsome ?_ rfl
      rw [show log ++ _ = [] from ih]
      exact .fresh
  | does _ hev ih =>
      rw [← List.append_assoc]
      exact hev.lives ih

/-! ## What an elementary change passes -/

/-- A scope passes events that are neither claims nor publications. -/
def Plainly (s : Key .scope) (w w' : World σ) : Prop :=
  ∃ log, Passes s w log w' ∧ ScopeEvent.claims log = [] ∧ ScopeEvent.publications log = []

theorem Plainly.refl (w : World σ) : Plainly s w w := ⟨[], .refl, rfl, rfl⟩

theorem Plainly.trans {w₁ w₂ w₃ : World σ} (h : Plainly s w₁ w₂) (h' : Plainly s w₂ w₃) :
    Plainly s w₁ w₃ := by
  obtain ⟨log, hpasses, hclaims, hpublications⟩ := h
  obtain ⟨log', hpasses', hclaims', hpublications'⟩ := h'
  refine ⟨log ++ log', hpasses.trans hpasses', ?_, ?_⟩
  · rw [ScopeEvent.claims_append, hclaims, hclaims', List.append_nil]
  · rw [ScopeEvent.publications_append, hpublications, hpublications', List.append_nil]

theorem plainly_of_status {w w' : World σ} (h : w'.status s = w.status s) : Plainly s w w' :=
  ⟨[], Passes.refl.unmoved h, rfl, rfl⟩

theorem Does.plainly {w w' : World σ} {ev : ScopeEvent σ} (h : Does s w ev w')
    (hclaims : ScopeEvent.claims [ev] = []) (hpublications : ScopeEvent.publications [ev] = []) :
    Plainly s w w' := ⟨[ev], Passes.refl.does h, hclaims, hpublications⟩

theorem plainly_register (w : World σ) (t : Key .scope) (fin : Finalizer σ) :
    Plainly s w (w.register t fin).1 := by
  by_cases hst : t = s
  · subst hst
    cases hstate : (w.scope t).state with
    | opened fs hooks n =>
        have hkey : (w.register t fin).2 = some ⟨t, n⟩ := by rw [register_of_opened hstate]
        exact (Does.register hkey).plainly rfl rfl
    | closing e u =>
        rw [register_of_not_open (by rw [Scope.isOpen, hstate])]
        exact .refl w
    | closed e =>
        rw [register_of_not_open (by rw [Scope.isOpen, hstate])]
        exact .refl w
  · exact plainly_of_status (status_register hst)

theorem plainly_takeFinalizer (w : World σ) (h : Handle) : Plainly s w (w.takeFinalizer h).1 := by
  obtain ⟨t, key⟩ := h
  cases htaken : (w.takeFinalizer ⟨t, key⟩).2 with
  | none => exact plainly_of_status (status_takeFinalizer (Or.inr htaken))
  | some fin =>
      by_cases hst : t = s
      · subst hst
        exact Does.plainly (.take htaken) rfl rfl
      · exact plainly_of_status (status_takeFinalizer (Or.inl hst))

theorem plainly_hook (w : World σ) (t : Key .scope) (f : Key .fiber) :
    Plainly s w (w.hook t f) := by
  by_cases hst : t = s
  · subst hst
    cases hopen : (w.scope t).isOpen with
    | true => exact Does.plainly (.hook hopen) rfl rfl
    | false =>
        cases hget : w.scopes.get? t with
        | none => exact plainly_of_status (status_hook (Or.inr hopen))
        | some sc =>
            rw [scope_of_get hget] at hopen
            exact Does.plainly (.late ⟨sc, hget, hopen⟩) rfl rfl
  · exact plainly_of_status (status_hook (Or.inl hst))

theorem plainly_requestClose (w : World σ) (t : Key .scope) (e : AnyExit) :
    Plainly s w (w.requestClose t e).1 := by
  cases hopen : (w.scope t).isOpen with
  | false =>
      have hrefused := requestClose_of_not_open hopen e
      by_cases hst : t = s
      · subst hst
        cases hget : w.scopes.get? t with
        | none =>
            rw [hrefused]
            exact .refl w
        | some sc =>
            rw [scope_of_get hget] at hopen
            exact Does.plainly (.refuse ⟨sc, hget, hopen⟩ (by rw [hrefused])) rfl rfl
      · rw [hrefused]
        exact .refl w
  | true =>
      cases hrequest : (w.scope t).requestClose? e with
      | none =>
          rw [((w.scope t).requestClose?_eq_none_iff e).mp hrequest] at hopen
          cases hopen
      | some closing =>
          obtain ⟨sc, c⟩ := closing
          by_cases hst : t = s
          · subst hst
            exact Does.plainly (.request hrequest) rfl rfl
          · simp only [requestClose, hrequest]
            have hset : Plainly s w { w with scopes := w.scopes.set t sc } :=
              plainly_of_status (status_set hst)
            refine Plainly.trans ?_ (plainly_of_status (status_scopesClosing c.hooks _))
            split
            · exact hset.trans (plainly_takeFinalizer _ _)
            · exact hset

theorem plainly_newScope (w : World σ) (owner : FiberId) (strategy : Strategy) :
    Plainly s w (w.newScope owner strategy).1 := by
  have hget := Store.get?_add w.scopes (Scope.new owner strategy) s
  split at hget
  · rename_i hnew
    have hmade : (w.newScope owner strategy).1.status s = some (.opened [] [] 0, none) := by
      rw [status_of_get hget]
      rfl
    refine ⟨[], Passes.refl.made ?_ hmade, rfl, rfl⟩
    rw [status, Option.map_eq_none_iff, hnew]
    simp [Store.get?, Store.add]
  · refine plainly_of_status ?_
    rw [status, status]
    exact congrArg (Option.map _) hget

theorem plainly_forkScope (w : World σ) (t : Key .scope) (owner : FiberId) :
    Plainly s w (w.forkScope t owner).1 := by
  have hkept : Plainly s w ((w.newScope owner (w.scope t).strategy).1.register t
      (.closeChild (w.newScope owner (w.scope t).strategy).2 (w.scope t).owner)).1 :=
    (plainly_newScope w _ _).trans (plainly_register _ _ _)
  refine hkept.trans (plainly_of_status ?_)
  simp only [status, forkScope, Store.get?_modify]
  split
  · simp [Option.map_map, Function.comp_def]
  · rfl

/-- An elementary change that may neither claim a scope nor publish its exit does neither. -/
theorem Change.plainly {w w' : World σ} (h : Change L actor w w') (hs : ¬ L.publish s) :
    Plainly s w w' := by
  cases h with
  | elsewhere he => exact plainly_of_status (status_of_eq he.scopes)
  | touch => exact plainly_of_status (status_of_eq rfl)
  | contest _ _ h => exact plainly_of_status (status_of_eq (scopes_of_opens h))
  | own => exact plainly_of_status (status_of_eq rfl)
  | @enlist c t p services inherited _ _ _ =>
      have hadd : ∀ x : Fiber σ, Plainly s w { (w.newSemaphore c.concurrency).1 with
        fibers := (w.fibers.add x).1 } := fun x => plainly_of_status (status_of_eq rfl)
      exact (hadd _).trans (plainly_hook _ t _)
  | @launch f =>
      refine plainly_of_status (status_of_eq ?_)
      unfold startFiber
      split
      · rfl
      · split
        · rfl
        · rfl
  | newScope => exact plainly_newScope w _ _
  | forkScope => exact plainly_forkScope w _ _
  | register => exact plainly_register w _ _
  | take => exact plainly_takeFinalizer w _
  | lent =>
      unfold takeLent
      split
      · exact plainly_takeFinalizer w _
      · exact .refl w
  | close => exact plainly_requestClose w _ _
  | @claim t sc e fins hpublish _ =>
      refine plainly_of_status (status_set ?_)
      rintro rfl
      exact hs hpublish
  | @publish t e hpublish =>
      have hst : t ≠ s := by
        rintro rfl
        exact hs hpublish
      refine plainly_of_status ?_
      rw [status, status, scopes_publish, Store.get?_set, if_neg hst]

theorem Changes.plainly {w w' : World σ} (h : Changes L actor w w') (hs : ¬ L.publish s) :
    Plainly s w w' := by
  induction h with
  | refl => exact .refl w
  | tail _ hstep ih => exact ih.trans (hstep.plainly hs)

end Fibers.World
