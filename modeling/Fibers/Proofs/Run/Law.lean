import Fibers.Proofs.Run.Order

set_option autoImplicit false

/-! # The law of a world

Three rules hold in every world that a run can reach. A claimed finalizer and the publication of
an exit are in store only for scopes that are not open any more. A frame, or a scope within a
scope, holds no handle but one that was given out. And a fiber that does not know of the closing
of its scope stands on the hooks of that scope, which is open. The first two are one statement:
the world keeps to the licence `law` that it gives itself.
-/

namespace Fibers.World

variable {σ : Type} {L : Licence} {actor : Option (Key .fiber)}

/-! ## Handles that were given out -/

/-- A handle that the scope has given out: its scope is there, and while that is open the key lies
below the next one. -/
def Issued (w : World σ) (h : Handle) : Prop :=
  ∃ sc, w.scopes.get? h.scope = some sc ∧
    ∀ fs hooks n, sc.state = .opened fs hooks n → h.key < n

/-- A scope that is not open any more. -/
def Sealed (w : World σ) (s : Key .scope) : Prop :=
  ∃ sc, w.scopes.get? s = some sc ∧ sc.isOpen = false

theorem ScopeState.Later.of_opened {φ : Type} {st : ScopeState φ} {fs : List (Nat × φ)}
    {hooks : List (Key .fiber)} {n : Nat} (h : st.Later (.opened fs hooks n)) :
    ∃ fs₀ hooks₀ n₀, st = .opened fs₀ hooks₀ n₀ ∧ n₀ ≤ n ∧ ∀ f ∈ hooks₀, f ∈ hooks := by
  cases st with
  | opened fs₀ hooks₀ n₀ => exact ⟨fs₀, hooks₀, n₀, rfl, h.1, h.2⟩
  | closing e u => exact h.elim
  | closed e => exact h.elim

theorem Issued.mono {w w' : World σ} {h : Handle} (hscopes : ScopesLater w w')
    (hissued : Issued w h) : Issued w' h := by
  obtain ⟨sc, hsc, hkey⟩ := hissued
  obtain ⟨sc', hsc', hlater⟩ := hscopes _ sc hsc
  refine ⟨sc', hsc', fun fs hooks n hstate => ?_⟩
  have hstates := hlater.state
  rw [hstate] at hstates
  obtain ⟨fs₀, hooks₀, n₀, heq, hle, -⟩ := ScopeState.Later.of_opened hstates
  exact Nat.lt_of_lt_of_le (hkey fs₀ hooks₀ n₀ heq) hle

theorem Sealed.mono {w w' : World σ} {s : Key .scope} (hscopes : ScopesLater w w')
    (hsealed : Sealed w s) : Sealed w' s := by
  obtain ⟨sc, hsc, hopen⟩ := hsealed
  obtain ⟨sc', hsc', hlater⟩ := hscopes _ sc hsc
  refine ⟨sc', hsc', ?_⟩
  cases hstate : sc'.state with
  | opened fs hooks n =>
      have hstates := hlater.state
      rw [hstate] at hstates
      obtain ⟨fs₀, hooks₀, n₀, heq, -, -⟩ := ScopeState.Later.of_opened hstates
      rw [Scope.isOpen, heq] at hopen
      cases hopen
  | closing e u => rw [Scope.isOpen, hstate]
  | closed e => rw [Scope.isOpen, hstate]

/-- A scope that reads as open is there. -/
theorem get_of_opened {w : World σ} {s : Key .scope} {fs : List (Nat × Finalizer σ)}
    {hooks : List (Key .fiber)} {n : Nat} (h : (w.scope s).state = .opened fs hooks n) :
    w.scopes.get? s = some (w.scope s) := by
  unfold World.scope at h ⊢
  cases hget : w.scopes.get? s with
  | none =>
      rw [hget] at h
      cases h
  | some sc => rfl

/-- What registering a finalizer at an open scope does. -/
theorem register_of_opened {w : World σ} {s : Key .scope} {fin : Finalizer σ}
    {fs : List (Nat × Finalizer σ)} {hooks : List (Key .fiber)} {n : Nat}
    (h : (w.scope s).state = .opened fs hooks n) :
    w.register s fin = ({ w with scopes := (w.scopes.set s
      { w.scope s with state := .opened (fs ++ [(n, fin)]) hooks (n + 1) }) }, some ⟨s, n⟩) := by
  simp only [register, Scope.register?, h]

/-- A scope that is not open refuses a finalizer. -/
theorem register_of_not_open {w : World σ} {s : Key .scope} {fin : Finalizer σ}
    (h : (w.scope s).isOpen = false) : w.register s fin = (w, none) := by
  unfold Scope.isOpen at h
  cases hstate : (w.scope s).state with
  | opened fs hooks n =>
      rw [hstate] at h
      cases h
  | closing e u => simp only [register, Scope.register?, hstate]
  | closed e => simp only [register, Scope.register?, hstate]

/-- A scope that takes a finalizer is open. -/
theorem not_sealed_of_register {w : World σ} {s : Key .scope} {fin : Finalizer σ} {h : Handle}
    (hreg : (w.register s fin).2 = some h) : ¬ Sealed w s := by
  rintro ⟨sc, hsc, hopen⟩
  have hshut : (w.scope s).isOpen = false := by
    rw [scope_of_get hsc]
    exact hopen
  rw [register_of_not_open hshut] at hreg
  cases hreg

/-- A handle is fresh when it is given out, and is for the scope that was asked. -/
theorem issued_register {w : World σ} {s : Key .scope} {fin : Finalizer σ} {h : Handle}
    (hreg : (w.register s fin).2 = some h) :
    h.scope = s ∧ Issued (w.register s fin).1 h ∧ ¬ Issued w h := by
  cases hstate : (w.scope s).state with
  | opened fs hooks n =>
      have hget := get_of_opened hstate
      rw [register_of_opened hstate] at hreg ⊢
      cases hreg
      refine ⟨rfl, ⟨_, Store.get?_set_of_some hget, ?_⟩, ?_⟩
      · intro fs' hooks' n' heq
        cases heq
        exact Nat.lt_succ_self n
      · rintro ⟨sc, hsc, hkey⟩
        rw [hget] at hsc
        cases hsc
        exact absurd (hkey fs hooks n hstate) (Nat.lt_irrefl n)
  | closing e u =>
      rw [register_of_not_open (by rw [Scope.isOpen, hstate])] at hreg
      cases hreg
  | closed e =>
      rw [register_of_not_open (by rw [Scope.isOpen, hstate])] at hreg
      cases hreg

/-! ## Keeping to a licence -/

theorem licensed_set_fiber {w : World σ} {f : Key .fiber} {x : Fiber σ} (hw : w.Licensed L)
    (hx : ¬ L.exempt f → x.phase.Licensed L) :
    World.Licensed L { w with fibers := w.fibers.set f x } := by
  refine ⟨fun g y hy hg => ?_, hw.finalizers, hw.parents, hw.futures, hw.tasks, hw.errands⟩
  rw [Store.get?_set] at hy
  split at hy
  · rename_i hfg
    obtain ⟨_, -, rfl⟩ := Option.map_eq_some_iff.mp hy
    exact hx fun hf => hg (hfg ▸ hf)
  · exact hw.machines g y hy hg

theorem licensed_set_scope {w : World σ} {s : Key .scope} {sc : Scope (Finalizer σ)}
    (hw : w.Licensed L) (hstate : sc.state.Licensed L)
    (hparent : ∀ h, sc.parent = some h → L.hold h) :
    World.Licensed L { w with scopes := w.scopes.set s sc } := by
  refine ⟨hw.machines, fun t sc' ht => ?_, fun t sc' h' ht hp => ?_, hw.futures, hw.tasks,
    hw.errands⟩
  · rw [Store.get?_set] at ht
    split at ht
    · obtain ⟨_, -, rfl⟩ := Option.map_eq_some_iff.mp ht
      exact hstate
    · exact hw.finalizers t sc' ht
  · rw [Store.get?_set] at ht
    split at ht
    · obtain ⟨_, -, rfl⟩ := Option.map_eq_some_iff.mp ht
      exact hparent h' hp
    · exact hw.parents t sc' h' ht hp

/-- The parts of a scope, of one that was never made too. -/
theorem licensed_scope {w : World σ} (hw : w.Licensed L) (s : Key .scope) :
    (w.scope s).state.Licensed L ∧ ∀ h, (w.scope s).parent = some h → L.hold h := by
  unfold World.scope
  cases hget : w.scopes.get? s with
  | none => exact ⟨trivial, fun h hp => by cases hp⟩
  | some sc => exact ⟨hw.finalizers s sc hget, fun h hp => hw.parents s sc h hget hp⟩

theorem licensed_scopeClosing {w : World σ} (hw : w.Licensed L) (f : Key .fiber) :
    (w.scopeClosing f).Licensed L := by
  have hmodify : (w.modifyFiber f fun fiber => { fiber with terminating := true }).Licensed L := by
    refine ⟨fun g y hy hg => ?_, hw.finalizers, hw.parents, hw.futures, hw.tasks, hw.errands⟩
    rw [modifyFiber, Store.get?_modify] at hy
    split at hy
    · obtain ⟨x, hx, rfl⟩ := Option.map_eq_some_iff.mp hy
      exact hw.machines g x hx hg
    · exact hw.machines g y hy hg
  unfold scopeClosing
  dsimp only
  split
  · exact hmodify
  · split
    · exact licensed_queue hmodify trivial
    · exact hmodify

theorem licensed_foldl {α : Type} {g : World σ → α → World σ}
    (h : ∀ w a, w.Licensed L → (g w a).Licensed L) (as : List α) {w : World σ}
    (hw : w.Licensed L) : (as.foldl g w).Licensed L := by
  induction as generalizing w with
  | nil => exact hw
  | cons a rest ih => exact ih (h w a hw)

theorem licensed_register {w : World σ} {s : Key .scope} {fin : Finalizer σ} (hw : w.Licensed L)
    (hfin : fin.Licensed L) : (w.register s fin).1.Licensed L := by
  unfold register
  split
  · rename_i sc key heq
    obtain ⟨hstate, hparent⟩ := licensed_scope hw s
    unfold Scope.register? at heq
    split at heq
    · rename_i fs hooks n hopen
      cases heq
      rw [hopen] at hstate
      refine licensed_set_scope hw (fun x hx => ?_) hparent
      rcases List.mem_append.mp hx with hx | hx
      · exact hstate x hx
      · rw [List.mem_singleton.mp hx]
        exact hfin
    · cases heq
  · exact hw

theorem licensed_takeFinalizer {w : World σ} (hw : w.Licensed L) (h : Handle) :
    (w.takeFinalizer h).1.Licensed L := by
  unfold takeFinalizer
  split
  · rename_i sc fin heq
    obtain ⟨hstate, hparent⟩ := licensed_scope hw h.scope
    unfold Scope.take? at heq
    split at heq
    · rename_i fs hooks n hopen
      obtain ⟨x, -, hx⟩ := Option.map_eq_some_iff.mp heq
      cases hx
      rw [hopen] at hstate
      exact licensed_set_scope hw (fun y hy => hstate y (List.mem_filter.mp hy).1) hparent
    · cases heq
  · exact hw

theorem licensed_requestClose {w : World σ} (hw : w.Licensed L) (s : Key .scope) (e : AnyExit) :
    (w.requestClose s e).1.Licensed L := by
  unfold requestClose
  split
  · exact hw
  · rename_i sc closing heq
    have hset : World.Licensed L { w with scopes := w.scopes.set s sc } := by
      obtain ⟨hstate, -⟩ := licensed_scope hw s
      unfold Scope.requestClose? at heq
      split at heq
      · rename_i fs hooks n hopen
        cases heq
        rw [hopen] at hstate
        exact licensed_set_scope hw hstate fun h hp => by cases hp
      · cases heq
    refine licensed_foldl (fun w f hw => licensed_scopeClosing hw f) closing.hooks ?_
    split
    · exact licensed_takeFinalizer hset _
    · exact hset

theorem licensed_newScope {w : World σ} (hw : w.Licensed L) (owner : FiberId)
    (strategy : Strategy) : (w.newScope owner strategy).1.Licensed L := by
  refine ⟨hw.machines, fun t sc ht => ?_, fun t sc h ht hp => ?_, hw.futures, hw.tasks,
    hw.errands⟩
  · simp only [newScope, Store.get?_add] at ht
    split at ht
    · cases ht
      exact fun x hx => by cases hx
    · exact hw.finalizers t sc ht
  · simp only [newScope, Store.get?_add] at ht
    split at ht
    · cases ht
      cases hp
    · exact hw.parents t sc h ht hp

theorem licensed_forkScope {w : World σ} (hw : w.Licensed L) (s : Key .scope) (owner : FiberId)
    (hnew : ∀ h, ¬ Issued w h → Issued (w.forkScope s owner).1 h → L.hold h) :
    (w.forkScope s owner).1.Licensed L := by
  set made := w.newScope owner (w.scope s).strategy with hmade
  set kept := made.1.register s (.closeChild made.2 (w.scope s).owner) with hkept
  have hkeptLicensed : kept.1.Licensed L :=
    licensed_register (licensed_newScope hw _ _) .closeChild
  have hhold : ∀ h, kept.2 = some h → L.hold h := by
    intro h hh
    obtain ⟨-, hissued, hfresh⟩ := issued_register hh
    have hbefore : Grows none w made.1 := grows_newScope w _ _
    have hafter : Grows none kept.1 (w.forkScope s owner).1 :=
      grows_modify_scope fun sc => ⟨rfl, rfl, .refl _⟩
    exact hnew h (fun hold => hfresh (hold.mono hbefore.scopes)) (hissued.mono hafter.scopes)
  refine ⟨hkeptLicensed.machines, fun t sc ht => ?_, fun t sc h ht hp => ?_,
    hkeptLicensed.futures, hkeptLicensed.tasks, hkeptLicensed.errands⟩
  · simp only [forkScope, Store.get?_modify] at ht
    split at ht
    · obtain ⟨sc₀, hsc₀, rfl⟩ := Option.map_eq_some_iff.mp ht
      exact hkeptLicensed.finalizers t sc₀ hsc₀
    · exact hkeptLicensed.finalizers t sc ht
  · simp only [forkScope, Store.get?_modify] at ht
    split at ht
    · obtain ⟨sc₀, hsc₀, rfl⟩ := Option.map_eq_some_iff.mp ht
      exact hhold h hp
    · exact hkeptLicensed.parents t sc h ht hp

theorem licensed_hook {w : World σ} (hw : w.Licensed L) (s : Key .scope) (f : Key .fiber) :
    (w.hook s f).Licensed L := by
  unfold hook
  split
  · rename_i sc heq
    obtain ⟨hstate, hparent⟩ := licensed_scope hw s
    unfold Scope.hook? at heq
    split at heq
    · rename_i fs hooks n hopen
      cases heq
      rw [hopen] at hstate
      exact licensed_set_scope hw hstate hparent
    · cases heq
  · exact licensed_scopeClosing hw f

theorem licensed_newFiber {w : World σ} (hw : w.Licensed L) (c : Context) (s : Key .scope)
    {p : Program σ} (services : Services) (inherited : List Frame)
    (hp : ¬ L.exempt (w.newFiber c s p services inherited).2 → p.Licensed L) :
    (w.newFiber c s p services inherited).1.Licensed L := by
  simp only [newFiber]
  refine licensed_hook (w := { (w.newSemaphore c.concurrency).1 with fibers := _ })
    ⟨fun g x hx hg => ?_, hw.finalizers, hw.parents, hw.futures, hw.tasks,
    hw.errands⟩ s _
  rw [Store.get?_add] at hx
  split at hx
  · rename_i hkey
    cases hx
    refine ⟨hp ?_, (fun y hy => by cases hy), fun _ _ => rfl⟩
    rw [show (w.newFiber c s p services inherited).2 = g from hkey.symm]
    exact hg
  · exact hw.machines g x hx hg

theorem licensed_startFiber {w : World σ} (hw : w.Licensed L) (f : Key .fiber) :
    (w.startFiber f).Licensed L := by
  unfold startFiber
  split
  · exact hw
  · rename_i x hx
    split
    · rename_i m hphase
      have hm : ¬ L.exempt f → m.Licensed L := by
        intro hf
        have hlicensed := hw.machines f x hx hf
        rw [hphase] at hlicensed
        exact hlicensed
      exact licensed_queue (licensed_set_fiber hw hm) trivial
    · exact hw

theorem licensed_publish {w : World σ} (hw : w.Licensed L) (s : Key .scope) (e : AnyExit) :
    (w.publish s e).Licensed L := by
  have hset : World.Licensed L { w with scopes := w.scopes.set s ((w.scope s).publish e).1 } := by
    obtain ⟨-, hparent⟩ := licensed_scope hw s
    unfold Scope.publish
    split
    · exact licensed_set_scope hw trivial hparent
    · exact licensed_set_scope hw trivial hparent
  exact (serve_wakes .succeed _ _).2.2.1 hset

theorem licensed_touch {w : World σ} {f : Key .fiber} {x x' : Fiber σ}
    (hx : w.fibers.get? f = some x) (ht : Touches x x') (hw : w.Licensed L) :
    World.Licensed L { w with fibers := w.fibers.set f x' } := by
  refine licensed_set_fiber hw ?_
  rw [ht.rest]
  exact hw.machines f x hx

/-- Elementary changes keep a world within the licence, provided that it covers the handles they
give out. -/
theorem Change.licensed {w w' : World σ} (h : Change L actor w w')
    (hnew : ∀ h, ¬ Issued w h → Issued w' h → L.hold h) (hw : w.Licensed L) :
    w'.Licensed L := by
  cases h with
  | elsewhere he => exact he.licensed hw
  | touch hx ht => exact licensed_touch hx ht hw
  | contest _ hthere h =>
      clear hnew hthere
      induction h with
      | refl => exact hw
      | tail _ hstep ih =>
          cases hstep with
          | elsewhere he => exact he.licensed ih
          | touch hx ht => exact licensed_touch hx ht ih
  | @own f x x' hactor hx ho =>
      refine licensed_set_fiber hw ?_
      rw [ho]
      exact hw.machines f x hx
  | enlist _ _ hp => exact licensed_newFiber hw _ _ _ _ hp
  | launch => exact licensed_startFiber hw _
  | newScope => exact licensed_newScope hw _ _
  | forkScope => exact licensed_forkScope hw _ _ hnew
  | register hfin => exact licensed_register hw hfin
  | take => exact licensed_takeFinalizer hw _
  | lent =>
      unfold takeLent
      split
      · exact licensed_takeFinalizer hw _
      · exact hw
  | @claim s sc e fins _ hclaim =>
      obtain ⟨-, hparent⟩ := licensed_scope hw s
      unfold Scope.claim? at hclaim
      split at hclaim
      · cases hclaim
        exact licensed_set_scope hw trivial hparent
      · cases hclaim
  | close => exact licensed_requestClose hw _ _
  | publish => exact licensed_publish hw _ _

theorem Changes.licensed {w w' : World σ} (h : Changes L actor w w')
    (hnew : ∀ h, ¬ Issued w h → Issued w' h → L.hold h) (hw : w.Licensed L) :
    w'.Licensed L := by
  induction h with
  | refl => exact hw
  | @tail w₁ w₂ hfirst hstep ih =>
      have hw₁ : w₁.Licensed L := by
        refine ih fun h hold hissued => hnew h hold (hissued.mono hstep.grows.scopes)
      refine hstep.licensed (fun h hold hissued => hnew h (fun h₀ => hold ?_) hissued) hw₁
      exact h₀.mono (Changes.grows hfirst).scopes

/-! ## Hooks -/

/-- Every fiber outside `P` that has not been told so stands on the hooks of its scope, which is
open. -/
def HookedBut (P : Key .fiber → Prop) (w : World σ) : Prop :=
  ∀ f x, w.fibers.get? f = some x → ¬ P f → x.terminating = false →
    ∃ sc fs hooks n, w.scopes.get? x.scope = some sc ∧ sc.state = .opened fs hooks n ∧ f ∈ hooks

/-- Every fiber that has not been told so stands on the hooks of its scope, which is open. -/
def Hooked (w : World σ) : Prop := HookedBut (fun _ => False) w

/-- A fiber whose scope is not open knows it. -/
theorem Hooked.terminating {w : World σ} (h : Hooked w) {f : Key .fiber} {x : Fiber σ}
    (hx : w.fibers.get? f = some x) (hsealed : Sealed w x.scope) : x.terminating = true := by
  cases hterm : x.terminating with
  | true => rfl
  | false =>
      obtain ⟨sc, fs, hooks, n, hsc, hstate, -⟩ := h f x hx id hterm
      obtain ⟨sc', hsc', hopen⟩ := hsealed
      rw [hsc] at hsc'
      cases hsc'
      rw [Scope.isOpen, hstate] at hopen
      cases hopen

section

variable {P : Key .fiber → Prop}

/-- What a change has to keep so that the fibers stay hooked: it makes no fibers and leaves the
open scopes open. -/
theorem HookedBut.of_keeps {w w' : World σ} (hw : HookedBut P w)
    (hfibers : ∀ f x', w'.fibers.get? f = some x' → x'.terminating = false →
      ∃ x, w.fibers.get? f = some x ∧ x.scope = x'.scope ∧ x.terminating = false)
    (hscopes : ∀ s sc fs hooks n, w.scopes.get? s = some sc → sc.state = .opened fs hooks n →
      ∃ sc' fs' hooks' n', w'.scopes.get? s = some sc' ∧ sc'.state = .opened fs' hooks' n' ∧
        ∀ f ∈ hooks, f ∈ hooks') : HookedBut P w' := by
  intro f x' hx' hP hterm
  obtain ⟨x, hx, hscope, hterm'⟩ := hfibers f x' hx' hterm
  obtain ⟨sc, fs, hooks, n, hsc, hstate, hmem⟩ := hw f x hx hP hterm'
  obtain ⟨sc', fs', hooks', n', hsc', hstate', hsub⟩ := hscopes _ sc fs hooks n hsc hstate
  exact ⟨sc', fs', hooks', n', by rw [← hscope]; exact hsc', hstate', hsub f hmem⟩

theorem HookedBut.of_eq {w w' : World σ} (hw : HookedBut P w) (hfibers : w'.fibers = w.fibers)
    (hscopes : w'.scopes = w.scopes) : HookedBut P w' := by
  unfold HookedBut
  rw [hfibers, hscopes]
  exact hw

theorem hooked_set_fiber {w : World σ} {f : Key .fiber} {x x' : Fiber σ} (hw : HookedBut P w)
    (hx : w.fibers.get? f = some x) (hscope : x'.scope = x.scope)
    (hterm : x'.terminating = x.terminating) :
    HookedBut P { w with fibers := w.fibers.set f x' } := by
  refine hw.of_keeps (fun g y hy ht => ?_) fun s sc fs hooks n hsc hstate =>
    ⟨sc, fs, hooks, n, hsc, hstate, fun _ h => h⟩
  rw [Store.get?_set] at hy
  split at hy
  · rename_i hfg
    subst hfg
    obtain ⟨_, -, rfl⟩ := Option.map_eq_some_iff.mp hy
    exact ⟨x, hx, hscope.symm, hterm ▸ ht⟩
  · exact ⟨y, hy, rfl, ht⟩

/-- A change of one scope that leaves it open, if it is open, with its hooks. -/
theorem hooked_set_scope {w : World σ} {s : Key .scope} {sc' : Scope (Finalizer σ)}
    (hw : HookedBut P w) (h : ∀ fs hooks n, (w.scope s).state = .opened fs hooks n →
      ∃ fs' hooks' n', sc'.state = .opened fs' hooks' n' ∧ ∀ f ∈ hooks, f ∈ hooks') :
    HookedBut P { w with scopes := w.scopes.set s sc' } := by
  refine hw.of_keeps (fun g y hy ht => ⟨y, hy, rfl, ht⟩) fun t sc fs hooks n hsc hstate => ?_
  by_cases hst : s = t
  · subst hst
    rw [← scope_of_get hsc] at hstate
    obtain ⟨fs', hooks', n', hstate', hsub⟩ := h fs hooks n hstate
    exact ⟨sc', fs', hooks', n', Store.get?_set_of_some hsc,
      hstate', hsub⟩
  · exact ⟨sc, fs, hooks, n, by rw [Store.get?_set, if_neg hst, hsc], hstate, fun _ h => h⟩

theorem hooked_register {w : World σ} (hw : HookedBut P w) (s : Key .scope)
    (fin : Finalizer σ) : HookedBut P (w.register s fin).1 := by
  unfold register
  split
  · rename_i sc key heq
    unfold Scope.register? at heq
    split at heq
    · rename_i fs hooks n hstate
      cases heq
      refine hooked_set_scope hw fun fs' hooks' n' h => ?_
      rw [hstate] at h
      cases h
      exact ⟨_, _, _, rfl, fun _ h => h⟩
    · cases heq
  · exact hw

theorem hooked_takeFinalizer {w : World σ} (hw : HookedBut P w) (h : Handle) :
    HookedBut P (w.takeFinalizer h).1 := by
  unfold takeFinalizer
  split
  · rename_i sc fin heq
    unfold Scope.take? at heq
    split at heq
    · rename_i fs hooks n hstate
      obtain ⟨x, -, hx⟩ := Option.map_eq_some_iff.mp heq
      cases hx
      refine hooked_set_scope hw fun fs' hooks' n' h => ?_
      rw [hstate] at h
      cases h
      exact ⟨_, _, _, rfl, fun _ h => h⟩
    · cases heq
  · exact hw

theorem hooked_newScope {w : World σ} (hw : HookedBut P w) (owner : FiberId)
    (strategy : Strategy) : HookedBut P (w.newScope owner strategy).1 :=
  hw.of_keeps (fun _ y hy ht => ⟨y, hy, rfl, ht⟩) fun _ sc fs hooks n hsc hstate =>
    ⟨sc, fs, hooks, n, Store.get?_add_of_some _ hsc, hstate, fun _ h => h⟩

theorem hooked_forkScope {w : World σ} (hw : HookedBut P w) (s : Key .scope) (owner : FiberId) :
    HookedBut P (w.forkScope s owner).1 := by
  have hkept : HookedBut P ((w.newScope owner (w.scope s).strategy).1.register s
      (.closeChild (w.newScope owner (w.scope s).strategy).2 (w.scope s).owner)).1 :=
    hooked_register (hooked_newScope hw _ _) _ _
  refine hkept.of_keeps (fun _ y hy ht => ⟨y, hy, rfl, ht⟩) fun t sc fs hooks n hsc hstate => ?_
  simp only [forkScope, Store.get?_modify, hsc, Option.map_some]
  split
  · exact ⟨_, fs, hooks, n, rfl, hstate, fun _ h => h⟩
  · exact ⟨sc, fs, hooks, n, rfl, hstate, fun _ h => h⟩

/-- A fiber that is told needs no hook. -/
theorem hooked_scopeClosing {w : World σ} {f : Key .fiber}
    (hw : HookedBut (fun g => P g ∨ g = f) w) : HookedBut P (w.scopeClosing f) := by
  intro g x hx hP hterm
  rw [get?_scopeClosing] at hx
  rw [scopes_scopeClosing]
  split at hx
  · obtain ⟨y, -, rfl⟩ := Option.map_eq_some_iff.mp hx
    cases hterm
  · rename_i hfg
    refine hw g x hx ?_ hterm
    rintro (h | h)
    · exact hP h
    · exact hfg h.symm

theorem hooked_scopesClosing (fs : List (Key .fiber)) {w : World σ}
    (hw : HookedBut (fun g => P g ∨ g ∈ fs) w) : HookedBut P (fs.foldl scopeClosing w) := by
  induction fs generalizing w with
  | nil =>
      intro g x hx hP
      exact hw g x hx fun h => hP (h.resolve_right List.not_mem_nil)
  | cons f rest ih =>
      refine ih (hooked_scopeClosing fun g x hx hP => hw g x hx fun h => hP ?_)
      rcases h with h | h
      · exact Or.inl (Or.inl h)
      · rcases List.mem_cons.mp h with rfl | h
        · exact Or.inr rfl
        · exact Or.inl (Or.inr h)

end

/-- The request to close a scope reaches all that stand on its hooks. -/
theorem hooked_requestClose {w : World σ} (hw : Hooked w) (s : Key .scope) (e : AnyExit) :
    Hooked (w.requestClose s e).1 := by
  unfold requestClose
  split
  · exact hw
  · rename_i sc' closing heq
    unfold Scope.requestClose? at heq
    split at heq
    · rename_i fs hooks n hstate
      cases heq
      have hset : HookedBut (fun g => False ∨ g ∈ hooks) { w with scopes := (w.scopes.set s
          { w.scope s with state := .closing e (some fs), parent := none }) } := by
        intro f x hx hP hterm
        obtain ⟨sc, fs', hooks', n', hsc, hstate', hmem⟩ := hw f x hx id hterm
        by_cases hscope : s = x.scope
        · subst hscope
          rw [← scope_of_get hsc, hstate] at hstate'
          cases hstate'
          exact absurd (Or.inr hmem) hP
        · exact ⟨sc, fs', hooks', n', by rw [Store.get?_set, if_neg hscope, hsc], hstate', hmem⟩
      refine hooked_scopesClosing hooks ?_
      split
      · exact hooked_takeFinalizer hset _
      · exact hset
    · cases heq

/-- A fiber is hooked by its own hanging on its scope, or else it is told. -/
theorem hooked_hook {w : World σ} {s : Key .scope} {f : Key .fiber}
    (hw : HookedBut (fun g => False ∨ g = f) w)
    (hscope : ∀ x, w.fibers.get? f = some x → x.scope = s) : Hooked (w.hook s f) := by
  unfold hook
  split
  · rename_i sc' heq
    unfold Scope.hook? at heq
    split at heq
    · rename_i fs hooks n hstate
      cases heq
      intro g x hx _ hterm
      by_cases hgf : g = f
      · subst hgf
        refine ⟨{ w.scope s with state := .opened fs (hooks ++ [g]) n }, fs, hooks ++ [g], n, ?_,
          rfl, List.mem_append_right _ List.mem_cons_self⟩
        rw [hscope x hx, Store.get?_set_of_some (get_of_opened hstate)]
      · have hset : HookedBut (fun g => False ∨ g = f) { w with scopes := (w.scopes.set s
            { w.scope s with state := .opened fs (hooks ++ [f]) n }) } := by
          refine hooked_set_scope hw fun fs' hooks' n' h => ?_
          rw [hstate] at h
          cases h
          exact ⟨_, _, _, rfl, fun _ h => List.mem_append_left _ h⟩
        exact hset g x hx (fun h => hgf (h.resolve_left id)) hterm
    · cases heq
  · exact hooked_scopeClosing hw

theorem hooked_newFiber {w : World σ} (hw : Hooked w) (c : Context) (s : Key .scope)
    (p : Program σ) (services : Services) (inherited : List Frame) :
    Hooked (w.newFiber c s p services inherited).1 := by
  simp only [newFiber]
  refine hooked_hook (fun g x hx hg hterm => ?_) fun x hx => ?_
  · rw [Store.get?_add, if_neg fun h => hg (Or.inr h)] at hx
    exact hw g x hx id hterm
  · rw [Store.get?_add, if_pos rfl] at hx
    cases hx
    rfl

/-- Elementary changes keep the fibers hooked, provided that no open scope is published. -/
theorem Change.hooked {w w' : World σ} (h : Change L actor w w')
    (hpublish : ∀ s, L.publish s → Sealed w s) (hw : Hooked w) : Hooked w' := by
  cases h with
  | elsewhere he => exact hw.of_eq he.fibers he.scopes
  | touch hx ht => exact hooked_set_fiber hw hx (by rw [ht.rest]) (by rw [ht.rest])
  | contest _ hthere h =>
      clear hthere
      induction h with
      | refl => exact hw
      | tail _ hstep ih =>
          cases hstep with
          | elsewhere he => exact ih.of_eq he.fibers he.scopes
          | touch hx ht => exact hooked_set_fiber ih hx (by rw [ht.rest]) (by rw [ht.rest])
  | @own f x x' hactor hx ho => exact hooked_set_fiber hw hx (by rw [ho]) (by rw [ho])
  | enlist => exact hooked_newFiber hw _ _ _ _ _
  | @launch f =>
      unfold startFiber
      split
      · exact hw
      · rename_i x hx
        split
        · rename_i m _
          have hset : Hooked { w with fibers := w.fibers.set f (x.park m).1 } :=
            hooked_set_fiber hw hx rfl rfl
          exact HookedBut.of_eq hset rfl rfl
        · exact hw
  | newScope => exact hooked_newScope hw _ _
  | forkScope => exact hooked_forkScope hw _ _
  | register => exact hooked_register hw _ _
  | take => exact hooked_takeFinalizer hw _
  | lent =>
      unfold takeLent
      split
      · exact hooked_takeFinalizer hw _
      · exact hw
  | close => exact hooked_requestClose hw _ _
  | @claim s sc e fins _ hclaim =>
      refine hooked_set_scope hw fun fs hooks n hstate => ?_
      unfold Scope.claim? at hclaim
      rw [hstate] at hclaim
      cases hclaim
  | @publish s e hs =>
      refine HookedBut.of_eq (hooked_set_scope hw fun fs hooks n hstate => ?_)
        (fibers_publish w s e) (scopes_publish w s e)
      obtain ⟨sc, hsc, hopen⟩ := hpublish s hs
      rw [← scope_of_get hsc, Scope.isOpen, hstate] at hopen
      cases hopen

theorem Changes.hooked {w w' : World σ} (h : Changes L actor w w')
    (hpublish : ∀ s, L.publish s → Sealed w s) (hw : Hooked w) : Hooked w' := by
  induction h with
  | refl => exact hw
  | @tail w₁ w₂ hfirst hstep ih =>
      exact hstep.hooked (fun s hs => (hpublish s hs).mono (Changes.grows hfirst).scopes) ih

/-! ## The law -/

/-- The licence that a world gives itself: claimed finalizers and publications for the scopes that
are not open, and the handles that were given out. -/
def law (w : World σ) : Licence :=
  { finalize := fun h => Sealed w h.scope, publish := Sealed w, hold := Issued w, forget := True
    exempt := fun _ => False }

theorem law_mono {w w' : World σ} (h : ScopesLater w w') : w.law ≤ w'.law :=
  ⟨fun _ hs => hs.mono h, fun _ hs => hs.mono h, fun _ hi => hi.mono h, id⟩

theorem claimLicensed_law (w : World σ) (s : Key .scope) : ClaimLicensed w.law w s := by
  intro sc e fins h
  have hsealed : Sealed w s := by
    unfold World.scope at h
    cases hget : w.scopes.get? s with
    | none =>
        rw [hget] at h
        cases h
    | some sc₀ =>
        rw [hget] at h
        refine ⟨sc₀, hget, ?_⟩
        simp only [Option.getD_some, Scope.claim?] at h
        split at h
        · rename_i exit fs hstate
          rw [Scope.isOpen, hstate]
        · cases h
  exact ⟨hsealed, fun _ _ => hsealed⟩

/-- A world that keeps to its law, with its fibers hooked. -/
structure Lawful (w : World σ) : Prop where
  licensed : w.Licensed w.law
  hooked : Hooked w

end Fibers.World
