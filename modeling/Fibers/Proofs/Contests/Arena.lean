import Fibers.Proofs.Run.Above

set_option autoImplicit false

/-! # Arenas leave their parents

A scope within a scope is registered there under a handle, and it remembers the handle for as long as it is
open. The first request to close it takes the handle out of the parent, and no handle comes back. So a scope
that is not open is not registered any more (`World.Tied`).
-/

namespace Fibers

variable {σ : Type} {L : Licence} {actor : Option (Key .fiber)} {s : Key .scope} {h : Handle}

namespace World

/-- The scope `s` was registered under the handle `h`: it remembers the handle as long as it is open, and
afterwards nothing stands under the handle. -/
structure Tied (s : Key .scope) (h : Handle) (w : World σ) : Prop where
  issued : Issued w h
  scope : ∃ sc, w.scopes.get? s = some sc ∧ (sc.isOpen = true → sc.parent = some h) ∧
    (sc.isOpen = false → (w.scope h.scope).find? h.key = none)

theorem Tied.of_scopes {w w' : World σ} (hw : w.Tied s h) (heq : w'.scopes = w.scopes) : w'.Tied s h := by
  refine ⟨?_, ?_⟩
  · rw [Issued, heq]
    exact hw.issued
  · rw [World.scope, heq]
    exact hw.scope

theorem Tied.of_get {w w' : World σ} (hw : w.Tied s h) (hs : w'.scopes.get? s = w.scopes.get? s)
    (hh : w'.scopes.get? h.scope = w.scopes.get? h.scope) : w'.Tied s h := by
  refine ⟨?_, ?_⟩
  · rw [Issued, hh]
    exact hw.issued
  · rw [World.scope, hs, hh]
    exact hw.scope

/-- A change of one scope under which no key comes back, and that does not open or close `s`. -/
theorem tied_set {w : World σ} (hw : w.Tied s h) {t : Key .scope} {sc sc' : Scope (Finalizer σ)}
    (hsc : w.scopes.get? t = some sc) (hlater : sc.Later sc')
    (hfind : ∀ key, (∀ fs hooks n, sc.state = .opened fs hooks n → key < n) → sc.find? key = none →
      sc'.find? key = none)
    (hlink : t = s → sc'.isOpen = sc.isOpen ∧ (sc.isOpen = true → sc'.parent = sc.parent)) :
    World.Tied s h { w with scopes := w.scopes.set t sc' } := by
  have hgrows : Grows none w { w with scopes := w.scopes.set t sc' } := grows_set_scope fun sc₀ hsc₀ => by
    obtain rfl : sc₀ = sc := Option.some.inj (hsc₀.symm.trans hsc)
    exact hlater
  have hgone : (w.scope h.scope).find? h.key = none →
      (World.scope { w with scopes := w.scopes.set t sc' } h.scope).find? h.key = none := by
    intro hnone
    by_cases hth : t = h.scope
    · subst hth
      obtain ⟨sc₀, hsc₀, hkey⟩ := hw.issued
      obtain rfl : sc₀ = sc := Option.some.inj (hsc₀.symm.trans hsc)
      rw [scope_of_get hsc] at hnone
      rw [scope_of_get (Store.get?_set_of_some hsc)]
      exact hfind h.key hkey hnone
    · rw [World.scope, Store.get?_set, if_neg hth]
      exact hnone
  refine ⟨hw.issued.mono hgrows.scopes, ?_⟩
  obtain ⟨sc₁, hsc₁, hparent, hclosed⟩ := hw.scope
  by_cases hts : t = s
  · subst hts
    obtain rfl : sc₁ = sc := Option.some.inj (hsc₁.symm.trans hsc)
    obtain ⟨hopen, hkeeps⟩ := hlink rfl
    refine ⟨sc', Store.get?_set_of_some hsc, fun ho => ?_, fun ho => hgone (hclosed (hopen ▸ ho))⟩
    rw [hkeeps (hopen ▸ ho)]
    exact hparent (hopen ▸ ho)
  · exact ⟨sc₁, by rw [Store.get?_set, if_neg hts, hsc₁], hparent, fun ho => hgone (hclosed ho)⟩

/-! ## What becomes of the finalizers of a scope -/

theorem find?_of_not_open {φ : Type} {sc : Scope φ} (hopen : sc.isOpen = false) (key : Nat) :
    sc.find? key = none := by
  unfold Scope.find?
  split
  · rename_i hstate
    rw [Scope.isOpen, hstate] at hopen
    cases hopen
  · rfl

/-- What was taken out is not there any more. -/
theorem find?_takeFinalizer (w : World σ) (h : Handle) :
    ((w.takeFinalizer h).1.scope h.scope).find? h.key = none := by
  unfold takeFinalizer
  cases hstate : (w.scope h.scope).state with
  | opened fs hooks n =>
      have hget := get_of_opened hstate
      cases hfind : fs.find? (·.1 == h.key) with
      | none =>
          simp only [Scope.take?, hstate, hfind, Option.map_none]
          rw [Scope.find?, hstate]
          simp only [hfind, Option.map_none]
      | some fin =>
          simp only [Scope.take?, hstate, hfind, Option.map_some]
          rw [scope_of_get (Store.get?_set_of_some hget), Scope.find?]
          simp only [List.find?_filter, Option.map_eq_none_iff, List.find?_eq_none]
          intro fin' _
          simp
  | closing e u =>
      simp only [Scope.take?, hstate]
      exact find?_of_not_open (by rw [Scope.isOpen, hstate]) _
  | closed e =>
      simp only [Scope.take?, hstate]
      exact find?_of_not_open (by rw [Scope.isOpen, hstate]) _

theorem tied_takeFinalizer {w : World σ} (hw : w.Tied s h) (h' : Handle) :
    (w.takeFinalizer h').1.Tied s h := by
  unfold takeFinalizer
  cases hstate : (w.scope h'.scope).state with
  | opened fs hooks n =>
      have hget := get_of_opened hstate
      cases hfind : fs.find? (·.1 == h'.key) with
      | none =>
          simp only [Scope.take?, hstate, hfind, Option.map_none]
          exact hw
      | some fin =>
          simp only [Scope.take?, hstate, hfind, Option.map_some]
          refine tied_set hw hget ⟨rfl, rfl, ?_⟩ (fun key _ hnone => ?_) fun _ => ⟨?_, fun _ => rfl⟩
          · rw [hstate]
            exact ⟨Nat.le_refl n, fun _ h => h⟩
          · rw [Scope.find?, hstate, Option.map_eq_none_iff, List.find?_eq_none] at hnone
            rw [Scope.find?, Option.map_eq_none_iff, List.find?_eq_none]
            exact fun x hx => hnone x (List.mem_of_mem_filter hx)
          · rw [Scope.isOpen, Scope.isOpen, hstate]
  | closing e u =>
      simp only [Scope.take?, hstate]
      exact hw
  | closed e =>
      simp only [Scope.take?, hstate]
      exact hw

theorem tied_register {w : World σ} (hw : w.Tied s h) (t : Key .scope) (fin : Finalizer σ) :
    (w.register t fin).1.Tied s h := by
  cases hstate : (w.scope t).state with
  | opened fs hooks n =>
      have hget := get_of_opened hstate
      rw [register_of_opened hstate]
      refine tied_set hw hget ⟨rfl, rfl, ?_⟩ (fun key hkey hnone => ?_) fun _ => ⟨?_, fun _ => rfl⟩
      · rw [hstate]
        exact ⟨Nat.le_succ n, fun _ h => h⟩
      · have hlt := hkey fs hooks n hstate
        rw [Scope.find?, hstate, Option.map_eq_none_iff] at hnone
        rw [Scope.find?, Option.map_eq_none_iff, List.find?_append, hnone, Option.none_or,
          List.find?_eq_none]
        intro x hx
        rw [List.mem_singleton.mp hx]
        simp only [beq_iff_eq]
        omega
      · rw [Scope.isOpen, Scope.isOpen, hstate]
  | closing e u =>
      rw [register_of_not_open (by rw [Scope.isOpen, hstate])]
      exact hw
  | closed e =>
      rw [register_of_not_open (by rw [Scope.isOpen, hstate])]
      exact hw

theorem tied_hook {w : World σ} (hw : w.Tied s h) (t : Key .scope) (f : Key .fiber) :
    (w.hook t f).Tied s h := by
  unfold hook
  split
  · rename_i sc hhook
    unfold Scope.hook? at hhook
    split at hhook
    · rename_i fs hooks n hstate
      cases hhook
      refine tied_set hw (get_of_opened hstate) ⟨rfl, rfl, ?_⟩ (fun key _ hnone => ?_) fun _ =>
        ⟨?_, fun _ => rfl⟩
      · rw [hstate]
        exact ⟨Nat.le_refl n, fun g hg => List.mem_append_left _ hg⟩
      · rw [Scope.find?, hstate] at hnone
        exact hnone
      · rw [Scope.isOpen, Scope.isOpen, hstate]
    · cases hhook
  · exact hw.of_scopes (scopes_scopeClosing w f)

/-- The first request to close the scope takes it out of its parent. -/
theorem tied_requestClose {w : World σ} (hw : w.Tied s h) (t : Key .scope) (e : AnyExit) :
    (w.requestClose t e).1.Tied s h := by
  have htold : ∀ (hooks : List (Key .fiber)) (w' : World σ), w'.Tied s h →
      (hooks.foldl scopeClosing w').Tied s h := fun hooks w' hw' =>
    hw'.of_scopes (foldl_keeps World.scopes _ (fun w f => scopes_scopeClosing w f) hooks w')
  unfold requestClose
  cases hstate : (w.scope t).state with
  | closing e' u =>
      simp only [Scope.requestClose?, hstate]
      exact hw
  | closed e' =>
      simp only [Scope.requestClose?, hstate]
      exact hw
  | opened fs hooks n =>
      have hget := get_of_opened hstate
      simp only [Scope.requestClose?, hstate]
      refine htold _ _ ?_
      set closing : World σ := { w with scopes := (w.scopes.set t
        { w.scope t with state := .closing e (some fs), parent := none }) } with hclosing
      have hlater : (w.scope t).Later { w.scope t with state := .closing e (some fs), parent := none } := by
        refine ⟨rfl, rfl, ?_⟩
        rw [hstate]
        trivial
      by_cases hts : t = s
      · subst hts
        obtain ⟨sc, hsc, hparent, -⟩ := hw.scope
        obtain rfl : w.scope t = sc := scope_of_get hsc
        have hopen : (w.scope t).isOpen = true := by rw [Scope.isOpen, hstate]
        rw [hparent hopen]
        have hset : Grows none w closing := grows_set_scope fun sc hsc => by
          obtain rfl : w.scope t = sc := scope_of_get hsc
          exact hlater
        have htake : Grows none closing (closing.takeFinalizer h).1 := grows_takeFinalizer closing h
        have hsealed : Sealed closing t := ⟨_, Store.get?_set_of_some hget, rfl⟩
        obtain ⟨sc', hsc', hnot⟩ := hsealed.mono htake.scopes
        refine ⟨(hw.issued.mono hset.scopes).mono htake.scopes, sc', hsc', fun ho => ?_, fun _ =>
          find?_takeFinalizer closing h⟩
        rw [hnot] at ho
        cases ho
      · have hset : closing.Tied s h :=
          tied_set hw hget hlater (fun key _ _ => find?_of_not_open rfl key) fun heq => absurd heq hts
        split
        · exact tied_takeFinalizer hset _
        · exact hset

/-! ## Changes -/

theorem tied_newScope {w : World σ} (hw : w.Tied s h) (owner : FiberId) (strategy : Strategy) :
    (w.newScope owner strategy).1.Tied s h := by
  have hgrows : Grows none w (w.newScope owner strategy).1 := grows_newScope w owner strategy
  obtain ⟨sc, hsc, hparent, hclosed⟩ := hw.scope
  refine ⟨hw.issued.mono hgrows.scopes, sc, Store.get?_add_of_some _ hsc, hparent, fun ho => ?_⟩
  obtain ⟨sc', hsc', -⟩ := hw.issued
  have hnone := hclosed ho
  rw [scope_of_get hsc'] at hnone
  rw [scope_of_get (w := (w.newScope owner strategy).1) (Store.get?_add_of_some _ hsc')]
  exact hnone

theorem tied_forkScope {w : World σ} (hw : w.Tied s h) (t : Key .scope) (owner : FiberId) :
    (w.forkScope t owner).1.Tied s h := by
  set child := (w.newScope owner (w.scope t).strategy).2 with hdef
  have hnew : w.scopes.get? child = none := Store.get?_next w.scopes (.new owner (w.scope t).strategy)
  have hkept := tied_register (tied_newScope hw owner (w.scope t).strategy) t
    (.closeChild child (w.scope t).owner)
  -- the scope and its parent were there before the child
  have hother : ∀ u, u ≠ child → (w.forkScope t owner).1.scopes.get? u =
      ((w.newScope owner (w.scope t).strategy).1.register t
        (.closeChild child (w.scope t).owner)).1.scopes.get? u := fun u hu => by
    simp only [forkScope, Store.get?_modify]
    rw [if_neg (Ne.symm hu)]
  refine hkept.of_get (hother s ?_) (hother h.scope ?_)
  · rintro rfl
    obtain ⟨sc, hsc, -⟩ := hw.scope
    rw [hnew] at hsc
    cases hsc
  · intro heq
    obtain ⟨sc, hsc, -⟩ := hw.issued
    rw [heq, hnew] at hsc
    cases hsc

/-- Every elementary change keeps the scope tied to its handle. -/
theorem Change.tied {w w' : World σ} (hchange : Change L actor w w')
    (hsealed : ∀ t, L.publish t → Sealed w t) (hw : w.Tied s h) : w'.Tied s h := by
  cases hchange with
  | elsewhere he => exact hw.of_scopes he.scopes
  | touch => exact hw.of_scopes rfl
  | contest _ _ hopens => exact hw.of_scopes (scopes_of_opens hopens)
  | own => exact hw.of_scopes rfl
  | @enlist c t p services inherited _ _ _ =>
      have hadd : ∀ x : Fiber σ, World.Tied s h { (w.newSemaphore c.concurrency).1 with
        fibers := (w.fibers.add x).1 } := fun x => hw.of_scopes rfl
      exact tied_hook (hadd _) t _
  | @launch f =>
      refine hw.of_scopes ?_
      unfold startFiber
      split
      · rfl
      · split <;> rfl
  | newScope => exact tied_newScope hw _ _
  | forkScope => exact tied_forkScope hw _ _
  | register => exact tied_register hw _ _
  | take => exact tied_takeFinalizer hw _
  | @lent h' =>
      unfold takeLent
      split
      · exact tied_takeFinalizer hw h'
      · exact hw
  | close => exact tied_requestClose hw _ _
  | @claim t sc e fins _ hclaim =>
      obtain ⟨sc₀, hsc, hstate, rfl⟩ := claim_of_some hclaim
      refine tied_set hw hsc ⟨rfl, rfl, ?_⟩ (fun key _ _ => find?_of_not_open rfl key) fun _ =>
        ⟨?_, fun _ => rfl⟩
      · rw [hstate]
        exact ⟨rfl, Or.inr rfl⟩
      · rw [Scope.isOpen, Scope.isOpen, hstate]
  | @publish t e hpublish =>
      obtain ⟨sc, hsc, hopen⟩ := hsealed t hpublish
      have hclosed : ∃ cell, ((w.scope t).publish e).1 = { sc with state := .closed e, closed := cell } := by
        rw [scope_of_get hsc, Scope.publish]
        split
        · exact ⟨_, rfl⟩
        · exact ⟨_, rfl⟩
      obtain ⟨cell, hcell⟩ := hclosed
      have hset : World.Tied s h { w with scopes := w.scopes.set t ((w.scope t).publish e).1 } := by
        rw [hcell]
        refine tied_set hw hsc ⟨rfl, rfl, ?_⟩ (fun key _ _ => find?_of_not_open rfl key) fun _ =>
          ⟨hopen.symm, fun _ => rfl⟩
        cases hstate : sc.state with
        | opened fs hooks n =>
            rw [Scope.isOpen, hstate] at hopen
            cases hopen
        | closing e' u => trivial
        | closed e' => trivial
      exact hset.of_scopes (scopes_wakeAll _ _ _)

theorem Changes.tied {w w' : World σ} (hchanges : Changes L actor w w')
    (hsealed : ∀ t, L.publish t → Sealed w t) (hw : w.Tied s h) : w'.Tied s h := by
  induction hchanges with
  | refl => exact hw
  | tail hbefore hstep ih =>
      exact hstep.tied (fun t ht => (hsealed t ht).mono (Changes.grows hbefore).scopes) ih

/-! ## The end of a step -/

theorem tied_subscribe {w : World σ} (hw : w.Tied s h) (k : Wake) (a : Awaited) :
    (w.subscribe k a).Tied s h := by
  cases a with
  | future f => exact hw.of_scopes (parts_watchFuture w f _).2
  | done f =>
      refine hw.of_scopes ?_
      simp only [subscribe, watchFiber]
      split
      · rfl
      · split
        · rfl
        · split <;> rfl
  | decided t =>
      refine hw.of_scopes ?_
      simp only [subscribe]
      split <;> rfl
  | closed t =>
      simp only [subscribe]
      split
      · cases hget : w.scopes.get? t with
        | none =>
            refine hw.of_scopes (Store.ext_get? fun u => ?_)
            rw [Store.get?_set]
            split
            · rename_i htu
              rw [← htu, hget]
              rfl
            · rfl
        | some sc =>
            rw [scope_of_get hget]
            exact tied_set hw hget ⟨rfl, rfl, .refl _⟩ (fun key _ hnone => hnone) fun _ =>
              ⟨rfl, fun _ => rfl⟩
      · exact hw

theorem tied_conclude {stepped : World σ × Stepped σ} (hw : stepped.1.Tied s h) (f : Key .fiber) :
    (conclude f stepped).world.Tied s h := by
  obtain ⟨w, m, d⟩ := stepped
  cases d with
  | proceed => exact hw
  | yield =>
      simp only [conclude]
      split
      · exact hw
      · exact hw.of_scopes (scopes_park w f _ m)
  | await a release =>
      simp only [conclude]
      split
      · exact hw
      · rename_i x _
        have hpark : (w.park f { x with ops := 0 } (m.holding release)).1.Tied s h :=
          hw.of_scopes (scopes_park w f _ _)
        split
        · exact tied_subscribe hpark _ a
        · exact hpark.of_scopes rfl
  | done e => exact hw.of_scopes (scopes_finishFiber w f e)

end World

/-! ## New scopes -/

/-- A scope that is forked from an open one is tied to the handle it remembers; one that is forked from
another stands alone. -/
theorem World.tied_of_forkScope {w w' : World σ} {t : Key .scope} {owner : FiberId}
    (hfork : w.forkScope t owner = (w', s)) (hparent : (w'.scope s).parent = some h) :
    h.scope = t ∧ w'.Tied s h := by
  set w₁ := (w.newScope owner (w.scope t).strategy).1 with hw₁
  set child := (w.newScope owner (w.scope t).strategy).2 with hchild
  set fin : Finalizer σ := .closeChild child (w.scope t).owner with hfin
  obtain ⟨hworld, hkey⟩ := Prod.ext_iff.mp hfork
  obtain rfl : child = s := hkey
  have hworld' : { (w₁.register t fin).1 with scopes := ((w₁.register t fin).1.scopes.modify child
      fun sc => { sc with parent := (w₁.register t fin).2 }) } = w' := hworld
  have hnew : w₁.scopes.get? child = some (.new owner (w.scope t).strategy) :=
    (Store.get?_add w.scopes (.new owner (w.scope t).strategy) child).trans (if_pos rfl)
  cases hstate : (w₁.scope t).state with
  | opened fs hooks n =>
      have hget := get_of_opened hstate
      rw [register_of_opened hstate] at hworld'
      -- the scope in which the child was registered, and the child, which may be the same
      obtain ⟨sc, hsc, hopen⟩ : ∃ sc, (w₁.scopes.set t { w₁.scope t with
          state := .opened (fs ++ [(n, fin)]) hooks (n + 1) }).get? child = some sc ∧ sc.isOpen = true := by
        by_cases htc : t = child
        · exact ⟨_, by rw [Store.get?_set, if_pos htc, hnew, Option.map_some], rfl⟩
        · exact ⟨_, by rw [Store.get?_set, if_neg htc, hnew], rfl⟩
      have hafter : w'.scopes.get? child = some { sc with parent := some ⟨t, n⟩ } := by
        rw [← hworld', Store.get?_modify, if_pos rfl, hsc, Option.map_some]
      rw [scope_of_get hafter] at hparent
      cases hparent
      refine ⟨rfl, ?_, _, hafter, fun _ => rfl, fun ho => ?_⟩
      · have hthere : ∃ sc', w'.scopes.get? t = some sc' ∧
            sc'.state = .opened (fs ++ [(n, fin)]) hooks (n + 1) := by
          rw [← hworld', Store.get?_modify]
          split
          · exact ⟨_, by rw [Store.get?_set_of_some hget, Option.map_some], rfl⟩
          · exact ⟨_, Store.get?_set_of_some hget, rfl⟩
        obtain ⟨sc', hsc', hopened⟩ := hthere
        refine ⟨sc', hsc', fun fs' hooks' n' heq => ?_⟩
        rw [hopened] at heq
        cases heq
        exact Nat.lt_succ_self n
      · have ho' : sc.isOpen = false := ho
        rw [hopen] at ho'
        cases ho'
  | closing e u =>
      rw [register_of_not_open (by rw [Scope.isOpen, hstate])] at hworld'
      have hafter : w'.scopes.get? child = some { Scope.new owner (w.scope t).strategy with parent := none } := by
        rw [← hworld', Store.get?_modify, if_pos rfl, hnew, Option.map_some]
      rw [scope_of_get hafter] at hparent
      cases hparent
  | closed e =>
      rw [register_of_not_open (by rw [Scope.isOpen, hstate])] at hworld'
      have hafter : w'.scopes.get? child = some { Scope.new owner (w.scope t).strategy with parent := none } := by
        rw [← hworld', Store.get?_modify, if_pos rfl, hnew, Option.map_some]
      rw [scope_of_get hafter] at hparent
      cases hparent

theorem Scope.opened_of_isOpen {φ : Type} {sc : Scope φ} (hopen : sc.isOpen = true) :
    ∃ fs hooks n, sc.state = .opened fs hooks n := by
  unfold Scope.isOpen at hopen
  split at hopen
  · exact ⟨_, _, _, by assumption⟩
  · cases hopen

/-- A scope that is forked from an open one remembers a handle. -/
theorem World.parent_of_forkScope {w : World σ} {t : Key .scope} (hopen : (w.scope t).isOpen = true)
    (owner : FiberId) :
    ∃ h, ((w.forkScope t owner).1.scope (w.forkScope t owner).2).parent = some h := by
  set made := w.newScope owner (w.scope t).strategy with hmade
  set kept := made.1.register t (.closeChild made.2 (w.scope t).owner) with hkept
  have hnew : made.1.scopes.get? made.2 = some (.new owner (w.scope t).strategy) := by
    rw [hmade, newScope, Store.get?_add, if_pos rfl]
  have hgrows : Grows none made.1 kept.1 := grows_register made.1 t _
  obtain ⟨sc, hsc, -⟩ := hgrows.scopes _ _ hnew
  have hafter : (w.forkScope t owner).1.scopes.get? made.2 = some { sc with parent := kept.2 } := by
    show ((kept.1.scopes.modify made.2 fun sc => { sc with parent := kept.2 }).get? made.2) = _
    rw [Store.get?_modify, if_pos rfl, hsc, Option.map_some]
  obtain ⟨fs, hooks, n, hstate⟩ := Scope.opened_of_isOpen hopen
  have hmadeState : (made.1.scope t).state = .opened fs hooks n := by
    have hget : made.1.scopes.get? t = some (w.scope t) :=
      Store.get?_add_of_some _ (get_of_opened hstate)
    rw [scope_of_get hget]
    exact hstate
  show ∃ h, ((w.forkScope t owner).1.scope made.2).parent = some h
  rw [scope_of_get hafter, hkept, register_of_opened hmadeState]
  exact ⟨_, rfl⟩

/-! ## Runs -/

theorem Move.tied {x x' : Moment σ} (hmove : Move x x') (hx : x.Lawful) (hw : x.world.Tied s h) :
    x'.world.Tied s h := by
  obtain ⟨w, active⟩ := x
  have hw' : w.Tied s h := hw
  cases active with
  | none =>
      obtain ⟨timers, -, ⟨f, token, r, -, rfl⟩ | ⟨w', rfl, hchanges⟩⟩ := World.quiet_cases hmove
      · rcases World.awaken_cases { w with timers } f token r with heq | ⟨y, m, c, -, -, -, -, heq⟩
        · rw [heq]
          exact hw'.of_scopes rfl
        · rw [heq]
          exact hw'.of_scopes rfl
      · have hbefore : World.Tied s h { w with timers } := hw'.of_scopes rfl
        exact (hchanges w.law trivial hx.licensed.world).tied (fun t ht => ht) hbefore
  | some fm =>
      obtain ⟨f, m⟩ := fm
      cases hmove with
      | advance =>
          show (w.advance f m).world.Tied s h
          unfold World.advance
          cases hget : w.fibers.get? f with
          | none => exact hw'
          | some y => exact World.tied_conclude ((World.step_changes hx y).tied (fun t ht => ht) hw') f

/-- A scope that was registered under a handle is not registered any more once it is not open. -/
theorem Run.unregistered (r : Run σ) {j k : Nat} (hjk : j ≤ k) (hw : (r.moment j).world.Tied s h)
    (hopen : ((r.moment k).world.scope s).isOpen = false) :
    ((r.moment k).world.scope h.scope).find? h.key = none := by
  have hall : ∀ n, (r.moment (j + n)).world.Tied s h := by
    intro n
    induction n with
    | zero => exact hw
    | succ n ih => exact (r.move (j + n)).tied (r.lawful (j + n)) ih
  obtain ⟨n, rfl⟩ := Nat.exists_eq_add_of_le hjk
  obtain ⟨sc, hsc, -, hgone⟩ := (hall n).scope
  rw [World.scope_of_get hsc] at hopen
  exact hgone hopen

end Fibers
