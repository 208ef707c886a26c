import Fibers.Proofs.Scopes.Record

set_option autoImplicit false

/-! # Finalizers stand until their scope closes

A finalizer that was registered stays with its scope until somebody takes it out, and a scope that is
asked to close keeps what it has for the party that claims it. Two kinds of parties take finalizers
out. A program can take out what it lent, and whoever has a handle in a frame, or as the link of a
scope to its parent, can take out what stands under that handle. So a finalizer that is not lent
stands through all that is done under a licence that does not let its handle be held.
-/

namespace Fibers

variable {σ : Type}

/-- The finalizer is registered under the key, or it was when the scope was asked to close. -/
def ScopeState.Stands {φ : Type} (key : Nat) (fin : φ) : ScopeState φ → Prop
  | .opened fs _ _ => fs.find? (·.1 == key) = some (key, fin)
  | .closing _ (some fs) => fs.find? (·.1 == key) = some (key, fin)
  | .closing _ none => True
  | .closed _ => True

/-- What stands in a scope that is not open stands for good. -/
theorem ScopeState.Stands.later {φ : Type} {key : Nat} {fin : φ} {st st' : ScopeState φ}
    (h : st.Stands key fin) (hopen : st.isOpen = false) (hlater : st.Later st') :
    st'.Stands key fin := by
  cases st with
  | opened fs hooks n => cases hopen
  | closed e =>
      cases st' with
      | opened fs hooks n => exact hlater.elim
      | closing e' u' => exact hlater.elim
      | closed e' => trivial
  | closing e u =>
      cases st' with
      | opened fs hooks n => exact hlater.elim
      | closed e' => trivial
      | closing e' u' =>
          obtain ⟨rfl, rfl | rfl⟩ := hlater
          · exact h
          · trivial

namespace World

variable {L : Licence} {actor : Option (Key .fiber)} {h : Handle} {fin : Finalizer σ}

/-- The finalizer stands under the handle. -/
def Stands (h : Handle) (fin : Finalizer σ) (w : World σ) : Prop :=
  ∃ sc, w.scopes.get? h.scope = some sc ∧ sc.state.Stands h.key fin

/-! ## The operations -/

theorem stands_status {w : World σ} {st : ScopeState (Finalizer σ)} {told : Option (Settled AnyExit)}
    (hstatus : w.status h.scope = some (st, told)) (hst : st.Stands h.key fin) : w.Stands h fin := by
  obtain ⟨sc, hsc, heq⟩ := Option.map_eq_some_iff.mp hstatus
  cases heq
  exact ⟨sc, hsc, hst⟩

theorem Stands.of_status {w w' : World σ} (hw : w.Stands h fin)
    (heq : w'.status h.scope = w.status h.scope) : w'.Stands h fin := by
  obtain ⟨sc, hsc, hst⟩ := hw
  exact stands_status (heq.trans (status_of_get hsc)) hst

theorem Stands.state {w : World σ} (hw : w.Stands h fin) {sc : Scope (Finalizer σ)}
    (hsc : w.scopes.get? h.scope = some sc) : sc.state.Stands h.key fin := by
  obtain ⟨sc', hsc', hst⟩ := hw
  obtain rfl := Option.some.inj (hsc.symm.trans hsc')
  exact hst

/-- A finalizer that stands in an open scope can be taken out. -/
theorem Stands.take {w : World σ} (hw : w.Stands h fin) (hopen : (w.scope h.scope).isOpen = true) :
    (w.takeFinalizer h).2 = some fin := by
  obtain ⟨sc, hsc, hst⟩ := hw
  rw [scope_of_get hsc] at hopen
  cases hstate : sc.state with
  | closing e u =>
      rw [Scope.isOpen, hstate] at hopen
      cases hopen
  | closed e =>
      rw [Scope.isOpen, hstate] at hopen
      cases hopen
  | opened fs hooks n =>
      rw [hstate] at hst
      have hfind : fs.find? (·.1 == h.key) = some (h.key, fin) := hst
      simp only [takeFinalizer, scope_of_get hsc, Scope.take?, hstate, hfind, Option.map_some]

theorem stands_register {w : World σ} (hw : w.Stands h fin) (t : Key .scope) (g : Finalizer σ) :
    (w.register t g).1.Stands h fin := by
  by_cases hst : t = h.scope
  · subst hst
    cases hreg : (w.register h.scope g).2 with
    | none =>
        unfold register at hreg ⊢
        split at hreg
        · cases hreg
        · exact hw
    | some h' =>
        obtain ⟨hscope, -, -⟩ := issued_register hreg
        obtain ⟨s, key⟩ := h'
        obtain rfl : s = h.scope := hscope
        obtain ⟨sc, fs, hooks, hsc, hstate, hstatus⟩ := register_of_some hreg
        have hold := hw.state hsc
        rw [hstate] at hold
        refine stands_status hstatus ?_
        show (fs ++ [(key, g)]).find? (·.1 == h.key) = some (h.key, fin)
        rw [List.find?_append, show fs.find? (·.1 == h.key) = some (h.key, fin) from hold]
        rfl
  · exact hw.of_status (status_register hst)

/-- What stands under another handle is left alone. -/
theorem stands_takeFinalizer {w : World σ} (hw : w.Stands h fin) {h' : Handle} (hne : h' ≠ h) :
    (w.takeFinalizer h').1.Stands h fin := by
  obtain ⟨t, key⟩ := h'
  cases htaken : (w.takeFinalizer ⟨t, key⟩).2 with
  | none => exact hw.of_status (status_takeFinalizer (Or.inr htaken))
  | some g =>
      by_cases hst : t = h.scope
      · subst hst
        have hkey : h.key ≠ key := by
          rintro rfl
          exact hne rfl
        obtain ⟨sc, fs, hooks, n, hsc, hstate, -, hstatus⟩ := take_of_some htaken
        have hold := hw.state hsc
        rw [hstate] at hold
        refine stands_status hstatus ?_
        show (fs.filter (·.1 != key)).find? (·.1 == h.key) = some (h.key, fin)
        rw [List.find?_filter, ← show fs.find? (·.1 == h.key) = some (h.key, fin) from hold]
        congr 1
        funext x
        by_cases hx : x.1 = h.key
        · simp [hx, hkey]
        · simp [hx]
      · exact hw.of_status (status_takeFinalizer (Or.inl hst))

/-- A program takes out only what it lent. -/
theorem stands_takeLent {w : World σ} (hw : w.Stands h fin) (hlent : fin.isLent = false)
    (h' : Handle) : (w.takeLent h').1.Stands h fin := by
  by_cases hne : h' = h
  · subst hne
    obtain ⟨sc, hsc, hst⟩ := id hw
    unfold takeLent
    split
    · rename_i g hfind
      rw [scope_of_get hsc, Scope.find?] at hfind
      split at hfind
      · rename_i fs hooks n hstate
        rw [hstate] at hst
        rw [show fs.find? (·.1 == h'.key) = some (h'.key, fin) from hst] at hfind
        cases hfind
        cases hlent
      · cases hfind
    · exact hw
  · unfold takeLent
    split
    · exact stands_takeFinalizer hw hne
    · exact hw

theorem stands_hook {w : World σ} (hw : w.Stands h fin) (t : Key .scope) (f : Key .fiber) :
    (w.hook t f).Stands h fin := by
  unfold hook
  split
  · rename_i sc heq
    by_cases hst : t = h.scope
    · subst hst
      obtain ⟨sc', hsc', hold⟩ := hw
      rw [scope_of_get hsc', Scope.hook?] at heq
      split at heq
      · rename_i fs hooks n hstate
        cases heq
        rw [hstate] at hold
        exact stands_status (status_set_self hsc') hold
      · cases heq
    · exact hw.of_status (status_set hst)
  · exact hw.of_status (status_of_eq (scopes_scopeClosing w f))

/-- A request to close freezes what stands; the link to the parent is another handle. -/
theorem stands_requestClose {w : World σ} (hw : w.Stands h fin)
    (hparents : ∀ s sc, w.scopes.get? s = some sc → sc.parent ≠ some h) (t : Key .scope)
    (e : AnyExit) : (w.requestClose t e).1.Stands h fin := by
  cases hrequest : (w.scope t).requestClose? e with
  | none =>
      rw [requestClose, hrequest]
      exact hw
  | some closing =>
      obtain ⟨sc, c⟩ := closing
      by_cases hst : t = h.scope
      · subst hst
        obtain ⟨sc₀, fs, n, hsc, hstate, -, hstatus⟩ := requestClose_of_some hrequest
        have hold := hw.state hsc
        rw [hstate] at hold
        exact stands_status hstatus hold
      · have hset : World.Stands h fin { w with scopes := w.scopes.set t sc } :=
          hw.of_status (status_set hst)
        simp only [requestClose, hrequest]
        refine Stands.of_status ?_ (status_scopesClosing c.hooks _)
        split
        · rename_i h' hparent
          refine stands_takeFinalizer hset ?_
          rintro rfl
          unfold Scope.requestClose? at hrequest
          split at hrequest
          · rename_i hstate
            cases hrequest
            exact hparents t _ (get_of_opened hstate) hparent
          · cases hrequest
        · exact hset

theorem stands_newScope {w : World σ} (hw : w.Stands h fin) (owner : FiberId) (strategy : Strategy) :
    (w.newScope owner strategy).1.Stands h fin := by
  obtain ⟨sc, hsc, hst⟩ := hw
  exact ⟨sc, Store.get?_add_of_some _ hsc, hst⟩

theorem stands_forkScope {w : World σ} (hw : w.Stands h fin) (t : Key .scope) (owner : FiberId) :
    (w.forkScope t owner).1.Stands h fin := by
  have hkept := stands_register (stands_newScope hw owner (w.scope t).strategy) t
    (.closeChild (w.newScope owner (w.scope t).strategy).2 (w.scope t).owner)
  refine hkept.of_status ?_
  simp only [status, forkScope, Store.get?_modify]
  split
  · simp [Option.map_map, Function.comp_def]
  · rfl

/-! ## Under a licence -/

/-- What may not be held stands through an elementary change. -/
theorem Change.stands {w w' : World σ} (hchange : Change L actor w w') (hlicensed : w.Licensed L)
    (hhold : ¬ L.hold h) (hlent : fin.isLent = false) (hw : w.Stands h fin) : w'.Stands h fin := by
  cases hchange with
  | elsewhere he => exact hw.of_status (status_of_eq he.scopes)
  | touch => exact hw.of_status (status_of_eq rfl)
  | contest _ _ h => exact hw.of_status (status_of_eq (scopes_of_opens h))
  | own => exact hw.of_status (status_of_eq rfl)
  | @enlist c t p services inherited _ _ _ =>
      have hadd : ∀ x : Fiber σ, World.Stands h fin { (w.newSemaphore c.concurrency).1 with
        fibers := (w.fibers.add x).1 } := fun x => hw.of_status (status_of_eq rfl)
      exact stands_hook (hadd _) t _
  | @launch f =>
      refine hw.of_status (status_of_eq ?_)
      unfold startFiber
      split
      · rfl
      · split
        · rfl
        · rfl
  | newScope => exact stands_newScope hw _ _
  | forkScope => exact stands_forkScope hw _ _
  | register => exact stands_register hw _ _
  | take hheld =>
      refine stands_takeFinalizer hw ?_
      rintro rfl
      exact hhold hheld
  | lent => exact stands_takeLent hw hlent _
  | close =>
      exact stands_requestClose hw (fun s sc hsc hparent => hhold (hlicensed.parents s sc h hsc hparent))
        _ _
  | @claim t sc e fins _ hclaim =>
      by_cases hst : t = h.scope
      · subst hst
        obtain ⟨sc₀, hsc₀, -, rfl⟩ := claim_of_some hclaim
        exact stands_status (status_set_self hsc₀) trivial
      · exact hw.of_status (status_set hst)
  | @publish t e _ =>
      by_cases hst : t = h.scope
      · subst hst
        obtain ⟨sc, hsc, -⟩ := hw
        refine ⟨((w.scope h.scope).publish e).1, ?_, ?_⟩
        · rw [scopes_publish]
          exact Store.get?_set_of_some hsc
        · unfold Scope.publish
          split <;> trivial
      · refine hw.of_status ?_
        rw [status, status, scopes_publish, Store.get?_set, if_neg hst]

theorem Changes.stands {w w' : World σ} (hchanges : Changes L actor w w') (hlicensed : w.Licensed L)
    (hnew : ∀ h, ¬ Issued w h → Issued w' h → L.hold h) (hhold : ¬ L.hold h)
    (hlent : fin.isLent = false) (hw : w.Stands h fin) : w'.Stands h fin := by
  induction hchanges with
  | refl => exact hw
  | @tail w₁ w₂ hfirst hstep ih =>
      have hissued : ∀ h, ¬ Issued w h → Issued w₁ h → L.hold h := fun h hold hissued =>
        hnew h hold (hissued.mono hstep.grows.scopes)
      exact hstep.stands (Changes.licensed hfirst hissued hlicensed) hhold hlent (ih hissued)

/-- How the scopes fare under a licence: one that nobody may publish passes nothing but plain events,
and what nobody may hold stands. -/
structure Fares (L : Licence) (w w' : World σ) : Prop where
  plainly : ∀ s, ¬ L.publish s → Plainly s w w'
  stands : ∀ h fin, ¬ L.hold h → fin.isLent = false → w.Stands h fin → w'.Stands h fin

theorem Fares.trans {w₁ w₂ w₃ : World σ} (h : Fares L w₁ w₂) (h' : Fares L w₂ w₃) : Fares L w₁ w₃ :=
  ⟨fun s hs => (h.plainly s hs).trans (h'.plainly s hs), fun k fin hk hlent hw =>
    h'.stands k fin hk hlent (h.stands k fin hk hlent hw)⟩

theorem fares_of_status {w w' : World σ} (heq : ∀ s, w'.status s = w.status s) : Fares L w w' :=
  ⟨fun s _ => plainly_of_status (heq s), fun k _ _ _ hw => hw.of_status (heq k.scope)⟩

theorem Changes.fares {w w' : World σ} (hchanges : Changes L actor w w') (hlicensed : w.Licensed L)
    (hnew : ∀ h, ¬ Issued w h → Issued w' h → L.hold h) : Fares L w w' :=
  ⟨fun _ hs => Changes.plainly hchanges hs, fun _ _ hhold hlent hw =>
    Changes.stands hchanges hlicensed hnew hhold hlent hw⟩

end World

end Fibers
