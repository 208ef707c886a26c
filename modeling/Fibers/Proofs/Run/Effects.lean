import Fibers.Proofs.Run.Change

set_option autoImplicit false

/-! # What the library's own continuations amount to

Finalizers, duties, sequels and handlers come down to elementary changes like the functions of the
user, and what they give back keeps to the licence. Only one of them brings in texts that are the
library's business: the claim of the finalizers of a closing scope.
-/

namespace Fibers.World

variable {σ : Type} {L : Licence} {actor : Option (Key .fiber)}

/-! ## Programs the library builds -/

theorem licensed_andThen {p q : Program σ} (hp : p.Licensed L) (hq : q.Licensed L) :
    (p.andThen q).Licensed L := .flatMap hp (.next hq)

theorem licensed_unit : (Program.unit : Program σ).Licensed L := .succeed

theorem licensed_captured {p : Program σ} (hp : p.Licensed L) : p.captured.Licensed L :=
  .fold hp .capture (.sequel .captured)

theorem licensed_finishScope (s : Key .scope) :
    (Program.finishScope s : Program σ).Licensed L := .mask (.duty .finish)

theorem licensed_waitScope (s : Key .scope) : (Program.waitScope s : Program σ).Licensed L := .wait

theorem licensed_closeOrWaitScope (s : Key .scope) (e : AnyExit) :
    (Program.closeOrWaitScope s e : Program σ).Licensed L :=
  licensed_andThen (.duty .close) (licensed_waitScope s)

theorem licensed_awaitScope (s : Key .scope) : (Program.awaitScope s : Program σ).Licensed L :=
  licensed_andThen (licensed_finishScope s) (licensed_waitScope s)

theorem licensed_ofExit (e : AnyExit) : (Program.ofExit e : Program σ).Licensed L := by
  cases e with
  | success v => exact .succeed
  | failure c => exact .failCause

theorem licensed_awaitExits (fs : List (Key .fiber)) :
    (awaitExits fs : Program σ).Licensed L := by
  unfold awaitExits
  have key : ∀ p : Program σ, p.Licensed L → (fs.foldl
      (fun acc f => Program.flatMap acc (.sequel (.awaitNext f))) p).Licensed L := by
    induction fs with
    | nil => exact fun p hp => hp
    | cons f rest ih => exact fun p hp => ih _ (.flatMap hp (.sequel .awaitNext))
  exact key _ .succeed

theorem licensed_leaveArena {c : Contest} {p : Program σ} (hp : p.Licensed L) :
    (leaveArena c p).Licensed L := licensed_andThen (licensed_closeOrWaitScope _ _) hp

/-- The program that runs claimed finalizers. -/
theorem licensed_finalizers {e : AnyExit} {fins : List (Handle × Finalizer σ)} {st : Strategy}
    (h : ∀ x ∈ fins, L.finalize x.1 ∧ x.2.Licensed L) : (finalizers e fins st).Licensed L := by
  unfold finalizers
  split
  · exact .succeed
  · have hruns : ∀ p ∈ fins.reverse.map fun fin => (Program.duty (.finalize fin.1 fin.2 e)).captured,
        p.Licensed L := by
      intro p hp
      obtain ⟨fin, hfin, rfl⟩ := List.mem_map.mp hp
      have := h fin (List.mem_reverse.mp hfin)
      exact licensed_captured (.duty (.finalize this.1 this.2))
    refine .mask ?_
    cases st with
    | sequential =>
        have key : ∀ (runs : List (Program σ)) (p : Program σ), (∀ r ∈ runs, r.Licensed L) →
            p.Licensed L → (runs.foldl
              (fun acc run => Program.flatMap acc (.sequel (.runNext run))) p).Licensed L := by
          intro runs
          induction runs with
          | nil => exact fun p _ hp => hp
          | cons r rest ih =>
              exact fun p hr hp => ih _ (fun x hx => hr x (List.mem_cons_of_mem _ hx))
                (.flatMap hp (.sequel (.runNext (hr r List.mem_cons_self))))
        exact key _ _ hruns .succeed
    | concurrent => exact .flatMap (.withConcurrency (.zipAll hruns)) (.sequel .combineAll)
    | bounded n => exact .flatMap (.withConcurrency (.zipAll hruns)) (.sequel .combineAll)

/-! ## Finalizers -/

theorem sound_finalizeWith {fin : Finalizer σ} (h : fin.Licensed L) (e : AnyExit) (w : World σ) :
    Sound L actor (Program.Licensed L) w (w.finalizeWith fin e) := by
  cases h with
  | apply hg => exact sound_run (hg e) w
  | lent hg => exact sound_run (hg e) w
  | canceler hp => exact sound_ok (.refl w) hp
  | closeChild =>
      exact sound_ok (.refl w) (licensed_andThen (licensed_closeOrWaitScope _ _) licensed_unit)
  | relinquish => exact sound_ok ((elsewhere_relinquish w _ _).changes (tallies_relinquish w _ _)) licensed_unit
  | relinquishOnFailure =>
      refine sound_ok ?_ licensed_unit
      split
      · exact (elsewhere_relinquish w _ _).changes (tallies_relinquish w _ _)
      · exact .refl w

/-- A finalizer that stands in a scope keeps to the licence of the world. -/
theorem licensed_of_find {w : World σ} {s : Key .scope} {key : Nat} {fin : Finalizer σ}
    (hfins : ∀ s sc, w.scopes.get? s = some sc → sc.state.Licensed L)
    (h : (w.scope s).find? key = some fin) : fin.Licensed L := by
  unfold World.scope at h
  cases hget : w.scopes.get? s with
  | none =>
      rw [hget] at h
      cases h
  | some sc =>
      rw [hget] at h
      have hstate := hfins s sc hget
      simp only [Option.getD_some, Scope.find?] at h
      split at h
      · rename_i fs hooks next heq
        rw [heq] at hstate
        obtain ⟨x, hx, rfl⟩ := Option.map_eq_some_iff.mp h
        exact hstate x (List.mem_of_find?_eq_some hx)
      · cases h

theorem licensed_of_lent {w : World σ} {h : Handle} {fin : Finalizer σ}
    (hfins : ∀ s sc, w.scopes.get? s = some sc → sc.state.Licensed L)
    (ht : (w.takeLent h).2 = some fin) : fin.Licensed L := by
  unfold takeLent at ht
  split at ht
  · rename_i g heq
    have hfind := licensed_of_find hfins heq
    unfold takeFinalizer at ht
    split at ht
    · rename_i sc fin' htake
      cases ht
      simp only [Scope.take?, Scope.find?] at htake heq
      split at htake
      · rename_i fs hooks next hstate
        rw [hstate] at heq
        obtain ⟨x, hx, hx'⟩ := Option.map_eq_some_iff.mp htake
        obtain ⟨y, hy, hy'⟩ := Option.map_eq_some_iff.mp heq
        obtain rfl : x = y := Option.some.inj (hx.symm.trans hy)
        simp only [Prod.mk.injEq] at hx'
        rw [← hx'.2, hy']
        exact hfind
      · cases htake
    · cases ht
  · cases ht

/-! ## Duties -/

/-- The finalizers that can be claimed from a scope now are among those that a licence is for. -/
def ClaimLicensed (L : Licence) (w : World σ) (s : Key .scope) : Prop :=
  ∀ sc e fins, (w.scope s).claim? = some (sc, e, fins) →
    L.publish s ∧ ∀ x ∈ fins, L.finalize ⟨s, x.1⟩

/-- Claimed finalizers stood in the scope. -/
theorem licensed_of_claim {w : World σ} {s : Key .scope} {sc : Scope (Finalizer σ)} {e : AnyExit}
    {fins : List (Nat × Finalizer σ)} (hfins : ∀ s sc, w.scopes.get? s = some sc → sc.state.Licensed L)
    (h : (w.scope s).claim? = some (sc, e, fins)) : ∀ x ∈ fins, x.2.Licensed L := by
  unfold World.scope at h
  cases hget : w.scopes.get? s with
  | none =>
      rw [hget] at h
      cases h
  | some sc₀ =>
      rw [hget] at h
      have hstate := hfins s sc₀ hget
      simp only [Option.getD_some, Scope.claim?] at h
      split at h
      · rename_i exit fs heq
        rw [heq] at hstate
        cases h
        exact hstate
      · cases h

theorem sound_attend {d : Duty σ} (h : d.Licensed L) {w : World σ}
    (hfins : ∀ s sc, w.scopes.get? s = some sc → sc.state.Licensed L)
    (hclaims : ∀ s, d = .finish s → ClaimLicensed L w s) :
    Sound L actor (Program.Licensed L) w (w.attend d) := by
  cases h with
  | guarded hp =>
      exact sound_ok (changes_of_eq rfl rfl rfl rfl rfl rfl
          (permits_set (Semaphore.later_ticket _) rfl))
        (.ensuring (licensed_andThen (.duty .take) hp) .relinquish rfl)
  | acquire =>
      exact sound_ok (changes_of_eq rfl rfl rfl rfl rfl rfl
          (permits_set (Semaphore.later_ticket _) rfl))
        (licensed_andThen (.ensuring (.duty .take) .relinquishOnFailure rfl) .succeed)
  | take =>
      simp only [attend]
      split
      · rename_i sem htake
        exact sound_ok (changes_of_eq rfl rfl rfl rfl rfl rfl
          (permits_set (Semaphore.later_take htake) rfl)) licensed_unit
      · have h₁ : Changes L actor w w.newFuture.1 := (elsewhere_newFuture w).changes rfl
        exact sound_ok (h₁.trans (changes_of_eq rfl rfl rfl rfl rfl rfl
          (permits_modify (fun a => a.later_enqueue _ _) rfl))) .wait
  | close => exact sound_ok Change.close.changes (licensed_andThen (licensed_finishScope _) .succeed)
  | @finish s =>
      simp only [attend]
      cases hclaim : (w.scope s).claim? with
      | none => exact sound_ok (.refl w) licensed_unit
      | some c =>
          obtain ⟨sc, e, fins⟩ := c
          obtain ⟨hpublish, hfinalize⟩ := hclaims s rfl sc e fins hclaim
          have hclaimed := licensed_of_claim hfins hclaim
          refine sound_ok (Change.claim hpublish hclaim).changes
            (.flatMap (licensed_finalizers fun x hx => ?_) (.sequel (.publish hpublish)))
          obtain ⟨y, hy, rfl⟩ := List.mem_map.mp hx
          exact ⟨hfinalize y hy, hclaimed y hy⟩
  | @release h e =>
      simp only [attend]
      have hlent : Changes L actor w (w.takeLent h).1 := Change.lent.changes
      split
      · rename_i w' heq
        rw [heq] at hlent
        exact sound_ok hlent .succeed
      · rename_i w' fin heq
        rw [heq] at hlent
        have hfin : fin.Licensed L := licensed_of_lent hfins (by rw [heq])
        have hsound : Sound L actor (Program.Licensed L) w' (w'.finalizeWith fin e) :=
          sound_finalizeWith hfin e w'
        split
        · rename_i w'' p heq'
          rw [heq'] at hsound
          exact sound_ok (hlent.trans hsound.changes)
            (licensed_andThen (hsound.result p rfl) .succeed)
        · rename_i w'' d heq'
          rw [heq'] at hsound
          exact sound_error (hlent.trans hsound.changes)
  | finalize _ hfin => exact sound_finalizeWith hfin _ w

/-! ## Sequels -/

theorem changes_collect (refs : Key .refs) (fs : List (Key .fiber)) (values : List Value)
    (w : World σ) : Changes L actor w (w.collect refs fs values).1 := by
  induction fs generalizing w values with
  | nil => exact .refl w
  | cons f rest ih =>
      simp only [collect]
      split
      · rename_i v _
        have hjoin : Changes L actor w (w.joinRefs refs (w.refsOf f)).1 :=
          (elsewhere_joinRefs w refs _).changes (tallies_joinRefs w refs _)
        split
        · rename_i w' heq
          rw [heq] at hjoin
          exact hjoin.trans (ih _ w')
        · rename_i w' d heq
          rw [heq] at hjoin
          exact hjoin
      · exact .refl w

theorem sound_follow {s : Sequel σ} (h : s.Licensed L) (v : Value) (w : World σ) :
    Sound L actor (Program.Licensed L) w (w.follow s v) := by
  cases h with
  | captured => exact sound_ok (.refl w) .succeed
  | publish hs => exact sound_ok (Change.publish hs).changes licensed_unit
  | runNext hp => exact sound_ok (.refl w) (.flatMap hp (.sequel .combine))
  | combine => exact sound_ok (.refl w) .succeed
  | combineAll => exact sound_ok (.refl w) .succeed
  | @joined ours theirs =>
      simp only [follow]
      have hjoin : Changes L actor w (w.joinRefs ours theirs).1 :=
        (elsewhere_joinRefs w ours theirs).changes (tallies_joinRefs w ours theirs)
      split
      · rename_i w' heq
        rw [heq] at hjoin
        exact sound_ok hjoin (licensed_ofExit _)
      · rename_i w' d heq
        rw [heq] at hjoin
        exact sound_error hjoin
  | @raceDecided c =>
      simp only [follow]
      split
      · exact sound_ok (changes_interruptAll w _ _)
          (.flatMap (licensed_awaitExits _) (.sequel .raceDrained))
      · exact sound_ok (.refl w) .failCause
  | @raceDrained c winner e =>
      simp only [follow]
      split
      · exact sound_ok (.refl w) (licensed_leaveArena (licensed_ofExit _))
      · rename_i f _
        have hjoin : Changes L actor w (w.joinRefs c.refs (w.refsOf f)).1 :=
          (elsewhere_joinRefs w _ _).changes (tallies_joinRefs w _ _)
        split
        · rename_i w' heq
          rw [heq] at hjoin
          exact sound_ok hjoin (licensed_leaveArena (licensed_ofExit _))
        · rename_i w' d heq
          rw [heq] at hjoin
          exact sound_error hjoin
  | @zipDecided c =>
      simp only [follow]
      split
      · have hcollect : Changes L actor w (w.collect c.refs c.members []).1 :=
          changes_collect _ _ _ w
        split
        · rename_i w' values heq
          rw [heq] at hcollect
          exact sound_ok hcollect (licensed_leaveArena .succeed)
        · rename_i w' message heq
          rw [heq] at hcollect
          exact sound_ok hcollect .failCause
        · rename_i w' d heq
          rw [heq] at hcollect
          exact sound_error hcollect
      · exact sound_ok (changes_interruptAll w _ _)
          (.flatMap (licensed_awaitExits _) (.sequel .zipDrained))
      · exact sound_ok (.refl w) .failCause
  | zipDrained => exact sound_ok (.refl w) (licensed_leaveArena .failCause)
  | awaitNext => exact sound_ok (.refl w) (.flatMap .wait (.sequel .awaited))
  | awaited => exact sound_ok (.refl w) .succeed

/-! ## Going on -/

theorem sound_proceedWith {k : Cont σ} (h : k.Licensed L) (v : Value) (w : World σ) :
    Sound L actor (Program.Licensed L) w (w.proceedWith k v) := by
  cases h with
  | apply hg => exact sound_run (hg v) w
  | next hp => exact sound_ok (.refl w) hp
  | sequel hs => exact sound_follow hs v w

theorem sound_recoverWith {k : Handler σ} (h : k.Licensed L) (c : AnyCause) (w : World σ) :
    Sound L actor (Program.Licensed L) w (w.recoverWith k c) := by
  cases h with
  | apply hg => exact sound_run (hg c) w
  | capture => exact sound_ok (.refl w) .succeed

end Fibers.World
