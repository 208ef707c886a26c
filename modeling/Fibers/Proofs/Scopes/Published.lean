import Fibers.Proofs.Scopes.Closing

set_option autoImplicit false

/-! # When a claimed close is published

A fiber that has claimed the finalizers of a scope that closes in sequence stops to close it in two
ways only: it has published the exit, or it has left its program. In the second case the scope is
never closed.
-/

namespace Fibers

variable {σ : Type} {r : Run σ} {s : Key .scope} {g : Key .fiber} {i k : Nat}

section

variable {e : AnyExit} {rest : List (Waiting σ)} {fins : List (Handle × Finalizer σ)}

/-- A fiber that leaves its program does not go on closing. -/
theorem Run.not_closing_of_leaves {y : Fiber σ} {m : Machine σ} (h : (r.moment k).Leaves g y m) :
    ¬ r.Closing s g e rest i fins (k + 1) := by
  intro hclosing
  obtain ⟨m', hm', hstage⟩ := hclosing.machine
  obtain rfl := Option.some.inj (hm'.symm.trans (Run.machine_of_leaves h))
  rcases hstage with ⟨p, hp⟩ | ⟨hsuffix, -⟩
  · cases hp
  · cases List.suffix_nil.mp hsuffix

/-- Nor does it publish. -/
theorem Run.not_through_of_leaves {y : Fiber σ} {m : Machine σ} (h : (r.moment k).Leaves g y m)
    (hspent : (r.moment k).world.Spent s) : ¬ r.Through s g e rest i fins (k + 1) := by
  intro hthrough
  obtain ⟨j, xs, exiting, hjk, -, hpublishes, -, sc, hsc, hclosed⟩ := hthrough.finished
  rcases Nat.lt_or_eq_of_le (Nat.le_of_lt_succ hjk) with hlt | rfl
  · have hclosed := r.closed_later hlt hsc hclosed
    rw [hspent.not_closed] at hclosed
    cases hclosed
  · obtain ⟨y', m', v, below, hworks, -⟩ := hpublishes
    exact hworks.not_leaves h

end

/-- Once a fiber has stopped to close a scope, the scope is closed exactly if the fiber did not leave
its program while it was to publish the exit. That is the end of it: a scope that is not closed then
is never closed. -/
theorem Run.published_iff (hclaims : (r.moment i).Claims s g)
    (hseq : ((r.moment i).world.scope s).strategy = .sequential) (hik : i < k)
    (hstopped : ∀ m, (r.moment k).machine? g = some m → ¬ m.Closes s) :
    (((r.moment k).world.scope s).isClosed = true ↔
      ¬ ∃ j, i < j ∧ j < k ∧ ∃ y m, (r.moment j).Leaves g y m ∧ m.Closes s) ∧
    ∀ l, k ≤ l → ((r.moment l).world.scope s).isClosed = ((r.moment k).world.scope s).isClosed := by
  obtain ⟨y, m, hworks, hcontrol, hsome⟩ := hclaims
  obtain ⟨⟨sc, e, claimed⟩, hclaim⟩ := Option.isSome_iff_exists.mp hsome
  obtain ⟨sc₀, hsc₀, -, hsc⟩ := World.claim_of_some hclaim
  have hstrategy : sc.strategy = .sequential := by
    rw [World.scope_of_get hsc₀] at hseq
    rw [hsc]
    exact hseq
  have hstage {l : Nat} (hil : i < l) := Run.sequence hworks hcontrol hclaim hstrategy hil
  rcases hstage hik with ⟨-, hclosing⟩ | hdropped | hthrough
  · -- the fiber is closing the scope still
    obtain ⟨m', hm', hcloses⟩ := hclosing.closes
    exact absurd hcloses (hstopped m' hm')
  · have hnever : ∀ l, k ≤ l → ((r.moment l).world.scope s).isClosed = false := fun l hkl =>
      (hdropped.later hkl).spent.not_closed
    refine ⟨⟨fun hclosed => ?_, fun hnone => absurd hdropped.leaves hnone⟩, fun l hkl => ?_⟩
    · rw [hnever k (Nat.le_refl k)] at hclosed
      cases hclosed
    · rw [hnever l hkl, hnever k (Nat.le_refl k)]
  · refine ⟨⟨fun _ => ?_, fun _ => hthrough.isClosed (Nat.le_refl k)⟩, fun l hkl => ?_⟩
    · rintro ⟨j, hij, hjk, y', m', hleaves, hcloses⟩
      have hm' := Moment.machine?_of_active hleaves.1
      have hspent : (r.moment j).world.Spent s := by
        rcases hstage hij with ⟨hspent, -⟩ | hdropped | hbefore
        · exact hspent
        · exact hdropped.spent
        · exact absurd hcloses (hbefore.licensed.machine hm' id).not_closes
      rcases hstage (Nat.lt_succ_of_lt hij) with ⟨-, hclosing⟩ | hdropped | hafter
      · exact Run.not_closing_of_leaves hleaves hclosing
      · have hclosed := hthrough.isClosed (Nat.le_refl k)
        rw [(hdropped.later hjk).spent.not_closed] at hclosed
        cases hclosed
      · exact Run.not_through_of_leaves hleaves hspent hafter
    · rw [hthrough.isClosed hkl, hthrough.isClosed (Nat.le_refl k)]

/-- The close of the scope of a program that cleans up is published. -/
theorem tidy_published : (tidyRun.moment 14).Claims ⟨0⟩ ⟨0⟩ ∧
    (tidyRun.moment 25).machine? ⟨0⟩ = none ∧
    (((tidyRun.moment 25).world.scope ⟨0⟩).isClosed = true ↔ ¬ ∃ j, 14 < j ∧ j < 25 ∧
      ∃ y m, (tidyRun.moment j).Leaves ⟨0⟩ y m ∧ m.Closes ⟨0⟩) := by
  have hclaims : (tidyRun.moment 14).Claims ⟨0⟩ ⟨0⟩ :=
    ⟨((tidyRun.moment 14).world.fibers.get? ⟨0⟩).get rfl, ((tidyRun.moment 14).active.get rfl).2,
      ⟨rfl, rfl, Or.inl rfl, by decide, Or.inl ⟨_, rfl⟩⟩, rfl, rfl⟩
  have hdone : (tidyRun.moment 25).machine? ⟨0⟩ = none := rfl
  refine ⟨hclaims, hdone, (Run.published_iff hclaims rfl (by decide) fun m hm => ?_).1⟩
  rw [hdone] at hm
  cases hm

/-- A program that closes its own scope, with a finalizer that lets interruption in. -/
def hasty : Program Nat :=
  (Program.uninterruptible <| Program.flatMap .fiberScope <| .apply fun v =>
    match v with
    | .scope s => .program (.closeScope s (.success .unit))
    | _ => .program .unit).cleanup fun _ => .program (.interruptible .unit)

theorem licensed_hasty : hasty.Licensed .none := by
  refine .ensuring (.mask (.flatMap .fiberScope (.apply fun v => ?_)))
    (.apply fun _ => .program (.mask .succeed)) rfl
  cases v with
  | scope s => exact .program (.duty .close)
  | _ => exact .program .succeed

/-- The run of the program. -/
def hastyRun : Run Nat := .inOrder .standard 0 hasty licensed_hasty

/-- The fiber claims the finalizers of its scope, leaves the program inside one of them, and waits for
a closing that is nobody's business any more. -/
theorem hasty_unpublished : (hastyRun.moment 11).Claims ⟨0⟩ ⟨0⟩ ∧
    (hastyRun.moment 28).machine? ⟨0⟩ = some ⟨.instruct (.wait (.closed ⟨0⟩)), [], true⟩ ∧
    ¬ (⟨.instruct (.wait (.closed ⟨0⟩)), [], true⟩ : Machine Nat).Closes ⟨0⟩ ∧
    ((hastyRun.moment 28).world.scope ⟨0⟩).isClosed = false := by
  refine ⟨⟨((hastyRun.moment 11).world.fibers.get? ⟨0⟩).get rfl,
    ((hastyRun.moment 11).active.get rfl).2, ⟨rfl, rfl, Or.inr rfl, by decide, Or.inl ⟨_, rfl⟩⟩, rfl,
    rfl⟩, rfl, ?_, rfl⟩
  rintro (hframe | ⟨p, hp⟩)
  · cases hframe
  · cases hp

end Fibers
