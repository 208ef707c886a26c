import Fibers.Proofs.Finalizers.Protection
import Fibers.Proofs.Run.Glides
import Fibers.Proofs.Scopes.Custody

set_option autoImplicit false

/-! # Closing in sequence

A scope that closes in sequence has its finalizers run by the fiber that claims them, one after the
other. The program that does so is known, so the machine of the fiber is known too, but for the
stretches in which it is inside a finalizer. `Point` lists these machines. Every move leads from a
point to the same or to the next, to the inside of a finalizer, to the publication of the exit, or
out of the program of the fiber.
-/

namespace Fibers

variable {σ : Type} {s : Key .scope}

/-! ## The licence -/

/-- The licence for everything but to run the finalizers of one scope and to publish its exit. -/
def Licence.apart (s : Key .scope) : Licence :=
  { finalize := (·.scope ≠ s), publish := (· ≠ s), hold := fun _ => True, forget := True
    exempt := fun _ => False }

theorem Licence.not_publish_apart (s : Key .scope) : ¬ (Licence.apart s).publish s := fun h => h rfl

/-- Nobody but a fiber that claims asks for more than the licence. -/
theorem claimsLicensed_apart {x : Moment σ} (h : ∀ g, ¬ x.Claims s g) :
    x.ClaimsLicensed (.apart s) := by
  intro f y m t hworks hcontrol sc e fins hclaim
  have hts : t ≠ s := by
    rintro rfl
    exact h f ⟨y, m, hworks, hcontrol, by rw [hclaim]; rfl⟩
  exact ⟨hts, fun _ _ => hts⟩

/-- A fiber that keeps to the licence runs none of the finalizers. -/
theorem not_finalizes_of_licensed {x : Moment σ} (hx : x.Licensed (.apart s)) {f : Key .fiber}
    {y : Fiber σ} {m : Machine σ} {h : Handle} {fin : Finalizer σ} {e : AnyExit}
    (hworks : x.Works f y m) (hcontrol : m.control = .instruct (.duty (.finalize h fin e))) :
    h.scope ≠ s := by
  have hlicensed := (hx.active f m hworks.turn id).control
  rw [hcontrol] at hlicensed
  cases hlicensed with
  | duty hduty =>
      cases hduty with
      | finalize hh _ => exact hh

/-- A machine that is to publish the exit of the scope: the frame that does so is on its stack, or
the step that it is about to do pushes it. -/
def Machine.Closes (s : Key .scope) (m : Machine σ) : Prop :=
  .publishes s ∈ m.stack ∨ ∃ p, m.control = .instruct (.flatMap p (.sequel (.publish s)))

/-- No machine that keeps to the licence is to publish the exit. -/
theorem Machine.Licensed.not_closes {m : Machine σ} (h : m.Licensed (.apart s)) : ¬ m.Closes s := by
  have hpublish : ¬ (Cont.sequel (.publish s) : Cont σ).Licensed (.apart s) := by
    intro hcont
    cases hcont with
    | sequel hs =>
        cases hs with
        | publish hpublish => exact hpublish rfl
  rintro (hframe | ⟨p, hp⟩)
  · exact hpublish (h.stack _ hframe)
  · have hcontrol := h.control
    rw [hp] at hcontrol
    cases hcontrol with
    | flatMap _ hcont => exact hpublish hcont

/-! ## The program -/

namespace Sequence

/-- The program that runs one finalizer. -/
def single (e : AnyExit) (fin : Handle × Finalizer σ) : Program σ :=
  (Program.duty (.finalize fin.1 fin.2 e)).captured

/-- The program that runs finalizers one after the other. -/
def nest (e : AnyExit) (fins : List (Handle × Finalizer σ)) : Program σ :=
  (fins.map (single e)).foldl (fun acc p => .flatMap acc (.sequel (.runNext p))) (.succeed (.exit e))

theorem nest_concat (e : AnyExit) (fins : List (Handle × Finalizer σ))
    (fin : Handle × Finalizer σ) :
    nest e (fins ++ [fin]) = .flatMap (nest e fins) (.sequel (.runNext (single e fin))) := by
  simp [nest]

theorem finalizers_sequential (e : AnyExit) (fins : List (Handle × Finalizer σ)) :
    World.finalizers e fins .sequential =
      if fins.isEmpty then .succeed (.exit e) else .mask (nest e fins.reverse) false := rfl

/-- The frames of the finalizers that are still to be run. -/
def queue (e : AnyExit) (fins : List (Handle × Finalizer σ)) : List (Waiting σ) :=
  fins.map fun fin => .map (.sequel (.runNext (single e fin)))

/-- The stack under a finalizer that is being run, after finalizers that led to the exit `acc`. -/
def frames (e acc : AnyExit) (todo : List (Handle × Finalizer σ)) (base : List (Waiting σ)) :
    List (Waiting σ) :=
  .fold .capture (.sequel .captured) :: .map (.sequel (.combine acc)) :: (queue e todo ++ base)

/-- The machines between the finalizers. The first of the list is the next to be run, and what the
others led to is `acc`. -/
inductive Stage (e : AnyExit) (base : List (Waiting σ)) (exiting : Bool) :
    List (Handle × Finalizer σ) → AnyExit → Machine σ → Prop
  | nest (front back : List (Handle × Finalizer σ)) :
      Stage e base exiting (front ++ back) e ⟨.instruct (nest e front), queue e back ++ base, exiting⟩
  | say (todo : List (Handle × Finalizer σ)) (acc : AnyExit) :
      Stage e base exiting todo acc
        ⟨.instruct (.succeed (.exit acc)), queue e todo ++ base, exiting⟩
  | give (todo : List (Handle × Finalizer σ)) (acc : AnyExit) :
      Stage e base exiting todo acc ⟨.value (.exit acc), queue e todo ++ base, exiting⟩
  | take (fin : Handle × Finalizer σ) (todo : List (Handle × Finalizer σ)) (acc : AnyExit) :
      Stage e base exiting (fin :: todo) acc
        ⟨.instruct (.flatMap (single e fin) (.sequel (.combine acc))), queue e todo ++ base, exiting⟩
  | wrap (fin : Handle × Finalizer σ) (todo : List (Handle × Finalizer σ)) (acc : AnyExit) :
      Stage e base exiting (fin :: todo) acc
        ⟨.instruct (single e fin), .map (.sequel (.combine acc)) :: (queue e todo ++ base), exiting⟩
  | invoke (fin : Handle × Finalizer σ) (todo : List (Handle × Finalizer σ)) (acc : AnyExit) :
      Stage e base exiting (fin :: todo) acc
        ⟨.instruct (.duty (.finalize fin.1 fin.2 e)), frames e acc todo base, exiting⟩
  | tell (todo : List (Handle × Finalizer σ)) (acc outcome : AnyExit) :
      Stage e base exiting todo (World.combine acc outcome)
        ⟨.instruct (.succeed (.exit outcome)),
          .map (.sequel (.combine acc)) :: (queue e todo ++ base), exiting⟩
  | told (todo : List (Handle × Finalizer σ)) (acc outcome : AnyExit) :
      Stage e base exiting todo (World.combine acc outcome)
        ⟨.value (.exit outcome), .map (.sequel (.combine acc)) :: (queue e todo ++ base), exiting⟩

/-- Between the finalizers the machine glides, until the next one is invoked or none is left. -/
theorem Stage.next {e acc : AnyExit} {base : List (Waiting σ)} {exiting : Bool}
    {todo : List (Handle × Finalizer σ)} {m : Machine σ} (h : Stage e base exiting todo acc m) :
    (∃ m', m.glide? = some m' ∧ Stage e base exiting todo acc m') ∨
    (∃ fin rest, todo = fin :: rest ∧
      m = ⟨.instruct (.duty (.finalize fin.1 fin.2 e)), frames e acc rest base, exiting⟩) ∨
    (todo = [] ∧ m = ⟨.value (.exit acc), base, exiting⟩) := by
  cases h with
  | nest front back =>
      left
      rcases List.eq_nil_or_concat front with rfl | ⟨front, fin, rfl⟩
      · exact ⟨_, rfl, .give back e⟩
      · rw [List.concat_eq_append, nest_concat, List.append_assoc]
        exact ⟨_, rfl, .nest front (fin :: back)⟩
  | say => exact Or.inl ⟨_, rfl, .give todo acc⟩
  | give =>
      cases todo with
      | nil => exact Or.inr (Or.inr ⟨rfl, rfl⟩)
      | cons fin rest => exact Or.inl ⟨_, rfl, .take fin rest acc⟩
  | take fin rest => exact Or.inl ⟨_, rfl, .wrap fin rest acc⟩
  | wrap fin rest => exact Or.inl ⟨_, rfl, .invoke fin rest acc⟩
  | invoke fin rest => exact Or.inr (Or.inl ⟨fin, rest, rfl, rfl⟩)
  | tell _ acc outcome => exact Or.inl ⟨_, rfl, .told todo acc outcome⟩
  | told _ acc outcome => exact Or.inl ⟨_, rfl, .say todo (World.combine acc outcome)⟩

/-- Between the finalizers the rest of the stack waits. -/
theorem Stage.suffix {e acc : AnyExit} {base : List (Waiting σ)} {exiting : Bool}
    {todo : List (Handle × Finalizer σ)} {m : Machine σ} (h : Stage e base exiting todo acc m) :
    base <:+ m.stack := by
  cases h with
  | nest front back => exact List.suffix_append _ _
  | say => exact List.suffix_append _ _
  | give => exact List.suffix_append _ _
  | take => exact List.suffix_append _ _
  | wrap => exact (List.suffix_append _ _).trans (List.suffix_cons _ _)
  | invoke => exact ((List.suffix_append _ _).trans (List.suffix_cons _ _)).trans (List.suffix_cons _ _)
  | tell => exact (List.suffix_append _ _).trans (List.suffix_cons _ _)
  | told => exact (List.suffix_append _ _).trans (List.suffix_cons _ _)

theorem Stage.success {e acc x : AnyExit} {base : List (Waiting σ)} {exiting : Bool}
    {todo : List (Handle × Finalizer σ)} {m : Machine σ} (h : Stage e base exiting todo acc m)
    (hcontrol : m.control = .ofExit x) : ∃ v, x = .success v := by
  cases x with
  | success v => exact ⟨v, rfl⟩
  | failure c => cases h <;> cases hcontrol

/-- The machines of a fiber that closes a scope in sequence, but for the stretches inside a
finalizer. `rest` is the stack it claimed the finalizers with. -/
inductive Point (s : Key .scope) (e : AnyExit) (rest : List (Waiting σ)) (exiting : Bool) :
    List (Handle × Finalizer σ) → AnyExit → Machine σ → Prop
  | claimed (fins : List (Handle × Finalizer σ)) :
      Point s e rest exiting fins.reverse e
        ⟨.instruct (.flatMap (World.finalizers e fins .sequential) (.sequel (.publish s))), rest, exiting⟩
  | mask (fins : List (Handle × Finalizer σ)) :
      Point s e rest exiting fins e
        ⟨.instruct (.mask (nest e fins) false), .publishes s :: rest, exiting⟩
  | stage {todo : List (Handle × Finalizer σ)} {acc : AnyExit} {m : Machine σ} :
      Stage e (.restore .interruptible :: .publishes s :: rest) exiting todo acc m →
      Point s e rest exiting todo acc m
  | last {acc : AnyExit} {m : Machine σ} :
      Stage e (.publishes s :: rest) exiting [] acc m → Point s e rest exiting [] acc m

/-- At a point the machine is about to start, or the frame that publishes waits with the rest. -/
theorem Point.suffix {e acc : AnyExit} {rest : List (Waiting σ)} {exiting : Bool}
    {todo : List (Handle × Finalizer σ)} {m : Machine σ} (h : Point s e rest exiting todo acc m) :
    (∃ p, m.control = .instruct (.flatMap p (.sequel (.publish s)))) ∨
      .publishes s :: rest <:+ m.stack := by
  cases h with
  | claimed fins => exact Or.inl ⟨_, rfl⟩
  | mask fins => exact Or.inr (List.suffix_refl _)
  | stage hstage => exact Or.inr ((List.suffix_cons _ _).trans hstage.suffix)
  | last hstage => exact Or.inr hstage.suffix

/-- At a point no failure comes down. -/
theorem Point.success {e acc x : AnyExit} {rest : List (Waiting σ)} {exiting : Bool}
    {todo : List (Handle × Finalizer σ)} {m : Machine σ} (h : Point s e rest exiting todo acc m)
    (hcontrol : m.control = .ofExit x) : ∃ v, x = .success v := by
  cases h with
  | claimed => cases x <;> cases hcontrol
  | mask => cases x <;> cases hcontrol
  | stage hstage => exact hstage.success hcontrol
  | last hstage => exact hstage.success hcontrol

/-- A point leads to the next by itself, or it is one of four. -/
theorem Point.next {e acc : AnyExit} {rest : List (Waiting σ)} {exiting : Bool}
    {todo : List (Handle × Finalizer σ)} {m : Machine σ} (h : Point s e rest exiting todo acc m) :
    (∃ m', m.glide? = some m' ∧ Point s e rest exiting todo acc m') ∨
    (acc = e ∧ m = ⟨.instruct (.mask (nest e todo) false), .publishes s :: rest, exiting⟩) ∨
    (∃ fin left, todo = fin :: left ∧ m = ⟨.instruct (.duty (.finalize fin.1 fin.2 e)),
      frames e acc left (.restore .interruptible :: .publishes s :: rest), exiting⟩) ∨
    (todo = [] ∧ (m = ⟨.value (.exit acc), .restore .interruptible :: .publishes s :: rest, exiting⟩ ∨
      m = ⟨.value (.exit acc), .publishes s :: rest, exiting⟩)) := by
  cases h with
  | claimed fins =>
      left
      refine ⟨_, rfl, ?_⟩
      rw [finalizers_sequential]
      cases fins with
      | nil => exact .last (.say [] e)
      | cons fin left => exact .mask (fin :: left).reverse
  | mask fins => exact Or.inr (Or.inl ⟨rfl, rfl⟩)
  | stage hstage =>
      rcases hstage.next with ⟨m', hglide, hnext⟩ | hinvoke | ⟨rfl, rfl⟩
      · exact Or.inl ⟨m', hglide, .stage hnext⟩
      · exact Or.inr (Or.inr (Or.inl hinvoke))
      · exact Or.inr (Or.inr (Or.inr ⟨rfl, Or.inl rfl⟩))
  | last hstage =>
      rcases hstage.next with ⟨m', hglide, hnext⟩ | ⟨fin, left, hnil, -⟩ | ⟨-, rfl⟩
      · exact Or.inl ⟨m', hglide, .last hnext⟩
      · cases hnil
      · exact Or.inr (Or.inr (Or.inr ⟨rfl, Or.inr rfl⟩))

end Sequence

/-! ## From point to point -/

section

open Sequence

variable {x x' : Moment σ} {g : Key .fiber} {e acc : AnyExit} {rest : List (Waiting σ)}
  {exiting : Bool} {todo : List (Handle × Finalizer σ)} {m : Machine σ}

/-- The fiber does the step that its machine comes to by itself, stays about to, or leaves. -/
theorem Move.rest_or (h : Move x x') (hx : x.Lawful) (hturned : x.Turned)
    (hattentive : x.world.Attentive) (hspent : x.world.Spent s) (hhas : x.Has (.apart s) g m)
    (hwork : (∃ p, m.control = .instruct p) ∨ ∃ e, m.control = .ofExit e)
    (hminds : m.control.Minds fun _ => False) :
    (∃ y, x.Works g y m) ∨ x'.world.Spent s ∧
      (x'.Has (.apart s) g m ∨ x'.Licensed (.apart s) ∧ ∃ y, x.Leaves g y m) := by
  by_cases hworks : ∃ y, x.Works g y m
  · exact Or.inl hworks
  · obtain ⟨hfares, hafter⟩ := h.poised hx hturned hattentive hhas (fun _ => id)
      (fun _ _ => trivial) trivial (claimsLicensed_apart hspent.not_claims) hwork hminds
      fun y hy => hworks ⟨y, hy⟩
    exact Or.inr ⟨hspent.of_plainly (hfares.plainly s (Licence.not_publish_apart s)), hafter⟩

/-- The step in which a finalizer is invoked leads inside it. -/
theorem Move.invokes {L : Licence} (h : Move x x') {y : Fiber σ} (hworks : x.Works g y m)
    (hhas : x.Has L g m) (hturned : x.Turned) (hexempt : ∀ f, ¬ L.exempt f)
    (hhold : ∀ h, L.hold h) {fin : Handle × Finalizer σ}
    (hcontrol : m.control = .instruct (.duty (.finalize fin.1 fin.2 e)))
    (hfin : fin.2.Licensed L) (hstack : m.stack ≠ []) :
    (∀ s, ¬ L.publish s → World.Plainly s x.world x'.world) ∧ x'.Above L g m.stack := by
  obtain ⟨w, active⟩ := x
  obtain rfl : active = some (g, m) := hworks.turn
  have hw : w.Licensed L := hhas.licensed.world.of_sparing (hturned g m rfl)
  have hcount : World.Changes L (some g) w (w.count g) := World.changes_own rfl fun x => rfl
  have hsound : World.StepSound L (some g) w m.exiting m.stack
      ((w.count g).instruct g y m (.duty (.finalize fin.1 fin.2 e))) :=
    (World.stepSound_enter (World.sound_finalizeWith hfin e (w.count g))).after hcount
  have hnext : x' = World.conclude g
      ((w.count g).instruct g y m (.duty (.finalize fin.1 fin.2 e))) := by
    cases h with
    | advance => exact World.advance_instruct hworks hcontrol
  obtain ⟨y', hy', -⟩ := hsound.changes.grows.fibers g y hworks.fiber
  rw [hnext]
  exact ⟨fun s hs => (hsound.changes.plainly hs).trans
      (World.plainly_of_status (World.status_conclude g _)),
    World.above_conclude hsound (hsound.changes.licensed (fun h _ _ => hhold h) hw) hexempt hstack
      ⟨y', hy'⟩⟩

/-- The step in which the exit of a scope is published. -/
theorem Move.publish_next {L : Licence} (h : Move x x') {y : Fiber σ} (hworks : x.Works g y m)
    (hspent : x.world.Spent s) (hcontrol : m.control = .value (.exit acc)) {w' : World σ}
    (hdescend : World.descend g false m.stack (x.world.count g) = (w', .publishes s :: rest))
    (hpassed : World.Plainly s x.world w') (hw' : w'.Licensed L)
    (hrest : ∀ z ∈ rest, z.Licensed L) :
    x.Publishes s g ∧ x'.Licensed L ∧
      x'.machine? g = some ⟨.instruct .unit, rest, m.exiting⟩ ∧
      ∃ sc, x'.world.scopes.get? s = some sc ∧ sc.state = .closed acc := by
  obtain ⟨w, active⟩ := x
  obtain rfl : active = some (g, m) := hworks.turn
  have hnext : x' = ⟨w'.publish s acc, some (g, ⟨.instruct .unit, rest, m.exiting⟩)⟩ := by
    cases h with
    | advance =>
        have hstop : World.descend g (Exit.success (.exit acc) : AnyExit).isFailure m.stack (w.count g) =
            (w', .publishes s :: rest) := hdescend
        rw [World.advance_unwind (e := .success (.exit acc)) hworks hcontrol, World.unwind_descend,
          hstop]
        rfl
  refine ⟨⟨y, m, _, rest, hworks, hcontrol, congrArg Prod.snd hdescend⟩, ?_⟩
  rw [hnext]
  refine ⟨⟨World.licensed_publish hw' s acc, fun f m' hf _ => ?_⟩, Moment.machine?_active, ?_⟩
  · cases hf
    exact ⟨.succeed, hrest, nofun⟩
  · obtain ⟨exit, told, hstatus⟩ := hspent.of_plainly hpassed
    obtain ⟨sc, hsc, -⟩ := Option.map_eq_some_iff.mp hstatus
    have hset : (w'.publish s acc).scopes.get? s = some ((w'.scope s).publish acc).1 := by
      rw [World.scopes_publish, Store.get?_set_of_some hsc]
    refine ⟨_, hset, ?_⟩
    unfold Scope.publish
    split <;> rfl

/-- What a move makes of a fiber at a point: it is at the same point or at the next, inside the
finalizer that is to be run next, or out of its program, or it has published the exit. -/
inductive Moment.Proceeds (s : Key .scope) (g : Key .fiber) (e : AnyExit) (rest : List (Waiting σ))
    (exiting : Bool) (todo : List (Handle × Finalizer σ)) (acc : AnyExit) (m : Machine σ)
    (x x' : Moment σ) : Prop
  | point {m' : Machine σ} : x'.world.Spent s → x'.Has (.apart s) g m' →
      Point s e rest exiting todo acc m' → Moment.Proceeds s g e rest exiting todo acc m x x'
  | inside {fin : Handle × Finalizer σ} {left : List (Handle × Finalizer σ)} :
      x'.world.Spent s → todo = fin :: left → (∃ y, x.Works g y m) →
      m.control = .instruct (.duty (.finalize fin.1 fin.2 e)) →
      m.stack = frames e acc left (.restore .interruptible :: .publishes s :: rest) →
      x'.Above (.apart s) g m.stack → Moment.Proceeds s g e rest exiting todo acc m x x'
  | left : x'.world.Spent s → x'.Licensed (.apart s) → (∃ y, x.Leaves g y m) →
      Moment.Proceeds s g e rest exiting todo acc m x x'
  | published : todo = [] → x.Publishes s g → x'.Licensed (.apart s) →
      x'.machine? g = some ⟨.instruct .unit, rest, exiting⟩ →
      (∃ sc, x'.world.scopes.get? s = some sc ∧ sc.state = .closed acc) →
      Moment.Proceeds s g e rest exiting todo acc m x x'

/-- A fiber at a point that does not work. -/
theorem Moment.Proceeds.of_rest (hpoint : Point s e rest exiting todo acc m)
    (h : x'.world.Spent s ∧ (x'.Has (.apart s) g m ∨
      x'.Licensed (.apart s) ∧ ∃ y, x.Leaves g y m)) :
    Moment.Proceeds s g e rest exiting todo acc m x x' := by
  obtain ⟨hspent, hhas | ⟨hlicensed, hleaves⟩⟩ := h
  · exact .point hspent hhas hpoint
  · exact .left hspent hlicensed hleaves

/-- The step after the last finalizer: the mask is popped and the exit published, unless that makes
the fiber leave its program. -/
theorem Move.point_last (h : Move x x') (hturned : x.Turned) (hspent : x.world.Spent s)
    (hhas : x.Has (.apart s) g m) (hrest : ∀ z ∈ rest, z.Licensed (.apart s))
    (hworks : ∃ y, x.Works g y m)
    (hm : m = ⟨.value (.exit acc), .restore .interruptible :: .publishes s :: rest, exiting⟩) :
    Moment.Proceeds s g e rest exiting [] acc m x x' := by
  obtain ⟨y, hworks⟩ := hworks
  have hcontrol : m.control = .value (.exit acc) := by rw [hm]
  have hstack : m.stack = .restore .interruptible :: .publishes s :: rest := by rw [hm]
  have hw : x.world.Licensed (.apart s) := hhas.licensed.world.of_sparing (hturned g m hworks.turn)
  have hcount : World.Changes (.apart s) (some g) x.world (x.world.count g) :=
    World.changes_own rfl fun x => rfl
  have hrestore : World.Changes (.apart s) (some g) (x.world.count g)
      ((x.world.count g).restore g .interruptible).1 := World.changes_restore _ _ _
  rcases hr : (x.world.count g).restore g .interruptible with ⟨w', leaves⟩
  rw [hr] at hrestore
  have hchanges : World.Changes (.apart s) (some g) x.world w' := hcount.trans hrestore
  have hplain : World.Plainly s x.world w' := hchanges.plainly (Licence.not_publish_apart s)
  cases leaves with
  | true =>
      -- the mask comes off and unwinding stops: the frame that publishes gets the value in the next step
      obtain ⟨w, active⟩ := x
      obtain rfl : active = some (g, m) := hworks.turn
      have hnext : x' = ⟨w', some (g, ⟨.value (.exit acc), .publishes s :: rest, exiting⟩)⟩ := by
        cases h with
        | advance =>
            have hr' : (w.count g).restore g .interruptible = (w', true) := hr
            rw [World.advance_unwind (e := .success (.exit acc)) hworks hcontrol, hstack]
            simp only [World.unwind, World.unwindValue, hr']
            rw [hm]
            rfl
      obtain ⟨hhas', -⟩ := hhas.advance
        ⟨.value (.exit acc), .publishes s :: rest, exiting⟩ hturned (fun _ => id)
        (fun _ => trivial) hchanges
      rw [hnext]
      exact .point (hspent.of_plainly hplain) hhas' (.last (.give [] acc))
  | false =>
      -- the value comes down to the frame that publishes in this very step
      have hdescend : World.descend g false m.stack (x.world.count g) = (w', .publishes s :: rest) := by
        rw [hstack]
        simp only [World.descend, hr]
        rfl
      obtain ⟨hpublishes, hlicensed, hmachine, hclosed⟩ := h.publish_next hworks hspent hcontrol
        hdescend hplain (hchanges.licensed (fun _ _ _ => trivial) hw) hrest
      rw [hm] at hmachine
      exact .published rfl hpublishes hlicensed hmachine hclosed

/-- Every move of a fiber at a point. -/
theorem Move.point (h : Move x x') (hx : x.Lawful) (hturned : x.Turned)
    (hattentive : x.world.Attentive) (hspent : x.world.Spent s) (hhas : x.Has (.apart s) g m)
    (hpoint : Point s e rest exiting todo acc m) (hrest : ∀ z ∈ rest, z.Licensed (.apart s))
    (hfins : ∀ fin ∈ todo, fin.2.Licensed (.apart s)) :
    Moment.Proceeds s g e rest exiting todo acc m x x' := by
  have hidle := h.rest_or hx hturned hattentive hspent hhas
  rcases hpoint.next with ⟨m', hglide, hnext⟩ | ⟨hacc, hm⟩ | ⟨fin, left, htodo, hm⟩ | ⟨htodo, hm⟩
  · obtain ⟨hplain, hafter⟩ := h.glides hx hturned hattentive hhas (fun _ => id) (fun _ => trivial)
      trivial (claimsLicensed_apart hspent.not_claims) hglide
    have hspent' := hspent.of_plainly (hplain s (Licence.not_publish_apart s))
    rcases hafter with hstays | ⟨-, hglides⟩ | ⟨hlicensed, hleaves⟩
    · exact .point hspent' hstays hpoint
    · exact .point hspent' hglides hnext
    · exact .left hspent' hlicensed hleaves
  · have hcontrol : m.control = .instruct (.mask (nest e todo) false) := by rw [hm]
    rcases hidle (Or.inl ⟨_, hcontrol⟩) (by rw [hcontrol]; trivial) with ⟨y, hworks⟩ | hstays
    · obtain ⟨w, active⟩ := x
      obtain rfl : active = some (g, m) := hworks.turn
      have hcount : World.Changes (.apart s) (some g) w (w.count g) :=
        World.changes_own rfl fun x => rfl
      have hmask : World.Changes (.apart s) (some g) (w.count g)
          ((w.count g).modifyFiber g fun fiber => { fiber with masks := fiber.masks.push false }) :=
        World.changes_own rfl fun x => rfl
      obtain ⟨hhas', hplain⟩ := hhas.advance
        ⟨.instruct (nest e todo), .restore .interruptible :: .publishes s :: rest, exiting⟩
        hturned (fun _ => id) (fun _ => trivial) (hcount.trans hmask)
      have hstage : Stage e (.restore .interruptible :: .publishes s :: rest) exiting (todo ++ []) e
          ⟨.instruct (nest e todo), .restore .interruptible :: .publishes s :: rest, exiting⟩ :=
        .nest todo []
      rw [List.append_nil] at hstage
      cases h with
      | advance =>
          rw [World.advance_mask hworks hcontrol]
          subst hm hacc
          exact .point (hspent.of_plainly (hplain s (Licence.not_publish_apart s))) hhas' (.stage hstage)
    · exact .of_rest hpoint hstays
  · have hcontrol : m.control = .instruct (.duty (.finalize fin.1 fin.2 e)) := by rw [hm]
    have hstack : m.stack = frames e acc left (.restore .interruptible :: .publishes s :: rest) := by
      rw [hm]
    rcases hidle (Or.inl ⟨_, hcontrol⟩) (by rw [hcontrol]; trivial) with ⟨y, hworks⟩ | hstays
    · obtain ⟨hplain, habove⟩ := h.invokes hworks hhas hturned (fun _ => id) (fun _ => trivial)
        hcontrol (hfins fin (by rw [htodo]; exact List.mem_cons_self))
        (by rw [hstack]; exact List.cons_ne_nil _ _)
      exact .inside (hspent.of_plainly (hplain s (Licence.not_publish_apart s))) htodo ⟨y, hworks⟩
        hcontrol hstack habove
    · exact .of_rest hpoint hstays
  · have hcontrol : m.control = .value (.exit acc) := by rcases hm with rfl | rfl <;> rfl
    rcases hidle (Or.inr ⟨.success (.exit acc), hcontrol⟩) (by rw [hcontrol]; trivial) with
      hworks | hstays
    · subst htodo
      rcases hm with hm | hm
      · exact h.point_last hturned hspent hhas hrest hworks hm
      · obtain ⟨y, hworks⟩ := hworks
        have hw : x.world.Licensed (.apart s) :=
          hhas.licensed.world.of_sparing (hturned g m hworks.turn)
        have hcount : World.Changes (.apart s) (some g) x.world (x.world.count g) :=
          World.changes_own rfl fun x => rfl
        have hdescend : World.descend g false m.stack (x.world.count g) =
            (x.world.count g, .publishes s :: rest) := by
          rw [hm]
          rfl
        obtain ⟨hpublishes, hlicensed, hmachine, hclosed⟩ := h.publish_next hworks hspent hcontrol
          hdescend (hcount.plainly (Licence.not_publish_apart s))
          (hcount.licensed (fun _ _ _ => trivial) hw) hrest
        rw [hm] at hmachine
        exact .published rfl hpublishes hlicensed hmachine hclosed
    · exact .of_rest hpoint hstays

/-- Inside a finalizer the fiber goes on, leaves its program, or comes out with an exit, which is
then told to the frame that adds it to what the others led to. -/
theorem Move.inside {left : List (Handle × Finalizer σ)} {base : List (Waiting σ)}
    (h : Move x x') (hx : x.Lawful) (hturned : x.Turned) (hspent : x.world.Spent s)
    (habove : x.Above (.apart s) g (frames e acc left base)) :
    x'.world.Spent s ∧ (x'.Above (.apart s) g (frames e acc left base) ∨
      (∃ m outcome, (∃ y, x.Works g y m) ∧ m.control = .ofExit outcome ∧
        (World.descend g outcome.isFailure m.stack (x.world.count g)).2 = frames e acc left base ∧
        ∃ m' exiting, x'.Has (.apart s) g m' ∧
          Stage e base exiting left (World.combine acc outcome) m') ∨
      x'.Licensed (.apart s) ∧ ∃ y m, x.Leaves g y m) := by
  by_cases hmeets : ∃ m pre outcome, x.Meets (.apart s) g (frames e acc left base) m pre outcome
  · obtain ⟨m, pre, outcome, hmeets⟩ := hmeets
    obtain ⟨w, hdown, hw, hnext, hdescend⟩ :=
      hmeets.next h hturned habove.licensed fun _ _ => trivial
    have hplain : World.Plainly s x.world w := hdown.plainly (Licence.not_publish_apart s)
    set m' : Machine σ := ⟨.instruct (.succeed (.exit outcome)),
      .map (.sequel (.combine acc)) :: (queue e left ++ base), m.exiting⟩ with hm'
    have hcatch : World.conclude g (World.unwind g m.exiting outcome (frames e acc left base) w) =
        ⟨w, some (g, m')⟩ := by
      cases outcome with
      | success v => rfl
      | failure c => rfl
    have hstop : (World.descend g outcome.isFailure m.stack (x.world.count g)).2 =
        frames e acc left base := by
      rw [hdescend]
      rfl
    rw [hcatch] at hnext
    have hhas : x'.Has (.apart s) g m' := by
      rw [hnext]
      refine ⟨⟨hw.sparing (fun _ => id) g, fun f m'' hf hne => ?_⟩, Moment.machine?_active⟩
      cases hf
      exact absurd rfl hne
    refine ⟨by rw [hnext]; exact hspent.of_plainly hplain, Or.inr (Or.inl ⟨m, outcome,
      hmeets.works, hmeets.control, hstop, m', m.exiting, hhas, .tell left acc outcome⟩)⟩
  · obtain ⟨hfares, hafter⟩ := h.above hx hturned habove (List.cons_ne_nil _ _) (fun _ => id)
      (fun _ _ => trivial) trivial (claimsLicensed_apart hspent.not_claims)
      fun m pre outcome hm => hmeets ⟨m, pre, outcome, hm⟩
    exact ⟨hspent.of_plainly (hfares.plainly s (Licence.not_publish_apart s)),
      hafter.imp_right Or.inr⟩

end

end Fibers
