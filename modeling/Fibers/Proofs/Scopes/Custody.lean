import Fibers.Proofs.Run.Above

set_option autoImplicit false

/-! # Who has the publication

The frame that publishes the exit of a scope is made by the claim of its finalizers, and a scope is
claimed once. So at most one fiber has that frame, namely the one that claimed the finalizers, and
as long as it has the frame the scope is neither open nor closed. `Custody` says so of a moment.
Every move keeps it, and logs a claim exactly when a fiber claims, and a publication exactly when a
value comes down to the frame.
-/

namespace Fibers

variable {σ : Type} {s : Key .scope}

/-- The licence for everything but to publish the exit of one scope. -/
def Licence.but (s : Key .scope) : Licence :=
  { finalize := fun _ => True, publish := (· ≠ s), hold := fun _ => True, forget := True
    exempt := fun _ => False }

theorem Licence.not_publish_but (s : Key .scope) : ¬ (Licence.but s).publish s := fun h => h rfl

/-- The frame that publishes the exit of a scope. -/
def Waiting.publishes (s : Key .scope) : Waiting σ := .map (.sequel (.publish s))

theorem not_licensed_publishes (s : Key .scope) :
    ¬ (Waiting.publishes s : Waiting σ).Licensed (.but s) := by
  intro h
  cases h with
  | sequel hs =>
      cases hs with
      | publish hpublish => exact hpublish rfl

/-! ## Claiming and publishing as steps -/

/-- The fiber `g` works on the claim of the finalizers of a scope, and they are there. -/
def Moment.Claims (s : Key .scope) (g : Key .fiber) (x : Moment σ) : Prop :=
  ∃ y m, x.Works g y m ∧ m.control = .instruct (.duty (.finish s)) ∧
    (x.world.scope s).claim?.isSome = true

/-- A value comes down the stack of the fiber `g` to the frame that publishes it. -/
def Moment.Publishes (s : Key .scope) (g : Key .fiber) (x : Moment σ) : Prop :=
  ∃ y m v rest, x.Works g y m ∧ m.control = .value v ∧
    (World.descend g false m.stack (x.world.count g)).2 = .publishes s :: rest

/-- From a moment to the next a scope passes some events, among them a claim exactly if somebody
claims its finalizers, and a publication exactly if somebody publishes its exit. -/
structure Moment.Logs (s : Key .scope) (x : Moment σ) (new : List (ScopeEvent σ)) (x' : Moment σ) :
    Prop where
  passes : World.Passes s x.world new x'.world
  claims : ScopeEvent.claims new ≠ [] ↔ ∃ g, x.Claims s g
  publications : ScopeEvent.publications new ≠ [] ↔ ∃ g, x.Publishes s g

/-- Plain events, in a move in which nobody claims or publishes. -/
theorem Moment.logs_of_plainly {x x' : Moment σ} (h : World.Plainly s x.world x'.world)
    (hclaims : ∀ g, ¬ x.Claims s g) (hpublishes : ∀ g, ¬ x.Publishes s g) :
    ∃ new, x.Logs s new x' := by
  obtain ⟨new, hpasses, hnone, hnone'⟩ := h
  exact ⟨new, hpasses, by simp [hnone, hclaims], by simp [hnone', hpublishes]⟩

/-- A fiber whose machine keeps to the licence does not publish. -/
theorem not_publishes_of_licensed {x : Moment σ} {g : Key .fiber}
    (h : ∀ m, x.active = some (g, m) → ∀ z ∈ m.stack, z.Licensed (.but s)) :
    ¬ x.Publishes s g := by
  rintro ⟨y, m, v, rest, hworks, -, hdescend⟩
  refine not_licensed_publishes s (h m hworks.turn _ ?_)
  refine (World.descend_suffix g false m.stack (x.world.count g)).subset ?_
  rw [hdescend]
  exact List.mem_cons_self

/-! ## Custody -/

/-- The finalizers of a scope have been claimed, and its exit is not published yet. -/
def World.Spent (s : Key .scope) (w : World σ) : Prop :=
  ∃ e told, w.status s = some (.closing e none, told)

/-- The fiber `g` has claimed the finalizers and is about to make the frame that publishes. -/
structure Moment.Begun (s : Key .scope) (g : Key .fiber) (x : Moment σ) : Prop where
  licensed : x.Licensed ((Licence.but s).sparing g)
  machine : ∃ m p, x.machine? g = some m ∧
    m.control = .instruct (.flatMap p (.sequel (.publish s))) ∧ p.Licensed (.but s) ∧
    ∀ z ∈ m.stack, z.Licensed (.but s)

/-- Who has the publication of the exit of a scope: nobody, or the fiber that has claimed its
finalizers, while the scope is waiting for the exit. -/
inductive Moment.Custody (s : Key .scope) (x : Moment σ) : Option (Key .fiber) → Prop
  | nobody : x.Licensed (.but s) → Moment.Custody s x none
  | begun {g : Key .fiber} : x.world.Spent s → x.Begun s g → Moment.Custody s x (some g)
  | above {g : Key .fiber} {rest : List (Waiting σ)} : x.world.Spent s →
      x.Above (.but s) g (.publishes s :: rest) → (∀ z ∈ rest, z.Licensed (.but s)) →
      Moment.Custody s x (some g)

/-- Who has the publication next, either had it or has claimed the finalizers. -/
def Moment.Hands (s : Key .scope) (x : Moment σ) (keeper : Option (Key .fiber)) (x' : Moment σ) :
    Prop :=
  ∃ keeper', x'.Custody s keeper' ∧ ∀ g, keeper' = some g → keeper = some g ∨ x.Claims s g

theorem Moment.Custody.hands {x x' : Moment σ} {keeper keeper' : Option (Key .fiber)}
    (h : x'.Custody s keeper') (hkeeper : keeper' = none ∨ keeper' = keeper) :
    x.Hands s keeper x' := by
  refine ⟨keeper', h, fun g hg => ?_⟩
  rcases hkeeper with rfl | rfl
  · cases hg
  · exact Or.inl hg

namespace World

/-- A scope that is not open and has nothing to claim stays so, whatever plain events it passes. -/
theorem Spent.of_passes {w w' : World σ} {log : List (ScopeEvent σ)} (hw : w.Spent s)
    (h : Passes s w log w') (hclaims : ScopeEvent.claims log = [])
    (hpublications : ScopeEvent.publications log = []) : w'.Spent s := by
  induction h with
  | refl => exact hw
  | unmoved _ hstatus ih =>
      obtain ⟨e, told, heq⟩ := ih hclaims hpublications
      exact ⟨e, told, hstatus.trans heq⟩
  | made _ hnone _ ih =>
      obtain ⟨e, told, heq⟩ := ih hclaims hpublications
      rw [hnone] at heq
      cases heq
  | @does log ev w₁ w₂ _ hev ih =>
      rw [ScopeEvent.claims_append, List.append_eq_nil_iff] at hclaims
      rw [ScopeEvent.publications_append, List.append_eq_nil_iff] at hpublications
      obtain ⟨e, told, heq⟩ := ih hclaims.1 hpublications.1
      obtain ⟨sc, hsc, hstate⟩ := Option.map_eq_some_iff.mp heq
      have hclosing : sc.state = .closing e none := congrArg Prod.fst hstate
      have hshut : (w₁.scope s).isOpen = false := by rw [scope_of_get hsc, Scope.isOpen, hclosing]
      cases hev with
      | register hreg =>
          rw [register_of_not_open hshut] at hreg
          cases hreg
      | take htake =>
          obtain ⟨sc₀, fs, hooks, n, hsc₀, hopened, -⟩ := take_of_some htake
          rw [hsc] at hsc₀
          cases hsc₀
          rw [hclosing] at hopened
          cases hopened
      | hook hopen =>
          rw [hshut] at hopen
          cases hopen
      | late => exact ⟨e, told, (status_hook (Or.inr hshut)).trans heq⟩
      | request hrequest =>
          obtain ⟨sc₀, fs, n, hsc₀, hopened, -⟩ := requestClose_of_some hrequest
          rw [hsc] at hsc₀
          cases hsc₀
          rw [hclosing] at hopened
          cases hopened
      | refuse =>
          rw [requestClose_of_not_open hshut]
          exact ⟨e, told, heq⟩
      | claim => cases hclaims.2
      | publish => cases hpublications.2

theorem Spent.of_plainly {w w' : World σ} (hw : w.Spent s) (h : Plainly s w w') : w'.Spent s := by
  obtain ⟨log, hpasses, hclaims, hpublications⟩ := h
  exact hw.of_passes hpasses hclaims hpublications

theorem Spent.state {w : World σ} (hw : w.Spent s) : ∃ e, (w.scope s).state = .closing e none := by
  obtain ⟨e, told, heq⟩ := hw
  obtain ⟨sc, hsc, hstate⟩ := Option.map_eq_some_iff.mp heq
  exact ⟨e, by rw [scope_of_get hsc]; exact congrArg Prod.fst hstate⟩

/-- There is nothing to claim any more. -/
theorem Spent.not_claims {x : Moment σ} (hw : x.world.Spent s) (g : Key .fiber) :
    ¬ x.Claims s g := by
  rintro ⟨y, m, -, -, hclaim⟩
  obtain ⟨e, hstate⟩ := hw.state
  rw [Scope.claim?, hstate] at hclaim
  cases hclaim

end World

/-- Nobody but a fiber that claims asks for more than the licence. -/
theorem claimsLicensed_but {x : Moment σ} (h : ∀ g, ¬ x.Claims s g) :
    x.ClaimsLicensed (.but s) := by
  intro f y m t hworks hcontrol sc e fins hclaim
  refine ⟨?_, fun _ _ => trivial⟩
  rintro rfl
  exact h f ⟨y, m, hworks, hcontrol, by rw [hclaim]; rfl⟩

theorem claimsLicensed_of_spent {x : Moment σ} (h : x.world.Spent s) :
    x.ClaimsLicensed (.but s) := claimsLicensed_but h.not_claims

/-! ## Custody from move to move -/

section

variable {x x' : Moment σ} {g : Key .fiber}

/-- The step in which a fiber claims the finalizers of a scope. -/
theorem Move.claim_next (h : Move x x') {y : Fiber σ} {m : Machine σ} {sc : Scope (Finalizer σ)}
    {e : AnyExit} {fins : List (Nat × Finalizer σ)} (hworks : x.Works g y m)
    (hcontrol : m.control = .instruct (.duty (.finish s)))
    (hclaim : (x.world.scope s).claim? = some (sc, e, fins)) :
    x'.active = some (g, { m with control := .instruct (.flatMap (World.finalizers e
      (fins.map fun fin => (⟨s, fin.1⟩, fin.2)) sc.strategy) (.sequel (.publish s))) }) ∧
    World.Passes s x.world [.claimed fins] x'.world ∧ x'.world.Spent s ∧
    ∀ L : Licence, (∀ h, L.hold h) → x.world.Licensed L → x'.world.Licensed L := by
  obtain ⟨w, active⟩ := x
  obtain rfl : active = some (g, m) := hworks.turn
  have hclaim' : ((w.count g).scope s).claim? = some (sc, e, fins) := hclaim
  have hnext : x' = ⟨{ w.count g with scopes := w.scopes.set s sc }, some (g, { m with
      control := .instruct (.flatMap (World.finalizers e
        (fins.map fun fin => (⟨s, fin.1⟩, fin.2)) sc.strategy) (.sequel (.publish s))) })⟩ := by
    cases h with
    | advance =>
        rw [World.advance_instruct hworks hcontrol, World.instruct, World.attend, hclaim']
        rfl
  obtain ⟨sc₀, hsc₀, hstate, hsc⟩ := World.claim_of_some hclaim
  have hstay : World.Passes s w [] (w.count g) := World.Passes.refl.unmoved rfl
  refine ⟨by rw [hnext], ?_, ⟨e, sc.closed.outcome?, ?_⟩, fun L hhold hw => ?_⟩
  · rw [hnext]
    exact hstay.does (World.Does.claim (w := w.count g) hclaim)
  · rw [hnext, hsc]
    exact World.status_set_self hsc₀
  · have hcount : World.Changes L (some g) w (w.count g) := World.changes_own rfl fun x => rfl
    have hcounted : (w.count g).Licensed L := hcount.licensed (fun h _ _ => hhold h) hw
    have hparent : ∀ h, sc.parent = some h → L.hold h := fun h _ => hhold h
    rw [hnext]
    exact World.licensed_set_scope hcounted (by rw [hsc]; trivial) hparent

/-- The claim of the finalizers gives the publication to the fiber that claims. -/
theorem Move.custody_claim (h : Move x x') (hx : x.Licensed (.but s)) (hclaims : x.Claims s g) :
    x.Hands s none x' ∧ ∃ new, x.Logs s new x' := by
  have hclaim₀ : x.Claims s g := hclaims
  obtain ⟨y, m, hworks, hcontrol, hsome⟩ := hclaims
  obtain ⟨⟨sc, e, fins⟩, hclaim⟩ := Option.isSome_iff_exists.mp hsome
  obtain ⟨hactive, hpasses, hspent, hkeeps⟩ := h.claim_next hworks hcontrol hclaim
  have hm : m.Licensed (.but s) := hx.active g m hworks.turn id
  have hplicensed : (World.finalizers e (fins.map fun fin => ((⟨s, fin.1⟩ : Handle), fin.2))
      sc.strategy).Licensed (.but s) := by
    refine World.licensed_finalizers fun z hz => ?_
    obtain ⟨fin, hfin, rfl⟩ := List.mem_map.mp hz
    exact ⟨trivial, World.licensed_of_claim hx.world.finalizers hclaim fin hfin⟩
  have hlicensed : x'.Licensed ((Licence.but s).sparing g) := by
    refine ⟨(hkeeps _ (fun _ => trivial) hx.world).sparing (fun _ => id) g, fun f m' hf hne => ?_⟩
    rw [hactive] at hf
    cases hf
    exact absurd rfl hne
  refine ⟨⟨some g, .begun hspent ⟨hlicensed, _, _, Moment.machine?_of_active hactive, rfl,
    hplicensed, hm.stack⟩, fun f hf => ?_⟩, [.claimed fins], hpasses, ?_, ?_⟩
  · cases hf
    exact Or.inr hclaim₀
  · exact ⟨fun _ => ⟨g, hclaim₀⟩, fun _ => by simp [ScopeEvent.claims]⟩
  · refine ⟨fun hne => absurd rfl hne, ?_⟩
    rintro ⟨f, y', m', v, rest, hworks', hvalue, -⟩
    obtain ⟨⟩ : some (g, m) = some (f, m') := hworks.turn.symm.trans hworks'.turn
    rw [hcontrol] at hvalue
    cases hvalue

/-- Who is about to make the frame does not publish, and nobody else has it. -/
theorem Moment.Begun.not_publishes (h : x.Begun s g) (f : Key .fiber) : ¬ x.Publishes s f := by
  intro hpublishes
  by_cases hfg : f = g
  · subst hfg
    obtain ⟨m, p, hm, hcontrol, -⟩ := h.machine
    obtain ⟨y, m', v, rest, hworks, hvalue, -⟩ := hpublishes
    obtain rfl : m' = m :=
      Option.some.inj ((Moment.machine?_of_active hworks.turn).symm.trans hm)
    rw [hcontrol] at hvalue
    cases hvalue
  · exact not_publishes_of_licensed (fun m hf z hz =>
      ((h.licensed.active f m hf hfg).stack z hz).mono (Licence.sparing_le _ g)) hpublishes

/-- Who has claimed the finalizers makes the frame, is still about to, or leaves. -/
theorem Move.custody_begun (h : Move x x') (hx : x.Lawful) (hturned : x.Turned)
    (hattentive : x.world.Attentive) (hspent : x.world.Spent s) (hbegun : x.Begun s g) :
    x.Hands s (some g) x' ∧ ∃ new, x.Logs s new x' := by
  obtain ⟨m, p, hm, hcontrol, hplicensed, hstack⟩ := hbegun.machine
  have hpublishes := hbegun.not_publishes
  by_cases hidle : ∃ y, x.Works g y m
  · obtain ⟨y, hworks⟩ := hidle
    obtain ⟨w, active⟩ := x
    obtain rfl : active = some (g, m) := hworks.turn
    have hw : w.Licensed (.but s) := hbegun.licensed.world.of_sparing (hturned g m rfl)
    have hcount : World.Changes (.but s) (some g) w (w.count g) :=
      World.changes_own rfl fun x => rfl
    have hcounted : (w.count g).Licensed (.but s) := hcount.licensed (fun _ _ _ => trivial) hw
    have hnext : x' = ⟨w.count g,
        some (g, { m with control := .instruct p, stack := .publishes s :: m.stack })⟩ := by
      cases h with
      | advance => rw [World.advance_instruct hworks hcontrol]; rfl
    have hplain : World.Plainly s w (w.count g) := World.plainly_of_status rfl
    rw [hnext]
    have habove : Moment.Above (.but s) g (.publishes s :: m.stack) ⟨w.count g,
        some (g, { m with control := .instruct p, stack := .publishes s :: m.stack })⟩ := by
      refine ⟨⟨hcounted.sparing (fun _ => id) g, fun f m' hf hne => ?_⟩, _, [],
        Moment.machine?_active, hplicensed, rfl, fun z hz => by cases hz⟩
      cases hf
      exact absurd rfl hne
    exact ⟨(Moment.Custody.above (hspent.of_plainly hplain) habove hstack).hands (Or.inr rfl),
      Moment.logs_of_plainly hplain hspent.not_claims hpublishes⟩
  · obtain ⟨hfares, hafter⟩ := h.poised hx hturned hattentive ⟨hbegun.licensed, hm⟩ (fun _ => id)
      (fun _ _ => trivial) trivial (claimsLicensed_of_spent hspent) (Or.inl ⟨_, hcontrol⟩)
      (by rw [hcontrol]; trivial) fun y hworks => hidle ⟨y, hworks⟩
    have hplainly := hfares.plainly s (Licence.not_publish_but s)
    refine ⟨?_, Moment.logs_of_plainly hplainly hspent.not_claims hpublishes⟩
    rcases hafter with ⟨hlicensed, hm'⟩ | ⟨hlicensed, -⟩
    · have hbegun' : x'.Begun s g := ⟨hlicensed, m, p, hm', hcontrol, hplicensed, hstack⟩
      exact (Moment.Custody.begun (hspent.of_plainly hplainly) hbegun').hands (Or.inr rfl)
    · exact (Moment.Custody.nobody hlicensed).hands (Or.inl rfl)

/-- Nobody publishes but the fiber that has the frame, when a value comes down to it. -/
theorem Moment.Above.meets_of_publishes {rest : List (Waiting σ)} {f : Key .fiber}
    (habove : x.Above (.but s) g (.publishes s :: rest)) (hpublishes : x.Publishes s f) :
    f = g ∧ ∃ m pre e, x.Meets (.but s) g (.publishes s :: rest) m pre e := by
  by_cases hfg : f = g
  · subst hfg
    refine ⟨rfl, ?_⟩
    obtain ⟨m, pre, hm, -, hstack, hpre⟩ := habove.machine
    obtain ⟨y, m', v, rest', hworks, hvalue, hdescend⟩ := hpublishes
    obtain rfl : m' = m :=
      Option.some.inj ((Moment.machine?_of_active hworks.turn).symm.trans hm)
    by_cases hpast : (World.descend f false pre (x.world.count f)).2 = []
    · exact ⟨m', pre, .success v, ⟨y, hworks⟩, hvalue, hstack, hpre, hpast⟩
    · rw [hstack, World.descend_append, if_neg hpast] at hdescend
      -- the value would stop at a frame above, and that keeps to the licence
      exfalso
      cases hstop : (World.descend f false pre (x.world.count f)).2 with
      | nil => exact hpast hstop
      | cons z above =>
          rw [hstop] at hdescend
          obtain rfl : z = .publishes s := List.head_eq_of_cons_eq hdescend
          refine not_licensed_publishes s (hpre _ ?_)
          refine (World.descend_suffix f false pre (x.world.count f)).subset ?_
          rw [hstop]
          exact List.mem_cons_self
  · refine absurd hpublishes (not_publishes_of_licensed fun m hf z hz => ?_)
    exact ((habove.licensed.active f m hf hfg).stack z hz).mono (Licence.sparing_le _ g)

/-- Who publishes has the publication. -/
theorem Moment.Custody.of_publishes {keeper : Option (Key .fiber)} (h : x.Custody s keeper)
    (hpublishes : x.Publishes s g) : keeper = some g := by
  cases h with
  | nobody hlicensed =>
      exact absurd hpublishes
        (not_publishes_of_licensed fun m hg => (hlicensed.active g m hg id).stack)
  | begun _ hbegun => exact absurd hpublishes (hbegun.not_publishes g)
  | above _ habove _ => rw [(habove.meets_of_publishes hpublishes).1]

/-- A value that comes down to the frame is published; a failure goes past it. -/
theorem Move.custody_meets (h : Move x x') (hturned : x.Turned) (hspent : x.world.Spent s)
    {rest : List (Waiting σ)} (habove : x.Above (.but s) g (.publishes s :: rest))
    (hrest : ∀ z ∈ rest, z.Licensed (.but s)) {m : Machine σ} {pre : List (Waiting σ)} {e : AnyExit}
    (hmeets : x.Meets (.but s) g (.publishes s :: rest) m pre e) :
    x.Hands s (some g) x' ∧ ∃ new, x.Logs s new x' := by
  obtain ⟨w, hdown, hw, hnext, hdescend⟩ :=
    hmeets.next h hturned habove.licensed fun _ _ => trivial
  have hplain : World.Plainly s x.world w := hdown.plainly (Licence.not_publish_but s)
  obtain ⟨⟨y, hworks⟩, hcontrol, -⟩ := hmeets
  cases e with
  | success v =>
      have hpublish : x.Publishes s g := ⟨y, m, v, rest, hworks, hcontrol, congrArg Prod.snd hdescend⟩
      have hnext' : x' = ⟨w.publish s v.asExit,
          some (g, { control := .instruct .unit, stack := rest, exiting := m.exiting })⟩ := hnext
      obtain ⟨exit, hstate⟩ := (hspent.of_plainly hplain).state
      obtain ⟨new, hpasses, hclaims, hpublications⟩ := hplain
      have hlicensed : x'.Licensed (.but s) := by
        rw [hnext']
        refine ⟨World.licensed_publish hw s _, fun f m' hf _ => ?_⟩
        cases hf
        exact ⟨.succeed, hrest, nofun⟩
      refine ⟨(Moment.Custody.nobody hlicensed).hands (Or.inl rfl), new ++ [.published v.asExit], ?_,
        ?_, ?_⟩
      · rw [hnext']
        exact hpasses.does (World.Does.publish hstate)
      · rw [ScopeEvent.claims_append, hclaims]
        exact ⟨fun hne => absurd rfl hne, fun ⟨f, hf⟩ => absurd hf (hspent.not_claims f)⟩
      · rw [ScopeEvent.publications_append, hpublications]
        exact ⟨fun _ => ⟨g, hpublish⟩, fun _ => by simp [ScopeEvent.publications]⟩
  | failure c =>
      -- the frame that publishes takes values only, so with a failure the publication is lost
      have hsound : World.StepSound (.but s) (some g) w m.exiting []
          (World.unwind g m.exiting (.failure c) rest w) := World.stepSound_unwind hrest w
      have hnext' : x' = World.conclude g (World.unwind g m.exiting (.failure c) rest w) := hnext
      obtain ⟨pushed, heq, hpushed⟩ := hsound.stack
      have hlicensed : x'.Licensed (.but s) := by
        rw [hnext']
        refine World.licensed_conclude (hsound.changes.licensed (fun _ _ _ => trivial) hw)
          (fun _ => ⟨hsound.control, ?_, hsound.leaving⟩) fun _ => hsound.release
        rw [heq, List.append_nil]
        exact hpushed
      have hplainly : World.Plainly s x.world x'.world := by
        rw [hnext']
        exact (hplain.trans (hsound.changes.plainly (Licence.not_publish_but s))).trans
          (World.plainly_of_status (World.status_conclude g _))
      refine ⟨(Moment.Custody.nobody hlicensed).hands (Or.inl rfl),
        Moment.logs_of_plainly hplainly hspent.not_claims ?_⟩
      rintro f ⟨y', m', v, rest', hworks', hvalue, -⟩
      obtain ⟨⟩ : some (g, m) = some (f, m') := hworks.turn.symm.trans hworks'.turn
      rw [hcontrol] at hvalue
      cases hvalue

/-- Every move keeps the custody of the publication, and the log of the scope. -/
theorem Move.custody {keeper : Option (Key .fiber)} (h : Move x x') (hx : x.Lawful)
    (hturned : x.Turned) (hattentive : x.world.Attentive) (hcustody : x.Custody s keeper) :
    x.Hands s keeper x' ∧ ∃ new, x.Logs s new x' := by
  cases hcustody with
  | nobody hlicensed =>
      by_cases hclaims : ∃ g, x.Claims s g
      · obtain ⟨g, hg⟩ := hclaims
        exact h.custody_claim hlicensed hg
      · have hnone : ∀ g, ¬ x.Claims s g := fun g hg => hclaims ⟨g, hg⟩
        obtain ⟨hafter, hfares⟩ := h.keeps hlicensed (fun _ _ => trivial) trivial (fun _ _ _ => id)
          (claimsLicensed_but hnone)
        exact ⟨(Moment.Custody.nobody hafter).hands (Or.inl rfl),
          Moment.logs_of_plainly (hfares.plainly s (Licence.not_publish_but s)) hnone
            fun g => not_publishes_of_licensed fun m hg => (hlicensed.active g m hg id).stack⟩
  | begun hspent hbegun => exact h.custody_begun hx hturned hattentive hspent hbegun
  | @above g rest hspent habove hrest =>
      by_cases hmeets : ∃ m pre e, x.Meets (.but s) g (.publishes s :: rest) m pre e
      · obtain ⟨m, pre, e, hmeets⟩ := hmeets
        exact h.custody_meets hturned hspent habove hrest hmeets
      · obtain ⟨hfares, hafter⟩ := h.above hx hturned habove (List.cons_ne_nil _ _) (fun _ => id)
          (fun _ _ => trivial) trivial (claimsLicensed_of_spent hspent)
          fun m pre e hm => hmeets ⟨m, pre, e, hm⟩
        have hplainly := hfares.plainly s (Licence.not_publish_but s)
        refine ⟨?_, Moment.logs_of_plainly hplainly hspent.not_claims fun f hf =>
          hmeets (habove.meets_of_publishes hf).2⟩
        rcases hafter with habove' | ⟨hlicensed, -⟩
        · exact (Moment.Custody.above (hspent.of_plainly hplainly) habove' hrest).hands (Or.inr rfl)
        · exact (Moment.Custody.nobody hlicensed).hands (Or.inl rfl)

end

/-- In every moment of a run somebody has the publication of a scope at most who has claimed its
finalizers before. -/
theorem Run.custody (r : Run σ) (s : Key .scope) (k : Nat) : ∃ keeper,
    (r.moment k).Custody s keeper ∧
      ∀ g, keeper = some g → ∃ i, i < k ∧ (r.moment i).Claims s g := by
  induction k with
  | zero =>
      have hle : (r.moment 0).world.law ≤ .but s := by
        refine ⟨fun _ _ => trivial, fun t ht => ?_, fun _ _ => trivial, id⟩
        obtain ⟨sc, hsc, -⟩ := ht
        rw [r.start] at hsc
        cases hsc
      refine ⟨none, .nobody ⟨(r.lawful 0).licensed.world.mono hle fun _ => id, fun f m hf _ => ?_⟩,
        nofun⟩
      rw [r.start] at hf
      cases hf
  | succ k ih =>
      obtain ⟨keeper, hcustody, hclaimed⟩ := ih
      obtain ⟨⟨keeper', hcustody', hkeeper⟩, -⟩ :=
        (r.move k).custody (r.lawful k) (r.turned k) (r.attentive k) hcustody
      refine ⟨keeper', hcustody', fun g hg => ?_⟩
      rcases hkeeper g hg with hsame | hclaims
      · obtain ⟨i, hi, hclaims⟩ := hclaimed g hsame
        exact ⟨i, Nat.lt_succ_of_lt hi, hclaims⟩
      · exact ⟨k, Nat.lt_succ_self k, hclaims⟩

/-- Who publishes the exit of a scope has claimed its finalizers before. -/
theorem Run.claims_of_publishes (r : Run σ) {g : Key .fiber} {k : Nat}
    (h : (r.moment k).Publishes s g) : ∃ i, i < k ∧ (r.moment i).Claims s g := by
  obtain ⟨keeper, hcustody, hclaimed⟩ := r.custody s k
  exact hclaimed g (hcustody.of_publishes h)

end Fibers
