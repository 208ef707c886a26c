import Fibers.Proofs.Exits.Retiring
import Fibers.Proofs.Finalizers.Invocation
import Fibers.Proofs.Scopes.Once

set_option autoImplicit false

/-! # A finalizer is invoked once

The fiber invokes the finalizer when an exit comes down to its frame, and whoever closes the scope invokes it
when it has claimed it. Both never happen: a frame that runs the finalizer has taken it out of the scope, and what
was taken out is not claimed; and after a claim the scope is not open, so the frame finds nothing. If the scope
refused to register the finalizer, the frame alone is to run it. Then it is lost if the fiber leaves its program,
and that is the only way to lose it.
-/

namespace Fibers

variable {σ : Type} {r : Run σ} {h : Handle}

/-- A frame that wins the finalizer has taken it out. -/
theorem World.take_of_claimFinalizer {w w' : World σ}
    (hclaim : w.claimFinalizer (some h) = (w', true)) : ∃ fin, w.takeFinalizer h = (w', some fin) := by
  rcases htake : w.takeFinalizer h with ⟨w₁, found⟩
  rw [claimFinalizer, cancelFinalizer, htake] at hclaim
  obtain ⟨fin, rfl⟩ := Option.isSome_iff_exists.mp (congrArg Prod.snd hclaim)
  obtain rfl : w₁ = w' := congrArg Prod.fst hclaim
  exact ⟨fin, rfl⟩

/-- A finalizer that is taken out in the course of a move was handed out. -/
theorem World.Lives.take {w w₁ w₂ w' : World σ} {log : List (ScopeEvent σ)} {fin : Finalizer σ}
    (hlives : Lives h.scope log w) (hbefore : Plainly h.scope w w₁)
    (htake : w₁.takeFinalizer h = (w₂, some fin)) (hafter : Plainly h.scope w₂ w') :
    ∃ log, Lives h.scope log w' ∧ h.key ∈ ScopeEvent.handed log := by
  obtain ⟨s, key⟩ := h
  have htaken : Does s w₁ (.taken key fin) w₂ := by
    have hdoes : Does s w₁ (.taken key fin) (w₁.takeFinalizer ⟨s, key⟩).1 := .take (congrArg Prod.snd htake)
    rw [htake] at hdoes
    exact hdoes
  obtain ⟨before, hpasses, -⟩ := hbefore
  obtain ⟨after, hpasses', -⟩ := hafter
  refine ⟨log ++ ((before ++ [.taken key fin]) ++ after),
    ((hpasses.does htaken).trans hpasses').lives hlives, ?_⟩
  simp [ScopeEvent.handed]

namespace Protection

variable (p : Protection r) {i j k : Nat}

/-- The fiber leaves the program from inside. -/
def Abandons (k : Nat) : Prop := p.Inside k ∧ ∃ y m, (r.moment k).Leaves p.fiber y m

/-! ## Not twice -/

/-- An exit comes down to the frame at most once. -/
theorem Unwinds.unique {p : Protection r} (hi : p.Unwinds i) (hj : p.Unwinds j) : i = j := by
  rcases Nat.lt_trichotomy i j with hlt | heq | hlt
  · exact absurd hj.1 (hi.not_inside hlt)
  · exact heq
  · exact absurd hi.1 (hj.not_inside hlt)

/-- While the frame finds the finalizer, the scope is open. -/
theorem Unwinds.open {p : Protection r} (hi : p.Unwinds i) (hh : p.handle = some h) :
    ¬ (r.moment i).world.Sealed h.scope := by
  obtain ⟨y, m, x, w, w', hworks, hdescend, hclaim, -⟩ := hi.enters
  intro hsealed
  have hchanges : World.Changes .all (some p.fiber) ((r.moment i).world.count p.fiber) w := by
    have hstack := ((r.licensed_all i).active p.fiber m hworks.turn id).stack
    have hdown : World.Changes .all (some p.fiber) ((r.moment i).world.count p.fiber)
        (World.descend p.fiber x.isFailure m.stack ((r.moment i).world.count p.fiber)).1 :=
      World.changes_descend hstack _
    rw [hdescend] at hdown
    exact hdown
  have hcounted : ((r.moment i).world.count p.fiber).Sealed h.scope := hsealed
  obtain ⟨sc, hsc, hshut⟩ : w.Sealed h.scope := hcounted.mono hchanges.grows.scopes
  rw [hh] at hclaim
  obtain ⟨fin, htake⟩ := World.take_of_claimFinalizer hclaim
  obtain ⟨s, key⟩ := h
  obtain ⟨sc', fs, hooks, n, hsc', hstate, -⟩ := World.take_of_some (congrArg Prod.snd htake)
  obtain rfl := Option.some.inj (hsc'.symm.trans hsc)
  rw [Scope.isOpen, hstate] at hshut
  cases hshut

/-- The frame has taken the finalizer out of the scope. -/
theorem Unwinds.takes {p : Protection r} (hi : p.Unwinds i) (hh : p.handle = some h) :
    ∃ log, World.Lives h.scope log (r.moment (i + 1)).world ∧ h.key ∈ ScopeEvent.handed log := by
  have hopen := hi.open hh
  obtain ⟨y, m, x, w, w', hworks, hdescend, hclaim, hnext⟩ := hi.enters
  obtain ⟨s, key⟩ := h
  -- nobody has claimed the finalizers of the scope, so all that happens to it in the move is plain
  have hapart : (r.moment i).Licensed (.apart s) := Run.apart_of_unclaimed fun j hji g hg =>
    hopen (hg.sealed.mono (r.scopesLater (Nat.le_of_lt hji)))
  have hstack := (hapart.active p.fiber m hworks.turn id).stack
  have hbefore : World.Plainly s ((r.moment i).world.count p.fiber) w := by
    have hdown : World.Changes (.apart s) (some p.fiber) ((r.moment i).world.count p.fiber)
        (World.descend p.fiber x.isFailure m.stack ((r.moment i).world.count p.fiber)).1 :=
      World.changes_descend hstack _
    rw [hdescend] at hdown
    exact hdown.plainly (Licence.not_publish_apart s)
  have hfin : p.finalizer.Licensed (.apart s) := by
    have hsuffix := World.descend_suffix p.fiber x.isFailure m.stack ((r.moment i).world.count p.fiber)
    rw [hdescend] at hsuffix
    exact (hstack _ (hsuffix.subset List.mem_cons_self)).2
  have hafter : World.Plainly s w' (r.moment (i + 1)).world := by
    have hmask : World.Changes (.apart s) (some p.fiber) w' (w'.modifyFiber p.fiber fun fiber =>
        { fiber with masks := fiber.masks.push false }) := World.changes_own rfl fun x => rfl
    have hcall : World.Sound (.apart s) (some p.fiber) _ _ ((w'.modifyFiber p.fiber fun fiber =>
        { fiber with masks := fiber.masks.push false }).finalizeWith p.finalizer x) :=
      World.sound_finalizeWith hfin x _
    rw [hnext]
    refine ((hmask.trans hcall.changes).plainly (Licence.not_publish_apart s)).trans
      (World.plainly_of_status ?_)
    rw [World.status_conclude, World.enterFinalizer, World.world_enter]
  rw [hh] at hclaim
  obtain ⟨fin, htake⟩ := World.take_of_claimFinalizer hclaim
  obtain ⟨log, hlog⟩ := r.exists_records s
  have hlives : World.Lives s (log i) ((r.moment i).world.count p.fiber) := hlog.lives i
  exact hlives.take hbefore htake hafter

/-- The fiber and the party that claims the finalizer do not both invoke it. -/
theorem Unwinds.not_claimed {p : Protection r} (hi : p.Unwinds i) : ¬ p.Claimed j := by
  intro hclaimed
  obtain ⟨h, hh, hruns⟩ := id hclaimed
  obtain ⟨-, hsealed⟩ := hclaimed.sealed
  rw [← (p.open_of_handle hh).1] at hsealed
  have hij : i < j := by
    by_contra hnot
    exact hi.open hh (hsealed.mono (r.scopesLater (Nat.le_of_not_lt hnot)))
  obtain ⟨log, hlives, hhanded⟩ := hi.takes hh
  obtain ⟨l, hlj, hgrants⟩ := Run.granted_of_runs hruns
  obtain ⟨g, hclaims⟩ := hgrants.claims
  have hil : i < l := hclaims.after (hi.open hh)
  exact Run.not_grants_of_handed hlives hhanded hil hgrants

/-- A finalizer is invoked at most once. -/
theorem Invoked.unique {p : Protection r} (hi : p.Invoked i) (hj : p.Invoked j) : i = j := by
  rcases hi with hi | hi <;> rcases hj with hj | hj
  · exact hi.unique hj
  · exact absurd hj hi.not_claimed
  · exact absurd hi hj.not_claimed
  · obtain ⟨h, hh, hruns⟩ := hi
    obtain ⟨h', hh', hruns'⟩ := hj
    obtain rfl : h = h' := Option.some.inj (hh.symm.trans hh')
    exact Run.runs_once hruns hruns'

/-! ## Not never -/

/-- If the scope has refused to register the finalizer, the fiber stays inside until an exit comes down to the
frame or it leaves its program. -/
theorem refused_carries (hnone : p.handle = none) (hk : p.start < k) :
    (p.Inside k ∧ ∃ m, (r.moment k).Carries p.fiber p.frames m) ∨
      ∃ j, j < k ∧ (p.Unwinds j ∨ p.Abandons j) := by
  induction hk with
  | refl =>
      have hmachine : (r.moment (p.start + 1)).machine? p.fiber =
          some { p.machine with control := .instruct p.inner, stack := p.frames } := by
        rw [p.next]
        exact Moment.machine?_active
      refine Or.inl ⟨⟨Nat.lt_succ_self _, fun l hl hlk => ?_⟩, _, hmachine, List.suffix_refl _, nofun⟩
      obtain rfl : l = p.start + 1 := Nat.le_antisymm hlk hl
      exact ⟨_, hmachine, List.suffix_refl _⟩
  | @step k hk ih =>
      rcases ih with ⟨hinside, m, hcarries⟩ | ⟨j, hjk, hj⟩
      · rcases Run.carries_or_lands hcarries with ⟨m', hcarries', -⟩ | ⟨y, hleaves⟩ | ⟨x, hlands⟩
        · exact Or.inl ⟨hinside.succ hcarries'.machine hcarries'.stack, m', hcarries'⟩
        · exact Or.inr ⟨k, Nat.lt_succ_self k, Or.inr ⟨hinside, y, m, hleaves⟩⟩
        · obtain ⟨⟨y, hworks⟩, hcontrol, pre, hstack, hpast⟩ := hlands
          refine Or.inr ⟨k, Nat.lt_succ_self k, Or.inl ⟨hinside, y, m, x, hworks, hcontrol, ?_⟩⟩
          -- a frame without a handle stops every exit
          rw [hstack, World.descend_append, if_pos hpast, frames, hnone]
          rfl
      · exact Or.inr ⟨j, Nat.lt_succ_of_lt hjk, hj⟩

/-- Who has left the program from inside does not come to the frame any more. -/
theorem Abandons.not_unwinds {p : Protection r} (hi : p.Abandons i) : ¬ p.Unwinds j := by
  obtain ⟨hinside, y, m, hleaves⟩ := hi
  intro hunwinds
  rcases Nat.lt_trichotomy i j with hlt | rfl | hlt
  · obtain ⟨m', hm', hsuffix⟩ := hunwinds.1.2 (i + 1) (Nat.lt_succ_of_lt hinside.1) hlt
    obtain rfl := Option.some.inj (hm'.symm.trans (Run.machine_of_leaves hleaves))
    exact p.frames_ne_nil (List.suffix_nil.mp hsuffix)
  · obtain ⟨-, y', m', x, hworks, -⟩ := hunwinds
    exact hworks.not_leaves hleaves
  · exact hunwinds.not_inside hlt hinside

/-- What is handed an exit is invoked. -/
theorem Handed.invoked {p : Protection r} {x : AnyExit} (h : p.Handed x j) : p.Invoked j := by
  cases h with
  | @unwound y m hinside hworks hcontrol hdescend => exact Or.inl ⟨hinside, y, m, x, hworks, hcontrol, hdescend⟩
  | @claimed h g y m hh hworks hcontrol => exact Or.inr ⟨h, hh, g, y, m, _, x, hworks, hcontrol⟩

/-- A fiber that is done has invoked the finalizer once, or somebody else has, unless the scope refused to register
it and the fiber left the program from inside. -/
theorem invoked_once {y : Fiber σ} {e : AnyExit} {sc : Scope (Finalizer σ)}
    (hy : (r.moment k).world.fibers.get? p.fiber = some y) (hdone : y.phase = .done e)
    (hsc : (r.moment k).world.scopes.get? y.scope = some sc) (hseq : sc.strategy = .sequential) :
    (∀ i j, p.Invoked i → p.Invoked j → i = j) ∧
      ((∃ j, j < k ∧ p.Invoked j) ↔ ¬ (p.handle = none ∧ ∃ j, j < k ∧ p.Abandons j)) := by
  refine ⟨fun i j hi hj => hi.unique hj, ?_, fun hnot => ?_⟩
  · rintro ⟨i, -, hunwinds | ⟨h, hh, -⟩⟩ ⟨hnone, j, -, habandons⟩
    · exact habandons.not_unwinds hunwinds
    · rw [hnone] at hh
      cases hh
  · have hgone : ∀ m, (r.moment k).machine? p.fiber ≠ some m := by
      intro m hm
      rw [Run.machine?_of_done hy hdone] at hm
      cases hm
    obtain ⟨hstart, hscope⟩ := Run.works_before_done p.works hy hdone
    cases hh : p.handle with
    | none =>
        rcases p.refused_carries hh hstart with ⟨-, m, hcarries⟩ | ⟨j, hjk, hunwinds | habandons⟩
        · exact absurd hcarries.machine (hgone m)
        · exact ⟨j, hjk, Or.inl hunwinds⟩
        · exact absurd ⟨hh, j, hjk, habandons⟩ hnot
    | some h =>
        obtain ⟨sc', hsc', hclosed⟩ := Run.closed_of_done hy hdone hsc hseq (Nat.le_refl k)
        obtain rfl := Option.some.inj (hsc'.symm.trans hsc)
        rw [hscope] at hsc
        obtain ⟨j, x, -, hjk, hhanded⟩ := p.handed_of_closed hh hsc hclosed hseq
        exact ⟨j, hjk, hhanded.invoked⟩

/-! ## A finalizer that is lost -/

set_option maxRecDepth 2048 in
/-- The child that is overtaken by its finalizer is done in the end, and its finalizer was invoked once. -/
theorem heedlessChild_invoked_once : ∃ y e sc,
    ((heedlessRun.moment 109).world.fibers.get? heedlessChild.fiber = some y ∧ y.phase = .done e ∧
      (heedlessRun.moment 109).world.scopes.get? y.scope = some sc ∧ sc.strategy = .sequential) ∧
      (∀ i j, heedlessChild.Invoked i → heedlessChild.Invoked j → i = j) ∧
      ((∃ j, j < 109 ∧ heedlessChild.Invoked j) ↔
        ¬ (heedlessChild.handle = none ∧ ∃ j, j < 109 ∧ heedlessChild.Abandons j)) := by
  obtain ⟨y, e, sc, hy, hdone, hsc, hseq⟩ : ∃ y e sc,
      (heedlessRun.moment 109).world.fibers.get? ⟨1⟩ = some y ∧ y.phase = .done e ∧
        (heedlessRun.moment 109).world.scopes.get? y.scope = some sc ∧ sc.strategy = .sequential :=
    ⟨((heedlessRun.moment 109).world.fibers.get? ⟨1⟩).get rfl, _,
      ((heedlessRun.moment 109).world.scopes.get? ⟨1⟩).get rfl, rfl, rfl, rfl, rfl⟩
  exact ⟨y, e, sc, ⟨hy, hdone, hsc, hseq⟩, heedlessChild.invoked_once hy hdone hsc hseq⟩

/-- A program that closes its own scope while it is masked, and then protects a part that is not masked. -/
def stranded : Program Nat :=
  Program.uninterruptible <| Program.flatMap .fiberScope <| .apply fun v =>
    match v with
    | .scope s => .program ((Program.closeScope s (.success .unit)).andThen
        ((Program.interruptible .unit).cleanup fun _ => .program .unit))
    | _ => .program .unit

theorem licensed_stranded : stranded.Licensed .none := by
  refine .mask (.flatMap .fiberScope (.apply fun v => ?_))
  cases v with
  | scope s =>
      exact .program (.flatMap (.duty .close)
        (.next (.ensuring (.mask .succeed) (.apply fun _ => .program .succeed) rfl)))
  | _ => exact .program .succeed

/-- The run of the program. -/
def strandedRun : Run Nat := .inOrder .standard 0 stranded licensed_stranded

/-- The part that it protects. -/
def strandedPart : Protection strandedRun where
  start := 19
  fiber := ⟨0⟩
  state := ((strandedRun.moment 19).world.fibers.get? ⟨0⟩).get rfl
  machine := ((strandedRun.moment 19).active.get rfl).2
  inner := Program.interruptible .unit
  finalizer := .apply fun _ => .program .unit
  works := ⟨rfl, rfl, Or.inr rfl, by decide, Or.inl ⟨_, rfl⟩⟩
  instruction := rfl

/-- The scope is not open any more and refuses the finalizer; as soon as the mask is off the fiber leaves. -/
theorem abandons_strandedPart : strandedPart.handle = none ∧ strandedPart.Abandons 21 := by
  refine ⟨rfl, Run.keeps_of_drop (by decide) fun l hl hlk => ?_, ?_⟩
  · have hstart : 19 < l := hl
    interval_cases l <;> rfl
  · exact ⟨((strandedRun.moment 21).world.fibers.get? ⟨0⟩).get rfl,
      ((strandedRun.moment 21).active.get rfl).2, rfl, rfl, rfl, rfl⟩

/-- The fiber is done, and nobody ever invokes the finalizer. -/
theorem strandedPart_uninvoked :
    (∃ y e, (strandedRun.moment 30).world.fibers.get? strandedPart.fiber = some y ∧ y.phase = .done e) ∧
      ∀ j, ¬ strandedPart.Invoked j := by
  obtain ⟨hnone, habandons⟩ := abandons_strandedPart
  refine ⟨⟨_, _, rfl, rfl⟩, fun j hj => ?_⟩
  rcases hj with hunwinds | ⟨h, hh, -⟩
  · exact habandons.not_unwinds hunwinds
  · rw [hnone] at hh
    cases hh

end Protection

end Fibers
