import Fibers.Proofs.Contests.Zip

set_option autoImplicit false

/-! # What a race comes to

A race whose fiber stays with it ends when all its members are done and its arena is closed. It is won by the
first of them to end. If the winner ended with a value so does the race; if it ended with a failure the race
ends with that, followed by the failures of the others, in order, but for those that are no more than the
interruption by the race. The map of the winner, and of nobody else, is merged into that of the fiber
(`Run.Raced`).
-/

namespace Fibers

variable {σ : Type} {r : Run σ} {g : Key .fiber} {T : List (Waiting σ)} {exiting : Bool}
variable {b s : Nat} {y : Fiber σ} {e : AnyExit} {c : Contest} {t : Key .tally} {ps : List (Program σ)}

/-- The exit of a race that was won with one exit and lost with others, by the fiber with the id `id`. -/
inductive RaceExit (id : FiberId) : AnyExit → List AnyExit → AnyExit → Prop
  | value {v : Value} {xs : List AnyExit} : RaceExit id (.success v) xs (.success v)
  | failure {cause : AnyCause} {xs : List AnyExit} {rest : List AnyCause} :
      rest = (xs.filterMap Exit.cause?).filter (fun c => !c.isInterruptedOnlyBy id) →
      RaceExit id (.failure cause) xs (.failure (rest.foldl .andThen cause))

theorem raceExit_raceOutcome (id : FiberId) (x : AnyExit) (xs : List AnyExit) :
    RaceExit id x xs (World.raceOutcome id x xs) := by
  cases x with
  | success v => exact .value
  | failure cause =>
      refine .failure ?_
      rw [List.filter_filterMap]

/-- The fiber `g`, which took up a race of `ps` in the move from `s`, has come to its exit `e` at `b`. -/
structure Run.Raced (r : Run σ) (g : Key .fiber) (ps : List (Program σ)) (s b : Nat) (e : AnyExit)
    (c : Contest) (t : Key .tally) : Prop where
  /-- It opened the contest, -/
  opened : r.Opened g c t (.racer t) ps s
  /-- every member is done, -/
  done : ∀ m ∈ c.members, ∃ x, (r.moment b).Done m x
  /-- the arena is closed, -/
  closed : ((r.moment b).world.scope c.arena).isClosed = true
  /-- the handle it was registered under with the scope of the fiber, if that was open, is gone, -/
  unregistered : ∃ y, (r.moment s).world.fibers.get? g = some y ∧
    (((r.moment s).world.scope y.scope).isOpen = true → ∃ h, h.scope = y.scope ∧
      ((((r.moment s).world.count g).forkScope y.scope y.context.id).1.scope c.arena).parent = some h ∧
        ((r.moment b).world.scope y.scope).find? h.key = none)
  /-- and a member was the first to end: with it the race ends, and its map was merged. -/
  won : ∃ place winner x xs j, c.members[place]? = some winner ∧ s < j ∧ j < b ∧
    r.FirstToEnd (fun _ => True) c.members winner x j ∧
    List.Forall₂ (fun m x => (r.moment b).world.exitOf m = some x) (World.Contest.others c place) xs ∧
    RaceExit c.owner x xs e ∧ r.MergesOnce g c [winner] s b

/-- An arena that is closed is not registered any more. -/
theorem Run.Opened.unregistered {watcher : Nat → DoneWatcher σ} (h : r.Opened g c t watcher ps s)
    (hsb : s < b) (hclosed : ((r.moment b).world.scope c.arena).isClosed = true) :
    ∃ y, (r.moment s).world.fibers.get? g = some y ∧
      (((r.moment s).world.scope y.scope).isOpen = true → ∃ h, h.scope = y.scope ∧
        ((((r.moment s).world.count g).forkScope y.scope y.context.id).1.scope c.arena).parent = some h ∧
          ((r.moment b).world.scope y.scope).find? h.key = none) := by
  obtain ⟨y, m, hworks⟩ := h.turn
  obtain ⟨x, hx, -, -, -, hregistered⟩ := h.opens.fiber
  rw [World.get?_count hworks.fiber] at hx
  cases hx
  refine ⟨y, hworks.fiber, fun hopen => ?_⟩
  obtain ⟨u, hu, hparent, htied⟩ := hregistered hopen
  refine ⟨u, hu, hparent, ?_⟩
  have hnotOpen : ((r.moment b).world.scope c.arena).isOpen = false := by
    unfold Scope.isClosed at hclosed
    unfold Scope.isOpen
    split at hclosed
    · rename_i heq
      rw [heq]
    · cases hclosed
  have hgone := r.unregistered hsb htied hnotOpen
  rwa [hu] at hgone

/-- A race that ends has come to what its members came to. -/
theorem Run.Executes.raced (h : r.Executes g T exiting s b (.instruct (.raceAll ps)) e)
    (hworks : (r.moment s).Works g y ⟨.instruct (.raceAll ps), T, exiting⟩) (hps : ps ≠ [])
    (htotal : ∀ k, s ≤ k → k ≤ b → (r.moment k).world.RefsTotal) (hzips : r.ZipsSucceed g exiting s b) :
    ∃ c t, r.Raced g ps s b e c t := by
  obtain ⟨p, ps, rfl⟩ := List.exists_cons_of_ne_nil hps
  have hsb : s < b := h.lt_of_instruct h.le h.starts rfl
  obtain ⟨c, t, hopened, hgoes⟩ := h.opens .racer .raceDecided hworks (fun w y m => rfl)
    (htotal s (Nat.le_refl s) h.le)
  obtain ⟨hwatched, hnone⟩ := hopened.watched fun i => by simp [DoneWatcher.reportsTo]
  have hstands := fun k (hk : s < k) =>
    (r.raceStands hwatched ⟨_, hopened.opens.tally, rfl⟩ hnone hk).2
  obtain ⟨k, j, result, w, m, hsk, hkj, hjb, hdecided, hsilent, hchanges, hrefs, hactive, hnext⟩ :=
    hgoes.hears fun k hk => by
      cases hstands k hk with
      | undecided hd => exact Or.inl hd
      | won hd => exact Or.inr ⟨_, hd⟩
  cases hstands k hsk with
  | undecided hd => cases hdecided.unique hd
  | @won place l winner x hd hplace hsl hlk hfirst =>
      cases hdecided.unique hd
      obtain ⟨d, xs, w', m', hjd, hdb, hsilent', hxs, hchanges', hrefs', hactive', hnext'⟩ :=
        hgoes.drains (by omega) hjb hrefs hactive hnext
      obtain ⟨merged, hjoin, -⟩ := World.joinRefs_of_total
        ((htotal d (by omega) (Nat.le_of_lt hdb)).of_refs hrefs') c.refs (w'.refsOf winner)
      simp only [World.follow, hplace, hjoin] at hnext'
      obtain ⟨hworld, hends⟩ := hgoes.enters (by omega) hdb hnext'
      obtain ⟨rfl, hclosed, hbut⟩ := hends.leavesArena (hzips.mono (by omega) (Nat.le_refl b))
        (hopened.arena (by omega))
      have hothers : List.Forall₂ (fun m x => (r.moment b).world.exitOf m = some x)
          (World.Contest.others c place) xs :=
        hxs.imp fun m x hx => (r.exitOf_later (Nat.le_of_lt hdb) hx).2
      refine ⟨c, t, hopened, fun m hm => ?_, hclosed, hopened.unregistered hsb hclosed, place, winner,
        x, xs, l, hplace, hsl, by omega, hfirst, hothers, raceExit_raceOutcome _ _ _, d, by omega, hdb,
        hsilent.trans hsilent', ⟨m', hactive'⟩, ?_, hbut⟩
      · rcases Contest.mem_others hplace hm with rfl | hm
        · exact ⟨_, r.done_of_exitOf (by omega) hfirst.ends⟩
        · obtain ⟨x, hx⟩ := World.exitOf_of_mem hothers hm
          exact ⟨x, r.done_of_exitOf (Nat.le_refl b) hx⟩
      · rw [hworld]
        have hmerged : merged = w'.joinAll c.refs [winner] := by
          rw [World.joinAll, List.foldl_cons, List.foldl_nil, hjoin]
        rw [hmerged]
        refine World.refs_joinAll_congr hrefs' (fun f hf => ?_) c.refs
        rw [List.mem_singleton.mp hf]
        exact hchanges'.refsOf
          (World.isSome_of_exitOf (r.exitOf_later (show l + 1 ≤ d by omega) hfirst.ends).2)

/-- What a race comes to, if no function of a reference panics. -/
theorem Run.race_outcome (h : r.Executes g T exiting s b (.instruct (.raceAll ps)) e)
    (hworks : (r.moment s).Works g y ⟨.instruct (.raceAll ps), T, exiting⟩) (hps : ps ≠ [])
    (htotal : ∀ k, s ≤ k → k ≤ b → (r.moment k).world.RefsTotal) (hhelpers : r.HelpersSucceed g s b) :
    ∃ c t, r.Raced g ps s b e c t :=
  h.raced hworks hps htotal (zipsSucceed htotal hhelpers)

/-! ## A race with a loser that was on its way -/

/-- The first contestant ends before the second has had its last turn. -/
def quick : List (Program Nat) := [.succeed (.int 3), .yieldNow]

theorem licensed_quick : (Program.raceAll quick).Licensed .none :=
  .raceAll fun p hp => by
    rcases List.mem_pair.mp hp with rfl | rfl
    · exact .succeed
    · exact .yieldNow

def quickRun : Run Nat := .inOrder .standard 0 (.raceAll quick) licensed_quick

set_option maxRecDepth 1000 in
theorem executes_quick : quickRun.Executes ⟨0⟩ [] false 3 100 (.instruct (.raceAll quick))
    (.success (.int 3)) := by
  have hcheck : ∀ k < 100, 3 ≤ k → (quickRun.moment k).drops ⟨0⟩ = false ∧
      (quickRun.moment k).emerges ⟨0⟩ = false := by decide +kernel
  exact Run.executes_of_bottom (by decide) rfl (fun k hk hk' => (hcheck k hk hk').1)
    (fun k hk hk' => (hcheck k hk hk').2) ⟨((quickRun.moment 100).active.get rfl).2,
      ⟨((quickRun.moment 100).world.fibers.get? ⟨0⟩).get rfl, rfl, rfl, Or.inr rfl, by decide,
        Or.inr ⟨.success (.int 3), rfl⟩⟩, rfl, [], rfl, rfl⟩

/-- The race ends with the value of the first contestant, and the second is done by then. -/
theorem quick_raced : ∃ c t, quickRun.Raced ⟨0⟩ quick 3 100 (.success (.int 3)) c t := by
  have hworks : (quickRun.moment 3).Works ⟨0⟩ (((quickRun.moment 3).world.fibers.get? ⟨0⟩).get rfl)
      ⟨.instruct (.raceAll quick), [], false⟩ := ⟨rfl, rfl, Or.inr rfl, by decide, Or.inl ⟨_, rfl⟩⟩
  have hrefs : ∀ k < 101, (quickRun.moment k).world.refs.toList.all (·.entries.isEmpty) = true := by
    decide +kernel
  have htallies : ∀ k < 100, 3 < k → (quickRun.moment (k + 1)).world.tallies.toList.length ≤
      (quickRun.moment k).world.tallies.toList.length := by decide +kernel
  exact Run.race_outcome executes_quick hworks (List.cons_ne_nil _ _)
    (fun k _ hk => World.refsTotal_of_empty (hrefs k (Nat.lt_succ_of_le hk)))
    (Run.helpersSucceed_of_tallies htallies)

/-! ## A merge that panics -/

/-- The winner has written the reference. -/
def writing : List (Program Nat) :=
  [(Program.setRef jammed (.int 2)).andThen (.succeed (.int 3)), .yieldNow]

theorem licensed_writing :
    ((Program.setRef jammed (.int 1)).andThen (.raceAll writing)).Licensed .none :=
  .flatMap (Program.licensed_setRef _ _) (.next (.raceAll fun p hp => by
    rcases List.mem_pair.mp hp with rfl | rfl
    · exact .flatMap (Program.licensed_setRef _ _) (.next .succeed)
    · exact .yieldNow))

def writingRun : Run Nat :=
  .inOrder .standard 0 ((Program.setRef jammed (.int 1)).andThen (.raceAll writing)) licensed_writing

set_option maxRecDepth 1000 in
/-- Where the merge panics the race fails although it was won with a value, and the arena stays open. -/
theorem writing_not_raced : ∃ cause, cause.defects = [⟨"join policy"⟩] ∧
    writingRun.Executes ⟨0⟩ [] false 9 95 (.instruct (.raceAll writing)) (.failure cause) ∧
    writingRun.HelpersSucceed ⟨0⟩ 9 95 ∧ ¬ ∃ c t, writingRun.Raced ⟨0⟩ writing 9 95 (.failure cause) c t := by
  have hcheck : ∀ k < 95, 9 ≤ k → (writingRun.moment k).drops ⟨0⟩ = false ∧
      (writingRun.moment k).emerges ⟨0⟩ = false := by decide +kernel
  have htallies : ∀ k < 95, 9 < k → (writingRun.moment (k + 1)).world.tallies.toList.length ≤
      (writingRun.moment k).world.tallies.toList.length := by decide +kernel
  obtain ⟨m, cause, hactive, hcontrol, hstack, hdefects⟩ : ∃ m cause,
      (writingRun.moment 95).active = some (⟨0⟩, m) ∧ m.control = .failure cause ∧ m.stack = [] ∧
        cause.defects = [⟨"join policy"⟩] := ⟨_, _, rfl, rfl, rfl, rfl⟩
  have hlands : (writingRun.moment 95).Lands ⟨0⟩ [] m (.failure cause) :=
    ⟨⟨((writingRun.moment 95).world.fibers.get? ⟨0⟩).get rfl, hactive, rfl, Or.inr rfl, by decide,
      Or.inr ⟨.failure cause, hcontrol⟩⟩, hcontrol, [], hstack, rfl⟩
  refine ⟨cause, hdefects, Run.executes_of_bottom (by decide) rfl (fun k hk hk' => (hcheck k hk hk').1)
    (fun k hk hk' => (hcheck k hk hk').2) ⟨m, hlands⟩, Run.helpersSucceed_of_tallies htallies, ?_⟩
  rintro ⟨c, t, hraced⟩
  obtain ⟨x, -, -, -, harena, -⟩ := hraced.opened.opens.fiber
  have hopen : ((writingRun.moment 95).world.scope ⟨1⟩).isClosed = false := rfl
  have hclosed := hraced.closed
  rw [show c.arena = ⟨1⟩ from harena.symm] at hclosed
  cases hopen.symm.trans hclosed

end Fibers
