import Fibers.Proofs.Contests.Stages

set_option autoImplicit false

/-! # What a zip comes to

A zip whose fiber stays with it ends when all its members are done and its arena is closed. If all ended with
values it ends with these in the order of the programs, and before that the maps of the members were merged
into that of the fiber in the same order. If one ended with a failure it ends with the failure of the first to
do so, followed by the failures of the others in order, and no map is merged (`Run.Zipped`).

The fiber may have to run finalizers that are left in the arena side by side, in fibers of their own, and that is
a zip again. No program is told of those fibers or of their scopes, and their programs give whatever a finalizer
comes to as a value. A program could guess their keys; that none does is what `Run.HelpersSucceed` says, and then
that zip ends with a value (`Run.zipsSucceed`).
-/

namespace Fibers

variable {σ : Type} {r : Run σ} {g : Key .fiber} {T : List (Waiting σ)} {exiting : Bool}
variable {a b s : Nat} {y : Fiber σ} {e : AnyExit} {c : Contest} {t : Key .tally} {ps : List (Program σ)}

/-! ## Merging the maps of the members -/

namespace World

/-- The values of members that all have one are collected in order, if no function of a reference panics. -/
theorem collect_of_total {w : World σ} {m : Key .refs} {fs : List (Key .fiber)} {vs acc : List Value}
    (hw : w.RefsTotal) (hvs : List.Forall₂ (fun f v => w.exitOf f = some (.success v)) fs vs) :
    w.collect m fs acc = (w.joinAll m fs, .ok (.ok (acc.reverse ++ vs))) := by
  induction fs generalizing w vs acc with
  | nil =>
      cases hvs
      rw [List.append_nil]
      rfl
  | cons f fs ih =>
      obtain ⟨v, vs, hv, hrest, rfl⟩ := List.forall₂_cons_left_iff.mp hvs
      obtain ⟨w', hjoin, htotal⟩ := joinRefs_of_total hw m (w.refsOf f)
      have hfibers := fibers_joinRefs w m (w.refsOf f)
      rw [hjoin] at hfibers
      have hrest' : List.Forall₂ (fun f v => w'.exitOf f = some (.success v)) fs vs :=
        hrest.imp fun f' v' h' => by rw [exitOf, hfibers]; exact h'
      rw [exitOf] at hv
      simp only [collect, hv, hjoin]
      rw [ih htotal hrest', joinAll, joinAll, List.foldl_cons, hjoin, List.reverse_cons,
        List.append_assoc, List.singleton_append]

end World

/-! ## The end of a zip -/

/-- How a zip that was opened in the move from `s` ends at `b`. -/
inductive Run.ZipEnds (r : Run σ) (g : Key .fiber) (c : Contest) (s b : Nat) : AnyExit → Prop
  | values {vs : List Value} :
      List.Forall₂ (fun m v => (r.moment b).world.exitOf m = some (.success v)) c.members vs →
      r.MergesOnce g c c.members s b → r.ZipEnds g c s b (.success (.list vs))
  | failure {place j : Nat} {m : Key .fiber} {cause : AnyCause} {xs : List AnyExit} :
      c.members[place]? = some m → s < j → j < b →
      r.FirstToEnd (·.isFailure = true) c.members m (.failure cause) j →
      List.Forall₂ (fun m x => (r.moment b).world.exitOf m = some x) (World.Contest.others c place) xs →
      r.SilentBut g c.arena (s + 1) b →
      r.ZipEnds g c s b (.failure ((xs.filterMap Exit.cause?).foldl .andThen cause))

/-- The fiber `g`, which took up a zip of `ps` in the move from `s`, has come to its exit `e` at `b`. -/
structure Run.Zipped (r : Run σ) (g : Key .fiber) (ps : List (Program σ)) (s b : Nat) (e : AnyExit)
    (c : Contest) (t : Key .tally) : Prop where
  /-- It opened the contest, -/
  opened : r.Opened g c t (.member t) ps s
  /-- every member is done, -/
  done : ∀ m ∈ c.members, ∃ x, (r.moment b).Done m x
  /-- the arena is closed, -/
  closed : ((r.moment b).world.scope c.arena).isClosed = true
  /-- and the zip ends with what the members ended with. -/
  ends : r.ZipEnds g c s b e

namespace Run.Executes

/-- What becomes of a zip when it has been decided. -/
theorem zipEnds (h : r.Executes g T exiting (s + 1) b
      (.instruct (.flatMap (.wait (.decided t)) (.sequel (.zipDecided c)))) e)
    (hopened : r.Opened g c t (.member t) ps s)
    (htotal : ∀ k, s ≤ k → k ≤ b → (r.moment k).world.RefsTotal) (hzips : r.ZipsSucceed g exiting s b) :
    (∀ m ∈ c.members, ∃ x, (r.moment b).Done m x) ∧
      ((r.moment b).world.scope c.arena).isClosed = true ∧ r.ZipEnds g c s b e := by
  obtain ⟨hwatched, hnone⟩ := hopened.watched fun i => by simp [DoneWatcher.reportsTo]
  have hstands := fun k (hk : s < k) =>
    (r.zipStands hopened.opens.nodup hwatched hopened.opens.tally hnone hk).2
  obtain ⟨k, j, result, w, m, hsk, hkj, hjb, hdecided, hsilent, hchanges, hrefs, hactive, hnext⟩ :=
    h.hears fun k hk => by
      cases hstands k hk with
      | undecided htally ho => exact Or.inl ⟨_, htally, ho⟩
      | all hd => exact Or.inr ⟨_, hd⟩
      | lost hd => exact Or.inr ⟨_, hd⟩
  cases hstands k hsk with
  | undecided htally ho => cases hdecided.unique ⟨_, htally, ho⟩
  | all hd hvalues =>
      cases hdecided.unique hd
      choose! value hvalue using hvalues
      set vs := c.members.map value with hvsdef
      have hended : ∀ l, k ≤ l →
          List.Forall₂ (fun m v => (r.moment l).world.exitOf m = some (.success v)) c.members vs :=
        fun l hl => List.forall₂_map_right_iff.mpr (List.forall₂_same.mpr fun m hm =>
          (r.exitOf_later hl (hvalue m hm)).2)
      have hcollect : w.collect c.refs c.members [] = (w.joinAll c.refs c.members, .ok (.ok vs)) :=
        World.collect_of_total ((htotal j (by omega) (Nat.le_of_lt hjb)).of_refs hrefs)
          ((hended j (Nat.le_of_lt hkj)).imp fun m v hv => hchanges.exitOf hv)
      rw [World.follow, hcollect] at hnext
      obtain ⟨hworld, hgoes⟩ := h.enters (by omega) hjb hnext
      obtain ⟨rfl, hclosed, hbut⟩ := hgoes.leavesArena (x := .success (.list vs))
        (hzips.mono (by omega) (Nat.le_refl b)) (hopened.arena (by omega))
      refine ⟨fun m hm => ?_, hclosed, .values (hended b (by omega)) ⟨j, by omega, hjb, hsilent, ⟨m, hactive⟩,
        ?_, hbut⟩⟩
      · exact ⟨_, r.done_of_exitOf (by omega) (hvalue m hm)⟩
      · rw [hworld]
        refine World.refs_joinAll_congr hrefs (fun f hf => ?_) c.refs
        exact hchanges.refsOf
          (World.isSome_of_exitOf (r.exitOf_later (Nat.le_of_lt hkj) (hvalue f hf)).2)
  | @lost place l m' x hd hplace hsl hlk hfirst =>
      cases hdecided.unique hd
      cases x with
      | success v => cases hfirst.kind
      | failure cause =>
          obtain ⟨d, xs, w', m'', hjd, hdb, hsilent', hxs, -, hrefs', hactive', hnext'⟩ :=
            h.drains (by omega) hjb hrefs hactive hnext
          obtain ⟨hworld, hgoes⟩ := h.enters (by omega) hdb hnext'
          obtain ⟨rfl, hclosed, hbut⟩ := hgoes.leavesArena
            (x := .failure (cause.andThenAll (xs.filterMap Exit.cause?)))
            (hzips.mono (by omega) (Nat.le_refl b)) (hopened.arena (by omega))
          have hothers : List.Forall₂ (fun m x => (r.moment b).world.exitOf m = some x)
              (World.Contest.others c place) xs :=
            hxs.imp fun m x hx => (r.exitOf_later (Nat.le_of_lt hdb) hx).2
          refine ⟨fun m hm => ?_, hclosed, .failure hplace hsl (by omega) hfirst hothers
            (hbut.before (by omega) ((hsilent.trans hsilent').trans (.of_turn hactive' ?_)))⟩
          · rcases Contest.mem_others hplace hm with rfl | hm
            · exact ⟨_, r.done_of_exitOf (by omega) hfirst.ends⟩
            · obtain ⟨x, hx⟩ := World.exitOf_of_mem hothers hm
              exact ⟨x, r.done_of_exitOf (Nat.le_refl b) hx⟩
          · rw [hworld, hrefs']

/-- A zip that ends has come to what its members came to. -/
theorem zipped (h : r.Executes g T exiting s b (.instruct (.zipAll ps)) e)
    (hworks : (r.moment s).Works g y ⟨.instruct (.zipAll ps), T, exiting⟩)
    (htotal : ∀ k, s ≤ k → k ≤ b → (r.moment k).world.RefsTotal) (hzips : r.ZipsSucceed g exiting s b) :
    ps = [] ∧ e = .success (.list []) ∧ r.Silent g s b ∨ ∃ c t, r.Zipped g ps s b e c t := by
  cases ps with
  | nil =>
      have hmoment : r.moment (s + 1) = ⟨(r.moment s).world.count g,
          some (g, ⟨.instruct (.succeed (.list [])), T, exiting⟩)⟩ := by
        rw [Run.advance_of_turn hworks.turn, World.advance_instruct hworks.here rfl]
        rfl
      have hrest := h.later (Nat.le_succ s) (h.lt_of_instruct h.le h.starts rfl)
        (by rw [hmoment]; exact Moment.machine?_active)
      obtain ⟨rfl, hend⟩ := hrest.ends (x := .success (.list []))
      exact Or.inl ⟨rfl, rfl, Run.Silent.trans (.of_turn hworks.turn (by rw [hmoment]; rfl)) hend⟩
  | cons p ps =>
      obtain ⟨c, t, hopened, hgoes⟩ := h.opens .member .zipDecided hworks (fun w y m => rfl)
        (htotal s (Nat.le_refl s) h.le)
      obtain ⟨hdone, hclosed, hends⟩ := hgoes.zipEnds hopened htotal hzips
      exact Or.inr ⟨c, t, hopened, hdone, hclosed, hends⟩

end Run.Executes

/-! ## Zips that run finalizers -/

/-- The fibers in which `g` runs finalizers side by side, by zips that it takes up between `a` and `b`, end
with values if they end. -/
def Run.HelpersSucceed (r : Run σ) (g : Key .fiber) (a b : Nat) : Prop :=
  ∀ c t ps k, a < k → k < b → (∀ p ∈ ps, p.RunsFinalizer) → r.Opened g c t (.member t) ps k →
    ∀ m ∈ c.members, ∀ l x, (r.moment l).world.exitOf m = some x → x.isFailure = false

/-- The zips by which a fiber runs finalizers end with values if the fibers do that it runs them in. -/
theorem Run.zipsSucceed (htotal : ∀ k, a ≤ k → k ≤ b → (r.moment k).world.RefsTotal)
    (hhelpers : r.HelpersSucceed g a b) : r.ZipsSucceed g exiting a b := by
  -- a zip within the closing of the arena of another is shorter than that
  suffices hshort : ∀ n T i j ps e, j - i ≤ n → (∀ p ∈ ps, p.RunsFinalizer) → a < i → j ≤ b →
      r.Executes g T exiting i j (.instruct (.zipAll ps)) e → ∃ v, e = .success v from
    fun T i j ps e hps hai hjb h => hshort (j - i) T i j ps e (Nat.le_refl _) hps hai hjb h
  intro n
  induction n with
  | zero =>
      intro T i j ps e hn _ _ _ h
      have hlt := h.lt_of_instruct h.le h.starts rfl
      omega
  | succ n ih =>
      intro T i j ps e hn hps hai hjb h
      obtain ⟨s, y, his, hsj, hworks, -⟩ := h.works (Or.inl ⟨_, rfl⟩) trivial
      have hgoes := h.later his hsj (Moment.machine?_of_active hworks.turn)
      have hlt := hgoes.lt_of_instruct hgoes.le hgoes.starts rfl
      have hzips : r.ZipsSucceed g exiting s j := fun T' i' j' ps' e' hps' hi hj h' =>
        ih T' i' j' ps' e' (by omega) hps' (by omega) (by omega) h'
      rcases hgoes.zipped hworks (fun k hk hk' => htotal k (by omega) (by omega)) hzips with
        ⟨-, rfl, -⟩ | ⟨c, t, hzipped⟩
      · exact ⟨_, rfl⟩
      · cases hzipped.ends with
        | values => exact ⟨_, rfl⟩
        | @failure place l m cause xs hplace hsl hlj hfirst =>
            have hvalue := hhelpers c t ps s (by omega) (by omega) hps hzipped.opened m
              (List.mem_of_getElem? hplace) (l + 1) _ hfirst.ends
            cases hvalue

/-- A fiber that opens no further contest runs no finalizers side by side. -/
theorem Run.helpersSucceed_of_tallies
    (h : ∀ k < b, a < k → (r.moment (k + 1)).world.tallies.toList.length ≤
      (r.moment k).world.tallies.toList.length) : r.HelpersSucceed g a b := by
  intro c t ps k hak hkb _ hopened
  exfalso
  have hbefore : (r.moment k).world.tallies.get? t = none := hopened.opens.unopened
  have hafter := hopened.opens.tally
  have hle := h k hkb hak
  rw [Store.get?, Array.getElem?_eq_none_iff] at hbefore
  obtain ⟨hlt, -⟩ := Array.getElem?_eq_some_iff.mp hafter
  simp only [Store.toList, Array.length_toList] at hle
  omega

/-- What a zip comes to, if no function of a reference panics. -/
theorem Run.zip_outcome (h : r.Executes g T exiting s b (.instruct (.zipAll ps)) e)
    (hworks : (r.moment s).Works g y ⟨.instruct (.zipAll ps), T, exiting⟩)
    (htotal : ∀ k, s ≤ k → k ≤ b → (r.moment k).world.RefsTotal) (hhelpers : r.HelpersSucceed g s b) :
    ps = [] ∧ e = .success (.list []) ∧ r.Silent g s b ∨ ∃ c t, r.Zipped g ps s b e c t :=
  h.zipped hworks htotal (zipsSucceed htotal hhelpers)

/-! ## A zip that ends with values -/

/-- The first member ends last. -/
def patient : List (Program Nat) := [.yieldNow, .succeed (.int 3)]

theorem licensed_patient : (Program.zipAll patient).Licensed .none :=
  .zipAll fun p hp => by
    rcases List.mem_pair.mp hp with rfl | rfl
    · exact .yieldNow
    · exact .succeed

def patientRun : Run Nat := .inOrder .standard 0 (.zipAll patient) licensed_patient

set_option maxRecDepth 1000 in
theorem executes_patient : patientRun.Executes ⟨0⟩ [] false 3 85 (.instruct (.zipAll patient))
    (.success (.list [.unit, .int 3])) := by
  have hcheck : ∀ k < 85, 3 ≤ k → (patientRun.moment k).drops ⟨0⟩ = false ∧
      (patientRun.moment k).emerges ⟨0⟩ = false := by decide +kernel
  exact Run.executes_of_bottom (by decide) rfl (fun k hk hk' => (hcheck k hk hk').1)
    (fun k hk hk' => (hcheck k hk hk').2) ⟨((patientRun.moment 85).active.get rfl).2,
      ⟨((patientRun.moment 85).world.fibers.get? ⟨0⟩).get rfl, rfl, rfl, Or.inr rfl, by decide,
        Or.inr ⟨.success (.list [.unit, .int 3]), rfl⟩⟩, rfl, [], rfl, rfl⟩

/-- The zip ends with the values in the order of the programs. -/
theorem patient_zipped :
    ∃ c t, patientRun.Zipped ⟨0⟩ patient 3 85 (.success (.list [.unit, .int 3])) c t := by
  have hworks : (patientRun.moment 3).Works ⟨0⟩ (((patientRun.moment 3).world.fibers.get? ⟨0⟩).get rfl)
      ⟨.instruct (.zipAll patient), [], false⟩ := ⟨rfl, rfl, Or.inr rfl, by decide, Or.inl ⟨_, rfl⟩⟩
  have hrefs : ∀ k < 86, (patientRun.moment k).world.refs.toList.all (·.entries.isEmpty) = true := by
    decide +kernel
  have htallies : ∀ k < 85, 3 < k → (patientRun.moment (k + 1)).world.tallies.toList.length ≤
      (patientRun.moment k).world.tallies.toList.length := by decide +kernel
  rcases Run.zip_outcome executes_patient hworks
    (fun k _ hk => World.refsTotal_of_empty (hrefs k (Nat.lt_succ_of_le hk)))
    (Run.helpersSucceed_of_tallies htallies) with ⟨hnil, -⟩ | hzipped
  · cases hnil
  · exact hzipped

/-! ## A merge that panics -/

/-- A reference that no child can be merged into. -/
def jammed : FiberRef := ⟨1, .int 0, ⟨.ok, fun _ _ => .error ⟨"join policy"⟩⟩⟩

/-- Both members end with values, and the first has written the reference. -/
def writers : List (Program Nat) := [(Program.setRef jammed (.int 2)).andThen .yieldNow, .succeed (.int 3)]

theorem licensed_writers :
    ((Program.setRef jammed (.int 1)).andThen (.zipAll writers)).Licensed .none :=
  .flatMap (Program.licensed_setRef _ _) (.next (.zipAll fun p hp => by
    rcases List.mem_pair.mp hp with rfl | rfl
    · exact .flatMap (Program.licensed_setRef _ _) (.next .yieldNow)
    · exact .succeed))

def writersRun : Run Nat :=
  .inOrder .standard 0 ((Program.setRef jammed (.int 1)).andThen (.zipAll writers)) licensed_writers

/-- Where the merge panics the zip fails although its members ended with values, and the arena stays open. -/
theorem writers_not_zipped : ∃ cause, cause.defects = [⟨"join policy"⟩] ∧
    writersRun.Executes ⟨0⟩ [] false 9 80 (.instruct (.zipAll writers)) (.failure cause) ∧
    writersRun.HelpersSucceed ⟨0⟩ 9 80 ∧ ¬ ∃ c t, writersRun.Zipped ⟨0⟩ writers 9 80 (.failure cause) c t := by
  have hcheck : ∀ k < 80, 9 ≤ k → (writersRun.moment k).drops ⟨0⟩ = false ∧
      (writersRun.moment k).emerges ⟨0⟩ = false := by decide +kernel
  have htallies : ∀ k < 80, 9 < k → (writersRun.moment (k + 1)).world.tallies.toList.length ≤
      (writersRun.moment k).world.tallies.toList.length := by decide +kernel
  obtain ⟨m, cause, hactive, hcontrol, hstack, hdefects⟩ : ∃ m cause,
      (writersRun.moment 80).active = some (⟨0⟩, m) ∧ m.control = .failure cause ∧ m.stack = [] ∧
        cause.defects = [⟨"join policy"⟩] := ⟨_, _, rfl, rfl, rfl, rfl⟩
  have hlands : (writersRun.moment 80).Lands ⟨0⟩ [] m (.failure cause) :=
    ⟨⟨((writersRun.moment 80).world.fibers.get? ⟨0⟩).get rfl, hactive, rfl, Or.inr rfl, by decide,
      Or.inr ⟨.failure cause, hcontrol⟩⟩, hcontrol, [], hstack, rfl⟩
  refine ⟨cause, hdefects, Run.executes_of_bottom (by decide) rfl (fun k hk hk' => (hcheck k hk hk').1)
    (fun k hk hk' => (hcheck k hk hk').2) ⟨m, hlands⟩, Run.helpersSucceed_of_tallies htallies, ?_⟩
  rintro ⟨c, t, hzipped⟩
  obtain ⟨x, -, -, -, harena, -⟩ := hzipped.opened.opens.fiber
  have hopen : ((writersRun.moment 80).world.scope ⟨1⟩).isClosed = false := rfl
  have hclosed := hzipped.closed
  rw [show c.arena = ⟨1⟩ from harena.symm] at hclosed
  cases hopen.symm.trans hclosed

end Fibers
