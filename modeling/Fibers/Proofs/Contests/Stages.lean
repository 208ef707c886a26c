import Fibers.Proofs.Contests.Draining
import Fibers.Proofs.Contests.Verdict

set_option autoImplicit false

/-! # The stages of a contest

A fiber that comes to a contest opens it (`Run.Opened`), waits for the verdict, interrupts those who are still
in the way and waits for them, and leaves the arena. Each stage is a part of the execution of the contest, and
tells the fiber what it goes on with.
-/

namespace Fibers

variable {σ : Type} {r : Run σ} {g : Key .fiber} {T : List (Waiting σ)} {exiting : Bool}
variable {a b s : Nat} {e : AnyExit} {c : Contest} {t : Key .tally}

/-! ## What changes keep of a fiber -/

theorem World.Changes.exitOf {L : Licence} {actor : Option (Key .fiber)} {w w' : World σ}
    (h : World.Changes L actor w w') {f : Key .fiber} {x : AnyExit} (hx : w.exitOf f = some x) :
    w'.exitOf f = some x := by
  obtain ⟨y, hy, hyx⟩ := Option.bind_eq_some_iff.mp hx
  obtain ⟨y', hy', hlater, -⟩ := h.grows.fibers f y hy
  rw [World.exitOf, hy', Option.bind_some]
  exact hlater.onward.exit hyx

theorem World.Changes.refsOf {L : Licence} {actor : Option (Key .fiber)} {w w' : World σ}
    (h : World.Changes L actor w w') {f : Key .fiber} (hf : (w.fibers.get? f).isSome = true) :
    w'.refsOf f = w.refsOf f := by
  obtain ⟨y, hy⟩ := Option.isSome_iff_exists.mp hf
  obtain ⟨y', hy', hlater, -⟩ := h.grows.fibers f y hy
  rw [World.refsOf, World.refsOf, hy, hy', Option.map_some, Option.map_some, hlater.context]

theorem World.isSome_of_exitOf {w : World σ} {f : Key .fiber} {x : AnyExit} (hx : w.exitOf f = some x) :
    (w.fibers.get? f).isSome = true := by
  obtain ⟨y, hy, -⟩ := Option.bind_eq_some_iff.mp hx
  exact Option.isSome_of_eq_some hy

/-- Of a list of fibers with their exits each has one. -/
theorem World.exitOf_of_mem {w : World σ} {fs : List (Key .fiber)} {xs : List AnyExit}
    (h : List.Forall₂ (fun f x => w.exitOf f = some x) fs xs) {f : Key .fiber} (hf : f ∈ fs) :
    ∃ x, w.exitOf f = some x := by
  obtain ⟨hlength, hget⟩ := List.forall₂_iff_get.mp h
  obtain ⟨i, hi, rfl⟩ := List.getElem_of_mem hf
  exact ⟨_, hget i hi (hlength ▸ hi)⟩

/-- A fiber that has published its exit and has nothing left to do. -/
structure Moment.Done (x : Moment σ) (f : Key .fiber) (e : AnyExit) : Prop where
  idle : x.machine? f = none
  exit : x.world.exitOf f = some e

/-- A fiber that has published its exit is done from then on. -/
theorem Run.done_of_exitOf (r : Run σ) {k l : Nat} (hkl : k ≤ l) {f : Key .fiber} {x : AnyExit}
    (hx : (r.moment k).world.exitOf f = some x) : (r.moment l).Done f x :=
  ⟨(r.exitOf_later hkl hx).1, (r.exitOf_later hkl hx).2⟩

/-! ## Merging maps -/

namespace World

/-- The world in which the maps of some fibers, one after the other, were merged into a map. -/
def joinAll (w : World σ) (m : Key .refs) (fs : List (Key .fiber)) : World σ :=
  fs.foldl (fun w f => (w.joinRefs m (w.refsOf f)).1) w

theorem fibers_joinRefs (w : World σ) (m child : Key .refs) :
    (w.joinRefs m child).1.fibers = w.fibers := by
  unfold joinRefs
  split <;> rfl

/-- What a merge comes to depends on the maps and on whose they are. -/
theorem refs_joinAll_congr {w w' : World σ} {fs : List (Key .fiber)} (hrefs : w'.refs = w.refs)
    (hfs : ∀ f ∈ fs, w'.refsOf f = w.refsOf f) (m : Key .refs) :
    (w'.joinAll m fs).refs = (w.joinAll m fs).refs := by
  induction fs generalizing w w' with
  | nil => exact hrefs
  | cons f fs ih =>
      have hof : ∀ v : World σ, ∀ f', (v.joinRefs m (v.refsOf f)).1.refsOf f' = v.refsOf f' :=
        fun v f' => by rw [refsOf, fibers_joinRefs, refsOf]
      refine ih ?_ fun f' hf' => ?_
      · show (w'.joinRefs m (w'.refsOf f)).1.refs = (w.joinRefs m (w.refsOf f)).1.refs
        rw [hfs f List.mem_cons_self, joinRefs, joinRefs, refMap, refMap, refMap, refMap, hrefs]
        split
        · exact hrefs
        · rfl
      · rw [hof, hof]
        exact hfs f' (List.mem_cons_of_mem _ hf')

end World

/-- From the opening in the move from `s` until `b` the fiber `g` merges the maps of the fibers `fs` into its
own, in one move, and does nothing else to the maps of references but for finalizers left in the arena. -/
def Run.MergesOnce (r : Run σ) (g : Key .fiber) (c : Contest) (fs : List (Key .fiber)) (s b : Nat) : Prop :=
  ∃ k, s < k ∧ k < b ∧ r.Silent g (s + 1) k ∧ (∃ m, (r.moment k).active = some (g, m)) ∧
    (r.moment (k + 1)).world.refs = ((r.moment k).world.joinAll c.refs fs).refs ∧
    r.SilentBut g c.arena (k + 1) b

/-! ## The opening -/

/-- The fiber `g` opens a contest over the programs `ps` in the move from `s`. -/
structure Run.Opened (r : Run σ) (g : Key .fiber) (c : Contest) (t : Key .tally)
    (watcher : Nat → DoneWatcher σ) (ps : List (Program σ)) (s : Nat) : Prop where
  turn : ∃ y m, (r.moment s).Works g y m
  opens : c.Opens t watcher g ps ((r.moment s).world.count g) (r.moment (s + 1)).world

/-- The arena stays. -/
theorem Run.Opened.arena {watcher : Nat → DoneWatcher σ} {ps : List (Program σ)} {k : Nat}
    (h : r.Opened g c t watcher ps s) (hsk : s < k) :
    ((r.moment k).world.scopes.get? c.arena).isSome = true := by
  obtain ⟨sc, hsc⟩ := Option.isSome_iff_exists.mp h.opens.arena
  obtain ⟨sc', hsc', -⟩ := r.scopesLater hsk _ sc hsc
  exact Option.isSome_of_eq_some hsc'

/-- A member is the one at the place, or one of the others. -/
theorem Contest.mem_others {place : Nat} {m m' : Key .fiber} (hm : c.members[place]? = some m)
    (hm' : m' ∈ c.members) : m' = m ∨ m' ∈ World.Contest.others c place := by
  obtain ⟨i, hi⟩ := List.getElem?_of_mem hm'
  by_cases hplace : i = place
  · subst hplace
    exact Or.inl (Option.some.inj (hi.symm.trans hm))
  · exact Or.inr (List.mem_eraseIdx_iff_getElem?.mpr ⟨i, hplace, hi⟩)

/-- The members of a contest are under watch from its opening on. -/
theorem Run.Opened.watched {watcher : Nat → DoneWatcher σ} {ps : List (Program σ)}
    (h : r.Opened g c t watcher ps s) (hreports : ∀ i, (watcher i).reportsTo t = true) :
    c.Watched t watcher (r.moment (s + 1)).world ∧
      ∀ m ∈ c.members, (r.moment (s + 1)).world.exitOf m = none := by
  obtain ⟨y, m, hworks⟩ := h.turn
  refine h.opens.watched hreports fun f => ?_
  have hbefore := r.reports_of_none (k := s) (t := t) h.opens.unopened f
  unfold World.reports at hbefore ⊢
  by_cases hf : g = f
  · subst hf
    rw [World.get?_count hworks.fiber]
    rw [hworks.fiber] at hbefore
    exact hbefore
  · rw [World.count, World.modifyFiber, Store.get?_modify, if_neg hf]
    exact hbefore

namespace Run.Executes

/-- A contest that is taken up is opened, if no function of a reference panics. -/
theorem opens {p : Program σ} {ps : List (Program σ)} {y : Fiber σ}
    (watcher : Key .tally → Nat → DoneWatcher σ) (decided : Contest → Sequel σ)
    (h : r.Executes g T exiting s b (.instruct p) e)
    (hworks : (r.moment s).Works g y ⟨.instruct p, T, exiting⟩)
    (hp : ∀ (w : World σ) y m, w.instruct g y m p = World.enter g m (w.contest g ps watcher decided))
    (htotal : (r.moment s).world.RefsTotal) :
    ∃ c t, r.Opened g c t (watcher t) ps s ∧ r.Executes g T exiting (s + 1) b
      (.instruct (.flatMap (.wait (.decided t)) (.sequel (decided c)))) e := by
  have hcount : ((r.moment s).world.count g).RefsTotal := htotal.of_refs rfl
  obtain ⟨w, q, hcontest⟩ :=
    World.contest_of_total hcount (World.get?_count hworks.fiber) ps watcher decided
  obtain ⟨c, t, hopens, rfl⟩ := World.contest_spec hcontest
  have hnext := Run.advance_of_turn hworks.turn
  rw [World.advance_instruct hworks.here rfl, hp, hcontest] at hnext
  obtain ⟨rfl, hgoes⟩ := h.enters (Nat.le_refl s) (h.lt_of_instruct h.le h.starts rfl) hnext
  exact ⟨c, t, ⟨⟨y, _, hworks⟩, hopens⟩, hgoes⟩

/-! ## The verdict -/

/-- The fiber goes on with the verdict. -/
theorem hears {next : Sequel σ}
    (h : r.Executes g T exiting a b (.instruct (.flatMap (.wait (.decided t)) (.sequel next))) e)
    (hstands : ∀ k, a ≤ k → (r.moment k).world.Decided t none ∨
      ∃ result, (r.moment k).world.Decided t (some (.resolved result))) :
    ∃ k j result w m, a ≤ k ∧ k < j ∧ j < b ∧ (r.moment k).world.Decided t (some (.resolved result)) ∧
      r.Silent g a j ∧ World.Changes .all (some g) (r.moment j).world w ∧
      w.refs = (r.moment j).world.refs ∧ (r.moment j).active = some (g, m) ∧
      r.moment (j + 1) = World.conclude g
        (World.enter g ⟨.value (.decided result), T, exiting⟩ (w.follow next (.decided result))) := by
  obtain ⟨a', j, e', haa', hjb, hsilent, hpart, hafter⟩ := h.flatMap
  obtain ⟨k, p, hak, hkj, hp, hsilent', hrest⟩ := hpart.waits rfl
  rcases hstands k (by omega) with ⟨tally, htally, ho⟩ | ⟨result, tally, htally, ho⟩
  · rw [World.settledProgram?, World.tally, htally, Option.getD_some, ho] at hp
    cases hp
  · have hdecided := hp
    rw [World.settledProgram?, World.tally, htally, Option.getD_some, ho] at hdecided
    cases hdecided
    obtain ⟨rfl, hend⟩ := hrest.ends (x := .success (.decided result))
    obtain ⟨cause, hcause, -⟩ | ⟨v, w, m, hv, hlt, hchanges, hrefs, hactive, hnext⟩ := hafter
    · cases hcause
    cases hv
    exact ⟨k, j, result, w, m, by omega, hkj, hlt, ⟨tally, htally, ho⟩,
      (hsilent.trans hsilent').trans hend, hchanges, hrefs, hactive, hnext⟩

/-! ## The others -/

/-- The fiber interrupts some fibers, waits for them, and goes on with their exits. -/
theorem drains {control : Control σ} {others : List (Key .fiber)} {id : FiberId} {next : Sequel σ} {j : Nat}
    {w : World σ} {m : Machine σ} {v : Value} (h : r.Executes g T exiting a b control e)
    (haj : a ≤ j) (hjb : j < b) (hrefs : w.refs = (r.moment j).world.refs)
    (hactive : (r.moment j).active = some (g, m))
    (hnext : r.moment (j + 1) = World.conclude g (World.enter g ⟨.value v, T, exiting⟩
      (w.interruptAll others id, .ok (.flatMap (World.awaitExits others) (.sequel next))))) :
    ∃ d xs w' m', j < d ∧ d < b ∧ r.Silent g j d ∧
      List.Forall₂ (fun f x => (r.moment d).world.exitOf f = some x) others xs ∧
      World.Changes .all (some g) (r.moment d).world w' ∧ w'.refs = (r.moment d).world.refs ∧
      (r.moment d).active = some (g, m') ∧ r.moment (d + 1) = World.conclude g
        (World.enter g ⟨.value (.exits xs), T, exiting⟩ (w'.follow next (.exits xs))) := by
  obtain ⟨hworld, hgoes⟩ := h.enters haj hjb hnext
  have hinterrupt : r.Silent g j (j + 1) :=
    .of_turn hactive (by rw [hworld, World.refs_interruptAll, hrefs])
  obtain ⟨a', d, e', haa', hdb, hsilent, hpart, hafter⟩ := hgoes.flatMap
  obtain ⟨xs, rfl, hxs, hsilent'⟩ := hpart.awaitExits
  obtain ⟨cause, hcause, -⟩ | ⟨v', w', m', hv, hlt, hchanges, hrefs', hactive', hnext'⟩ := hafter
  · cases hcause
  cases hv
  have hpart := hpart.le
  exact ⟨d, xs, w', m', by omega, hlt, (hinterrupt.trans hsilent).trans hsilent', hxs, hchanges, hrefs',
    hactive', hnext'⟩

/-! ## The end -/

/-- The fiber closes the arena and ends as it was going to. -/
theorem leavesArena {x : AnyExit}
    (h : r.Executes g T exiting a b (.instruct (World.leaveArena c (Program.ofExit x))) e)
    (hzips : r.ZipsSucceed g exiting a b)
    (harena : ((r.moment a).world.scopes.get? c.arena).isSome = true) :
    e = x ∧ ((r.moment b).world.scope c.arena).isClosed = true ∧ r.SilentBut g c.arena a b := by
  obtain ⟨a', b', e', haa', hb'b, hsilent, hpart, hafter⟩ := h.andThen
  obtain ⟨z, rfl, hexit, hbut⟩ := hpart.closes (hzips.mono (Nat.le_of_lt haa') hb'b)
  obtain ⟨cause, hcause, -⟩ | ⟨v, -, hlt, hhand, hgoes⟩ := hafter
  · cases hcause
  obtain ⟨rfl, hend⟩ := hgoes.ends
  obtain ⟨sc, hsc⟩ := Option.isSome_iff_exists.mp harena
  obtain ⟨sc', hsc', -⟩ := r.scopesLater (Nat.le_trans (Nat.le_of_lt haa') hpart.le) _ sc hsc
  exact ⟨rfl, r.closed_later hb'b hsc' (World.closed_of_exit hsc' hexit),
    (hbut.before (Nat.le_of_lt haa') hsilent).after hb'b (hhand.trans hend)⟩

end Run.Executes

end Fibers
