import Fibers.Proofs.Contests.Arena
import Fibers.Proofs.Contests.Reports
import Fibers.Proofs.World.Policies
import Fibers.Proofs.World.References

set_option autoImplicit false

/-! # How contests open

A contest starts a fiber for each of its programs, in a fresh arena, and puts a watcher on each of them. So
its members are new and distinct, none of them has ended, each reports its place to a fresh tally, and nobody
else does. What was there before is left as it is (`Contest.Opens`).
-/

namespace Fibers

variable {σ : Type}

namespace World

/-- The fiber `f` was started in order to run `p` with a permit and has not had a turn; its end is kept in
`cell`. -/
structure Poised (w : World σ) (f : Key .fiber) (p : Program σ) (cell : Cell AnyExit (DoneWatcher σ)) :
    Prop where
  fiber : ∃ x s token, w.fibers.get? f = some x ∧ x.done = cell ∧
    x.phase = .suspended token { control := .start (.duty (.guarded s p)) }

theorem Poised.of_get {w w' : World σ} {f : Key .fiber} {p : Program σ}
    {cell : Cell AnyExit (DoneWatcher σ)} (h : w.Poised f p cell)
    (hget : w'.fibers.get? f = w.fibers.get? f) : w'.Poised f p cell := by
  obtain ⟨x, s, token, hx, hrest⟩ := h.fiber
  exact ⟨x, s, token, hget.trans hx, hrest⟩

theorem isSome_of_grows {w w' : World σ} (h : Grows none w w') {s : Key .scope}
    (hs : (w.scopes.get? s).isSome = true) : (w'.scopes.get? s).isSome = true := by
  obtain ⟨sc, hsc⟩ := Option.isSome_iff_exists.mp hs
  obtain ⟨sc', hsc', -⟩ := h.scopes s sc hsc
  exact Option.isSome_of_eq_some hsc'

/-- The fibers, tallies and maps that are there are left as they are, but for the fibers of a list; the
scopes stay, and stay tied to their handles. -/
structure Preserves (fs : List (Key .fiber)) (w w' : World σ) : Prop where
  fibers : ∀ g, g ∉ fs → w'.fibers.get? g = w.fibers.get? g
  tallies : w'.tallies = w.tallies
  refs : ∀ m, (w.refs.get? m).isSome = true → w'.refs.get? m = w.refs.get? m
  scopes : ∀ s, (w.scopes.get? s).isSome = true → (w'.scopes.get? s).isSome = true
  tied : ∀ s h, w.Tied s h → w'.Tied s h

theorem Preserves.trans {fs gs : List (Key .fiber)} {w₁ w₂ w₃ : World σ} (h : Preserves fs w₁ w₂)
    (h' : Preserves gs w₂ w₃) : Preserves (fs ++ gs) w₁ w₃ where
  fibers := fun g hg => by
    rw [List.mem_append, not_or] at hg
    exact (h'.fibers g hg.2).trans (h.fibers g hg.1)
  tallies := h'.tallies.trans h.tallies
  refs := fun m hm => (h'.refs m (by rw [h.refs m hm]; exact hm)).trans (h.refs m hm)
  scopes := fun s hs => h'.scopes s (h.scopes s hs)
  tied := fun s u hs => h'.tied s u (h.tied s u hs)

theorem Preserves.refl (w : World σ) : Preserves [] w w :=
  ⟨fun _ _ => rfl, rfl, fun _ _ => rfl, fun _ hs => hs, fun _ _ hs => hs⟩

/-! ## One member -/

/-- A fiber that is put on the hooks of a scope is left as it is, unless the scope is closing. -/
theorem hook_spec {w : World σ} {f : Key .fiber} {x : Fiber σ} (hx : w.fibers.get? f = some x)
    (s : Key .scope) :
    (∃ y, (w.hook s f).fibers.get? f = some y ∧ y.done = x.done ∧ y.phase = x.phase) ∧
      Preserves [f] w (w.hook s f) := by
  suffices hrest : (∃ y, (w.hook s f).fibers.get? f = some y ∧ y.done = x.done ∧ y.phase = x.phase) ∧
      (∀ g, g ∉ [f] → (w.hook s f).fibers.get? g = w.fibers.get? g) ∧
      (w.hook s f).tallies = w.tallies ∧ (w.hook s f).refs = w.refs by
    obtain ⟨hfiber, hothers, htallies, hrefs⟩ := hrest
    exact ⟨hfiber, hothers, htallies, fun _ _ => by rw [hrefs],
      fun _ => isSome_of_grows (grows_hook w s f), fun _ _ hs => tied_hook hs s f⟩
  unfold hook
  split
  · exact ⟨⟨x, hx, rfl, rfl⟩, fun _ _ => rfl, rfl, rfl⟩
  · refine ⟨⟨{ x with terminating := true }, ?_, rfl, rfl⟩, fun g hg => ?_,
      (parts_scopesClosing [f] w).2.1, refs_scopeClosing w f⟩
    · rw [get?_scopeClosing, if_pos rfl, hx, Option.map_some]
    · rw [get?_scopeClosing, if_neg fun heq => hg (List.mem_singleton.mpr heq.symm)]

/-- A new fiber is there and has not started. -/
theorem newFiber_spec {w w' : World σ} {c : Context} {s : Key .scope} {p : Program σ} {f : Key .fiber}
    {services : Services} {inherited : List Frame}
    (h : w.newFiber c s p services inherited = (w', f)) :
    w.fibers.get? f = none ∧ (∃ x, w'.fibers.get? f = some x ∧ x.done = .fresh ∧
      x.phase = .notStarted { control := .start p }) ∧ Preserves [f] w w' := by
  obtain ⟨x, hdone, hphase, hnew⟩ : ∃ x : Fiber σ, x.done = .fresh ∧
      x.phase = .notStarted { control := .start p } ∧
      (hook { (w.newSemaphore c.concurrency).1 with fibers := (w.fibers.add x).1 } s (w.fibers.add x).2,
        (w.fibers.add x).2) = (w', f) := ⟨_, rfl, rfl, h⟩
  obtain ⟨hworld, rfl⟩ := Prod.ext_iff.mp hnew
  dsimp only at hworld
  set w₁ : World σ := { (w.newSemaphore c.concurrency).1 with fibers := (w.fibers.add x).1 } with hw₁
  have hself : w₁.fibers.get? (w.fibers.add x).2 = some x := by
    rw [hw₁, Store.get?_add, if_pos rfl]
  have hother : ∀ g, g ≠ (w.fibers.add x).2 → w₁.fibers.get? g = w.fibers.get? g := fun g hg => by
    rw [hw₁, Store.get?_add, if_neg hg]
  obtain ⟨⟨y, hy, hydone, hyphase⟩, hkeeps⟩ := hook_spec hself s
  rw [hworld] at hy hkeeps
  refine ⟨Store.get?_next w.fibers x, ⟨y, hy, hydone.trans hdone, hyphase.trans hphase⟩, fun g hg => ?_,
    hkeeps.tallies, hkeeps.refs, hkeeps.scopes, fun s' h' hs => hkeeps.tied s' h' (hs.of_scopes rfl)⟩
  exact (hkeeps.fibers g hg).trans (hother g fun heq => hg (List.mem_singleton.mpr heq))

theorem startFiber_spec {w : World σ} {f : Key .fiber} {x : Fiber σ} {m : Machine σ}
    (hx : w.fibers.get? f = some x) (hphase : x.phase = .notStarted m) :
    (∃ y token, (w.startFiber f).fibers.get? f = some y ∧ y.done = x.done ∧
      y.phase = .suspended token m) ∧ Preserves [f] w (w.startFiber f) := by
  simp only [startFiber, hx, hphase]
  refine ⟨⟨_, _, Store.get?_set_of_some hx, rfl, rfl⟩, fun g hg => ?_, rfl, fun _ _ => rfl,
    fun _ hs => hs, fun _ _ hs => hs.of_scopes rfl⟩
  rw [fibers_queue, Store.get?_set, if_neg fun heq => hg (List.mem_singleton.mpr heq.symm)]

theorem preserves_forkScope (w : World σ) (s : Key .scope) (owner : FiberId) :
    Preserves [] w (w.forkScope s owner).1 := by
  obtain ⟨-, htallies, hfibers⟩ := parts_register (w.newScope owner (w.scope s).strategy).1 s
    (.closeChild (w.newScope owner (w.scope s).strategy).2 (w.scope s).owner)
  exact ⟨fun _ _ => congrArg (Store.get? · _) hfibers, htallies,
    fun _ _ => congrArg (Store.get? · _) (refs_forkScope w s owner), fun _ =>
    isSome_of_grows (grows_forkScope w s owner), fun _ _ hs => tied_forkScope hs s owner⟩

theorem preserves_childRefs (w : World σ) (m : Key .refs) (given : Option (Key .refs)) :
    Preserves [] w (w.childRefs m given).1 := by
  have hnew : ∀ copy, Preserves [] w (w.newRefs copy).1 := fun copy =>
    ⟨fun _ _ => rfl, rfl, fun m hm => by
      obtain ⟨map, hmap⟩ := Option.isSome_iff_exists.mp hm
      rw [hmap]
      exact Store.get?_add_of_some copy hmap, fun _ hs => hs, fun _ _ hs => hs.of_scopes rfl⟩
  cases given with
  | some g => exact .refl w
  | none =>
      simp only [childRefs, forkRefs]
      split
      · exact hnew _
      · exact .refl w

/-- A child that is started is new and will run its program. -/
theorem forkChild_spec {w w' : World σ} {f child : Key .fiber} {p : Program σ} {params : ForkParams}
    (h : w.forkChild f p params = (w', .ok child)) :
    w.fibers.get? child = none ∧ w'.Poised child p .fresh ∧ Preserves [child] w w' := by
  unfold forkChild at h
  cases hf : w.fibers.get? f with
  | none =>
      rw [hf] at h
      cases h
  | some parent =>
      rw [hf] at h
      dsimp only at h
      have hid : Preserves [] w w.nextId.1 :=
        ⟨fun _ _ => rfl, rfl, fun _ _ => rfl, fun _ hs => hs, fun _ _ hs => hs.of_scopes rfl⟩
      have hscope := hid.trans (preserves_forkScope w.nextId.1 (params.scope.getD parent.scope) w.nextId.2)
      have hrefs := hscope.trans (preserves_childRefs (w.nextId.1.forkScope
        (params.scope.getD parent.scope) w.nextId.2).1 parent.context.refs params.refs)
      split at h
      · cases h
      · rename_i w₃ refs hchild
        rw [hchild] at hrefs
        rcases hnew : w₃.newFiber (parent.context.child w.nextId.2 refs params.concurrency)
          (w.nextId.1.forkScope (params.scope.getD parent.scope) w.nextId.2).2
          (.duty (.guarded parent.semaphores.top p)) parent.services.top
          (newest parent.context.limits.maxTrace parent.frames ++ [.fork parent.context.id]) with ⟨w₄, c⟩
        rw [hnew] at h
        obtain ⟨hworld, hc⟩ := Prod.ext_iff.mp h
        cases hc
        obtain ⟨hfresh, ⟨x, hx, hdone, hphase⟩, hadded⟩ := newFiber_spec hnew
        obtain ⟨⟨y, token, hy, hydone, hyphase⟩, hstarted⟩ := startFiber_spec hx hphase
        dsimp only at hworld
        rw [hworld] at hy hstarted
        have hall := (hrefs.trans hadded).trans hstarted
        refine ⟨?_, ⟨y, parent.semaphores.top, token, hy, hydone.trans hdone, hyphase⟩,
          fun g hg => hall.fibers g (by simpa using hg), hall.tallies, hall.refs, hall.scopes,
          hall.tied⟩
        rw [← hrefs.fibers c (by simp)]
        exact hfresh

/-! ## All members -/

/-- The fibers of a list will run the programs of another, place by place; what their ends are kept in
depends on the place. -/
structure AllPoised (w : World σ) (ms : List (Key .fiber)) (ps : List (Program σ))
    (cell : Nat → Cell AnyExit (DoneWatcher σ)) : Prop where
  length : ms.length = ps.length
  poised : ∀ i m p, ms[i]? = some m → ps[i]? = some p → w.Poised m p (cell i)

theorem AllPoised.cons {w : World σ} {m : Key .fiber} {p : Program σ} {ms : List (Key .fiber)}
    {ps : List (Program σ)} {cell : Nat → Cell AnyExit (DoneWatcher σ)} (hm : w.Poised m p (cell 0))
    (h : w.AllPoised ms ps fun i => cell (i + 1)) : w.AllPoised (m :: ms) (p :: ps) cell := by
  refine ⟨congrArg (· + 1) h.length, fun i m' p' hm' hp' => ?_⟩
  cases i with
  | zero =>
      cases hm'
      cases hp'
      exact hm
  | succ i => exact h.poised i m' p' hm' hp'

/-- The children started one after the other are new and distinct, and will run their programs. -/
theorem forkAll_spec {w w' : World σ} {f : Key .fiber} {arena : Key .scope} {ps : List (Program σ)}
    {children all : List (Key .fiber)} (h : w.forkAll f arena ps children = (w', .ok all)) :
    ∃ ms, all = children.reverse ++ ms ∧ w'.AllPoised ms ps (fun _ => .fresh) ∧
      ms.Nodup ∧ (∀ m ∈ ms, w.fibers.get? m = none) ∧ Preserves ms w w' := by
  induction ps generalizing w children with
  | nil =>
      cases h
      exact ⟨[], (List.append_nil _).symm, ⟨rfl, fun i m p hm => by cases hm⟩, List.nodup_nil,
        fun m hm => absurd hm List.not_mem_nil, .refl _⟩
  | cons p rest ih =>
      simp only [forkAll] at h
      split at h
      · rename_i w₁ child hchild
        obtain ⟨hnew, hpoised, hkept⟩ := forkChild_spec hchild
        obtain ⟨ms, rfl, hrest, hnodup, hfresh, hkept'⟩ := ih h
        -- the first child is there when the others are started, so it is none of them
        have hnot : child ∉ ms := fun hmem => by
          obtain ⟨x, -, -, hx, -⟩ := hpoised.fiber
          rw [hfresh child hmem] at hx
          cases hx
        refine ⟨child :: ms, by simp, .cons (hpoised.of_get (hkept'.fibers child hnot)) hrest,
          List.nodup_cons.mpr ⟨hnot, hnodup⟩, fun m hm => ?_, hkept.trans hkept'⟩
        rcases List.mem_cons.mp hm with rfl | hm
        · exact hnew
        · rw [← hkept.fibers m fun hmem => hnot (List.mem_singleton.mp hmem ▸ hm)]
          exact hfresh m hm
      · cases h

theorem watchFiber_spec {w : World σ} {f : Key .fiber} {p : Program σ} (h : w.Poised f p .fresh)
    (o : DoneWatcher σ) :
    (w.watchFiber f o).1.Poised f p (.pending [(0, o)] 1) ∧ Preserves [f] w (w.watchFiber f o).1 := by
  obtain ⟨x, s, token, hx, hdone, hphase⟩ := h.fiber
  simp only [watchFiber, hx, hdone, Cell.fresh, Cell.attach?, List.nil_append, modifyFiber,
    Store.modify_eq_set _ hx]
  refine ⟨⟨_, s, token, Store.get?_set_of_some hx, rfl, hphase⟩, fun g hg => ?_, rfl, fun _ _ => rfl,
    fun _ hs => hs, fun _ _ hs => hs.of_scopes rfl⟩
  rw [Store.get?_set, if_neg fun heq => hg (List.mem_singleton.mpr heq.symm)]

/-- Every member gets the watcher for its place. -/
theorem watchAll_spec {w : World σ} {watcher : Nat → DoneWatcher σ} {ms : List (Key .fiber)}
    {ps : List (Program σ)} (n : Nat) (hnodup : ms.Nodup) (h : w.AllPoised ms ps fun _ => .fresh) :
    ((ms.zipIdx n).foldl (fun w m => (w.watchFiber m.1 (watcher m.2)).1) w).AllPoised ms ps
        (fun i => .pending [(0, watcher (n + i))] 1) ∧
      Preserves ms w ((ms.zipIdx n).foldl (fun w m => (w.watchFiber m.1 (watcher m.2)).1) w) := by
  induction ms generalizing w ps n with
  | nil => exact ⟨⟨h.length, fun i m p hm => by cases hm⟩, .refl w⟩
  | cons m ms ih =>
      cases ps with
      | nil => cases h.length
      | cons p ps =>
          obtain ⟨hnot, hnodup'⟩ := List.nodup_cons.mp hnodup
          obtain ⟨hwatched, hkept⟩ := watchFiber_spec (h.poised 0 m p rfl rfl) (watcher n)
          have hothers : (w.watchFiber m (watcher n)).1.AllPoised ms ps fun _ => .fresh :=
            ⟨Nat.succ.inj h.length, fun i m' p' hm' hp' => (h.poised (i + 1) m' p' hm' hp').of_get
              (hkept.fibers m' fun heq => hnot (List.mem_singleton.mp heq ▸ List.mem_of_getElem? hm'))⟩
          obtain ⟨hrest, hkept'⟩ := ih (n + 1) hnodup' hothers
          refine ⟨.cons (hwatched.of_get (hkept'.fibers m hnot)) ?_, hkept.trans hkept'⟩
          have hplace : ∀ i, n + 1 + i = n + (i + 1) := fun i => by omega
          simp only [hplace] at hrest
          exact hrest

end World

/-! ## The contest -/

/-- A contest over the programs `ps` that the fiber `f` opens: what it makes, and what it leaves alone. -/
structure Contest.Opens (c : Contest) (t : Key .tally) (watcher : Nat → DoneWatcher σ) (f : Key .fiber)
    (ps : List (Program σ)) (w w' : World σ) : Prop where
  fiber : ∃ x, w.fibers.get? f = some x ∧ c.owner = x.context.id ∧ c.refs = x.context.refs ∧
    (w.forkScope x.scope x.context.id).2 = c.arena ∧ ((w.scope x.scope).isOpen = true → ∃ h,
      h.scope = x.scope ∧ ((w.forkScope x.scope x.context.id).1.scope c.arena).parent = some h ∧
        w'.Tied c.arena h)
  arena : (w'.scopes.get? c.arena).isSome = true
  members : w'.AllPoised c.members ps fun i => .pending [(0, watcher i)] 1
  nodup : c.members.Nodup
  fresh : ∀ m ∈ c.members, w.fibers.get? m = none
  others : ∀ g, g ∉ c.members → w'.fibers.get? g = w.fibers.get? g
  unopened : w.tallies.get? t = none
  tally : w'.tallies.get? t = some { remaining := c.members.length }
  refs : ∀ m, (w.refs.get? m).isSome = true → w'.refs.get? m = w.refs.get? m

/-- A contest that can be set up opens, and its fiber waits for the decision. -/
theorem World.contest_spec {w w' : World σ} {f : Key .fiber} {ps : List (Program σ)}
    {watcher : Key .tally → Nat → DoneWatcher σ} {decided : Contest → Sequel σ} {p : Program σ}
    (h : w.contest f ps watcher decided = (w', .ok p)) :
    ∃ c t, c.Opens t (watcher t) f ps w w' ∧
      p = .flatMap (.wait (.decided t)) (.sequel (decided c)) := by
  unfold contest at h
  cases hf : w.fibers.get? f with
  | none =>
      rw [hf] at h
      cases h
  | some x =>
      rw [hf] at h
      dsimp only at h
      have hscope := preserves_forkScope w x.scope x.context.id
      split at h
      · cases h
      · rename_i w₂ members hall
        obtain ⟨ms, hms, hmembers, hnodup, hfresh, hkept⟩ := forkAll_spec hall
        obtain rfl : members = ms := hms
        obtain ⟨hworld, hp⟩ := Prod.ext_iff.mp h
        cases hp
        dsimp only at hworld
        set t := (w₂.tallies.add { remaining := members.length }).2 with ht
        set w₃ : World σ := { w₂ with tallies := (w₂.tallies.add { remaining := members.length }).1 } with hw₃
        have hadded : w₃.AllPoised members ps fun _ => .fresh :=
          ⟨hmembers.length, fun i m p hm hp => (hmembers.poised i m p hm hp).of_get rfl⟩
        have hwatches : (w₃.watchAll (watcher t) members).AllPoised members ps
            (fun i => .pending [(0, watcher t (0 + i))] 1) ∧
              Preserves members w₃ (w₃.watchAll (watcher t) members) := watchAll_spec 0 hnodup hadded
        obtain ⟨hwatched, hkept'⟩ := hwatches
        simp only [Nat.zero_add] at hwatched
        have hbefore := hscope.trans hkept
        have hfibers : ∀ g, (w.forkScope x.scope x.context.id).1.fibers.get? g = w.fibers.get? g :=
          fun g => hscope.fibers g List.not_mem_nil
        refine ⟨⟨x.context.id, members, x.context.refs, (w.forkScope x.scope x.context.id).2⟩, t, ?_, rfl⟩
        rw [← hworld]
        exact {
          fiber := by
            refine ⟨x, hf, rfl, rfl, rfl, fun hopen => ?_⟩
            obtain ⟨h, hparent⟩ := parent_of_forkScope hopen x.context.id
            obtain ⟨hh, htied⟩ := tied_of_forkScope rfl hparent
            exact ⟨h, hh, hparent, hkept'.tied _ _ ((hkept.tied _ _ htied).of_scopes rfl)⟩
          arena := hkept'.scopes _ (hkept.scopes _ (isSome_forkScope w x.scope x.context.id))
          members := hwatched
          nodup := hnodup
          fresh := fun m hm => (hfibers m).symm.trans (hfresh m hm)
          others := fun g hg => (hkept'.fibers g hg).trans (hbefore.fibers g hg)
          unopened := hbefore.tallies ▸ Store.get?_next w₂.tallies _
          tally := by
            rw [hkept'.tallies, hw₃, Store.get?_add, if_pos ht]
          refs := fun m hm => (hkept'.refs m (by rw [hw₃, hbefore.refs m hm]; exact hm)).trans
            (hbefore.refs m hm) }

/-! ## Contests that can be set up -/

namespace World

/-- A child can be started if no function of a reference panics. -/
theorem forkChild_of_total {w : World σ} {f : Key .fiber} {x : Fiber σ} (hw : w.RefsTotal)
    (hf : w.fibers.get? f = some x) (p : Program σ) (s : Option (Key .scope)) :
    ∃ w' child, w.forkChild f p { scope := s } = (w', .ok child) ∧ w'.RefsTotal := by
  have hscope : (w.nextId.1.forkScope (s.getD x.scope) w.nextId.2).1.RefsTotal :=
    hw.of_refs (refs_forkScope _ _ _)
  obtain ⟨w₁, copy, hfork, htotal⟩ := forkRefs_of_total hscope x.context.refs
  simp only [forkChild, hf, childRefs, hfork]
  refine ⟨_, _, rfl, htotal.of_refs ?_⟩
  have hnew : ∀ (c : Context) (t : Key .scope) (q : Program σ) (services : Services)
      (inherited : List Frame), (w₁.newFiber c t q services inherited).1.refs = w₁.refs := by
    intro c t q services inherited
    simp only [newFiber, hook]
    split
    · rfl
    · exact refs_scopeClosing _ _
  have hstart : ∀ (w : World σ) (g : Key .fiber), (w.startFiber g).refs = w.refs := by
    intro w g
    unfold startFiber
    split
    · rfl
    · split <;> rfl
  rw [hstart, hnew]

theorem forkAll_of_total {w : World σ} {f : Key .fiber} {x : Fiber σ} (hw : w.RefsTotal)
    (hf : w.fibers.get? f = some x) (arena : Key .scope) (ps : List (Program σ))
    (children : List (Key .fiber)) : ∃ w' all, w.forkAll f arena ps children = (w', .ok all) := by
  induction ps generalizing w children with
  | nil => exact ⟨w, children.reverse, rfl⟩
  | cons p rest ih =>
      obtain ⟨w₁, child, hchild, htotal⟩ := forkChild_of_total hw hf p (some arena)
      obtain ⟨hnew, -, hkept⟩ := forkChild_spec hchild
      have hne : f ∉ [child] := fun hmem => by
        rw [← List.mem_singleton.mp hmem, hf] at hnew
        cases hnew
      simp only [forkAll, hchild]
      exact ih htotal ((hkept.fibers f hne).trans hf) _

/-- A contest can be set up if no function of a reference panics. -/
theorem contest_of_total {w : World σ} {f : Key .fiber} {x : Fiber σ} (hw : w.RefsTotal)
    (hf : w.fibers.get? f = some x) (ps : List (Program σ))
    (watcher : Key .tally → Nat → DoneWatcher σ) (decided : Contest → Sequel σ) :
    ∃ w' p, w.contest f ps watcher decided = (w', .ok p) := by
  have hscope := preserves_forkScope w x.scope x.context.id
  obtain ⟨w₁, members, hall⟩ := forkAll_of_total (hw.of_refs (refs_forkScope w x.scope x.context.id))
    ((hscope.fibers f List.not_mem_nil).trans hf) (w.forkScope x.scope x.context.id).2 ps []
  simp only [contest, hf, hall]
  exact ⟨_, _, rfl⟩

end World

end Fibers
