import Fibers.Proofs.Run.Law

set_option autoImplicit false

/-! # What one step amounts to

An instruction comes down to elementary changes and pushes at most one frame on the stack; it never
looks at the frames below. A value or a failure goes down the stack (`descend`), past frames that
have nothing to do with it, to the first that has; what happens there is again an instruction's
worth of changes. So a step either stays above a given frame of the stack, or it reaches it, and
then it is the step that the frame and what is below would take by themselves.
-/

namespace Fibers

/-- Whether an instruction pushes one of the stacks of its fiber. -/
def Program.isRegion {σ : Type} : Program σ → Bool
  | .provide _ _ => true
  | .mask _ _ => true
  | .withConcurrency _ _ => true
  | .addFrame _ _ => true
  | _ => false

end Fibers

namespace Fibers.World

variable {σ : Type} {L : Licence} {actor : Option (Key .fiber)}

/-! ## Starting fibers -/

theorem sound_childRefs (w : World σ) (parent : Key .refs) (given : Option (Key .refs)) :
    Sound L actor (fun _ => True) w (w.childRefs parent given) := by
  unfold childRefs
  split
  · exact sound_ok (.refl w) trivial
  · exact ⟨(elsewhere_forkRefs w parent).changes (tallies_forkRefs w parent), fun _ _ => trivial⟩

/-- A scope within a scope is there once it is made. -/
theorem isSome_forkScope (w : World σ) (s : Key .scope) (owner : FiberId) :
    ((w.forkScope s owner).1.scopes.get? (w.forkScope s owner).2).isSome = true := by
  have hnew : (w.newScope owner (w.scope s).strategy).1.scopes.get?
      (w.newScope owner (w.scope s).strategy).2 = some (.new owner (w.scope s).strategy) := by
    rw [newScope, Store.get?_add, if_pos rfl]
  have hgrows : Grows none (w.newScope owner (w.scope s).strategy).1
      ((w.newScope owner (w.scope s).strategy).1.register s (.closeChild
        (w.newScope owner (w.scope s).strategy).2 (w.scope s).owner)).1 := grows_register _ _ _
  obtain ⟨sc, hsc, -⟩ := hgrows.scopes _ _ hnew
  simp only [forkScope, Store.get?_modify, if_pos, hsc, Option.map_some, Option.isSome_some]

/-- A child that is not exempt has to keep to the licence. -/
theorem sound_forkChild (w : World σ) (f : Key .fiber) {p : Program σ} (params : ForkParams)
    (hp : ∀ child, (w.forkChild f p params).2 = .ok child → ¬ L.exempt child → p.Licensed L) :
    Sound L actor (fun _ => True) w (w.forkChild f p params) := by
  cases hparent : w.fibers.get? f with
  | none =>
      simp only [forkChild, hparent]
      exact sound_error (.refl w)
  | some parent =>
      have hid : Changes L actor w w.nextId.1 := changes_of_eq rfl rfl rfl rfl rfl rfl (.of_eq rfl)
      set inner := w.nextId.1.forkScope (params.scope.getD parent.scope) w.nextId.2 with hinner
      have hscope : Changes L actor w inner.1 := hid.trans Change.forkScope.changes
      have hrefs : Sound L actor (fun _ => True) inner.1
          (inner.1.childRefs parent.context.refs params.refs) := sound_childRefs _ _ _
      simp only [forkChild, hparent, ← hinner] at hp ⊢
      rcases heq : inner.1.childRefs parent.context.refs params.refs with ⟨w', d | refs⟩
      · rw [heq] at hrefs
        exact sound_error (hscope.trans hrefs.changes)
      · rw [heq] at hrefs hp
        obtain ⟨sc, hsc⟩ := Option.isSome_iff_exists.mp
          (isSome_forkScope w.nextId.1 (params.scope.getD parent.scope) w.nextId.2)
        obtain ⟨sc', hsc', -⟩ := hrefs.changes.grows.scopes _ sc hsc
        obtain ⟨parent', hparent', hlater, -⟩ :=
          (hscope.trans hrefs.changes).grows.fibers f parent hparent
        refine sound_ok ((hscope.trans hrefs.changes).trans ?_) trivial
        refine (Change.enlist (Option.isSome_of_eq_some hsc') (fun h => ?_) fun hchild =>
          .duty (.guarded (hp _ rfl hchild))).changes.trans Change.launch.changes
        exact (congrArg Context.interruptible hlater.context).symm.trans (h f parent' hparent')

theorem sound_forkAll (f : Key .fiber) (arena : Key .scope) (ps : List (Program σ))
    (children : List (Key .fiber)) (w : World σ) (hps : ∀ p ∈ ps, p.Licensed L) :
    Sound L actor (fun _ => True) w (w.forkAll f arena ps children) := by
  induction ps generalizing w children with
  | nil => exact sound_ok (.refl w) trivial
  | cons p rest ih =>
      have hchild : Sound L actor (fun _ => True) w
          (w.forkChild f p { scope := some arena }) :=
        sound_forkChild w f _ fun _ _ _ => hps p List.mem_cons_self
      simp only [forkAll]
      split
      · rename_i w' child heq
        rw [heq] at hchild
        exact (ih _ w' fun q hq => hps q (List.mem_cons_of_mem _ hq)).after hchild.changes
      · rename_i w' d heq
        rw [heq] at hchild
        exact sound_error hchild.changes

/-- Watching the members of a contest concerns no other contest. -/
theorem opens_watchAll (w : World σ) {t : Key .tally} {watcher : Nat → DoneWatcher σ}
    (members : List (Key .fiber)) (hwatcher : ∀ n k, watcher n ≠ .wake k)
    (hreports : ∀ n u, u ≠ t → (watcher n).reportsTo u = false) :
    Relation.ReflTransGen (Opens L t) w (w.watchAll watcher members) := by
  unfold watchAll
  induction members.zipIdx generalizing w with
  | nil => exact .refl
  | cons m rest ih => exact (opens_watchFiber w m.1 (hwatcher _) (hreports _)).trans (ih _)

theorem isSome_watchAll (w : World σ) (watcher : Nat → DoneWatcher σ) (members : List (Key .fiber))
    (u : Key .tally) :
    ((w.watchAll watcher members).tallies.get? u).isSome = (w.tallies.get? u).isSome := by
  unfold watchAll
  induction members.zipIdx generalizing w with
  | nil => rfl
  | cons m rest ih => exact (ih _).trans (isSome_watchFiber w m.1 _ u)

/-- The members of a contest are watched for a new tally. -/
theorem changes_watchAll (w : World σ) {watcher : Key .tally → Nat → DoneWatcher σ}
    (members : List (Key .fiber)) (hwatcher : ∀ t n k, watcher t n ≠ .wake k)
    (hreports : ∀ t n u, u ≠ t → (watcher t n).reportsTo u = false) :
    Changes L actor w (watchAll { w with
      tallies := (w.tallies.add { remaining := members.length }).1 }
        (watcher (w.tallies.add { remaining := members.length }).2) members) := by
  set t := (w.tallies.add { remaining := members.length }).2 with ht
  have htally : Opens L t w { w with
      tallies := (w.tallies.add { remaining := members.length }).1 } :=
    .elsewhere (elsewhere_addTally w members.length) fun u hu => .of_get (by
      rw [Store.get?_add, if_neg hu])
  have hadded : ({ w with tallies := (w.tallies.add { remaining := members.length }).1 } :
      World σ).tallies.get? t = some { remaining := members.length } := by
    rw [Store.get?_add, if_pos rfl]
  refine (Change.contest (Store.get?_next w.tallies _) ?_ (.head htally
    (opens_watchAll _ members (hwatcher t) (hreports t)))).changes
  rw [isSome_watchAll]
  exact Option.isSome_of_eq_some hadded

theorem sound_contest (w : World σ) (f : Key .fiber) {ps : List (Program σ)}
    {watcher : Key .tally → Nat → DoneWatcher σ} {decided : Contest → Sequel σ}
    (hps : ∀ p ∈ ps, p.Licensed L) (hwatcher : ∀ t n k, watcher t n ≠ .wake k)
    (hreports : ∀ t n u, u ≠ t → (watcher t n).reportsTo u = false)
    (hdecided : ∀ c, (decided c).Licensed L) :
    Sound L actor (Program.Licensed L) w (w.contest f ps watcher decided) := by
  unfold contest
  split
  · exact sound_error (.refl w)
  · rename_i fiber _
    set arena := w.forkScope fiber.scope fiber.context.id with harena
    have hscope : Changes L actor w arena.1 := Change.forkScope.changes
    have hall : Sound L actor (fun _ => True) arena.1 (arena.1.forkAll f arena.2 ps []) :=
      sound_forkAll f _ ps [] _ hps
    dsimp only
    split
    · rename_i w' d heq
      rw [heq] at hall
      exact sound_error (hscope.trans hall.changes)
    · rename_i w' members heq
      rw [heq] at hall
      exact sound_ok ((hscope.trans hall.changes).trans
        (changes_watchAll w' members hwatcher hreports)) (.flatMap .wait (.sequel (hdecided _)))

/-! ## Interruptions that were put off -/

theorem changes_applyDeferred (w : World σ) (f : Key .fiber) :
    Changes L (some f) w (w.applyDeferred f) := by
  unfold applyDeferred
  split
  · exact .refl w
  · split
    · split
      · exact .refl w
      · have hown : Changes L (some f) w
            (w.modifyFiber f fun fiber => { fiber with deferred := [] }) := changes_own rfl fun x => rfl
        exact hown.trans Change.close.changes
    · exact .refl w

theorem changes_restore (w : World σ) (f : Key .fiber) (r : Restore) :
    Changes L (some f) w (w.restore f r).1 := by
  have hown : Changes L (some f) w (w.modifyFiber f (·.restore r)) :=
    changes_own rfl fun x => by cases r <;> rfl
  unfold restore
  dsimp only
  split
  · exact hown.trans (changes_applyDeferred _ f)
  · exact hown

/-! ## Instructions -/

/-- A step that comes down to elementary changes and leaves a machine that keeps to the licence,
as far as it is above `base`. -/
structure StepSound (L : Licence) (actor : Option (Key .fiber))
    (w : World σ) (exiting : Bool) (base : List (Waiting σ)) (stepped : World σ × Stepped σ) :
    Prop where
  changes : Changes L actor w stepped.1
  control : stepped.2.machine.control.Licensed L
  stack : ∃ pushed, stepped.2.machine.stack = pushed ++ base ∧ ∀ x ∈ pushed, x.Licensed L
  exiting : stepped.2.machine.exiting = exiting
  leaving : ∀ e, stepped.2.machine.control = .leave e → stepped.2.machine.stack = []
  release : ∀ a h, stepped.2.decision = .await a (some h) →
    L.hold h ∧ ∀ e, stepped.2.machine.control ≠ .leave e
  done : ∀ e, stepped.2.decision = .done e →
    stepped.2.machine.stack = [] ∧ stepped.2.machine.exiting = true

theorem StepSound.after {w w' : World σ} {exiting : Bool} {base : List (Waiting σ)}
    {stepped : World σ × Stepped σ} (h : Changes L actor w w')
    (hs : StepSound L actor w' exiting base stepped) :
    StepSound L actor w exiting base stepped :=
  ⟨h.trans hs.changes, hs.control, hs.stack, hs.exiting, hs.leaving, hs.release, hs.done⟩

/-- Going on with what a call gave back. -/
theorem stepSound_enter {w : World σ} {f : Key .fiber} {m : Machine σ}
    {called : World σ × Except Defect (Program σ)}
    (h : Sound L actor (Program.Licensed L) w called) :
    StepSound L actor w m.exiting m.stack (enter f m called) := by
  obtain ⟨w', result⟩ := called
  cases result with
  | ok p =>
      exact ⟨h.changes, h.result p rfl, ⟨[], rfl, fun x hx => by cases hx⟩, rfl,
        nofun, (fun a h' ha => by cases ha), nofun⟩
  | error d =>
      exact ⟨h.changes, trivial, ⟨[], rfl, fun x hx => by cases hx⟩, rfl,
        nofun, (fun a h' ha => by cases ha), nofun⟩

/-- Going on without a call. -/
theorem stepSound_go {w w' : World σ} {m : Machine σ} {c : Control σ}
    (h : Changes L actor w w') (hc : c.Licensed L) (hstay : ∀ e, c ≠ .leave e) :
    StepSound L actor w m.exiting m.stack
      (w', { machine := { m with control := c } }) :=
  ⟨h, hc, ⟨[], rfl, fun x hx => by cases hx⟩, rfl, fun e he => absurd he (hstay e),
    (fun a h' ha => by cases ha), nofun⟩

/-- Going on inside, with a frame that waits. -/
theorem stepSound_push {w w' : World σ} {m : Machine σ} {p : Program σ} {x : Waiting σ}
    (h : Changes L actor w w') (hp : p.Licensed L) (hx : x.Licensed L) :
    StepSound L actor w m.exiting m.stack
      (w', { machine := { m with control := .instruct p, stack := x :: m.stack } }) :=
  ⟨h, hp, ⟨[x], rfl, fun y hy => by rw [List.mem_singleton.mp hy]; exact hx⟩, rfl,
    nofun, (fun a h' ha => by cases ha), nofun⟩

theorem licensed_control_ofExit (e : AnyExit) : (Control.ofExit e : Control σ).Licensed L := by
  cases e with
  | success v => trivial
  | failure c => trivial

theorem ofExit_ne_leave (e : AnyExit) (x : Option AnyExit) :
    (Control.ofExit e : Control σ) ≠ .leave x := by
  cases e with
  | success v => exact nofun
  | failure c => exact nofun

/-- An instruction keeps to a licence that covers the handles it gives out. One that is no region
does nothing to its fiber that anybody else could not do. -/
theorem stepSound_instruct {w : World σ} {f : Key .fiber} {fiber : Fiber σ} {m : Machine σ}
    {p : Program σ} (hactor : p.isRegion = true → actor = some f) (hp : p.Licensed L)
    (hcontrol : m.control.Licensed L) (hstay : ∀ e, m.control ≠ .leave e)
    (hfins : ∀ s sc, w.scopes.get? s = some sc → sc.state.Licensed L)
    (hclaims : ∀ s, p = .duty (.finish s) → ClaimLicensed L w s)
    (hnew : ∀ h, ¬ Issued w h → Issued (w.instruct f fiber m p).1 h → L.hold h) :
    StepSound L actor w m.exiting m.stack (w.instruct f fiber m p) := by
  -- one case for each instruction: it goes on, pushes a frame, or enters what a call gave back
  cases hp with
  | succeed => exact stepSound_go (.refl w) trivial nofun
  | failCause => exact stepSound_go (.refl w) trivial nofun
  | @lazy thunk ht =>
      simp only [instruct]
      have hrun : Sound L actor (ResultLicensed L .exit) w (w.run thunk) := sound_run ht w
      split
      · rename_i w' e heq
        rw [heq] at hrun
        exact stepSound_go hrun.changes (licensed_control_ofExit e) (ofExit_ne_leave e)
      · rename_i w' d heq
        rw [heq] at hrun
        exact stepSound_enter (sound_error hrun.changes)
  | defer hm => exact stepSound_enter (sound_run hm w)
  | flatMap hp hk => exact stepSound_push (.refl w) hp hk
  | fold hp hh hk => exact stepSound_push (.refl w) hp ⟨hh, hk⟩
  | access hg => exact stepSound_enter (sound_run (hg _) w)
  | provide hp => exact stepSound_push (changes_own (hactor rfl) fun x => rfl) hp trivial
  | @async register hr =>
      have hcallback : Changes L actor w w.newFuture.1 := (elsewhere_newFuture w).changes rfl
      have hrun : Sound L actor (ResultLicensed L .registration) w.newFuture.1
          (w.newFuture.1.run (register w.newFuture.2)) := sound_run (hr _) _
      simp only [instruct] at hnew ⊢
      split
      · rename_i w' p heq
        rw [heq] at hrun
        exact stepSound_go (hcallback.trans hrun.changes) (hrun.result _ rfl) nofun
      · rename_i w' heq
        rw [heq] at hrun
        exact ⟨hcallback.trans hrun.changes, hcontrol, ⟨[], rfl, fun x hx => by cases hx⟩, rfl,
          fun e he => absurd he (hstay e), (fun a h' ha => by cases ha), nofun⟩
      · rename_i w' canceler heq
        rw [heq] at hrun hnew
        have hcanceler : canceler.Licensed L := hrun.result _ rfl canceler rfl
        have hbefore : Changes L actor w w' := hcallback.trans hrun.changes
        refine ⟨hbefore.trans (Change.register (.canceler hcanceler)).changes, hcontrol,
          ⟨[], rfl, fun x hx => by cases hx⟩, rfl, fun e he => absurd he (hstay e),
          fun a h' ha => ?_, nofun⟩
        injection ha with _ hrelease
        -- the handle of the canceler is a new one, so the licence lets the frame hold it
        obtain ⟨-, hissued, hfresh⟩ := issued_register hrelease
        exact ⟨hnew h' (fun hold => hfresh (hold.mono hbefore.grows.scopes)) hissued, hstay⟩
      · rename_i w' d heq
        rw [heq] at hrun
        exact stepSound_enter (sound_error (hcallback.trans hrun.changes))
  | @ensuring p fin hp hfin hlent =>
      refine stepSound_push (Change.register hfin).changes hp ⟨fun h hh => ?_, hfin⟩
      obtain ⟨-, hissued, hfresh⟩ := issued_register hh
      exact hnew h hfresh hissued
  | @fork p params hp =>
      simp only [instruct]
      have hchild : Sound L actor (fun _ => True) w (w.forkChild f p params) :=
        sound_forkChild w f params fun _ _ _ => hp
      split
      · rename_i w' child heq
        rw [heq] at hchild
        exact stepSound_go hchild.changes trivial nofun
      · rename_i w' d heq
        rw [heq] at hchild
        exact stepSound_enter (sound_error hchild.changes)
  | fiberContext => exact stepSound_go (.refl w) trivial nofun
  | fiberScope => exact stepSound_go (.refl w) trivial nofun
  | fiberTrace => exact stepSound_go (.refl w) trivial nofun
  | join => exact stepSound_go (.refl w) (.flatMap .wait (.sequel .joined)) nofun
  | @raceAll ps hps =>
      cases ps with
      | nil => exact stepSound_go (.refl w) .failCause nofun
      | cons p rest =>
          exact stepSound_enter (sound_contest w f hps (fun t n k => by simp)
            (fun t n u hu => decide_eq_false hu.symm) fun c => .raceDecided)
  | @zipAll ps hps =>
      cases ps with
      | nil => exact stepSound_go (.refl w) .succeed nofun
      | cons p rest =>
          exact stepSound_enter (sound_contest w f hps (fun t n k => by simp)
            (fun t n u hu => decide_eq_false hu.symm) fun c => .zipDecided)
  | @mask p interruptible hp =>
      simp only [instruct]
      have hown : Changes L actor w (w.modifyFiber f fun fiber =>
          { fiber with masks := fiber.masks.push interruptible }) :=
        changes_own (hactor rfl) fun x => rfl
      refine stepSound_push ?_ hp trivial
      split
      · rw [hactor rfl] at hown ⊢
        exact hown.trans (changes_applyDeferred _ f)
      · exact hown
  | @withConcurrency p level hp =>
      have hsem : Changes L actor w (w.newSemaphore level).1 :=
        changes_of_eq rfl rfl rfl rfl rfl rfl (permits_newSemaphore w level)
      exact stepSound_push (hsem.trans (changes_own (hactor rfl) fun x => rfl)) hp trivial
  | addFrame hp => exact stepSound_push (changes_own (hactor rfl) fun x => rfl) hp trivial
  | wait =>
      exact ⟨.refl w, hcontrol, ⟨[], rfl, fun x hx => by cases hx⟩, rfl,
        fun e he => absurd he (hstay e), (fun a h' ha => by cases ha), nofun⟩
  | yieldNow =>
      exact ⟨.refl w, trivial, ⟨[], rfl, fun x hx => by cases hx⟩, rfl,
        nofun, (fun a h' ha => by cases ha), nofun⟩
  | duty hd => exact stepSound_enter (sound_attend hd hfins fun s hs => hclaims s (by rw [hs]))

end Fibers.World
