import Fibers.Proofs.Finalizers.Once
import Fibers.Proofs.Interruption.Wearing

set_option autoImplicit false

/-! # When a canceler is run

A fiber that waits for a callback may give a program that cancels the wait. It is registered with the scope of
the fiber, and its handle lies on the stack of the fiber until the program that the callback gives has come to
its end. So it stands as long as the fiber is inside, and from the moment at which the fiber leaves its program
nobody can take it out any more: whoever closes the scope runs it. But so it is when the scope is closed while
the fiber is inside and does not have to leave, because it is masked. And a scope that has left its open state
refuses the canceler, which is then lost.
-/

namespace Fibers

variable {σ : Type} {r : Run σ} {h : Handle} {i j k : Nat}

/-- What stands under a handle when the finalizers of its scope are claimed is run, if the scope closes in
sequence, before it is closed. -/
theorem Run.runs_of_closed {fin : Finalizer σ} {sc : Scope (Finalizer σ)} {e : AnyExit}
    (hsc : (r.moment k).world.scopes.get? h.scope = some sc) (hclosed : sc.state = .closed e)
    (hseq : sc.strategy = .sequential)
    (hstands : ∀ i g, i < k → (r.moment i).Claims h.scope g → (r.moment i).world.Stands h fin) :
    ∃ j, j < k ∧ r.Runs h j := by
  obtain ⟨g, e', i, a, b, x, -, -, hbk, T, -, ⟨y, m, hworks, hcontrol, -⟩, hkeeps, -⟩ :=
    Run.performed_of_closed hsc hclosed hseq hstands
  exact ⟨a, Nat.lt_trans hkeeps.1 hbk, g, y, m, fin, e', hworks, hcontrol⟩

/-- On the way of an exit down to some frames no scope is closed. -/
theorem Run.sameOpen_descend {f : Key .fiber} {y : Fiber σ} {m : Machine σ} {pre T : List (Waiting σ)}
    (hworks : (r.moment k).Works f y m) (hstack : m.stack = pre ++ T) (failed : Bool) :
    World.SameOpen (r.moment k).world (World.descend f failed pre ((r.moment k).world.count f)).1 := by
  have hcount : World.Changes (r.moment k).world.law (some f) (r.moment k).world
      ((r.moment k).world.count f) := World.changes_own rfl fun x => rfl
  have hhooked : ((r.moment k).world.count f).Hooked := hcount.hooked (fun _ h => h) (r.lawful k).hooked
  have hfits : ({ y with ops := y.ops + 1 } : Fiber σ).Fits
      (masksOf pre + (masksOf T + if m.exiting then 1 else 0)) := by
    rw [← Nat.add_assoc, masksOf, masksOf, ← List.countP_append, ← hstack]
    exact ((r.fitting k).fits f y m hworks.fiber (Moment.machine?_of_active hworks.turn)).1.of_eq rfl rfl
  exact (World.descends f failed pre hhooked (World.get?_count hworks.fiber) hfits).opened

/-- An execution of an instruction that waits for a callback, with a program that cancels the wait. -/
structure Callback (r : Run σ) where
  start : Nat
  fiber : Key .fiber
  state : Fiber σ
  machine : Machine σ
  register : Key .future → Act σ .registration
  canceler : Program σ
  works : (r.moment start).Works fiber state machine
  instruction : machine.control = .instruct (.async register)
  pending : (((r.moment start).world.count fiber).newFuture.1.run
    (register ((r.moment start).world.count fiber).newFuture.2)).2 = .ok (.pending (some canceler))

namespace Callback

variable (p : Callback r)

/-- The future that the fiber waits for. -/
def future : Key .future := ((r.moment p.start).world.count p.fiber).newFuture.2

/-- The world in which the callback has been asked for. -/
def asked : World σ :=
  (((r.moment p.start).world.count p.fiber).newFuture.1.run (p.register p.future)).1

/-- The finalizer that cancels the wait. -/
def finalizer : Finalizer σ := .canceler p.canceler

/-- The handle under which it is registered, if the scope took it. -/
def handle : Option Handle := (p.asked.register p.state.scope p.finalizer).2

/-- The world in which it is registered. -/
def registered : World σ := (p.asked.register p.state.scope p.finalizer).1

/-- The stack of the fiber while it waits. -/
def frames : List (Waiting σ) := (p.machine.holding p.handle).stack

/-- The fiber is inside: it waits, or runs the program that the callback gave. So far no exit has come down to
what was on its stack, and it has not left its program. -/
def Inside (k : Nat) : Prop :=
  p.start < k ∧ ∀ l, p.start < l → l < k →
    (∀ m x, ¬ (r.moment l).Lands p.fiber p.frames m x) ∧ ∀ y m, ¬ (r.moment l).Leaves p.fiber y m

/-- The program that the callback gave comes to its end. -/
def Ends (j : Nat) : Prop := p.Inside j ∧ ∃ m x, (r.moment j).Lands p.fiber p.frames m x

/-- The fiber leaves its program from inside. -/
def Abandons (j : Nat) : Prop := p.Inside j ∧ ∃ y m, (r.moment j).Leaves p.fiber y m

/-- The canceler is run. -/
def Canceled (j : Nat) : Prop := ∃ h, p.handle = some h ∧ r.Runs h j

/-- The fiber does not have to leave its program though its scope is closing. -/
def Shielded (j : Nat) : Prop :=
  ∃ y m, (r.moment j).world.fibers.get? p.fiber = some y ∧ (r.moment j).machine? p.fiber = some m ∧
    (m.exiting = true ∨ y.interruptible = false)

/-! ## The start -/

/-- The canceler is registered, and the fiber waits. -/
theorem next : r.moment (p.start + 1) =
    World.conclude p.fiber (p.registered, ⟨p.machine, .await (.future p.future) p.handle⟩) := by
  have hrun : ((r.moment p.start).world.count p.fiber).newFuture.1.run (p.register p.future) =
      (p.asked, .ok (.pending (some p.canceler))) := Prod.ext rfl p.pending
  rw [Run.advance_of_turn p.works.turn, World.advance_instruct p.works.here p.instruction]
  simp only [World.instruct]
  rw [show ((r.moment p.start).world.count p.fiber).newFuture =
    (((r.moment p.start).world.count p.fiber).newFuture.1, p.future) from rfl]
  dsimp only
  rw [hrun]
  rfl

/-- What the fiber does when it asks for the callback keeps to a licence that it has, and so does the canceler. -/
theorem licensed_asked {L : Licence} (hlicensed : (r.moment p.start).Licensed L) (hexempt : ¬ L.exempt p.fiber) :
    World.Changes L (some p.fiber) (r.moment p.start).world p.asked ∧ p.canceler.Licensed L := by
  have hcontrol := (hlicensed.active p.fiber p.machine p.works.turn hexempt).control
  rw [p.instruction] at hcontrol
  cases hcontrol with
  | async hr =>
      have hcount : World.Changes L (some p.fiber) (r.moment p.start).world
          ((r.moment p.start).world.count p.fiber) := World.changes_own rfl fun x => rfl
      have hfuture : World.Changes L (some p.fiber) ((r.moment p.start).world.count p.fiber)
          ((r.moment p.start).world.count p.fiber).newFuture.1 := (World.elsewhere_newFuture _).changes rfl
      have hrun : World.Sound L (some p.fiber) (World.ResultLicensed L .registration) _
          (((r.moment p.start).world.count p.fiber).newFuture.1.run (p.register p.future)) :=
        World.sound_run (hr _) _
      exact ⟨(hcount.trans hfuture).trans hrun.changes, hrun.result _ p.pending _ rfl⟩

theorem exists_registered : ∃ y, p.registered.fibers.get? p.fiber = some y := by
  obtain ⟨y, hy, -⟩ := (p.licensed_asked (r.licensed_all p.start) id).1.grows.fibers p.fiber p.state p.works.fiber
  have hfibers : p.registered.fibers = p.asked.fibers := (World.parts_register _ _ _).2.2
  exact ⟨y, hfibers ▸ hy⟩

/-- The canceler is registered with a scope that was open when the fiber began. -/
theorem open_of_handle (hh : p.handle = some h) :
    h.scope = p.state.scope ∧ ¬ (r.moment p.start).world.Sealed p.state.scope := by
  refine ⟨(World.issued_register hh).1, fun hsealed => World.not_sealed_of_register hh ?_⟩
  exact hsealed.mono (p.licensed_asked (r.licensed_all p.start) id).1.grows.scopes

/-- From then on the handle is an old one. -/
theorem issued_after (hh : p.handle = some h) (hk : p.start < k) : (r.moment k).world.Issued h := by
  obtain ⟨-, hissued, -⟩ := World.issued_register hh
  have hnext : (r.moment (p.start + 1)).world.Issued h := by
    rw [p.next]
    exact hissued.mono (World.onward_conclude _ _).scopes
  exact hnext.mono (r.scopesLater hk)

/-- What was registered stands. -/
theorem stands_start (hh : p.handle = some h) : (r.moment (p.start + 1)).world.Stands h p.finalizer := by
  obtain ⟨-, hopen⟩ := p.open_of_handle hh
  have hapart : (r.moment p.start).Licensed (.apart p.state.scope) := Run.apart_of_unclaimed fun l hl g hg =>
    hopen (hg.sealed.mono (r.scopesLater (Nat.le_of_lt hl)))
  obtain ⟨events, hpasses, -⟩ :=
    (p.licensed_asked hapart id).1.plainly (Licence.not_publish_apart p.state.scope)
  obtain ⟨log, hlog⟩ := r.exists_records p.state.scope
  have hstands : p.registered.Stands h p.finalizer := (hpasses.lives (hlog.lives p.start)).stands_registered hh
  rw [p.next]
  exact hstands.of_status (World.status_conclude _ _)

/-- Nobody else has the handle. -/
theorem above_start (hh : p.handle = some h) :
    (r.moment (p.start + 1)).Above (.without h) p.fiber p.frames := by
  obtain ⟨-, -, hfresh⟩ := World.issued_register hh
  have hchanges := (p.licensed_asked (r.licensed_all p.start) id).1
  have hle : (r.moment p.start).world.law ≤ .without h :=
    World.law_le_without fun hissued => hfresh (hissued.mono hchanges.grows.scopes)
  have hlicensed : (r.moment p.start).Licensed (.without h) := by
    have hlawful := (r.lawful p.start).licensed
    exact ⟨hlawful.world.mono hle fun _ => id, fun f m hf _ => (hlawful.active f m hf id).mono hle⟩
  obtain ⟨hasked, hcanceler⟩ := p.licensed_asked hlicensed id
  have hworld : p.registered.Licensed (.without h) := by
    refine World.licensed_register (hasked.licensed (fun h' _ hissued => ?_) hlicensed.world) (.canceler hcanceler)
    rintro rfl
    exact hfresh hissued
  obtain ⟨y, hy⟩ := p.exists_registered
  rw [p.next]
  exact World.above_await (hworld.sparing (fun _ => id) p.fiber) hy
    (hlicensed.active p.fiber p.machine p.works.turn id).control _ _

/-! ## Inside -/

section

variable {p : Callback r}

theorem frames_of_handle (hh : p.handle = some h) : p.frames = .release h :: p.machine.stack := by
  rw [frames, hh]
  rfl

theorem frames_ne_nil (hh : p.handle = some h) : p.frames ≠ [] := by
  rw [frames_of_handle hh]
  exact List.cons_ne_nil _ _

theorem inside_start : p.Inside (p.start + 1) :=
  ⟨Nat.lt_succ_self _, fun _ hl hlk => absurd hl (Nat.not_lt_of_le (Nat.le_of_lt_succ hlk))⟩

theorem Inside.before (hk : p.Inside k) (hj : p.start < j) (hjk : j ≤ k) : p.Inside j :=
  ⟨hj, fun l hl hlj => hk.2 l hl (Nat.lt_of_lt_of_le hlj hjk)⟩

/-- The fiber is inside until it ends or abandons what it does there. -/
theorem inside_or_over (hk : p.start < k) : p.Inside k ∨ ∃ j, j < k ∧ (p.Ends j ∨ p.Abandons j) := by
  induction hk with
  | refl => exact Or.inl inside_start
  | @step k hk ih =>
      rcases ih with hinside | ⟨j, hjk, hj⟩
      · by_cases hends : p.Ends k
        · exact Or.inr ⟨k, Nat.lt_succ_self k, Or.inl hends⟩
        by_cases habandons : p.Abandons k
        · exact Or.inr ⟨k, Nat.lt_succ_self k, Or.inr habandons⟩
        refine Or.inl ⟨Nat.lt_succ_of_lt hk, fun l hl hlk => ?_⟩
        rcases Nat.lt_succ_iff_lt_or_eq.mp hlk with hlk | rfl
        · exact hinside.2 l hl hlk
        · exact ⟨fun m x hlands => hends ⟨hinside, m, x, hlands⟩,
            fun y m hleaves => habandons ⟨hinside, y, m, hleaves⟩⟩
      · exact Or.inr ⟨j, Nat.lt_succ_of_lt hjk, hj⟩

/-- The program of the callback does not end if the fiber leaves it. -/
theorem Ends.not_abandons (hi : p.Ends i) : ¬ p.Abandons j := by
  obtain ⟨hinside, m, x, hlands⟩ := hi
  rintro ⟨hinside', y, m', hleaves⟩
  rcases Nat.lt_trichotomy i j with hlt | rfl | hlt
  · exact (hinside'.2 i hinside.1 hlt).1 m x hlands
  · obtain ⟨y', hworks⟩ := hlands.works
    exact hworks.not_leaves hleaves
  · exact (hinside.2 j hinside'.1 hlt).2 y m' hleaves

/-- What was on the stack stays there. -/
theorem Inside.carries (hk : p.Inside k) : ∃ m, (r.moment k).Carries p.fiber p.frames m := by
  obtain ⟨hstart, hk⟩ := hk
  induction hstart with
  | refl =>
      obtain ⟨y, hy⟩ := p.exists_registered
      obtain ⟨c, hm, hc⟩ := World.machine?_await hy p.machine (.future p.future) p.handle
      refine ⟨{ p.machine.holding p.handle with control := c }, p.next ▸ hm, List.suffix_refl _, fun e he => ?_⟩
      rcases hc with rfl | ⟨w, q, -, rfl, -⟩
      · cases he.symm.trans p.instruction
      · cases he
  | @step k hstart ih =>
      obtain ⟨m, hcarries⟩ := ih fun l hl hlk => hk l hl (Nat.lt_succ_of_lt hlk)
      obtain ⟨hlands, hleaves⟩ := hk k hstart (Nat.lt_succ_self k)
      rcases Run.carries_or_lands hcarries with ⟨m', hcarries', -⟩ | ⟨y, hy⟩ | ⟨x, hx⟩
      · exact ⟨m', hcarries'⟩
      · exact absurd hy (hleaves y m)
      · exact absurd hx (hlands m x)

theorem Inside.keeps (hk : p.Inside k) : r.Keeps p.fiber p.start p.frames k :=
  ⟨hk.1, fun _ hl hle => (hk.before hl hle).carries.imp fun _ hm => ⟨hm.machine, hm.stack⟩⟩

/-! ## The canceler -/

/-- While the fiber is inside the canceler stands, and nobody else has its handle. -/
theorem Inside.kept (hh : p.handle = some h) (hk : p.Inside k) :
    (r.moment k).world.Stands h p.finalizer ∧ (r.moment k).Above (.without h) p.fiber p.frames := by
  obtain ⟨hstart, hk⟩ := hk
  induction hstart with
  | refl => exact ⟨p.stands_start hh, p.above_start hh⟩
  | @step k hstart ih =>
      obtain ⟨hstands, habove⟩ := ih fun l hl hlk => hk l hl (Nat.lt_succ_of_lt hlk)
      obtain ⟨hlands, hleaves⟩ := hk k hstart (Nat.lt_succ_self k)
      rcases Run.held_succ (frames_ne_nil hh) rfl (p.issued_after hh hstart) hstands habove with
        ⟨m, pre, e, hmeets⟩ | ⟨hstands', habove' | ⟨-, y, m, hy⟩⟩
      · exact absurd ⟨hmeets.works, hmeets.control, pre, hmeets.stack, hmeets.past⟩ (hlands m e)
      · exact ⟨hstands', habove'⟩
      · exact absurd hy (hleaves y m)

/-- After the fiber has left its program the canceler stands for good, or until it is claimed. -/
theorem Abandons.stands (hh : p.handle = some h) (hj : p.Abandons j) (hjk : j < k) :
    (r.moment k).world.Stands h p.finalizer ∧ (r.moment k).Licensed (.without h) := by
  obtain ⟨hinside, y, m, hleaves⟩ := hj
  induction hjk with
  | refl =>
      obtain ⟨hstands, habove⟩ := hinside.kept hh
      rcases Run.held_succ (frames_ne_nil hh) rfl (p.issued_after hh hinside.1) hstands habove with
        ⟨m', pre, e, hmeets⟩ | ⟨hstands', habove' | ⟨hlicensed, -⟩⟩
      · obtain ⟨y', hworks⟩ := hmeets.works
        exact absurd hleaves hworks.not_leaves
      · -- nothing is left on its stack
        obtain ⟨m', pre, hm', -, hstack, -⟩ := habove'.machine
        obtain rfl := Option.some.inj (hm'.symm.trans (Run.machine_of_leaves hleaves))
        exact absurd (List.append_eq_nil_iff.mp hstack.symm).2 (frames_ne_nil hh)
      · exact ⟨hstands', hlicensed⟩
  | @step k hjk ih =>
      exact Run.kept_succ rfl (p.issued_after hh (Nat.lt_trans hinside.1 hjk)) ih.1 ih.2

/-- If the scope is not open any more when the program of the callback ends, the canceler stands for good. -/
theorem Ends.stands_of_sealed (hh : p.handle = some h) (hj : p.Ends j)
    (hsealed : (r.moment j).world.Sealed p.state.scope) (hjk : j ≤ k) :
    (r.moment k).world.Stands h p.finalizer := by
  rw [← (p.open_of_handle hh).1] at hsealed
  obtain ⟨sc, hsc, hshut⟩ := hsealed
  have hopen : ((r.moment j).world.scope h.scope).isOpen = false := by rw [World.scope_of_get hsc, hshut]
  exact (Protection.stands_of_sealed (hj.1.kept hh).1 hopen (r.scopesLater hjk)).1

/-- If the scope is still open then, the canceler is taken out. -/
theorem Ends.handed (hh : p.handle = some h) (hj : p.Ends j)
    (hopen : ¬ (r.moment j).world.Sealed p.state.scope) :
    ∃ log, World.Lives h.scope log (r.moment (j + 1)).world ∧ h.key ∈ ScopeEvent.handed log := by
  obtain ⟨hinside, m, x, hlands⟩ := hj
  obtain ⟨hstands, habove⟩ := hinside.kept hh
  obtain ⟨y, hworks⟩ := hlands.works
  obtain ⟨w, -, ⟨pre, hstack, hdescend⟩, hnext⟩ := hlands.next
  rw [← (p.open_of_handle hh).1] at hopen
  have hapart : (r.moment j).Licensed (.apart h.scope) := Run.apart_of_unclaimed fun l hl g hg =>
    hopen (hg.sealed.mono (r.scopesLater (Nat.le_of_lt hl)))
  -- down to the frame nothing is done but to take off what lies above it
  have hdown : ∀ L : Licence, (∀ z ∈ pre, z.Licensed L) → World.Changes L (some p.fiber) (r.moment j).world w := by
    intro L hpre
    have hcount : World.Changes L (some p.fiber) (r.moment j).world ((r.moment j).world.count p.fiber) :=
      World.changes_own rfl fun x => rfl
    have hchanges : World.Changes L (some p.fiber) ((r.moment j).world.count p.fiber)
        (World.descend p.fiber x.isFailure pre ((r.moment j).world.count p.fiber)).1 :=
      World.changes_descend hpre _
    rw [hdescend] at hchanges
    exact hcount.trans hchanges
  have hlicensed := (hapart.active p.fiber m hworks.turn id).stack
  rw [hstack] at hlicensed
  have hbefore : World.Plainly h.scope (r.moment j).world w :=
    (hdown _ fun z hz => hlicensed z (List.mem_append_left _ hz)).plainly (Licence.not_publish_apart h.scope)
  have hstill : w.Stands h p.finalizer := by
    obtain ⟨m', pre', hm', -, hstack', hpre'⟩ := habove.machine
    obtain rfl := Option.some.inj (hm'.symm.trans (Moment.machine?_of_active hworks.turn))
    obtain rfl := List.append_cancel_right (hstack.symm.trans hstack')
    exact hstands.fares rfl ((hdown _ hpre').fares (habove.licensed.world.of_sparing (r.turned j _ _ hworks.turn))
      fun h' hfresh _ => (p.issued_after hh hinside.1).holds_new h' hfresh)
  have hopened : (w.scope h.scope).isOpen = true := by
    have hsame := Run.sameOpen_descend hworks hstack x.isFailure h.scope
    rw [hdescend] at hsame
    obtain ⟨sc, hsc, -⟩ := hstands
    rw [hsame, World.scope_of_get hsc]
    by_contra hshut
    exact hopen ⟨sc, hsc, Bool.eq_false_iff.mpr hshut⟩
  have htake : w.takeFinalizer h = ((w.takeFinalizer h).1, some p.finalizer) :=
    Prod.ext rfl (hstill.take hopened)
  have hafter : World.Plainly h.scope (w.takeFinalizer h).1 (r.moment (j + 1)).world := by
    rw [frames_of_handle hh] at hnext hlicensed
    have hrelease : World.unwind p.fiber m.exiting x (.release h :: p.machine.stack) w =
        World.unwind p.fiber m.exiting x p.machine.stack (w.takeFinalizer h).1 := by cases x <;> rfl
    have hsound : World.StepSound (.apart h.scope) (some p.fiber) (w.takeFinalizer h).1 m.exiting []
        (World.unwind p.fiber m.exiting x p.machine.stack (w.takeFinalizer h).1) :=
      World.stepSound_unwind (fun z hz => hlicensed z (by simp [hz])) _
    rw [hnext, hrelease]
    exact (hsound.changes.plainly (Licence.not_publish_apart h.scope)).trans
      (World.plainly_of_status (World.status_conclude _ _))
  obtain ⟨log, hlog⟩ := r.exists_records h.scope
  exact (hlog.lives j).take hbefore htake hafter

/-! ## When it is run -/

/-- The canceler is run after the scope has stopped being open. -/
theorem Canceled.sealed (hi : p.Canceled i) : p.start < i ∧ (r.moment i).world.Sealed p.state.scope := by
  obtain ⟨h, hh, hruns⟩ := hi
  obtain ⟨hscope, hopen⟩ := p.open_of_handle hh
  obtain ⟨l, hli, hgrants⟩ := Run.granted_of_runs hruns
  obtain ⟨g, hg⟩ := hgrants.claims
  rw [← hscope] at hopen ⊢
  exact ⟨Nat.lt_trans (hg.after hopen) hli, hg.sealed.mono (r.scopesLater (Nat.le_of_lt hli))⟩

/-- The canceler is run once at most. -/
theorem Canceled.unique (hi : p.Canceled i) (hj : p.Canceled j) : i = j := by
  obtain ⟨h, hh, hruns⟩ := hi
  obtain ⟨h', hh', hruns'⟩ := hj
  obtain rfl : h = h' := Option.some.inj (hh.symm.trans hh')
  exact Run.runs_once hruns hruns'

/-- It is not run if the program of the callback has ended while the scope was open. -/
theorem Ends.not_canceled (hj : p.Ends j) (hopen : ¬ (r.moment j).world.Sealed p.state.scope) :
    ¬ p.Canceled i := by
  rintro ⟨h, hh, hruns⟩
  obtain ⟨log, hlives, hhanded⟩ := hj.handed hh hopen
  obtain ⟨l, -, hgrants⟩ := Run.granted_of_runs hruns
  obtain ⟨g, hg⟩ := hgrants.claims
  rw [← (p.open_of_handle hh).1] at hopen
  exact Run.not_grants_of_handed hlives hhanded (hg.after hopen) hgrants

/-- A fiber that is inside when its scope is not open any more, and is not shielded, does nothing more inside. -/
theorem Inside.stuck (hh : p.handle = some h) (hi : p.Inside i)
    (hsealed : (r.moment i).world.Sealed p.state.scope) (hbare : ¬ p.Shielded i) (hij : i ≤ j) : ¬ p.Ends j := by
  rintro ⟨hinside, m', x, hlands⟩
  obtain ⟨m, hcarries⟩ := hi.carries
  obtain ⟨y, hy, honward⟩ := r.onward (Nat.le_of_lt hi.1) p.works.fiber
  have hexiting : m.exiting = false := by
    by_contra hexiting
    exact hbare ⟨y, m, hy, hcarries.machine, Or.inl (Bool.not_eq_false _ ▸ hexiting)⟩
  have hleave : y.mustLeave = true := by
    rw [Fiber.mustLeave, Bool.and_eq_true]
    refine ⟨(r.lawful i).hooked.terminating hy (honward.scope ▸ hsealed), ?_⟩
    by_contra hmasked
    exact hbare ⟨y, m, hy, hcarries.machine, Or.inr (Bool.not_eq_true _ ▸ hmasked)⟩
  obtain ⟨y', m'', hstands, hexiting', hleave'⟩ :=
    Run.stands_bound (frames_ne_nil hh) hinside.keeps hi.1 hij hy hcarries.machine ⟨hexiting, hleave⟩
  obtain ⟨y'', hworks⟩ := hlands.works
  obtain rfl := Option.some.inj (hstands.machine'.symm.trans (Moment.machine?_of_active hworks.turn))
  obtain rfl := Option.some.inj (hstands.after.symm.trans hworks.fiber)
  rcases hworks.free with hfree | hfree
  · cases hexiting'.symm.trans hfree
  · cases hleave'.symm.trans hfree

/-- What stands until the scope is closed in sequence is run. -/
theorem canceled_of_closed (hh : p.handle = some h) {sc : Scope (Finalizer σ)} {e : AnyExit}
    (hsc : (r.moment k).world.scopes.get? p.state.scope = some sc) (hclosed : sc.state = .closed e)
    (hseq : sc.strategy = .sequential) (hj : p.Abandons j ∨ p.Ends j ∧ (r.moment j).world.Sealed p.state.scope) :
    ∃ i, i < k ∧ p.Canceled i := by
  obtain ⟨hscope, hopen⟩ := p.open_of_handle hh
  rw [← hscope] at hsc hopen
  have hstood : ∀ i g, i < k → (r.moment i).Claims h.scope g → (r.moment i).world.Stands h p.finalizer := by
    intro i g _ hg
    have hstart : p.start < i := hg.after hopen
    rcases hj with habandons | ⟨hends, hsealed⟩
    · rcases Nat.lt_or_ge j i with hji | hij
      · exact (habandons.stands hh hji).1
      · exact ((habandons.1.before hstart hij).kept hh).1
    · rcases Nat.le_total j i with hji | hij
      · exact hends.stands_of_sealed hh hsealed hji
      · exact ((hends.1.before hstart hij).kept hh).1
  obtain ⟨i, hik, hruns⟩ := Run.runs_of_closed hsc hclosed hseq hstood
  exact ⟨i, hik, h, hh, hruns⟩

end

/-- A canceler is run once at most. For a fiber that is done it has been run if and only if the scope has taken
it, and the fiber has left its program from inside, or was inside until after the scope had left its open state.
If it is run while the fiber is inside and not shielded, then the fiber leaves its program from there. -/
theorem canceled_once {y : Fiber σ} {e : AnyExit} {sc : Scope (Finalizer σ)}
    (hy : (r.moment k).world.fibers.get? p.fiber = some y) (hdone : y.phase = .done e)
    (hsc : (r.moment k).world.scopes.get? y.scope = some sc) (hseq : sc.strategy = .sequential) :
    (∀ i j, p.Canceled i → p.Canceled j → i = j) ∧
      ((∃ i, i < k ∧ p.Canceled i) ↔ p.handle ≠ none ∧
        ∃ j, j < k ∧ (p.Abandons j ∨ p.Ends j ∧ (r.moment j).world.Sealed p.state.scope)) ∧
      ∀ i, p.Canceled i → p.Inside i → ¬ p.Shielded i → ∃ j, i ≤ j ∧ j < k ∧ p.Abandons j := by
  obtain ⟨hstart, hscope⟩ := Run.works_before_done p.works hy hdone
  -- it has come out, one way or the other
  obtain ⟨j, hjk, hj⟩ : ∃ j, j < k ∧ (p.Ends j ∨ p.Abandons j) := by
    rcases inside_or_over hstart with hinside | hover
    · obtain ⟨m, hcarries⟩ := hinside.carries
      cases hcarries.machine.symm.trans (Run.machine?_of_done hy hdone)
    · exact hover
  refine ⟨fun i j hi hj => hi.unique hj, ⟨?_, ?_⟩, fun i hi hinside hbare => ?_⟩
  · rintro ⟨i, -, hi⟩
    obtain ⟨h, hh, -⟩ := id hi
    refine ⟨by rw [hh]; exact Option.some_ne_none h, j, hjk, hj.symm.imp_right fun hends => ⟨hends, ?_⟩⟩
    by_contra hopen
    exact hends.not_canceled hopen hi
  · rintro ⟨hsome, j, -, hj⟩
    obtain ⟨h, hh⟩ := Option.ne_none_iff_exists'.mp hsome
    obtain ⟨sc', hsc', hclosed⟩ := Run.closed_of_done hy hdone hsc hseq (Nat.le_refl k)
    obtain rfl := Option.some.inj (hsc'.symm.trans hsc)
    exact canceled_of_closed hh (hscope ▸ hsc) hclosed hseq hj
  · obtain ⟨h, hh, -⟩ := id hi
    have hij : i ≤ j := by
      by_contra hji
      obtain ⟨hlands, hleaves⟩ := hinside.2 j (hj.elim (·.1.1) (·.1.1)) (Nat.lt_of_not_le hji)
      rcases hj with ⟨-, m, x, hx⟩ | ⟨-, y, m, hy⟩
      · exact hlands m x hx
      · exact hleaves y m hy
    exact ⟨j, hij, hjk, hj.resolve_left (hinside.stuck hh hi.sealed.2 hbare hij)⟩

/-! ## A canceler that is run though nobody leaves -/

/-- A child that is masked waits for a timer, with a canceler that leaves the timer alone. Its parent does not
wait for it. -/
def deaf : Program Nat :=
  (Program.fork (.uninterruptible (.async fun f => .call (.alarm 100 f) fun _ => .pending (some .unit))) {}).andThen
    .yieldNow

theorem licensed_deaf : deaf.Licensed .none := by
  refine .flatMap (.fork (.mask (.async fun f => .call nofun fun _ => .pending fun p hp => ?_))) (.next .yieldNow)
  obtain rfl := Option.some.inj hp
  exact .succeed

/-- The run of the child and its parent. -/
def deafRun : Run Nat := .inOrder .standard 0 deaf licensed_deaf

/-- The wait of the child. -/
def deafChild : Callback deafRun where
  start := 16
  fiber := ⟨1⟩
  state := ((deafRun.moment 16).world.fibers.get? ⟨1⟩).get rfl
  machine := ((deafRun.moment 16).active.get rfl).2
  register := fun f => .call (.alarm 100 f) fun _ => .pending (some .unit)
  canceler := .unit
  works := ⟨rfl, rfl, Or.inr rfl, by decide, Or.inl ⟨_, rfl⟩⟩
  instruction := rfl
  pending := rfl

set_option maxRecDepth 2048 in
/-- The child is done in the end. Its canceler was run, since its scope was closed while it was inside. -/
theorem deafChild_canceled_once : ∃ y e sc,
    ((deafRun.moment 97).world.fibers.get? deafChild.fiber = some y ∧ y.phase = .done e ∧
      (deafRun.moment 97).world.scopes.get? y.scope = some sc ∧ sc.strategy = .sequential) ∧
      (∀ i j, deafChild.Canceled i → deafChild.Canceled j → i = j) ∧
      ((∃ i, i < 97 ∧ deafChild.Canceled i) ↔ deafChild.handle ≠ none ∧
        ∃ j, j < 97 ∧ (deafChild.Abandons j ∨
          deafChild.Ends j ∧ (deafRun.moment j).world.Sealed deafChild.state.scope)) ∧
      ∀ i, deafChild.Canceled i → deafChild.Inside i → ¬ deafChild.Shielded i →
        ∃ j, i ≤ j ∧ j < 97 ∧ deafChild.Abandons j := by
  obtain ⟨y, e, sc, hy, hdone, hsc, hseq⟩ : ∃ y e sc,
      (deafRun.moment 97).world.fibers.get? ⟨1⟩ = some y ∧ y.phase = .done e ∧
        (deafRun.moment 97).world.scopes.get? y.scope = some sc ∧ sc.strategy = .sequential :=
    ⟨((deafRun.moment 97).world.fibers.get? ⟨1⟩).get rfl, _,
      ((deafRun.moment 97).world.scopes.get? ⟨1⟩).get rfl, rfl, rfl, rfl, rfl⟩
  exact ⟨y, e, sc, ⟨hy, hdone, hsc, hseq⟩, deafChild.canceled_once hy hdone hsc hseq⟩

/-- It comes to the end of the program of the callback. -/
theorem ends_deafChild : deafChild.Ends 87 := by
  refine ⟨⟨by decide, fun l hl hlk => ?_⟩, ((deafRun.moment 87).active.get rfl).2, .success .unit,
    ⟨((deafRun.moment 87).world.fibers.get? ⟨1⟩).get rfl, rfl, rfl, Or.inr rfl, by decide, Or.inr ⟨.success .unit, rfl⟩⟩,
    rfl, [], rfl, rfl⟩
  -- but for one moment it is not its turn
  by_cases hturn : l = 86
  · subst hturn
    refine ⟨fun m x hlands => ?_, fun y m hleaves => ?_⟩
    · obtain ⟨y, hworks⟩ := hlands.works
      obtain rfl : m = ((deafRun.moment 86).active.get rfl).2 :=
        congrArg Prod.snd (Option.some.inj (hworks.turn.symm.trans rfl))
      cases x <;> cases hlands.control
    · exact absurd hleaves (Moment.Works.not_leaves (y := ((deafRun.moment 86).world.fibers.get? ⟨1⟩).get rfl)
        (m := ((deafRun.moment 86).active.get rfl).2) ⟨rfl, rfl, Or.inr rfl, by decide, Or.inl ⟨_, rfl⟩⟩)
  · have hother : ∀ l < 87, 16 < l → l ≠ 86 →
        ((deafRun.moment l).active.map fun fm => fm.1.index) ≠ some 1 := by
      decide +kernel
    have hidle : ∀ m, (deafRun.moment l).active ≠ some (deafChild.fiber, m) := fun m hm =>
      hother l hlk hl hturn (by rw [hm]; rfl)
    exact ⟨fun m x hlands => hlands.works.elim fun y hworks => hidle m hworks.turn,
      fun y m hleaves => hidle m hleaves.1⟩

/-- The canceler is run while the child is masked and waits, and the child goes on and never leaves. -/
theorem deafChild_canceled : deafChild.Canceled 47 ∧ deafChild.Inside 47 ∧ deafChild.Shielded 47 ∧
    deafChild.Ends 87 ∧ ∀ j, ¬ deafChild.Abandons j := by
  have hruns : deafRun.Runs ⟨⟨1⟩, 1⟩ 47 := ⟨⟨0⟩, ((deafRun.moment 47).world.fibers.get? ⟨0⟩).get rfl,
    ((deafRun.moment 47).active.get rfl).2, _, _, ⟨rfl, rfl, Or.inl rfl, by decide, Or.inl ⟨_, rfl⟩⟩, rfl⟩
  exact ⟨⟨⟨⟨1⟩, 1⟩, rfl, hruns⟩, ends_deafChild.1.before (by decide) (by decide),
    ⟨((deafRun.moment 47).world.fibers.get? ⟨1⟩).get rfl, ((deafRun.moment 47).machine? ⟨1⟩).get rfl, rfl, rfl,
      Or.inr rfl⟩, ends_deafChild,
    fun j => ends_deafChild.not_abandons⟩

end Callback

end Fibers
