import Fibers.Proofs.Run.Attention
import Fibers.Proofs.Scopes.Standing

set_option autoImplicit false

/-! # A fiber above some frames

While a fiber works above some frames of its stack, the frames wait, and nobody touches them. So what
they are for can be kept out of every licence but theirs. A move keeps a moment within a licence, and
the scopes fare as the licence lets them. The fiber stays above its frames until an exit comes down to
them, or until it leaves its program.
-/

namespace Fibers

variable {σ : Type} {L : Licence} {s : Key .scope}

/-! ## The end of a step, for the scopes -/

namespace World

theorem scopes_park (w : World σ) (f : Key .fiber) (y : Fiber σ) (m : Machine σ) :
    (w.park f y m).1.scopes = w.scopes := by
  unfold park
  dsimp only
  split
  · rfl
  · rfl

theorem scopes_finishFiber (w : World σ) (f : Key .fiber) (e : AnyExit) :
    (w.finishFiber f e).scopes = w.scopes := by
  unfold finishFiber
  split
  · rfl
  · split
    · rfl
    · exact foldl_keeps World.scopes _ (fun w o => scopes_notifyDone f e w o) _ _

/-- A fiber that waits for the closing of a scope changes neither its state nor what is told of it. -/
theorem status_subscribe (w : World σ) (k : Wake) (a : Awaited) :
    (w.subscribe k a).status s = w.status s := by
  cases a with
  | future f => exact status_of_eq (parts_watchFuture w f _).2
  | done f =>
      refine status_of_eq ?_
      simp only [subscribe, watchFiber]
      split
      · rfl
      · split
        · rfl
        · split
          · rfl
          · rfl
  | closed t =>
      simp only [subscribe]
      cases hcell : (w.scope t).closed with
      | settled outcome => rfl
      | pending os next =>
          simp only [Cell.attach?]
          by_cases hst : t = s
          · subst hst
            cases hget : w.scopes.get? t with
            | none => rw [status, status, Store.get?_set, if_pos rfl, hget, Option.map_none]
            | some sc =>
                rw [scope_of_get hget] at hcell ⊢
                rw [status_set_self hget, status_of_get hget, hcell]
                rfl
          · exact status_set hst
  | decided t =>
      refine status_of_eq ?_
      simp only [subscribe]
      split
      · rfl
      · rfl

/-- A fiber that waits puts nobody aside. -/
theorem parked?_subscribe (w : World σ) (k : Wake) (a : Awaited) (g : Key .fiber) :
    (w.subscribe k a).parked? g = w.parked? g := by
  unfold parked?
  cases hget : w.fibers.get? g with
  | some y =>
      have hgrows : Grows none w (w.subscribe k a) := grows_subscribe w k a
      obtain ⟨y', hy', -⟩ := hgrows.fibers g y hget
      obtain ⟨y₀, hy₀, heq⟩ := fibers_subscribe hy'
      obtain rfl : y₀ = y := Option.some.inj (hy₀.symm.trans hget)
      rw [hy', Option.bind_some, Option.bind_some, heq]
  | none =>
      cases hget' : (w.subscribe k a).fibers.get? g with
      | none => rfl
      | some y' =>
          obtain ⟨y, hy, -⟩ := fibers_subscribe hget'
          rw [hget] at hy
          cases hy

/-- The end of a step changes no scope but for who waits for its closing. -/
theorem status_conclude (f : Key .fiber) (stepped : World σ × Stepped σ) :
    (conclude f stepped).world.status s = stepped.1.status s := by
  obtain ⟨w, m, d⟩ := stepped
  cases d with
  | proceed => rfl
  | yield =>
      simp only [conclude]
      split
      · rfl
      · exact status_of_eq (scopes_park w f _ m)
  | await a release =>
      simp only [conclude]
      split
      · rfl
      · rename_i x _
        have hpark : (w.park f { x with ops := 0 } (m.holding release)).1.status s = w.status s :=
          status_of_eq (scopes_park w f _ _)
        split
        · exact (status_subscribe _ _ a).trans hpark
        · exact hpark
  | done e => exact status_of_eq (scopes_finishFiber w f e)

/-- The scopes fare through a step and its end as through its changes. -/
theorem StepSound.fares_conclude {actor : Option (Key .fiber)} {w : World σ} {exiting : Bool}
    {rest : List (Waiting σ)} {stepped : World σ × Stepped σ} {f : Key .fiber}
    (h : StepSound L actor w exiting rest stepped) (hw : w.Licensed L)
    (hnew : ∀ h, ¬ Issued w h → Issued stepped.1 h → L.hold h) :
    Fares L w (conclude f stepped).world :=
  (h.changes.fares hw hnew).trans (fares_of_status fun _ => status_conclude f stepped)

theorem status_awaken (w : World σ) (f : Key .fiber) (token : Nat) (r : Resume σ) :
    (w.awaken f token r).world.status s = w.status s := by
  rcases awaken_cases w f token r with heq | ⟨y, m, c, -, -, -, -, heq⟩
  · rw [heq]
  · rw [heq]
    rfl

end World

/-! ## Within a licence -/

/-- A licence under which every claim that a fiber works on is allowed. -/
def Moment.ClaimsLicensed (L : Licence) (x : Moment σ) : Prop :=
  ∀ f y m t, x.Works f y m → m.control = .instruct (.duty (.finish t)) →
    World.ClaimLicensed L x.world t

/-- A move keeps to a licence that covers all new handles and what the active fiber claims. -/
theorem Move.keeps {x x' : Moment σ} (h : Move x x') (hx : x.Licensed L)
    (hnew : ∀ h, ¬ World.Issued x.world h → L.hold h) (hforget : L.forget)
    (hactive : ∀ f m, x.active = some (f, m) → ¬ L.exempt f) (hclaims : x.ClaimsLicensed L) :
    x'.Licensed L ∧ World.Fares L x.world x'.world := by
  obtain ⟨w, active⟩ := x
  have hw : w.Licensed L := hx.world
  have hnew' : ∀ (w' : World σ) h, ¬ World.Issued w h → World.Issued w' h → L.hold h :=
    fun _ h hfresh _ => hnew h hfresh
  cases active with
  | some fm =>
      obtain ⟨f, m⟩ := fm
      cases h with
      | advance =>
          unfold World.advance
          cases hget : w.fibers.get? f with
          | none => exact ⟨⟨hw, fun g m' hg => by cases hg⟩, World.fares_of_status fun _ => rfl⟩
          | some fiber =>
              dsimp only
              have hm : (m.heed fiber).Licensed L :=
                (hx.active f m rfl (hactive f m rfl)).heed fiber
              -- a fiber that comes to claim does not leave, and works
              have hfinish : ∀ t, (m.heed fiber).control = .instruct (.duty (.finish t)) →
                  fiber.ops < fiber.context.limits.maxOps → World.ClaimLicensed L w t := by
                intro t ht hbudget
                unfold Machine.heed at ht
                split at ht
                · cases ht
                · rename_i hstay
                  refine hclaims f fiber m t ⟨rfl, hget, ?_, hbudget, Or.inl ⟨_, ht⟩⟩ ht
                  simpa [Classical.or_iff_not_imp_left] using hstay
              obtain ⟨exiting, hsound⟩ :=
                World.stepSound_step (w := w) (f := f) hm hw.finalizers hfinish (hnew' _)
              exact ⟨hsound.licensed_conclude (hsound.changes.licensed (hnew' _) hw) nofun,
                hsound.fares_conclude hw (hnew' _)⟩
  | none =>
      obtain ⟨timers, hlive, ⟨f, token, r, ⟨t, ht, htask⟩, rfl⟩ | ⟨w', rfl, hchanges⟩⟩ :=
        World.quiet_cases h
      · refine ⟨World.licensed_awaken (World.licensed_timers hw hlive) fun p hp => ?_,
          World.fares_of_status fun s => World.status_awaken { w with timers } f token r⟩
        subst hp
        have hlicensed := hw.tasks t ht
        rw [htask] at hlicensed
        exact hlicensed
      · have hchange := hchanges L hforget hw
        have hw₁ : World.Licensed L { w with timers } := World.licensed_timers hw hlive
        have hbefore : World.Fares L w { w with timers } := World.fares_of_status fun _ => rfl
        exact ⟨⟨hchange.licensed (hnew' _) hw₁, fun g m hg => by cases hg⟩,
          hbefore.trans (hchange.fares hw₁ (hnew' _))⟩

/-! ## One fiber exempt -/

/-- The licence that does not look at the machine of one fiber. -/
def Licence.sparing (L : Licence) (g : Key .fiber) : Licence := { L with exempt := (· = g) }

theorem Licence.sparing_le (L : Licence) (g : Key .fiber) : L.sparing g ≤ L :=
  ⟨fun _ h => h, fun _ h => h, fun _ h => h, id⟩

theorem Licence.le_sparing (L : Licence) (g : Key .fiber) : L ≤ L.sparing g :=
  ⟨fun _ h => h, fun _ h => h, fun _ h => h, id⟩

/-- The exemption is not needed for a fiber that runs. -/
theorem World.Licensed.of_sparing {w : World σ} {g : Key .fiber} (h : w.Licensed (L.sparing g))
    (hg : ∃ y, w.fibers.get? g = some y ∧ y.phase = .running) : w.Licensed L := by
  refine h.of_machines (L.sparing_le g) fun f y hy _ => ?_
  by_cases hfg : f = g
  · subst hfg
    obtain ⟨y', hy', hrun⟩ := hg
    obtain rfl : y' = y := Option.some.inj (hy'.symm.trans hy)
    rw [hrun]
    trivial
  · exact (h.machines f y hy hfg).mono (L.sparing_le g)

theorem World.Licensed.sparing {w : World σ} (hexempt : ∀ f, ¬ L.exempt f) (h : w.Licensed L)
    (g : Key .fiber) : w.Licensed (L.sparing g) :=
  h.mono (L.le_sparing g) fun f hf => absurd hf (hexempt f)

/-! ## Above some frames -/

/-- The fiber `g` has the frames `T` at the bottom of its stack. What it has above them keeps to the
licence, and so does everything else. -/
structure Moment.Above (L : Licence) (g : Key .fiber) (T : List (Waiting σ)) (x : Moment σ) :
    Prop where
  licensed : x.Licensed (L.sparing g)
  machine : ∃ m pre, x.machine? g = some m ∧ m.control.Licensed L ∧ m.stack = pre ++ T ∧
    ∀ y ∈ pre, y.Licensed L

namespace World

/-- A step that does not bring an exit down to the frames, and is not the first step out of the
program, stays above them. -/
theorem stepSound_above {w : World σ} {f : Key .fiber} {fiber : Fiber σ} {m : Machine σ}
    {pre T : List (Waiting σ)} (hw : w.Licensed L) (hnew : ∀ h, ¬ Issued w h → L.hold h)
    (hcontrol : m.control.Licensed L) (hstack : m.stack = pre ++ T) (hpre : ∀ y ∈ pre, y.Licensed L)
    (hstay : ∀ e, m.control ≠ .leave e)
    (hclaims : ∀ t, m.control = .instruct (.duty (.finish t)) →
      fiber.ops < fiber.context.limits.maxOps → ClaimLicensed L w t)
    (hreach : ∀ e, m.control = .ofExit e → fiber.ops < fiber.context.limits.maxOps →
      (descend f e.isFailure pre (w.count f)).2 ≠ []) :
    StepSound L (some f) w m.exiting T (w.step f fiber m) := by
  have hrest : ∀ {w' : World σ} {c : Control σ} {d : Decision}, Changes L (some f) w w' →
      c.Licensed L → (∀ e, c ≠ .leave e) → d = .proceed ∨ d = .yield →
      StepSound L (some f) w m.exiting T (w', ⟨{ m with control := c }, d⟩) := by
    intro w' c d hchanges hc hstay hd
    refine ⟨hchanges, hc, ⟨pre, hstack, hpre⟩, rfl, fun e he => absurd he (hstay e),
      fun a h ha => ?_, fun e he => ?_⟩
    · rcases hd with rfl | rfl <;> cases ha
    · rcases hd with rfl | rfl <;> cases he
  have hcount : Changes L (some f) w (w.count f) := changes_own rfl fun x => rfl
  have hreset : Changes L (some f) w (w.modifyFiber f fun fiber => { fiber with ops := 0 }) :=
    changes_own rfl fun x => rfl
  -- an exit meets a frame of the upper part, so it does not come down to `T`
  have hunwind : ∀ e : AnyExit, m.control = .ofExit e → fiber.ops < fiber.context.limits.maxOps →
      StepSound L (some f) w m.exiting T (unwind f m.exiting e m.stack (w.count f)) := by
    intro e he hbudget
    rw [hstack]
    exact (stepSound_unwind_above hpre (hreach e he hbudget) m.exiting T).after hcount
  obtain ⟨control, stack, exiting⟩ := m
  cases control with
  | start p => exact hrest (.refl w) hcontrol (fun e he => by cases he) (Or.inl rfl)
  | leave e => exact absurd rfl (hstay e)
  | value v =>
      simp only [step]
      split
      · exact hrest hreset trivial (fun e he => by cases he) (Or.inr rfl)
      · rename_i hbudget
        exact hunwind (.success v) rfl (Nat.not_le.mp hbudget)
  | failure c =>
      simp only [step]
      split
      · exact hrest hreset trivial (fun e he => by cases he) (Or.inr rfl)
      · rename_i hbudget
        exact hunwind (.failure c) rfl (Nat.not_le.mp hbudget)
  | instruct p =>
      simp only [step]
      split
      · exact hrest hreset hcontrol (fun e he => by cases he) (Or.inr rfl)
      · rename_i hbudget
        have hsound : StepSound L (some f) (w.count f) exiting stack
            ((w.count f).instruct f fiber ⟨.instruct p, stack, exiting⟩ p) :=
          stepSound_instruct (m := ⟨.instruct p, stack, exiting⟩) (fun _ => rfl) hcontrol hcontrol
            (fun e he => by cases he)
            (hcount.licensed (fun h hfresh _ => hnew h hfresh) hw).finalizers
            (fun t ht => hclaims t (by rw [ht]) (Nat.not_le.mp hbudget)) fun h hfresh _ =>
              hnew h hfresh
        -- what an instruction pushes joins the upper part
        obtain ⟨pushed, heq, hpushed⟩ := hsound.stack
        refine StepSound.after hcount ⟨hsound.changes, hsound.control, ⟨pushed ++ pre, ?_, ?_⟩,
          hsound.exiting, hsound.leaving, hsound.release, hsound.done⟩
        · rw [List.append_assoc, ← hstack]
          exact heq
        · intro y hy
          rcases List.mem_append.mp hy with hy | hy
          · exact hpushed y hy
          · exact hpre y hy

/-- The machine of a fiber that comes to wait: it has the handle to drop on it, and perhaps what it waited
for. -/
theorem machine?_await {w : World σ} {f : Key .fiber} {y : Fiber σ} (hy : w.fibers.get? f = some y)
    (m : Machine σ) (a : Awaited) (release : Option Handle) :
    ∃ c, (conclude f (w, ⟨m, .await a release⟩)).machine? f =
        some { m.holding release with control := c } ∧
      (c = m.control ∨ ∃ (w' : World σ) (p : Program σ), w'.settledProgram? a = some p ∧ c = .instruct p ∧
        ∀ L : Licence, w.Licensed (L.sparing f) → w'.Licensed (L.sparing f)) := by
  have hpark := get?_park { y with ops := 0 } (m.holding release) hy
  have hcontrol : (m.holding release).control = m.control := by cases release <;> rfl
  simp only [conclude, hy]
  split
  · refine ⟨_, ?_, Or.inl hcontrol⟩
    show World.parked? _ f = _
    rw [parked?_subscribe, parked?, hpark]
    rfl
  · rename_i p hp
    exact ⟨_, Moment.machine?_active, Or.inr ⟨_, p, hp, rfl, fun L hw => licensed_park hw fun hf => absurd rfl hf⟩⟩

/-- The machine at the end of a step that does not end the fiber: the machine of the step, perhaps with
a handle to drop on it, and perhaps with what it waited for. -/
theorem machine?_conclude {f : Key .fiber} {stepped : World σ × Stepped σ}
    (hf : ∃ y, stepped.1.fibers.get? f = some y) (hdone : ∀ e, stepped.2.decision ≠ .done e) :
    ∃ m, (conclude f stepped).machine? f = some m ∧ m.exiting = stepped.2.machine.exiting ∧
      (m.stack = stepped.2.machine.stack ∨
        ∃ a h, stepped.2.decision = .await a (some h) ∧ m.stack = .release h :: stepped.2.machine.stack) ∧
      (m.control = stepped.2.machine.control ∨
        ∃ (w : World σ) (a : Awaited) (p : Program σ), w.settledProgram? a = some p ∧
          m.control = .instruct p ∧
          ∀ L : Licence, stepped.1.Licensed (L.sparing f) → w.Licensed (L.sparing f)) := by
  obtain ⟨w', m, d⟩ := stepped
  obtain ⟨y, hy⟩ := hf
  have hget : w'.fibers.get? f = some y := hy
  cases d with
  | proceed => exact ⟨m, Moment.machine?_active, rfl, Or.inl rfl, Or.inl rfl⟩
  | yield =>
      refine ⟨m, ?_, rfl, Or.inl rfl, Or.inl rfl⟩
      simp only [conclude, hget, Moment.machine?, parked?, fibers_queue]
      rw [get?_park y m hget]
      rfl
  | await a release =>
      obtain ⟨c, hm, hcontrol⟩ := machine?_await hget m a release
      refine ⟨_, hm, by cases release <;> rfl, ?_, ?_⟩
      · cases release with
        | none => exact Or.inl rfl
        | some h => exact Or.inr ⟨a, h, rfl, rfl⟩
      · rcases hcontrol with hcontrol | ⟨w, p, hp, hc, hlaw⟩
        · exact Or.inl hcontrol
        · exact Or.inr ⟨w, a, p, hp, hc, hlaw⟩
  | done e => exact absurd rfl (hdone e)

/-- At the end of such a step the fiber is above the frames. -/
theorem above_conclude {w : World σ} {f : Key .fiber} {exiting : Bool} {T : List (Waiting σ)}
    {stepped : World σ × Stepped σ} (hsound : StepSound L (some f) w exiting T stepped)
    (hw : stepped.1.Licensed L) (hexempt : ∀ f, ¬ L.exempt f) (hT : T ≠ [])
    (hf : ∃ y, stepped.1.fibers.get? f = some y) : (conclude f stepped).Above L f T := by
  have hsparing : stepped.1.Licensed (L.sparing f) := hw.sparing hexempt f
  obtain ⟨pushed, hpushedStack, hpushed⟩ := hsound.stack
  have hdone : ∀ e, stepped.2.decision ≠ .done e := by
    intro e he
    rw [(hsound.done e he).1] at hpushedStack
    exact hT (List.append_eq_nil_iff.mp hpushedStack.symm).2
  obtain ⟨m, hm, -, hstack, hcontrol⟩ := machine?_conclude hf hdone
  obtain ⟨pre, hpre, hlicensed⟩ : ∃ pre, m.stack = pre ++ T ∧ ∀ z ∈ pre, z.Licensed L := by
    rcases hstack with heq | ⟨a, h, ha, heq⟩
    · exact ⟨pushed, heq.trans hpushedStack, hpushed⟩
    · refine ⟨.release h :: pushed, by rw [heq, hpushedStack]; rfl, fun z hz => ?_⟩
      rcases List.mem_cons.mp hz with rfl | hz
      · exact (hsound.release a h ha).1
      · exact hpushed z hz
  refine ⟨licensed_conclude hsparing (fun hf => absurd rfl hf) fun hf => absurd rfl hf, m, pre, hm,
    ?_, hpre, hlicensed⟩
  rcases hcontrol with heq | ⟨w', a, p, hp, heq, hlaw⟩
  · exact heq ▸ hsound.control
  · rw [heq]
    exact Program.Licensed.mono (L.sparing_le f) (licensed_settledProgram (hlaw L hsparing) hp)

/-- A fiber that comes to wait is above what it has on its stack and the handle to drop. -/
theorem above_await {w : World σ} {f : Key .fiber} {y : Fiber σ} (hw : w.Licensed (L.sparing f))
    (hy : w.fibers.get? f = some y) {m : Machine σ} (hcontrol : m.control.Licensed L) (a : Awaited)
    (release : Option Handle) :
    (conclude f (w, ⟨m, .await a release⟩)).Above L f (m.holding release).stack := by
  obtain ⟨c, hm, hc⟩ := machine?_await hy m a release
  refine ⟨licensed_conclude hw (fun hf => absurd rfl hf) fun hf => absurd rfl hf, _, [], hm, ?_, rfl, nofun⟩
  rcases hc with rfl | ⟨w', p, hp, rfl, hlaw⟩
  · exact hcontrol
  · exact Program.Licensed.mono (L.sparing_le f) (licensed_settledProgram (hlaw L hw) hp)

end World

/-! ## From move to move -/

/-- What a fiber leaves behind when it leaves its program keeps to the licence. -/
theorem World.keeps_leaves {w : World σ} {g : Key .fiber} {y : Fiber σ} {m : Machine σ}
    (hw : w.Licensed L) (hnew : ∀ h, ¬ Issued w h → L.hold h)
    (hleaves : Moment.Leaves ⟨w, some (g, m)⟩ g y m) :
    (w.advance g m).Licensed L ∧ Fares L w (w.advance g m).world := by
  have hdropped : ({ m with control := .leave none, stack := [] } : Machine σ).Licensed L :=
    ⟨trivial, (fun z hz => by cases hz), fun _ _ => rfl⟩
  obtain ⟨exiting, hsound⟩ : ∃ exiting, StepSound L (some g) w exiting []
      (w.step g y { m with control := .leave none, stack := [] }) :=
    stepSound_step hdropped hw.finalizers nofun fun h hfresh _ => hnew h hfresh
  rw [advance_leave hleaves]
  exact ⟨hsound.licensed_conclude (hsound.changes.licensed (fun h hfresh _ => hnew h hfresh) hw) nofun,
    hsound.fares_conclude hw fun h hfresh _ => hnew h hfresh⟩

section

variable {x x' : Moment σ} {g : Key .fiber} {T : List (Waiting σ)}

/-- The fiber `g` has the machine `m`, and everything else keeps to the licence. -/
structure Moment.Has (L : Licence) (g : Key .fiber) (m : Machine σ) (x : Moment σ) : Prop where
  licensed : x.Licensed (L.sparing g)
  machine : x.machine? g = some m

/-- A fiber that stands aside and waits for nothing has the same machine after the move. -/
theorem Move.has_aside (h : Move x x') (hx : x.Lawful) (hattentive : x.world.Attentive)
    {m : Machine σ} (hhas : x.Has L g m) (hnew : ∀ h, ¬ World.Issued x.world h → L.hold h)
    (hforget : L.forget) (hclaims : x.ClaimsLicensed L) (hminds : m.control.Minds fun _ => False)
    (haside : ∀ m, x.active ≠ some (g, m)) : World.Fares L x.world x'.world ∧ x'.Has L g m := by
  rcases Moment.machine?_cases hhas.machine with hactive | ⟨-, y, hy, hphase⟩
  · exact absurd hactive (haside m)
  · have hkeeps := h.keeps (L := L.sparing g) hhas.licensed hnew hforget
      (fun f m hf heq => haside m (by rw [hf, show f = g from heq])) hclaims
    obtain ⟨y', hy', -, -, hmachine⟩ := h.aside hx haside hy
    refine ⟨⟨hkeeps.2.plainly, hkeeps.2.stands⟩, hkeeps.1, ?_⟩
    rcases hmachine with heq | hresumes
    · exact heq.trans hhas.machine
    · exact Moment.machine?_of_active (hresumes.proceed hattentive hy hphase hminds)

/-- A fiber that is about to do a step and waits for nothing does it, or stays about to, or leaves
its program. -/
theorem Move.poised (h : Move x x') (hx : x.Lawful) (hturned : x.Turned)
    (hattentive : x.world.Attentive) {m : Machine σ} (hhas : x.Has L g m)
    (hexempt : ∀ f, ¬ L.exempt f) (hnew : ∀ h, ¬ World.Issued x.world h → L.hold h)
    (hforget : L.forget) (hclaims : x.ClaimsLicensed L)
    (hwork : (∃ p, m.control = .instruct p) ∨ ∃ e, m.control = .ofExit e)
    (hminds : m.control.Minds fun _ => False) (hidle : ∀ y, ¬ x.Works g y m) :
    World.Fares L x.world x'.world ∧ (x'.Has L g m ∨ x'.Licensed L ∧ ∃ y, x.Leaves g y m) := by
  rcases Moment.machine?_cases hhas.machine with hactive | ⟨haside, -⟩
  · obtain ⟨w, active⟩ := x
    obtain rfl : active = some (g, m) := hactive
    obtain ⟨y, hy, hrun⟩ := hturned g m rfl
    have hfiber : w.fibers.get? g = some y := hy
    have hw : w.Licensed L := hhas.licensed.world.of_sparing ⟨y, hfiber, hrun⟩
    cases h with
    | advance =>
        by_cases hleaves : Moment.Leaves ⟨w, some (g, m)⟩ g y m
        · obtain ⟨hleft, hfares⟩ := World.keeps_leaves hw hnew hleaves
          exact ⟨hfares, Or.inr ⟨hleft, y, hleaves⟩⟩
        · have hfree := Moment.free_of_not_leaves rfl hy hleaves
          have hbudget : y.context.limits.maxOps ≤ y.ops := by
            by_contra hnot
            exact hidle y ⟨rfl, hy, hfree, Nat.not_le.mp hnot, hwork⟩
          have hreset : World.Changes L (some g) w
              (w.modifyFiber g fun fiber => { fiber with ops := 0 }) :=
            World.changes_own rfl fun x => rfl
          have hadvance : w.advance g m = World.conclude g
              (w.modifyFiber g fun fiber => { fiber with ops := 0 }, ⟨m, .yield⟩) := by
            simp only [World.advance, hfiber, World.heed_of_free hfree,
              World.step_tired hwork hbudget]
          refine ⟨?_, Or.inl ⟨?_, World.machine?_tired hfiber hfree hwork hbudget⟩⟩
          · rw [hadvance]
            exact (hreset.fares hw fun h hfresh _ => hnew h hfresh).trans
              (World.fares_of_status fun s => World.status_conclude g _)
          · rw [hadvance]
            have hafter :=
              (hreset.licensed (fun h hfresh _ => hnew h hfresh) hw).sparing hexempt g
            exact World.licensed_conclude hafter (fun hf => absurd rfl hf) fun hf => absurd rfl hf
  · exact (h.has_aside hx hattentive hhas hnew hforget hclaims hminds haside).imp_right Or.inl

/-- An exit comes down to the frames `T` of the fiber `g`, past all that is above them. -/
structure Moment.Meets (L : Licence) (g : Key .fiber) (T : List (Waiting σ)) (x : Moment σ)
    (m : Machine σ) (pre : List (Waiting σ)) (e : AnyExit) : Prop where
  works : ∃ y, x.Works g y m
  control : m.control = .ofExit e
  stack : m.stack = pre ++ T
  licensed : ∀ z ∈ pre, z.Licensed L
  past : (World.descend g e.isFailure pre (x.world.count g)).2 = []

/-- A fiber stays above its frames, unless an exit comes down to them or it leaves its program and
drops them. -/
theorem Move.above (h : Move x x') (hx : x.Lawful) (hturned : x.Turned) (habove : x.Above L g T)
    (hT : T ≠ []) (hexempt : ∀ f, ¬ L.exempt f) (hnew : ∀ h, ¬ World.Issued x.world h → L.hold h)
    (hforget : L.forget) (hclaims : x.ClaimsLicensed L)
    (hmeets : ∀ m pre e, ¬ x.Meets L g T m pre e) :
    World.Fares L x.world x'.world ∧
      (x'.Above L g T ∨ x'.Licensed L ∧ ∃ y m, x.Leaves g y m) := by
  obtain ⟨m, pre, hm, hcontrol, hstack, hpre⟩ := habove.machine
  rcases Moment.machine?_cases hm with hactive | ⟨haside, y, hy, hphase⟩
  · obtain ⟨w, active⟩ := x
    obtain rfl : active = some (g, m) := hactive
    obtain ⟨y, hy, hrun⟩ := hturned g m rfl
    have hfiber : w.fibers.get? g = some y := hy
    have hw : w.Licensed L := habove.licensed.world.of_sparing ⟨y, hfiber, hrun⟩
    cases h with
    | advance =>
        by_cases hleaves : Moment.Leaves ⟨w, some (g, m)⟩ g y m
        · obtain ⟨hleft, hfares⟩ := World.keeps_leaves hw hnew hleaves
          exact ⟨hfares, Or.inr ⟨hleft, y, m, hleaves⟩⟩
        · have hfree := Moment.free_of_not_leaves rfl hy hleaves
          have hstay : ∀ e, m.control ≠ .leave e := by
            intro e he
            have hnil := (hx.licensed.active g m rfl id).leaving e he
            rw [hstack] at hnil
            exact hT (List.append_eq_nil_iff.mp hnil).2
          have hsound : World.StepSound L (some g) w m.exiting T (w.step g y m) :=
            World.stepSound_above hw hnew hcontrol hstack hpre hstay
              (fun t ht hbudget => hclaims g y m t ⟨rfl, hy, hfree, hbudget, Or.inl ⟨_, ht⟩⟩ ht)
              fun e he hbudget hpast => hmeets m pre e
                ⟨⟨y, rfl, hy, hfree, hbudget, Or.inr ⟨e, he⟩⟩, he, hstack, hpre, hpast⟩
          obtain ⟨y', hy', -⟩ := hsound.changes.grows.fibers g y hfiber
          have hadvance : w.advance g m = World.conclude g (w.step g y m) := by
            simp only [World.advance, hfiber, World.heed_of_free hfree]
          rw [hadvance]
          exact ⟨hsound.fares_conclude hw fun h hfresh _ => hnew h hfresh,
            Or.inl (World.above_conclude hsound
              (hsound.changes.licensed (fun h hfresh _ => hnew h hfresh) hw) hexempt hT ⟨y', hy'⟩)⟩
  · have hkeeps := h.keeps (L := L.sparing g) habove.licensed hnew hforget
      (fun f m hf heq => haside m (by rw [hf, show f = g from heq])) hclaims
    obtain ⟨y', hy', -, -, hmachine⟩ := h.aside hx haside hy
    refine ⟨⟨hkeeps.2.plainly, hkeeps.2.stands⟩, Or.inl ⟨hkeeps.1, ?_⟩⟩
    rcases hmachine with heq | ⟨t, m', c, hsuspended, hc, hresumed⟩
    · exact ⟨m, pre, heq.trans hm, hcontrol, hstack, hpre⟩
    · rw [hsuspended] at hphase
      obtain rfl : m' = m := Option.some.inj hphase
      refine ⟨_, pre, Moment.machine?_of_active hresumed, ?_, hstack, hpre⟩
      rcases hc with rfl | ⟨p, ⟨task, htask, hp⟩, rfl⟩
      · exact hcontrol
      · have hlicensed := habove.licensed.world.tasks task htask
        rw [hp] at hlicensed
        exact Program.Licensed.mono (L.sparing_le g) hlicensed

/-- What an exit that comes down to the frames leads to: so far the step keeps to the licence, and
the frames do what they do with the exit. -/
theorem Moment.Meets.next {m : Machine σ} {pre : List (Waiting σ)} {e : AnyExit} (h : Move x x')
    (hturned : x.Turned) (hlicensed : x.Licensed (L.sparing g))
    (hnew : ∀ h, ¬ World.Issued x.world h → L.hold h) (hmeets : x.Meets L g T m pre e) :
    ∃ w, World.Changes L (some g) x.world w ∧ w.Licensed L ∧
      x' = World.conclude g (World.unwind g m.exiting e T w) ∧
      World.descend g e.isFailure m.stack (x.world.count g) = World.descend g e.isFailure T w := by
  obtain ⟨⟨y, hworks⟩, hcontrol, hstack, hpre, hpast⟩ := hmeets
  obtain ⟨w, active⟩ := x
  obtain rfl : active = some (g, m) := hworks.turn
  have hcount : World.Changes L (some g) w (w.count g) := World.changes_own rfl fun x => rfl
  have hdown : World.Changes L (some g) w (World.descend g e.isFailure pre (w.count g)).1 :=
    hcount.trans (World.changes_descend hpre _)
  have hw : w.Licensed L := hlicensed.world.of_sparing (hturned g m rfl)
  refine ⟨_, hdown, hdown.licensed (fun h hfresh _ => hnew h hfresh) hw, ?_, ?_⟩
  · cases h with
    | advance => rw [World.advance_unwind hworks hcontrol, hstack, World.unwind_reaches hpast]
  · rw [hstack, World.descend_append, if_pos hpast]

end

/-! ## Everything allowed -/

/-- The licence for everything. -/
def Licence.all : Licence :=
  { finalize := fun _ => True, publish := fun _ => True, hold := fun _ => True, forget := True
    exempt := fun _ => False }

theorem Run.licensed_all (r : Run σ) (k : Nat) : (r.moment k).Licensed .all := by
  have hle : (r.moment k).world.law ≤ .all :=
    ⟨fun _ _ => trivial, fun _ _ => trivial, fun _ _ => trivial, id⟩
  exact ⟨(r.lawful k).licensed.world.mono hle fun _ => id,
    fun f m hf _ => ((r.lawful k).licensed.active f m hf id).mono hle⟩

theorem claimsLicensed_all (x : Moment σ) : x.ClaimsLicensed .all :=
  fun _ _ _ _ _ _ _ _ _ _ => ⟨trivial, fun _ _ => trivial⟩

/-- One machine may be left out of sight. -/
theorem Run.licensed_sparing (r : Run σ) (k : Nat) (g : Key .fiber) :
    (r.moment k).Licensed (Licence.all.sparing g) :=
  ⟨(r.licensed_all k).world.sparing (fun _ => id) g, fun f m hf _ =>
    ((r.licensed_all k).active f m hf id).mono (Licence.le_sparing _ g)⟩

/-- A fiber that has a step to do and waits for nothing does it, or stays about to, or leaves its
program. -/
theorem Run.works_or_stays {r : Run σ} {k : Nat} {g : Key .fiber} {m : Machine σ}
    (hm : (r.moment k).machine? g = some m)
    (hwork : (∃ p, m.control = .instruct p) ∨ ∃ e, m.control = .ofExit e)
    (hminds : m.control.Minds fun _ => False) :
    (∃ y, (r.moment k).Works g y m) ∨ (r.moment (k + 1)).machine? g = some m ∨
      ∃ y, (r.moment k).Leaves g y m := by
  by_cases hworks : ∃ y, (r.moment k).Works g y m
  · exact Or.inl hworks
  · obtain ⟨-, hafter⟩ := (r.move k).poised (r.lawful k) (r.turned k) (r.attentive k)
      ⟨r.licensed_sparing k g, hm⟩ (fun _ => id) (fun _ _ => trivial) trivial (claimsLicensed_all _)
      hwork hminds fun y hy => hworks ⟨y, hy⟩
    exact Or.inr (hafter.imp Moment.Has.machine And.right)

/-! ## Down to any frames -/

/-- The fiber goes on with its program after a step. -/
structure Stepped.Stays (s : Stepped σ) : Prop where
  control : ∀ e, s.machine.control ≠ .leave e
  decision : ∀ e, s.decision ≠ .done e

namespace World

theorem instruct_ne_leave (p : Program σ) (e : Option AnyExit) : Control.instruct p ≠ .leave e := by
  intro h
  cases h

theorem stays_proceed {m : Machine σ} (hm : ∀ e, m.control ≠ .leave e) :
    Stepped.Stays ⟨m, .proceed⟩ := by
  refine ⟨hm, ?_⟩
  intro e h
  cases h

theorem stays_await {m : Machine σ} (hm : ∀ e, m.control ≠ .leave e) (a : Awaited)
    (release : Option Handle) : Stepped.Stays ⟨m, .await a release⟩ := by
  refine ⟨hm, ?_⟩
  intro e h
  cases h

theorem stays_yield {m : Machine σ} (hm : ∀ e, m.control ≠ .leave e) :
    Stepped.Stays ⟨m, .yield⟩ := by
  refine ⟨hm, ?_⟩
  intro e h
  cases h

theorem stays_enter (f : Key .fiber) (m : Machine σ) (called : World σ × Except Defect (Program σ)) :
    (enter f m called).2.Stays := by
  obtain ⟨w, result⟩ := called
  cases result with
  | ok p => exact stays_proceed (instruct_ne_leave p)
  | error d => exact stays_proceed (ofExit_ne_leave (.failure _))

/-- An exit that meets a frame that does something does not end the program. -/
theorem stays_unwind {f : Key .fiber} {e : AnyExit} {stack : List (Waiting σ)} {w : World σ}
    (h : (descend f e.isFailure stack w).2 ≠ []) (exiting : Bool) :
    (unwind f exiting e stack w).2.Stays := by
  have hexit : ∀ (x : AnyExit) (st : List (Waiting σ)),
      Stepped.Stays ⟨⟨.ofExit x, st, exiting⟩, .proceed⟩ := fun x _ =>
    stays_proceed (ofExit_ne_leave x)
  have hstop := descend_descend f e.isFailure stack w
  rw [unwind_descend]
  rcases hpass : descend f e.isFailure stack w with ⟨w', st⟩
  rw [hpass] at hstop h
  cases st with
  | nil => exact absurd rfl h
  | cons x below =>
      have hpassed : ∀ w'', descend f e.isFailure below w'' ≠ (w', x :: below) := fun w'' =>
        descend_ne_cons f _ x below w'' w'
      cases x with
      | map k =>
          cases e with
          | success v => exact stays_enter _ _ _
          | failure c => exact absurd hstop (hpassed w')
      | fold k h =>
          cases e with
          | success v => exact stays_enter _ _ _
          | failure c => exact stays_enter _ _ _
      | restore r =>
          rcases hr : w'.restore f r with ⟨w'', left⟩
          cases left with
          | false =>
              simp only [descend, hr] at hstop
              exact absurd hstop (hpassed w'')
          | true =>
              cases e with
              | success v =>
                  simp only [unwind, unwindValue, hr]
                  exact hexit (.success v) below
              | failure c =>
                  simp only [unwind, unwindFailure, hr]
                  exact hexit (.failure c) below
      | release h => exact absurd hstop (hpassed _)
      | finalizer ho fin =>
          obtain ⟨w'', -, hstep⟩ := unwind_finalizer hstop exiting
          rw [hstep]
          exact stays_enter _ _ _
      | resumeWith saved =>
          cases e with
          | success v => exact hexit saved below
          | failure c => exact hexit (saved.thenCause (some c)) below

/-- Neither does an instruction. -/
theorem stays_instruct (w : World σ) (f : Key .fiber) (fiber : Fiber σ) {m : Machine σ}
    (hm : ∀ e, m.control ≠ .leave e) (p : Program σ) : (w.instruct f fiber m p).2.Stays := by
  cases p with
  | lazy thunk =>
      simp only [instruct]
      split
      · exact stays_proceed (ofExit_ne_leave _)
      · exact stays_enter _ _ _
  | async reg =>
      simp only [instruct]
      split
      · exact stays_proceed (instruct_ne_leave _)
      · exact stays_await hm _ _
      · exact stays_await hm _ _
      · exact stays_enter _ _ _
  | fork p params =>
      simp only [instruct]
      split
      · exact stays_proceed (ofExit_ne_leave (.success _))
      · exact stays_enter _ _ _
  | raceAll ps =>
      cases ps with
      | nil => exact stays_proceed (instruct_ne_leave _)
      | cons p rest => exact stays_enter _ _ _
  | zipAll ps =>
      cases ps with
      | nil => exact stays_proceed (instruct_ne_leave _)
      | cons p rest => exact stays_enter _ _ _
  | wait a => exact stays_await hm a none
  | defer make => exact stays_enter _ _ _
  | access g => exact stays_enter _ _ _
  | duty d => exact stays_enter _ _ _
  | succeed v => exact stays_proceed (ofExit_ne_leave (.success v))
  | failCause c => exact stays_proceed (ofExit_ne_leave (.failure c))
  | flatMap p k => exact stays_proceed (instruct_ne_leave _)
  | fold p h k => exact stays_proceed (instruct_ne_leave _)
  | provide p s => exact stays_proceed (instruct_ne_leave _)
  | ensuring p fin => exact stays_proceed (instruct_ne_leave _)
  | fiberContext => exact stays_proceed (ofExit_ne_leave (.success _))
  | fiberScope => exact stays_proceed (ofExit_ne_leave (.success _))
  | fiberTrace => exact stays_proceed (ofExit_ne_leave (.success _))
  | join child => exact stays_proceed (instruct_ne_leave _)
  | mask p interruptible => exact stays_proceed (instruct_ne_leave _)
  | withConcurrency p level => exact stays_proceed (instruct_ne_leave _)
  | addFrame p frame => exact stays_proceed (instruct_ne_leave _)
  | yieldNow => exact stays_yield (ofExit_ne_leave (.success .unit))

/-- A step of a fiber that does not leave its program ends the program only if an exit comes down to
the bottom of the stack. -/
theorem stays_step {w : World σ} {f : Key .fiber} {fiber : Fiber σ} {m : Machine σ}
    (hm : ∀ e, m.control ≠ .leave e) (hreach : ∀ e, m.control = .ofExit e →
      fiber.ops < fiber.context.limits.maxOps →
      (descend f e.isFailure m.stack (w.count f)).2 ≠ []) : (w.step f fiber m).2.Stays := by
  by_cases hbudget : fiber.ops < fiber.context.limits.maxOps
  · by_cases hexit : ∃ e, m.control = .ofExit e
    · obtain ⟨e, he⟩ := hexit
      rw [step_unwind he hbudget]
      exact stays_unwind (hreach e he hbudget) m.exiting
    · cases hcontrol : m.control with
      | start p =>
          simp only [step, hcontrol]
          exact stays_proceed (instruct_ne_leave p)
      | leave e => exact absurd hcontrol (hm e)
      | instruct p =>
          rw [step_instruct hcontrol hbudget]
          exact stays_instruct _ f fiber hm p
      | value v => exact absurd ⟨.success v, hcontrol⟩ hexit
      | failure c => exact absurd ⟨.failure c, hcontrol⟩ hexit
  · by_cases hwork : (∃ p, m.control = .instruct p) ∨ ∃ e, m.control = .ofExit e
    · rw [step_tired hwork (Nat.le_of_not_lt hbudget)]
      exact stays_yield hm
    · cases hcontrol : m.control with
      | start p =>
          simp only [step, hcontrol]
          exact stays_proceed (instruct_ne_leave p)
      | leave e => exact absurd hcontrol (hm e)
      | instruct p => exact absurd (Or.inl ⟨p, hcontrol⟩) hwork
      | value v => exact absurd (Or.inr ⟨.success v, hcontrol⟩) hwork
      | failure c => exact absurd (Or.inr ⟨.failure c, hcontrol⟩) hwork

end World

/-- The fiber `g` goes on with its program above the frames `T`. -/
structure Moment.Carries (x : Moment σ) (g : Key .fiber) (T : List (Waiting σ)) (m : Machine σ) :
    Prop where
  machine : x.machine? g = some m
  stack : T <:+ m.stack
  control : ∀ e, m.control ≠ .leave e

/-- An exit of the fiber `g` comes down to the frames `T`, past all that is above them. -/
structure Moment.Lands (x : Moment σ) (g : Key .fiber) (T : List (Waiting σ)) (m : Machine σ)
    (e : AnyExit) : Prop where
  works : ∃ y, x.Works g y m
  control : m.control = .ofExit e
  past : ∃ pre, m.stack = pre ++ T ∧ (World.descend g e.isFailure pre (x.world.count g)).2 = []

section

variable {r : Run σ} {k : Nat} {g : Key .fiber} {T : List (Waiting σ)} {m : Machine σ}

/-- A fiber above some frames stays above them, or leaves its program, or has an exit come down to
them. -/
theorem Run.carries_or_lands (h : (r.moment k).Carries g T m) :
    (∃ m', (r.moment (k + 1)).Carries g T m' ∧ m'.exiting = m.exiting) ∨
      (∃ y, (r.moment k).Leaves g y m) ∨ ∃ e, (r.moment k).Lands g T m e := by
  obtain ⟨hm, ⟨pre, hpre⟩, hcontrol⟩ := h
  rcases Moment.machine?_cases hm with hactive | ⟨haside, y, hy, hphase⟩
  · obtain ⟨y, hy, hrun⟩ := r.turned k g m hactive
    by_cases hleaves : (r.moment k).Leaves g y m
    · exact Or.inr (Or.inl ⟨y, hleaves⟩)
    · have hfree := Moment.free_of_not_leaves hactive hy hleaves
      have hnext := (Run.advance_of_turn hactive).trans (World.advance_of_free hy hfree)
      by_cases hlands : ∃ e, (r.moment k).Lands g T m e
      · exact Or.inr (Or.inr hlands)
      · have hreach : ∀ e, m.control = .ofExit e → y.ops < y.context.limits.maxOps →
            (World.descend g e.isFailure pre ((r.moment k).world.count g)).2 ≠ [] := fun e he hbudget hpast =>
          hlands ⟨e, ⟨y, hactive, hy, hfree, hbudget, Or.inr ⟨e, he⟩⟩, he, pre, hpre.symm, hpast⟩
        -- all is licensed here: all that counts is where the frames are
        have hmachine := (r.licensed_all k).machine hm id
        have hsound : World.StepSound .all (some g) (r.moment k).world m.exiting T
            ((r.moment k).world.step g y m) :=
          World.stepSound_above (r.licensed_all k).world (fun _ _ => trivial) hmachine.control hpre.symm
            (fun z hz => hmachine.stack z (hpre ▸ List.mem_append_left _ hz)) hcontrol
            (fun _ _ _ _ _ _ _ => ⟨trivial, fun _ _ => trivial⟩) hreach
        have hstays : ((r.moment k).world.step g y m).2.Stays := by
          refine World.stays_step hcontrol fun e he hbudget hnil => hreach e he hbudget ?_
          rw [← hpre, World.descend_append] at hnil
          by_contra hne
          rw [if_neg hne] at hnil
          exact hne (List.append_eq_nil_iff.mp hnil).1
        obtain ⟨y', hy', -⟩ := hsound.changes.grows.fibers g y hy
        obtain ⟨m', hm', hexiting, hstack, hc⟩ := World.machine?_conclude ⟨y', hy'⟩ hstays.decision
        obtain ⟨pushed, hpushed, -⟩ := hsound.stack
        rw [← hnext] at hm'
        refine Or.inl ⟨m', ⟨hm', ?_, ?_⟩, hexiting.trans hsound.exiting⟩
        · rcases hstack with heq | ⟨a, h, -, heq⟩
          · exact ⟨pushed, by rw [heq, hpushed]⟩
          · exact ⟨.release h :: pushed, by rw [heq, hpushed]; rfl⟩
        · rcases hc with heq | ⟨w, a, p, -, heq, -⟩
          · rw [heq]
            exact hstays.control
          · rw [heq]
            exact World.instruct_ne_leave p
  · obtain ⟨y', hy', -, -, hmachine⟩ := (r.move k).aside (r.lawful k) haside hy
    left
    rcases hmachine with heq | ⟨t, m', c, hsuspended, hc, hresumed⟩
    · exact ⟨m, ⟨heq.trans hm, ⟨pre, hpre⟩, hcontrol⟩, rfl⟩
    · rw [hsuspended] at hphase
      obtain rfl : m' = m := Option.some.inj hphase
      refine ⟨_, ⟨Moment.machine?_of_active hresumed, ⟨pre, hpre⟩, ?_⟩, rfl⟩
      rcases hc with rfl | ⟨p, -, rfl⟩
      · exact hcontrol
      · exact World.instruct_ne_leave p

/-- What the frames do with an exit that has come down to them. -/
theorem Moment.Lands.next {e : AnyExit} (h : (r.moment k).Lands g T m e) :
    ∃ w, World.Changes .all (some g) (r.moment k).world w ∧
      (∃ pre, m.stack = pre ++ T ∧
        World.descend g e.isFailure pre ((r.moment k).world.count g) = (w, [])) ∧
      r.moment (k + 1) = World.conclude g (World.unwind g m.exiting e T w) := by
  obtain ⟨⟨y, hworks⟩, hcontrol, pre, hpre, hpast⟩ := h
  have hmachine := (r.licensed_all k).machine (Moment.machine?_of_active hworks.turn) id
  have hcount : World.Changes .all (some g) (r.moment k).world ((r.moment k).world.count g) :=
    World.changes_own rfl fun x => rfl
  have hdown : World.Changes .all (some g) ((r.moment k).world.count g)
      (World.descend g e.isFailure pre ((r.moment k).world.count g)).1 :=
    World.changes_descend (fun z hz => hmachine.stack z (hpre ▸ List.mem_append_left _ hz)) _
  refine ⟨_, hcount.trans hdown, ⟨pre, hpre, Prod.ext rfl hpast⟩, ?_⟩
  rw [Run.advance_of_turn hworks.turn, World.advance_unwind hworks.here hcontrol, hpre,
    World.unwind_reaches hpast]

/-- A fiber above some frames stays above them, or leaves its program, or has an exit come down to
them: then the frames do with it what they do. -/
theorem Run.above_or_meets (hm : (r.moment k).machine? g = some m) (hT : T ≠ [])
    (hstack : T <:+ m.stack) :
    (∃ m', (r.moment (k + 1)).machine? g = some m' ∧ T <:+ m'.stack) ∨
      (∃ y, (r.moment k).Leaves g y m) ∨
      ∃ y e w, (r.moment k).Works g y m ∧ m.control = .ofExit e ∧
        World.Changes .all (some g) (r.moment k).world w ∧
        r.moment (k + 1) = World.conclude g (World.unwind g m.exiting e T w) := by
  have hcontrol : ∀ e, m.control ≠ .leave e := by
    intro e he
    have hnil := ((r.licensed_all k).machine hm id).leaving e he
    rw [hnil] at hstack
    exact hT (List.suffix_nil.mp hstack)
  rcases carries_or_lands ⟨hm, hstack, hcontrol⟩ with
    ⟨m', ⟨hm', hstack', -⟩, -⟩ | hleaves | ⟨e, hlands⟩
  · exact Or.inl ⟨m', hm', hstack'⟩
  · exact Or.inr (Or.inl hleaves)
  · obtain ⟨w, hchanges, -, hnext⟩ := hlands.next
    obtain ⟨y, hworks⟩ := hlands.works
    exact Or.inr (Or.inr ⟨y, e, w, hworks, hlands.control, hchanges, hnext⟩)

end

end Fibers
