import Fibers.Proofs.Run.Steps

set_option autoImplicit false

/-! # Going down the stack

An exit goes down the stack past the frames that have nothing to do with it: a value past nothing
but restored regions, handles to be dropped and finalizers that somebody else has; a failure past
the frames that wait for values too. `descend` goes as far as that and no further. It stops at the
first frame that does something, so the stack above and the stack below a frame can be looked at
apart.
-/

namespace Fibers.World

variable {σ : Type} {L : Licence}

/-- Unwinds the stack with an exit. -/
def unwind (f : Key .fiber) (exiting : Bool) (e : AnyExit) (stack : List (Waiting σ))
    (w : World σ) : World σ × Stepped σ :=
  match e with
  | .success v => unwindValue f exiting v stack w
  | .failure c => unwindFailure f exiting c stack w

/-- Goes down the stack to the first frame that does something with a value, or with a failure. -/
def descend (f : Key .fiber) (failed : Bool) :
    List (Waiting σ) → World σ → World σ × List (Waiting σ)
  | [], w => (w, [])
  | .map k :: rest, w => if failed then descend f failed rest w else (w, .map k :: rest)
  | .fold h k :: rest, w => (w, .fold h k :: rest)
  | .restore r :: rest, w =>
      match w.restore f r with
      | (_, true) => (w, .restore r :: rest)
      | (w', false) => descend f failed rest w'
  | .release h :: rest, w => descend f failed rest (w.cancelFinalizer h).1
  | .finalizer h fin :: rest, w =>
      match w.claimFinalizer h with
      | (_, true) => (w, .finalizer h fin :: rest)
      | (w', false) => descend f failed rest w'
  | .resumeWith saved :: rest, w => (w, .resumeWith saved :: rest)

/-! ## Laws of the descent -/

theorem unwind_descend (f : Key .fiber) (exiting : Bool) (e : AnyExit)
    (stack : List (Waiting σ)) (w : World σ) :
    unwind f exiting e stack w =
      unwind f exiting e (descend f e.isFailure stack w).2 (descend f e.isFailure stack w).1 := by
  induction stack generalizing w with
  | nil => rfl
  | cons x rest ih =>
      cases x with
      | map k =>
          cases e with
          | success v => rfl
          | failure c => exact ih w
      | fold h k => rfl
      | restore r =>
          rcases hr : w.restore f r with ⟨w', left⟩
          cases left with
          | true => simp only [descend, hr]
          | false =>
              have hpass : unwind f exiting e (.restore r :: rest) w = unwind f exiting e rest w' := by
                cases e with
                | success v => simp only [unwind, unwindValue, hr]
                | failure c => simp only [unwind, unwindFailure, hr]
              rw [hpass, ih w']
              simp only [descend, hr]
      | release h =>
          have hpass : unwind f exiting e (.release h :: rest) w =
              unwind f exiting e rest (w.cancelFinalizer h).1 := by cases e <;> rfl
          rw [hpass, ih]
          rfl
      | finalizer ho fin =>
          rcases hc : w.claimFinalizer ho with ⟨w', won⟩
          cases won with
          | true => simp only [descend, hc]
          | false =>
              have hpass : unwind f exiting e (.finalizer ho fin :: rest) w =
                  unwind f exiting e rest w' := by
                cases e with
                | success v => simp only [unwind, unwindValue, hc]
                | failure c => simp only [unwind, unwindFailure, hc]
              rw [hpass, ih w']
              simp only [descend, hc]
      | resumeWith saved => rfl

/-- The descent through the upper part of a stack either stops there or goes on below it. -/
theorem descend_append (f : Key .fiber) (failed : Bool) (pre rest : List (Waiting σ))
    (w : World σ) :
    descend f failed (pre ++ rest) w =
      if (descend f failed pre w).2 = [] then descend f failed rest (descend f failed pre w).1
      else ((descend f failed pre w).1, (descend f failed pre w).2 ++ rest) := by
  induction pre generalizing w with
  | nil => rfl
  | cons x pre ih =>
      cases x with
      | map k =>
          cases failed with
          | true => exact ih w
          | false => rfl
      | fold h k => rfl
      | restore r =>
          rcases hr : w.restore f r with ⟨w', left⟩
          cases left with
          | true => simp only [List.cons_append, descend, hr, reduceCtorEq, if_false]
          | false =>
              simp only [List.cons_append, descend, hr]
              exact ih w'
      | release h => exact ih _
      | finalizer ho fin =>
          rcases hc : w.claimFinalizer ho with ⟨w', won⟩
          cases won with
          | true => simp only [List.cons_append, descend, hc, reduceCtorEq, if_false]
          | false =>
              simp only [List.cons_append, descend, hc]
              exact ih w'
      | resumeWith saved => rfl

/-- An exit does not come down past a frame that stops it. -/
theorem length_descend {f : Key .fiber} {failed : Bool} {z : Waiting σ} {rest : List (Waiting σ)}
    (hz : ∀ w, (descend f failed (z :: rest) w).2 = z :: rest) (pre : List (Waiting σ))
    (w : World σ) : rest.length < (descend f failed (pre ++ z :: rest) w).2.length := by
  rw [descend_append]
  split
  · rw [hz]
    exact Nat.lt_succ_self _
  · simp only [List.length_append, List.length_cons]
    omega

/-- What is left is the lower part of the stack. -/
theorem descend_suffix (f : Key .fiber) (failed : Bool) (stack : List (Waiting σ)) (w : World σ) :
    (descend f failed stack w).2 <:+ stack := by
  induction stack generalizing w with
  | nil => exact List.suffix_rfl
  | cons x rest ih =>
      cases x with
      | map k =>
          cases failed with
          | true => exact (ih w).trans (List.suffix_cons _ _)
          | false => exact List.suffix_rfl
      | fold h k => exact List.suffix_rfl
      | restore r =>
          rcases hr : w.restore f r with ⟨w', left⟩
          cases left with
          | true =>
              simp only [descend, hr]
              exact List.suffix_rfl
          | false =>
              simp only [descend, hr]
              exact (ih w').trans (List.suffix_cons _ _)
      | release h => exact (ih _).trans (List.suffix_cons _ _)
      | finalizer ho fin =>
          rcases hc : w.claimFinalizer ho with ⟨w', won⟩
          cases won with
          | true =>
              simp only [descend, hc]
              exact List.suffix_rfl
          | false =>
              simp only [descend, hc]
              exact (ih w').trans (List.suffix_cons _ _)
      | resumeWith saved => exact List.suffix_rfl

/-- The descent stops where a second one would not move. -/
theorem descend_descend (f : Key .fiber) (failed : Bool) (stack : List (Waiting σ)) (w : World σ) :
    descend f failed (descend f failed stack w).2 (descend f failed stack w).1 =
      descend f failed stack w := by
  induction stack generalizing w with
  | nil => rfl
  | cons x rest ih =>
      cases x with
      | map k =>
          cases failed with
          | true => exact ih w
          | false => rfl
      | fold h k => rfl
      | restore r =>
          rcases hr : w.restore f r with ⟨w', left⟩
          cases left with
          | true => simp only [descend, hr]
          | false =>
              simp only [descend, hr]
              exact ih w'
      | release h => exact ih _
      | finalizer ho fin =>
          rcases hc : w.claimFinalizer ho with ⟨w', won⟩
          cases won with
          | true => simp only [descend, hc]
          | false =>
              simp only [descend, hc]
              exact ih w'
      | resumeWith saved => rfl

/-! ## What it amounts to -/

theorem changes_claimFinalizer {w : World σ} {f : Key .fiber} {ho : Option Handle}
    (h : ∀ h, ho = some h → L.hold h) : Changes L (some f) w (w.claimFinalizer ho).1 := by
  cases ho with
  | none => exact .refl w
  | some h' => exact changes_cancelFinalizer (h h' rfl)

theorem changes_descend {f : Key .fiber} {failed : Bool} {stack : List (Waiting σ)}
    (hstack : ∀ x ∈ stack, x.Licensed L) (w : World σ) :
    Changes L (some f) w (descend f failed stack w).1 := by
  induction stack generalizing w with
  | nil => exact .refl w
  | cons x rest ih =>
      have hx := hstack x List.mem_cons_self
      have hrest : ∀ y ∈ rest, y.Licensed L := fun y hy => hstack y (List.mem_cons_of_mem _ hy)
      cases x with
      | map k =>
          cases failed with
          | true => exact ih hrest w
          | false => exact .refl w
      | fold h k => exact .refl w
      | restore r =>
          have hchange : Changes L (some f) w (w.restore f r).1 := changes_restore w f r
          rcases hr : w.restore f r with ⟨w', left⟩
          rw [hr] at hchange
          cases left with
          | true =>
              simp only [descend, hr]
              exact .refl w
          | false =>
              simp only [descend, hr]
              exact hchange.trans (ih hrest w')
      | release h => exact (changes_cancelFinalizer hx).trans (ih hrest _)
      | finalizer ho fin =>
          have hchange : Changes L (some f) w (w.claimFinalizer ho).1 :=
            changes_claimFinalizer hx.1
          rcases hc : w.claimFinalizer ho with ⟨w', won⟩
          rw [hc] at hchange
          cases won with
          | true =>
              simp only [descend, hc]
              exact .refl w
          | false =>
              simp only [descend, hc]
              exact hchange.trans (ih hrest w')
      | resumeWith saved => exact .refl w

/-- Running a finalizer on the way out. -/
theorem stepSound_enterFinalizer {w : World σ} {f : Key .fiber} {m : Machine σ}
    {fin : Finalizer σ} (hfin : fin.Licensed L) (e : AnyExit) :
    StepSound L (some f) w m.exiting m.stack (w.enterFinalizer f m fin e) := by
  have hown : Changes L (some f) w
      (w.modifyFiber f fun fiber => { fiber with masks := fiber.masks.push false }) :=
    changes_own rfl fun x => rfl
  have hsound : StepSound L (some f) _ m.exiting (.restore .interruptible :: .resumeWith e :: m.stack)
      (w.enterFinalizer f m fin e) :=
    stepSound_enter
      (m := { m with stack := .restore .interruptible :: .resumeWith e :: m.stack })
      (sound_finalizeWith hfin e
        (w.modifyFiber f fun fiber => { fiber with masks := fiber.masks.push false }))
  obtain ⟨pushed, heq, hpushed⟩ := hsound.stack
  refine ⟨hown.trans hsound.changes, hsound.control,
    ⟨pushed ++ [.restore .interruptible, .resumeWith e], ?_, ?_⟩, hsound.exiting, hsound.leaving,
    hsound.release, hsound.done⟩
  · rw [heq, List.append_assoc]
    rfl
  · intro y hy
    rcases List.mem_append.mp hy with hy | hy
    · exact hpushed y hy
    · rcases List.mem_cons.mp hy with rfl | hy
      · trivial
      · rw [List.mem_singleton.mp hy]
        trivial

/-- A descent does not come back up. -/
theorem descend_ne_cons (f : Key .fiber) (failed : Bool) (x : Waiting σ)
    (rest : List (Waiting σ)) (w w' : World σ) : descend f failed rest w ≠ (w', x :: rest) := by
  intro h
  have hsuffix := descend_suffix f failed rest w
  rw [h] at hsuffix
  have hlength : rest.length + 1 ≤ rest.length := hsuffix.length_le
  omega

/-- The frame of a finalizer that an exit does not pass runs the finalizer. -/
theorem unwind_finalizer {f : Key .fiber} {e : AnyExit} {ho : Option Handle} {fin : Finalizer σ}
    {rest : List (Waiting σ)} {w : World σ}
    (hstop : descend f e.isFailure (.finalizer ho fin :: rest) w = (w, .finalizer ho fin :: rest))
    (exiting : Bool) :
    ∃ w', w.claimFinalizer ho = (w', true) ∧ unwind f exiting e (.finalizer ho fin :: rest) w =
      w'.enterFinalizer f { control := .ofExit e, stack := rest, exiting } fin e := by
  rcases hc : w.claimFinalizer ho with ⟨w', won⟩
  cases won with
  | true =>
      refine ⟨w', rfl, ?_⟩
      cases e with
      | success v => simp only [unwind, unwindValue, hc, Control.ofExit]
      | failure c => simp only [unwind, unwindFailure, hc, Control.ofExit]
  | false =>
      simp only [descend, hc] at hstop
      exact absurd hstop (descend_ne_cons f _ _ rest w' w)

/-- What the first frame of a stack does with an exit that does not pass it. -/
theorem stepSound_unwind_cons {f : Key .fiber} {e : AnyExit} {x : Waiting σ}
    {rest : List (Waiting σ)} {w : World σ} (hx : x.Licensed L)
    (hstop : descend f e.isFailure (x :: rest) w = (w, x :: rest)) (exiting : Bool) :
    StepSound L (some f) w exiting rest (unwind f exiting e (x :: rest) w) := by
  set m : Machine σ := { control := .ofExit e, stack := rest, exiting } with hm
  -- a frame that a descent goes past is not the frame it stops at
  have hpassed : ∀ w', descend f e.isFailure rest w' ≠ (w, x :: rest) := fun w' =>
    descend_ne_cons f _ x rest w' w
  cases x with
  | map k =>
      cases e with
      | success v => exact stepSound_enter (m := m) (sound_proceedWith hx v w)
      | failure c => exact absurd hstop (hpassed w)
  | fold h k =>
      cases e with
      | success v => exact stepSound_enter (m := m) (sound_proceedWith hx.2 v w)
      | failure c => exact stepSound_enter (m := m) (sound_recoverWith hx.1 c w)
  | restore r =>
      have hchange : Changes L (some f) w (w.restore f r).1 := changes_restore w f r
      rcases hr : w.restore f r with ⟨w', left⟩
      rw [hr] at hchange
      cases left with
      | true =>
          have hstep : unwind f exiting e (.restore r :: rest) w = (w', { machine := m }) := by
            cases e with
            | success v => simp only [unwind, unwindValue, hr, hm, Control.ofExit]
            | failure c => simp only [unwind, unwindFailure, hr, hm, Control.ofExit]
          rw [hstep]
          exact stepSound_go (m := m) hchange (licensed_control_ofExit e) (ofExit_ne_leave e)
      | false =>
          simp only [descend, hr] at hstop
          exact absurd hstop (hpassed w')
  | release h => exact absurd hstop (hpassed _)
  | finalizer ho fin =>
      have hchange : Changes L (some f) w (w.claimFinalizer ho).1 := changes_claimFinalizer hx.1
      obtain ⟨w', hc, hstep⟩ := unwind_finalizer hstop exiting
      rw [hc] at hchange
      rw [hstep]
      exact (stepSound_enterFinalizer (m := m) hx.2 e).after hchange
  | resumeWith saved =>
      cases e with
      | success v => exact stepSound_go (m := m) (.refl w) (licensed_control_ofExit _) (ofExit_ne_leave _)
      | failure c => exact stepSound_go (m := m) (.refl w) (licensed_control_ofExit _) (ofExit_ne_leave _)

/-! ## Above a frame, and at it -/

/-- An exit that gets past the upper part of a stack is the business of the lower part. -/
theorem unwind_reaches {f : Key .fiber} {e : AnyExit} {pre : List (Waiting σ)} {w : World σ}
    (h : (descend f e.isFailure pre w).2 = []) (exiting : Bool) (rest : List (Waiting σ)) :
    unwind f exiting e (pre ++ rest) w =
      unwind f exiting e rest (descend f e.isFailure pre w).1 := by
  rw [unwind_descend, descend_append, if_pos h, ← unwind_descend]

/-- An exit that stops in the upper part of a stack leaves the lower part alone. -/
theorem stepSound_unwind_above {f : Key .fiber} {e : AnyExit} {pre : List (Waiting σ)}
    {w : World σ} (hpre : ∀ x ∈ pre, x.Licensed L) (h : (descend f e.isFailure pre w).2 ≠ [])
    (exiting : Bool) (rest : List (Waiting σ)) :
    StepSound L (some f) w exiting rest (unwind f exiting e (pre ++ rest) w) := by
  have hdown : Changes L (some f) w (descend f e.isFailure pre w).1 := changes_descend hpre w
  have hsuffix := descend_suffix f e.isFailure pre w
  have hstop := descend_descend f e.isFailure pre w
  rw [unwind_descend, descend_append, if_neg h]
  rcases hpass : descend f e.isFailure pre w with ⟨w', st⟩
  rw [hpass] at hdown hsuffix hstop h
  cases st with
  | nil => exact absurd rfl h
  | cons x below =>
      have hlicensed : ∀ y ∈ x :: below, y.Licensed L := fun y hy => hpre y (hsuffix.subset hy)
      have hhere : descend f e.isFailure (x :: (below ++ rest)) w' = (w', x :: (below ++ rest)) := by
        have happend := descend_append f e.isFailure (x :: below) rest w'
        rw [hstop, if_neg h] at happend
        exact happend
      have hsound :=
        (stepSound_unwind_cons (hlicensed x List.mem_cons_self) hhere exiting).after hdown
      obtain ⟨pushed, heq, hpushed⟩ := hsound.stack
      refine ⟨hsound.changes, hsound.control, ⟨pushed ++ below, ?_, ?_⟩, hsound.exiting,
        hsound.leaving, hsound.release, hsound.done⟩
      · rw [List.append_assoc]
        exact heq
      · intro y hy
        rcases List.mem_append.mp hy with hy | hy
        · exact hpushed y hy
        · exact hlicensed y (List.mem_cons_of_mem _ hy)

/-- An exit that goes down a stack that keeps to the licence. -/
theorem stepSound_unwind {f : Key .fiber} {exiting : Bool} {e : AnyExit}
    {stack : List (Waiting σ)} (hstack : ∀ x ∈ stack, x.Licensed L) (w : World σ) :
    StepSound L (some f) w exiting [] (unwind f exiting e stack w) := by
  by_cases h : (descend f e.isFailure stack w).2 = []
  · have hdown : Changes L (some f) w (descend f e.isFailure stack w).1 :=
      changes_descend hstack w
    have hend := unwind_reaches h exiting []
    rw [List.append_nil] at hend
    rw [hend]
    have hbottom : StepSound L (some f) (descend f e.isFailure stack w).1 exiting []
        (unwind f exiting e [] (descend f e.isFailure stack w).1) := by
      cases exiting with
      | true =>
          cases e with
          | success v =>
              exact ⟨.refl _, trivial, ⟨[], rfl, fun y hy => by cases hy⟩, rfl,
                fun _ _ => rfl, (fun a h' ha => by cases ha), fun _ _ => ⟨rfl, rfl⟩⟩
          | failure c =>
              exact ⟨.refl _, trivial, ⟨[], rfl, fun y hy => by cases hy⟩, rfl,
                fun _ _ => rfl, (fun a h' ha => by cases ha), fun _ _ => ⟨rfl, rfl⟩⟩
      | false =>
          cases e with
          | success v =>
              exact ⟨.refl _, trivial, ⟨[], rfl, fun y hy => by cases hy⟩, rfl,
                fun _ _ => rfl, (fun a h' ha => by cases ha), fun x hx => by cases hx⟩
          | failure c =>
              exact ⟨.refl _, trivial, ⟨[], rfl, fun y hy => by cases hy⟩, rfl,
                fun _ _ => rfl, (fun a h' ha => by cases ha), fun x hx => by cases hx⟩
    exact hbottom.after hdown
  · have habove := stepSound_unwind_above hstack h exiting []
    rw [List.append_nil] at habove
    exact habove

end Fibers.World
