import Mathlib.Tactic.Common
import Fibers.World.Drive

set_option autoImplicit false

/-! # Programs that do not look at traces

The trace in a cause tells where a program ran: a program that is run in a child has frames in its
traces that it would not have had otherwise. Two values are of one kind here if they agree once
every trace in a cause is left out, however deep in the value the cause sits (`Value.erase`).

`Alike` says the same of programs. It goes along the tree of a program, and where the rest of the
program is made by a function, alike arguments have to give alike rests. A program that is alike to
itself is one whose functions do not look at the traces in what they are given. The functions
themselves may read and write the part `view` of the board, and they may panic; nothing else in
the world shows to them (`Does`). The programs that are compared this way are those of one fiber:
they start no fibers and wait for nothing but the passing of time, and they keep to the references
in `refs`.
-/

namespace Fibers

/-! ## Values without traces -/

mutual

/-- The value without the traces in the causes it holds. -/
def Value.erase : Value → Value
  | .option v => .option (eraseOption v)
  | .list vs => .list (eraseList vs)
  | .exit e => .exit (eraseExit e)
  | .exits es => .exits (eraseExits es)
  | .decided w => .decided (eraseDecided w)
  | v => v

def Value.eraseOption : Option Value → Option Value
  | none => none
  | some v => some v.erase

def Value.eraseList : List Value → List Value
  | [] => []
  | v :: vs => v.erase :: eraseList vs

/-- The exit without traces, those in its value or its typed errors included. -/
def Value.eraseExit : Exit Value Value → Exit Value Value
  | .success v => .success v.erase
  | .failure c => .failure (eraseCause c)

/-- The cause without traces, those in its typed errors included. -/
def Value.eraseCause : Cause Value → Cause Value
  | .fail e => .fail e.erase
  | .die d => .die d
  | .interrupt id => .interrupt id
  | .andThen a b => .andThen (eraseCause a) (eraseCause b)
  | .both a b => .both (eraseCause a) (eraseCause b)
  | .traced c _ => eraseCause c

def Value.eraseExits : List (Exit Value Value) → List (Exit Value Value)
  | [] => []
  | e :: es => eraseExit e :: eraseExits es

def Value.eraseDecided : Option (Nat × Exit Value Value) → Option (Nat × Exit Value Value)
  | none => none
  | some w => some (eraseWinner w)

def Value.eraseWinner : Nat × Exit Value Value → Nat × Exit Value Value
  | (n, e) => (n, eraseExit e)

end

/-- A cause keeps its kind when the trace of a point is attached to it. -/
theorem Value.eraseCause_withTrace (c : AnyCause) (t : Trace) :
    eraseCause (c.withTrace t) = eraseCause c := by
  unfold Cause.withTrace
  split
  · rfl
  · split <;> rfl

/-- An exit followed by the failure of a finalizer: alike exits stay alike. -/
theorem Value.eraseExit_combine {e e' o o' : AnyExit} (he : eraseExit e = eraseExit e')
    (ho : eraseExit o = eraseExit o') :
    eraseExit (World.combine e o) = eraseExit (World.combine e' o') := by
  cases o with
  | success v =>
      cases o' with
      | success v' => exact he
      | failure c' => cases ho
  | failure c =>
      cases o' with
      | success v' => cases ho
      | failure c' =>
          simp only [eraseExit, Exit.failure.injEq] at ho
          cases e with
          | success v =>
              cases e' with
              | success v' => simp only [World.combine, Exit.thenCause, Exit.cause?, eraseExit, ho]
              | failure a' => cases he
          | failure a =>
              cases e' with
              | success v' => cases he
              | failure a' =>
                  simp only [eraseExit, Exit.failure.injEq] at he
                  simp only [World.combine, Exit.thenCause, Exit.cause?, eraseExit, eraseCause, he, ho]

namespace Detour

variable {σ S α : Type}

/-! ## Functions of the program's own -/

/-- Called where the board shows `s`, the function gives `r` and leaves the board showing `s'`.
Nothing else in the world shows to it, and it changes nothing else. -/
def Does (view : σ → S) (call : World σ → World σ × Except Defect α) (s : S)
    (r : Except Defect α) (s' : S) : Prop :=
  ∀ w, view w.board = s → ∃ b, call w = ({ w with board := b }, r) ∧ view b = s'

/-- Called where the board shows `s`, the function computes a datum, or panics, and leaves the
board showing `s'`. -/
def Computes (view : σ → S) (f : (Datum → Act σ .program) → Act σ .program) (s : S)
    (r : Except Defect Datum) (s' : S) : Prop :=
  ∀ (w : World σ) (k : Datum → Act σ .program), view w.board = s → ∃ b, view b = s' ∧
    w.run (f k) =
      match r with
      | .ok d => World.run (k d) { w with board := b }
      | .error d => ({ w with board := b }, .error d)

/-! ## Alike programs -/

section

variable (view : σ → S) (refs : FiberRef → Prop)

mutual

/-- The two programs are those of one fiber, and they do alike things whatever the traces in what
they come across. -/
inductive Alike : Program σ → Program σ → Prop
  | succeed {v v' : Value} : v.erase = v'.erase → Alike (.succeed v) (.succeed v')
  | failCause {c c' : AnyCause} : Value.eraseCause c = Value.eraseCause c' →
      Alike (.failCause c) (.failCause c')
  | lazy {thunk thunk' : Act σ .exit} {r r' : S → Except Defect AnyExit} {next : S → S} :
      (∀ s, Does view (fun w => w.run thunk) s (r s) (next s)) →
      (∀ s, Does view (fun w => w.run thunk') s (r' s) (next s)) →
      (∀ s e e', r s = .ok e → r' s = .ok e' → Value.eraseExit e = Value.eraseExit e') →
      (∀ s d, r s = .error d ↔ r' s = .error d) →
      Alike (.lazy thunk) (.lazy thunk')
  | defer {make make' : Act σ .program} :
      AlikeCalls (fun w => w.run make) (fun w => w.run make') →
      Alike (.defer make) (.defer make')
  | flatMap {p p' : Program σ} {k k' : Cont σ} :
      Alike p p' →
      (∀ v v', v.erase = v'.erase →
        AlikeCalls (fun w => w.proceedWith k v) (fun w => w.proceedWith k' v')) →
      Alike (.flatMap p k) (.flatMap p' k')
  | fold {p p' : Program σ} {h h' : Handler σ} {k k' : Cont σ} :
      Alike p p' →
      (∀ c c', Value.eraseCause c = Value.eraseCause c' →
        AlikeCalls (fun w => w.recoverWith h c) (fun w => w.recoverWith h' c')) →
      (∀ v v', v.erase = v'.erase →
        AlikeCalls (fun w => w.proceedWith k v) (fun w => w.proceedWith k' v')) →
      Alike (.fold p h k) (.fold p' h' k')
  | access {g g' : Services → Act σ .program} :
      (∀ env, AlikeCalls (fun w => w.run (g env)) (fun w => w.run (g' env))) →
      Alike (.access g) (.access g')
  | provide {p p' : Program σ} {inner : Services} :
      Alike p p' → Alike (.provide p inner) (.provide p' inner)
  | ensuring {p p' : Program σ} {fin fin' : Finalizer σ} :
      Alike p p' →
      (∀ e e', Value.eraseExit e = Value.eraseExit e' →
        AlikeCalls (fun w => w.finalizeWith fin e) (fun w => w.finalizeWith fin' e')) →
      Alike (.ensuring p fin) (.ensuring p' fin')
  | addFrame {p p' : Program σ} {frame : Frame} :
      Alike p p' → Alike (.addFrame p frame) (.addFrame p' frame)
  | mask {p p' : Program σ} {interruptible : Bool} :
      Alike p p' → Alike (.mask p interruptible) (.mask p' interruptible)
  | yieldNow : Alike .yieldNow .yieldNow
  | sleep {span : Duration} : Alike (.sleep span) (.sleep span)
  | getRef {r : FiberRef} : refs r → Alike (.getRef r) (.getRef r)
  | setRef {r : FiberRef} {d : Datum} : refs r → Alike (.setRef r d) (.setRef r d)
  | updateRef {r : FiberRef} {f : Datum → (Datum → Act σ .program) → Act σ .program}
      {result : Datum → S → Except Defect Datum} {next : Datum → S → S} :
      refs r → (∀ d s, Computes view (f d) s (result d s) (next d s)) →
      Alike (.updateRef r f) (.updateRef r f)

/-- Wherever they are called, the two functions panic with the same defect or give alike
programs. -/
inductive AlikeCalls : (World σ → World σ × Except Defect (Program σ)) →
    (World σ → World σ × Except Defect (Program σ)) → Prop
  | intro {call call' : World σ → World σ × Except Defect (Program σ)}
      {r r' : S → Except Defect (Program σ)} {next : S → S} :
      (∀ s, Does view call s (r s) (next s)) →
      (∀ s, Does view call' s (r' s) (next s)) →
      (∀ s p p', r s = .ok p → r' s = .ok p' → Alike p p') →
      (∀ s d, r s = .error d ↔ r' s = .error d) →
      AlikeCalls call call'

end

end

/-- The functions of the program do not look at the traces in what they are given. -/
def Blind (view : σ → S) (refs : FiberRef → Prop) (p : Program σ) : Prop := Alike view refs p p

variable {view : σ → S} {refs : FiberRef → Prop}

/-! ## Functions that qualify

Functions that only give something back, panic, or read and write the board. -/

theorem does_program (view : σ → S) (p : Program σ) (s : S) :
    Does view (fun w => w.run (.program p)) s (.ok p) s := fun w hw => ⟨w.board, rfl, hw⟩

theorem does_exit (view : σ → S) (e : AnyExit) (s : S) :
    Does view (fun w => w.run (.exit e)) s (.ok e) s := fun w hw => ⟨w.board, rfl, hw⟩

theorem does_panic (view : σ → S) {e : Ending} (message : String) (s : S) :
    Does view (fun w => w.run (.panic message : Act σ e)) s (.error ⟨message⟩) s :=
  fun w hw => ⟨w.board, rfl, hw⟩

theorem does_look {e : Ending} {k : σ → Act σ e} {s s' : S} {r : Except Defect (e.Result σ)}
    (h : ∀ b, view b = s → Does view (fun w => w.run (k b)) s r s') :
    Does view (fun w => w.run (.look k)) s r s' := fun w hw => h w.board hw w hw

theorem does_tell {e : Ending} {b : σ} {k : Act σ e} {s s' : S} {r : Except Defect (e.Result σ)}
    (h : Does view (fun w => w.run k) (view b) r s') :
    Does view (fun w => w.run (.tell b k)) s r s' := by
  intro w _
  obtain ⟨b', hrun, hview⟩ := h { w with board := b } rfl
  exact ⟨b', hrun, hview⟩

/-- Functions that give programs at once. -/
theorem alikeCalls_of_does {call call' : World σ → World σ × Except Defect (Program σ)}
    {p p' : Program σ} (hcall : ∀ s, Does view call s (.ok p) s)
    (hcall' : ∀ s, Does view call' s (.ok p') s) (h : Alike view refs p p') :
    AlikeCalls view refs call call' := by
  refine AlikeCalls.intro hcall hcall' ?_ ?_
  · intro _ q q' hq hq'
    cases hq
    cases hq'
    exact h
  · intro s d
    constructor <;> intro h <;> cases h

/-- Programs with a reference set to a value for their time, if what is read back does not depend on
traces. -/
theorem Alike.locally {c : Carrier Datum} {r : FiberRef} {d : Datum} {p p' : Program σ}
    (hc : ∀ v v' : Value, v.erase = v'.erase → c.unwrap? v = c.unwrap? v') (hr : refs r)
    (hp : Alike view refs p p') : Alike view refs (.locally c r d p) (.locally c r d p') := by
  refine .flatMap (.getRef hr) fun v v' hv => ?_
  have hcast : c.cast v = c.cast v' := by simp only [Carrier.cast, hc v v' hv]
  simp only [World.proceedWith, Carrier.expect, hcast]
  cases c.cast v' with
  | error defect =>
      exact alikeCalls_of_does (does_program view _) (does_program view _) (.failCause rfl)
  | ok previous =>
      refine alikeCalls_of_does (does_program view _) (does_program view _) (.ensuring ?_ fun _ _ _ => ?_)
      · exact .flatMap (.setRef hr) fun _ _ _ =>
          alikeCalls_of_does (fun _ w hw => ⟨w.board, rfl, hw⟩) (fun _ w hw => ⟨w.board, rfl, hw⟩) hp
      · exact alikeCalls_of_does (does_program view _) (does_program view _) (.setRef hr)

end Detour

end Fibers
