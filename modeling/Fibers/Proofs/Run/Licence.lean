import Mathlib.Tactic.Common
import Fibers.World.Drive

set_option autoImplicit false

/-! # What a program may contain

Two instructions are the business of the party that closes a scope: running a finalizer that it
has claimed, and publishing the exit. No program that a user writes contains them. A `Licence`
says for which finalizers and scopes they are allowed, and `Licensed` that a text keeps to it,
however the values turn out that it branches over.
-/

namespace Fibers

variable {σ : Type}

/-- The claimed finalizers and the publications that a text may contain, the handles that the frames
of a stack and the scopes within scopes may hold, and whether a text may drop observers of a future,
whoever they are. The machines of exempt fibers are not looked at. -/
structure Licence where
  finalize : Handle → Prop
  publish : Key .scope → Prop
  hold : Handle → Prop
  forget : Prop
  exempt : Key .fiber → Prop

/-- The licence of the programs that users write. -/
def Licence.none : Licence :=
  { finalize := fun _ => False, publish := fun _ => False, hold := fun _ => False, forget := True
    exempt := fun _ => False }

/-- Whether a command drops an observer of a future. -/
def Call.forgets : Call → Bool
  | .unwatchFuture _ _ => true
  | _ => false

mutual

/-- A program that keeps to a licence. -/
inductive Program.Licensed (L : Licence) : Program σ → Prop
  | succeed {v : Value} : Program.Licensed L (.succeed v)
  | failCause {c : AnyCause} : Program.Licensed L (.failCause c)
  | lazy {thunk : Act σ .exit} : thunk.Licensed L → Program.Licensed L (.lazy thunk)
  | defer {make : Act σ .program} : make.Licensed L → Program.Licensed L (.defer make)
  | flatMap {p : Program σ} {k : Cont σ} :
      p.Licensed L → k.Licensed L → Program.Licensed L (.flatMap p k)
  | fold {p : Program σ} {h : Handler σ} {k : Cont σ} :
      p.Licensed L → h.Licensed L → k.Licensed L → Program.Licensed L (.fold p h k)
  | access {g : Services → Act σ .program} :
      (∀ s, (g s).Licensed L) → Program.Licensed L (.access g)
  | provide {p : Program σ} {s : Services} : p.Licensed L → Program.Licensed L (.provide p s)
  | async {register : Key .future → Act σ .registration} :
      (∀ f, (register f).Licensed L) → Program.Licensed L (.async register)
  | ensuring {p : Program σ} {fin : Finalizer σ} :
      p.Licensed L → fin.Licensed L → fin.isLent = false → Program.Licensed L (.ensuring p fin)
  | fork {p : Program σ} {params : ForkParams} :
      p.Licensed L → Program.Licensed L (.fork p params)
  | fiberContext : Program.Licensed L .fiberContext
  | fiberScope : Program.Licensed L .fiberScope
  | fiberTrace : Program.Licensed L .fiberTrace
  | join {f : Key .fiber} : Program.Licensed L (.join f)
  | raceAll {ps : List (Program σ)} :
      (∀ p ∈ ps, p.Licensed L) → Program.Licensed L (.raceAll ps)
  | zipAll {ps : List (Program σ)} :
      (∀ p ∈ ps, p.Licensed L) → Program.Licensed L (.zipAll ps)
  | mask {p : Program σ} {interruptible : Bool} :
      p.Licensed L → Program.Licensed L (.mask p interruptible)
  | withConcurrency {p : Program σ} {level : Nat} :
      p.Licensed L → Program.Licensed L (.withConcurrency p level)
  | addFrame {p : Program σ} {frame : Frame} :
      p.Licensed L → Program.Licensed L (.addFrame p frame)
  | wait {a : Awaited} : Program.Licensed L (.wait a)
  | yieldNow : Program.Licensed L .yieldNow
  | duty {d : Duty σ} : d.Licensed L → Program.Licensed L (.duty d)

/-- What follows a value and keeps to a licence. -/
inductive Cont.Licensed (L : Licence) : Cont σ → Prop
  | apply {g : Value → Act σ .program} : (∀ v, (g v).Licensed L) → Cont.Licensed L (.apply g)
  | next {p : Program σ} : p.Licensed L → Cont.Licensed L (.next p)
  | sequel {s : Sequel σ} : s.Licensed L → Cont.Licensed L (.sequel s)

/-- What follows a failure and keeps to a licence. -/
inductive Handler.Licensed (L : Licence) : Handler σ → Prop
  | apply {g : AnyCause → Act σ .program} : (∀ c, (g c).Licensed L) → Handler.Licensed L (.apply g)
  | capture : Handler.Licensed L .capture

/-- A finalizer that keeps to a licence. -/
inductive Finalizer.Licensed (L : Licence) : Finalizer σ → Prop
  | apply {g : AnyExit → Act σ .program} :
      (∀ e, (g e).Licensed L) → Finalizer.Licensed L (.apply g)
  | lent {g : AnyExit → Act σ .program} : (∀ e, (g e).Licensed L) → Finalizer.Licensed L (.lent g)
  | canceler {p : Program σ} : p.Licensed L → Finalizer.Licensed L (.canceler p)
  | closeChild {child : Key .scope} {parent : FiberId} :
      Finalizer.Licensed L (.closeChild child parent)
  | relinquish {s : Key .semaphore} {ticket : Nat} : Finalizer.Licensed L (.relinquish s ticket)
  | relinquishOnFailure {s : Key .semaphore} {ticket : Nat} :
      Finalizer.Licensed L (.relinquishOnFailure s ticket)

/-- A duty that keeps to a licence. -/
inductive Duty.Licensed (L : Licence) : Duty σ → Prop
  | guarded {s : Key .semaphore} {p : Program σ} : p.Licensed L → Duty.Licensed L (.guarded s p)
  | acquire {s : Key .semaphore} : Duty.Licensed L (.acquire s)
  | take {s : Key .semaphore} {ticket : Nat} : Duty.Licensed L (.take s ticket)
  | close {s : Key .scope} {e : AnyExit} : Duty.Licensed L (.close s e)
  | finish {s : Key .scope} : Duty.Licensed L (.finish s)
  | release {h : Handle} {e : AnyExit} : Duty.Licensed L (.release h e)
  | finalize {h : Handle} {fin : Finalizer σ} {e : AnyExit} :
      L.finalize h → fin.Licensed L → Duty.Licensed L (.finalize h fin e)

/-- A continuation of the library's that keeps to a licence. -/
inductive Sequel.Licensed (L : Licence) : Sequel σ → Prop
  | captured : Sequel.Licensed L .captured
  | publish {s : Key .scope} : L.publish s → Sequel.Licensed L (.publish s)
  | runNext {p : Program σ} : p.Licensed L → Sequel.Licensed L (.runNext p)
  | combine {e : AnyExit} : Sequel.Licensed L (.combine e)
  | combineAll {e : AnyExit} : Sequel.Licensed L (.combineAll e)
  | joined {ours theirs : Key .refs} : Sequel.Licensed L (.joined ours theirs)
  | raceDecided {c : Contest} : Sequel.Licensed L (.raceDecided c)
  | raceDrained {c : Contest} {winner : Nat} {e : AnyExit} :
      Sequel.Licensed L (.raceDrained c winner e)
  | zipDecided {c : Contest} : Sequel.Licensed L (.zipDecided c)
  | zipDrained {c : Contest} {first : AnyCause} : Sequel.Licensed L (.zipDrained c first)
  | awaitNext {f : Key .fiber} : Sequel.Licensed L (.awaitNext f)
  | awaited {es : List AnyExit} : Sequel.Licensed L (.awaited es)

/-- An act that keeps to a licence. -/
inductive Act.Licensed (L : Licence) : {e : Ending} → Act σ e → Prop
  | program {p : Program σ} : p.Licensed L → Act.Licensed L (.program p)
  | exit {e : AnyExit} : Act.Licensed L (.exit e)
  | done : Act.Licensed L .done
  | ready {p : Program σ} : p.Licensed L → Act.Licensed L (.ready p)
  | pending {canceler : Option (Program σ)} :
      (∀ p, canceler = some p → p.Licensed L) → Act.Licensed L (.pending canceler)
  | panic {e : Ending} {message : String} : Act.Licensed L (.panic message : Act σ e)
  | look {e : Ending} {k : σ → Act σ e} : (∀ b, (k b).Licensed L) → Act.Licensed L (.look k)
  | tell {e : Ending} {b : σ} {k : Act σ e} : k.Licensed L → Act.Licensed L (.tell b k)
  | ask {e : Ending} {q : Query} {k : q.Reply → Act σ e} :
      (∀ r, (k r).Licensed L) → Act.Licensed L (.ask q k)
  | call {e : Ending} {c : Call} {k : c.Reply → Act σ e} :
      (c.forgets = true → L.forget) → (∀ r, (k r).Licensed L) → Act.Licensed L (.call c k)
  | resolve {e : Ending} {f : Key .future} {p : Program σ} {k : Bool → Act σ e} :
      p.Licensed L → (∀ b, (k b).Licensed L) → Act.Licensed L (.resolve f p k)
  | register {e : Ending} {s : Key .scope} {g : AnyExit → Act σ .program}
      {k : Option Handle → Act σ e} :
      (∀ x, (g x).Licensed L) → (∀ h, (k h).Licensed L) → Act.Licensed L (.register s g k)
  | after {e : Ending} {delay : Duration} {task : Act σ .unit} {k : Nat → Act σ e} :
      task.Licensed L → (∀ n, (k n).Licensed L) → Act.Licensed L (.after delay task k)
  | watchFiber {e : Ending} {f : Key .fiber} {r : AnyExit → Reaction σ}
      {k : Option Nat → Act σ e} :
      (∀ n, (k n).Licensed L) → Act.Licensed L (.watchFiber f r k)
  | watchFuture {e : Ending} {f : Key .future} {r : Outcome → Reaction σ}
      {k : Option Nat → Act σ e} :
      (∀ n, (k n).Licensed L) → Act.Licensed L (.watchFuture f r k)
  | elsewhere {e : Ending} {delay : Duration} {f : Key .future} {p : Program σ} {k : Act σ e} :
      p.Licensed L → k.Licensed L → Act.Licensed L (.elsewhere delay f p k)

end

/-! ## More licence -/

/-- A licence that allows texts at least as much; who is exempt is another matter. -/
instance : LE Licence :=
  ⟨fun L M => (∀ h, L.finalize h → M.finalize h) ∧ (∀ s, L.publish s → M.publish s) ∧
    (∀ h, L.hold h → M.hold h) ∧ (L.forget → M.forget)⟩

theorem Licence.none_le {L : Licence} (hL : L.forget) : Licence.none ≤ L :=
  ⟨fun _ h => h.elim, fun _ h => h.elim, fun _ h => h.elim, fun _ => hL⟩

variable {L M : Licence}

mutual

theorem Program.Licensed.mono {p : Program σ} (hLM : L ≤ M) (h : p.Licensed L) :
    p.Licensed M :=
  match h with
  | .succeed => .succeed
  | .failCause => .failCause
  | .lazy ht => .lazy (ht.mono hLM)
  | .defer hm => .defer (hm.mono hLM)
  | .flatMap hp hk => .flatMap (hp.mono hLM) (hk.mono hLM)
  | .fold hp hh hk => .fold (hp.mono hLM) (hh.mono hLM) (hk.mono hLM)
  | .access hg => .access fun s => (hg s).mono hLM
  | .provide hp => .provide (hp.mono hLM)
  | .async hr => .async fun f => (hr f).mono hLM
  | .ensuring hp hf hlent => .ensuring (hp.mono hLM) (hf.mono hLM) hlent
  | .fork hp => .fork (hp.mono hLM)
  | .fiberContext => .fiberContext
  | .fiberScope => .fiberScope
  | .fiberTrace => .fiberTrace
  | .join => .join
  | .raceAll hps => .raceAll fun p hp => (hps p hp).mono hLM
  | .zipAll hps => .zipAll fun p hp => (hps p hp).mono hLM
  | .mask hp => .mask (hp.mono hLM)
  | .withConcurrency hp => .withConcurrency (hp.mono hLM)
  | .addFrame hp => .addFrame (hp.mono hLM)
  | .wait => .wait
  | .yieldNow => .yieldNow
  | .duty hd => .duty (hd.mono hLM)

theorem Cont.Licensed.mono {k : Cont σ} (hLM : L ≤ M) (h : k.Licensed L) : k.Licensed M :=
  match h with
  | .apply hg => .apply fun v => (hg v).mono hLM
  | .next hp => .next (hp.mono hLM)
  | .sequel hs => .sequel (hs.mono hLM)

theorem Handler.Licensed.mono {k : Handler σ} (hLM : L ≤ M) (h : k.Licensed L) :
    k.Licensed M :=
  match h with
  | .apply hg => .apply fun c => (hg c).mono hLM
  | .capture => .capture

theorem Finalizer.Licensed.mono {fin : Finalizer σ} (hLM : L ≤ M) (h : fin.Licensed L) :
    fin.Licensed M :=
  match h with
  | .apply hg => .apply fun e => (hg e).mono hLM
  | .lent hg => .lent fun e => (hg e).mono hLM
  | .canceler hp => .canceler (hp.mono hLM)
  | .closeChild => .closeChild
  | .relinquish => .relinquish
  | .relinquishOnFailure => .relinquishOnFailure

theorem Duty.Licensed.mono {d : Duty σ} (hLM : L ≤ M) (h : d.Licensed L) : d.Licensed M :=
  match h with
  | .guarded hp => .guarded (hp.mono hLM)
  | .acquire => .acquire
  | .take => .take
  | .close => .close
  | .finish => .finish
  | .release => .release
  | .finalize hh hf => .finalize (hLM.1 _ hh) (hf.mono hLM)

theorem Sequel.Licensed.mono {s : Sequel σ} (hLM : L ≤ M) (h : s.Licensed L) :
    s.Licensed M :=
  match h with
  | .captured => .captured
  | .publish hs => .publish (hLM.2.1 _ hs)
  | .runNext hp => .runNext (hp.mono hLM)
  | .combine => .combine
  | .combineAll => .combineAll
  | .joined => .joined
  | .raceDecided => .raceDecided
  | .raceDrained => .raceDrained
  | .zipDecided => .zipDecided
  | .zipDrained => .zipDrained
  | .awaitNext => .awaitNext
  | .awaited => .awaited

theorem Act.Licensed.mono {e : Ending} {a : Act σ e} (hLM : L ≤ M) (h : a.Licensed L) :
    a.Licensed M :=
  match h with
  | .program hp => .program (hp.mono hLM)
  | .exit => .exit
  | .done => .done
  | .ready hp => .ready (hp.mono hLM)
  | .pending hc => .pending fun p hp => (hc p hp).mono hLM
  | .panic => .panic
  | .look hk => .look fun b => (hk b).mono hLM
  | .tell hk => .tell (hk.mono hLM)
  | .ask hk => .ask fun r => (hk r).mono hLM
  | .call hc hk => .call (fun hf => hLM.2.2.2 (hc hf)) fun r => (hk r).mono hLM
  | .resolve hp hk => .resolve (hp.mono hLM) fun b => (hk b).mono hLM
  | .register hg hk => .register (fun x => (hg x).mono hLM) fun h => (hk h).mono hLM
  | .after ht hk => .after (ht.mono hLM) fun n => (hk n).mono hLM
  | .watchFiber hk => .watchFiber fun n => (hk n).mono hLM
  | .watchFuture hk => .watchFuture fun n => (hk n).mono hLM
  | .elsewhere hp hk => .elsewhere (hp.mono hLM) (hk.mono hLM)

end

/-! ## What fibers and worlds have in store -/

/-- The next thing to do keeps to a licence. -/
def Control.Licensed (L : Licence) : Control σ → Prop
  | .start p => p.Licensed L
  | .instruct p => p.Licensed L
  | .value _ => True
  | .failure _ => True
  | .leave _ => True

/-- A frame that keeps to a licence. -/
def Waiting.Licensed (L : Licence) : Waiting σ → Prop
  | .map k => k.Licensed L
  | .fold h k => h.Licensed L ∧ k.Licensed L
  | .finalizer ho fin => (∀ h, ho = some h → L.hold h) ∧ fin.Licensed L
  | .restore _ => True
  | .resumeWith _ => True
  | .release h => L.hold h

/-- A machine that keeps to a licence. One that leaves its program has nothing on its stack. -/
structure Machine.Licensed (L : Licence) (m : Machine σ) : Prop where
  control : m.control.Licensed L
  stack : ∀ x ∈ m.stack, x.Licensed L
  leaving : ∀ e, m.control = .leave e → m.stack = []

/-- The machine put aside keeps to a licence, if there is one. -/
def Phase.Licensed (L : Licence) : Phase σ → Prop
  | .notStarted m => m.Licensed L
  | .running => True
  | .suspended _ m => m.Licensed L
  | .done _ => True

/-- The finalizers that a scope has to run keep to a licence. -/
def ScopeState.Licensed (L : Licence) : ScopeState (Finalizer σ) → Prop
  | .opened fs _ _ => ∀ x ∈ fs, x.2.Licensed L
  | .closing _ (some fs) => ∀ x ∈ fs, x.2.Licensed L
  | .closing _ Option.none => True
  | .closed _ => True

/-- A task that keeps to a licence. -/
def Task.Licensed (L : Licence) : Task σ → Prop
  | .resume _ _ (.program p) => p.Licensed L
  | .resume _ _ .proceed => True
  | .resume _ _ .terminate => True
  | .ring _ => True
  | .run act => act.Licensed L

/-- A world that has nothing in store but what a licence allows. -/
structure World.Licensed (L : Licence) (w : World σ) : Prop where
  machines : ∀ f fiber, w.fibers.get? f = some fiber → ¬ L.exempt f → fiber.phase.Licensed L
  finalizers : ∀ s sc, w.scopes.get? s = some sc → sc.state.Licensed L
  parents : ∀ s sc h, w.scopes.get? s = some sc → sc.parent = some h → L.hold h
  futures : ∀ f cell, w.futures.get? f = some cell → ∀ p, cell.outcome? = some (.resolved p) →
    p.Licensed L
  tasks : ∀ t ∈ w.timers.live, t.task.Licensed L
  errands : ∀ e ∈ w.errands, e.program.Licensed L

theorem Waiting.Licensed.mono {x : Waiting σ} (hLM : L ≤ M) (h : x.Licensed L) :
    x.Licensed M := by
  cases x with
  | map k => exact Cont.Licensed.mono hLM h
  | fold g k => exact ⟨h.1.mono hLM, h.2.mono hLM⟩
  | finalizer ho fin => exact ⟨fun h' hh => hLM.2.2.1 h' (h.1 h' hh), Finalizer.Licensed.mono hLM h.2⟩
  | restore _ => trivial
  | resumeWith _ => trivial
  | release h' => exact hLM.2.2.1 h' h

theorem Machine.Licensed.mono {m : Machine σ} (hLM : L ≤ M) (h : m.Licensed L) :
    m.Licensed M := by
  refine ⟨?_, fun x hx => (h.stack x hx).mono hLM, h.leaving⟩
  have hcontrol := h.control
  cases hm : m.control with
  | start p => rw [hm] at hcontrol; exact Program.Licensed.mono hLM hcontrol
  | instruct p => rw [hm] at hcontrol; exact Program.Licensed.mono hLM hcontrol
  | value _ => trivial
  | failure _ => trivial
  | leave _ => trivial

theorem Phase.Licensed.mono {ph : Phase σ} (hLM : L ≤ M) (h : ph.Licensed L) : ph.Licensed M := by
  cases ph with
  | notStarted m => exact Machine.Licensed.mono hLM h
  | running => trivial
  | suspended _ m => exact Machine.Licensed.mono hLM h
  | done _ => trivial

theorem ScopeState.Licensed.mono {st : ScopeState (Finalizer σ)} (hLM : L ≤ M)
    (h : st.Licensed L) : st.Licensed M := by
  cases st with
  | opened fs _ _ => exact fun x hx => (h x hx).mono hLM
  | closing _ unclaimed =>
      cases unclaimed with
      | none => trivial
      | some fs => exact fun x hx => (h x hx).mono hLM
  | closed _ => trivial

theorem Task.Licensed.mono {t : Task σ} (hLM : L ≤ M) (h : t.Licensed L) : t.Licensed M := by
  cases t with
  | resume f token r =>
      cases r with
      | program p => exact Program.Licensed.mono hLM h
      | proceed => trivial
      | terminate => trivial
  | ring _ => trivial
  | run act => exact Act.Licensed.mono hLM h

/-- A world that keeps to a licence keeps to one that allows more, if its machines do. -/
theorem World.Licensed.of_machines {w : World σ} (hLM : L ≤ M) (h : w.Licensed L)
    (hmachines : ∀ f fiber, w.fibers.get? f = some fiber → ¬ M.exempt f → fiber.phase.Licensed M) :
    w.Licensed M :=
  ⟨hmachines, fun s sc hs => (h.finalizers s sc hs).mono hLM,
    fun s sc h' hs hp => hLM.2.2.1 h' (h.parents s sc h' hs hp),
    fun f c hf p hp => (h.futures f c hf p hp).mono hLM, fun t ht => (h.tasks t ht).mono hLM,
    fun e he => (h.errands e he).mono hLM⟩

/-- A world that keeps to a licence keeps to one that allows more and looks at no other machine. -/
theorem World.Licensed.mono {w : World σ} (hLM : L ≤ M) (hexempt : ∀ f, L.exempt f → M.exempt f)
    (h : w.Licensed L) : w.Licensed M :=
  h.of_machines hLM fun f fiber hf hf' =>
    (h.machines f fiber hf fun he => hf' (hexempt f he)).mono hLM

end Fibers
