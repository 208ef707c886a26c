import Mathlib.Tactic.IntervalCases
import Fibers.Proofs.Exits.Agreement

set_option autoImplicit false

/-! # Failures of finalizers

A finalizer that fails should not do so unnoticed. Its failure is put behind the exit that brought the
finalizer on, and both go down the stack together: to a frame that recovers them, or out of the
program, to be the exit that the fiber closes its scope with. So the failure shows up in the exit of
the fiber. There are two ways to lose it. A fiber that leaves its program drops the stack and what
is on it, and this can happen at the very step in which the mask of the finalizer comes off. And a
scope that somebody else has asked to close takes no exit any more.
-/

namespace Fibers

variable {σ : Type} {r : Run σ} {s : Key .scope} {f : Key .fiber}

/-! ## Exits that convey a failure -/

/-- The exit is a failure, and has all leaves of the cause among its own, in their order. -/
def Exit.Conveys (e : AnyExit) (c : AnyCause) : Prop :=
  ∃ c', e = .failure c' ∧ c.leaves.Sublist c'.leaves

namespace Exit

/-- What follows an exit takes nothing away from it. -/
theorem Conveys.thenCause {e : AnyExit} {c : AnyCause} (h : e.Conveys c) (next : Option AnyCause) :
    (e.thenCause next).Conveys c := by
  obtain ⟨c', rfl, hleaves⟩ := h
  cases next with
  | none => exact ⟨c', rfl, hleaves⟩
  | some c'' => exact ⟨_, rfl, hleaves.trans (List.sublist_append_left _ _)⟩

/-- What is put behind an exit is conveyed with it. -/
theorem conveys_thenCause (saved : AnyExit) {e : AnyExit} {c : AnyCause} (h : e.Conveys c) :
    (saved.thenCause e.cause?).Conveys c := by
  obtain ⟨c', rfl, hleaves⟩ := h
  cases saved with
  | success v => exact ⟨c', rfl, hleaves⟩
  | failure first => exact ⟨_, rfl, hleaves.trans (List.sublist_append_right _ _)⟩

theorem conveys_failure (c : AnyCause) : Conveys (.failure c) c := ⟨c, rfl, List.Sublist.refl _⟩

/-- The exits of the finalizers of a scope take nothing away from the exit that it is closed with. -/
theorem Conveys.total {x : AnyExit} {c : AnyCause} (h : x.Conveys c) (xs : List AnyExit) :
    (total x xs).Conveys c := by
  induction xs using List.reverseRecOn with
  | nil => exact h
  | append_singleton xs e ih =>
      rw [total_concat]
      exact ih.thenCause e.cause?

/-- Each of them that is a failure is conveyed with it. -/
theorem conveys_total (x : AnyExit) {xs : List AnyExit} {c : AnyCause} (h : .failure c ∈ xs) :
    (Fibers.total x xs).Conveys c := by
  induction xs using List.reverseRecOn with
  | nil => cases h
  | append_singleton xs e ih =>
      rw [total_concat]
      rcases List.mem_append.mp h with h | h
      · exact (ih h).thenCause e.cause?
      · obtain rfl := List.mem_singleton.mp h
        exact conveys_thenCause _ (conveys_failure c)

end Exit

/-! ## The way of a failure -/

/-- The machines of a fiber with the scope `s` that is on the way down the frames `S` with the failure
`c`, or takes it out of its program. -/
inductive Carries (c : AnyCause) (s : Key .scope) (S : List (Waiting σ)) : Machine σ → Prop
  | falls {e : AnyExit} {st : List (Waiting σ)} {exiting : Bool} : e.Conveys c → st <:+ S →
      Carries c s S ⟨.ofExit e, st, exiting⟩
  | cleans {m : Machine σ} {saved : AnyExit} {st : List (Waiting σ)} : saved.Conveys c → st <:+ S →
      .restore .interruptible :: .resumeWith saved :: st <:+ m.stack → Carries c s S m
  | cleaned {x saved : AnyExit} {st : List (Waiting σ)} {exiting : Bool} : saved.Conveys c → st <:+ S →
      Carries c s S ⟨.ofExit x, .resumeWith saved :: st, exiting⟩
  | ends {e : AnyExit} : e.Conveys c → Carries c s S ⟨.leave (some e), [], false⟩
  | departs {e : AnyExit} : e.Conveys c →
      Carries c s S ⟨.instruct (Program.closeOrWaitScope s e), [], true⟩
  | requests {e : AnyExit} : e.Conveys c →
      Carries c s S ⟨.instruct (Program.closeScope s e), World.departure s, true⟩

namespace World

variable {c : AnyCause} {e : AnyExit} {S st : List (Waiting σ)}

/-- The exit that a finalizer ended with goes behind the one that was saved. -/
theorem unwind_resumeWith (x saved : AnyExit) (st : List (Waiting σ)) (exiting : Bool) (w : World σ) :
    unwind f exiting x (.resumeWith saved :: st) w =
      (w, { machine := ⟨.ofExit (saved.thenCause x.cause?), st, exiting⟩ }) := by
  cases x with
  | success v => cases saved <;> rfl
  | failure next => rfl

/-- At the end of a finalizer the mask comes off. Either that stops the fiber, or the exit goes behind
the one that was saved. -/
theorem unwind_cleaned (x saved : AnyExit) (st : List (Waiting σ)) (exiting : Bool) (w : World σ) :
    ∃ w' m, unwind f exiting x (.restore .interruptible :: .resumeWith saved :: st) w =
      (w', { machine := m }) ∧ (m = ⟨.ofExit x, .resumeWith saved :: st, exiting⟩ ∨
        m = ⟨.ofExit (saved.thenCause x.cause?), st, exiting⟩) := by
  rcases hr : w.restore f .interruptible with ⟨w', left⟩
  cases left with
  | true =>
      refine ⟨w', _, ?_, Or.inl rfl⟩
      cases x with
      | success v => simp only [unwind, unwindValue, hr, Control.ofExit]
      | failure next => simp only [unwind, unwindFailure, hr, Control.ofExit]
  | false =>
      refine ⟨w', _, ?_, Or.inr rfl⟩
      rw [← unwind_resumeWith (f := f) x saved st exiting w']
      cases x with
      | success v => simp only [unwind, unwindValue, hr]
      | failure next => simp only [unwind, unwindFailure, hr]

/-- A finalizer on the way is run with the failure kept in a frame under it. -/
theorem carries_enterFinalizer (he : e.Conveys c) (hst : st <:+ S) (w : World σ) (control : Control σ)
    (exiting : Bool) (fin : Finalizer σ) : ∃ w' m,
    w.enterFinalizer f ⟨control, st, exiting⟩ fin e = (w', { machine := m }) ∧ Carries c s S m := by
  have hcleans : ∀ control : Control σ,
      Carries c s S ⟨control, .restore .interruptible :: .resumeWith e :: st, exiting⟩ :=
    fun control => .cleans he hst (List.suffix_refl _)
  unfold enterFinalizer
  dsimp only
  generalize (w.modifyFiber f fun fiber =>
    { fiber with masks := fiber.masks.push false }).finalizeWith fin e = called
  obtain ⟨w', result⟩ := called
  cases result with
  | ok q => exact ⟨w', _, rfl, hcleans (.instruct q)⟩
  | error d => exact ⟨w', _, rfl, hcleans _⟩

/-- A failure that goes down the stack meets a frame that recovers it, or goes on with the fiber, or
ends a fiber that has left its program already. -/
theorem carries_of_falls (he : e.Conveys c) (hst : st <:+ S) (exiting : Bool) (w : World σ) :
    (∃ h k rest, (descend f true st w).2 = .fold h k :: rest) ∨
      (∃ w' m, unwind f exiting e st w = (w', { machine := m }) ∧ Carries c s S m) ∨
      ∃ w' m, unwind f exiting e st w = (w', ⟨m, .done e⟩) := by
  obtain ⟨c', rfl, -⟩ := id he
  induction st generalizing w with
  | nil =>
      cases exiting with
      | true => exact Or.inr (Or.inr ⟨w, _, rfl⟩)
      | false => exact Or.inr (Or.inl ⟨w, _, rfl, .ends he⟩)
  | cons z rest ih =>
      have hrest : rest <:+ S := (List.suffix_cons z rest).trans hst
      cases z with
      | map k => exact ih hrest w
      | fold h k => exact Or.inl ⟨h, k, rest, rfl⟩
      | restore res =>
          rcases hr : w.restore f res with ⟨w', left⟩
          cases left with
          | true =>
              refine Or.inr (Or.inl ⟨w', ⟨.failure c', rest, exiting⟩, ?_, .falls he hrest⟩)
              simp only [unwind, unwindFailure, hr]
          | false =>
              simp only [descend, unwind, unwindFailure, hr]
              exact ih hrest w'
      | release h => exact ih hrest _
      | finalizer ho fin =>
          rcases hc : w.claimFinalizer ho with ⟨w', won⟩
          cases won with
          | true =>
              simp only [unwind, unwindFailure, hc]
              exact Or.inr (Or.inl (carries_enterFinalizer he hrest w' _ exiting fin))
          | false =>
              simp only [descend, unwind, unwindFailure, hc]
              exact ih hrest w'
      | resumeWith saved =>
          exact Or.inr (Or.inl ⟨w, _, unwind_resumeWith (.failure c') saved rest exiting w,
            .falls (Exit.conveys_thenCause saved he) hrest⟩)

end World

namespace Run

/-- A frame of `S` that recovers failures gets one that has all leaves of `c`. -/
def Recovers (r : Run σ) (f : Key .fiber) (S : List (Waiting σ)) (c : AnyCause) (j : Nat) : Prop :=
  ∃ y m w c' h k rest, (r.moment j).Works f y m ∧ m.control = .failure c' ∧
    c.leaves.Sublist c'.leaves ∧ .fold h k :: rest <:+ S ∧
    World.descend f true m.stack ((r.moment j).world.count f) = (w, .fold h k :: rest) ∧
    r.moment (j + 1) =
      World.conclude f (World.enter f ⟨.failure c', rest, m.exiting⟩ (w.recoverWith h c'))

/-- The failure is lost: the fiber leaves its program while it is on the way with it, or comes too late
to close its scope with it. -/
inductive Loses (r : Run σ) (f : Key .fiber) (s : Key .scope) (S : List (Waiting σ)) (c : AnyCause)
    (j : Nat) : Prop
  | drops {y : Fiber σ} {m : Machine σ} : (r.moment j).Leaves f y m → Carries c s S m →
      Loses r f s S c j
  | late {y : Fiber σ} {m : Machine σ} {e : AnyExit} : (r.moment j).Works f y m →
      m.control = .instruct (Program.closeScope s e) → e.Conveys c →
      ((r.moment j).world.scope s).isOpen = false → Loses r f s S c j

/-- What has become at `k` of a failure that a finalizer ended with at `b`. -/
inductive Fate (r : Run σ) (f : Key .fiber) (s : Key .scope) (S : List (Waiting σ)) (c : AnyCause)
    (b k : Nat) : Prop
  | carried {m : Machine σ} : (r.moment k).machine? f = some m → Carries c s S m → Fate r f s S c b k
  | recovered {j : Nat} : b < j → j < k → r.Recovers f S c j → Fate r f s S c b k
  | lost {j : Nat} : b < j → j < k → r.Loses f s S c j → Fate r f s S c b k
  | requested {j : Nat} {sc : Scope (Finalizer σ)} {x : AnyExit}
      {unclaimed : Option (List (Nat × Finalizer σ))} : j ≤ k →
      (r.moment j).world.scopes.get? s = some sc → sc.state = .closing x unclaimed → x.Conveys c →
      Fate r f s S c b k
  | ended {e : AnyExit} : (r.moment k).world.exitOf f = some e → e.Conveys c → Fate r f s S c b k

variable {S : List (Waiting σ)} {c : AnyCause} {b k : Nat}

/-- A step that ends in a machine on the way. -/
theorem fate_of_proceed {w : World σ} {m : Machine σ}
    (hnext : r.moment (k + 1) = World.conclude f (w, { machine := m })) (h : Carries c s S m) :
    r.Fate f s S c b (k + 1) :=
  .carried (m := m) (by rw [hnext]; exact Moment.machine?_active) h

/-- The failure goes down the stack. -/
theorem fate_of_falls {y : Fiber σ} {e : AnyExit} {st : List (Waiting σ)} {exiting : Bool} (hbk : b < k)
    (hworks : (r.moment k).Works f y ⟨.ofExit e, st, exiting⟩) (he : e.Conveys c) (hst : st <:+ S) :
    r.Fate f s S c b (k + 1) := by
  have hnext := Run.advance_of_turn hworks.turn
  rw [World.advance_unwind hworks.here rfl] at hnext
  rcases World.carries_of_falls (f := f) (s := s) he hst exiting ((r.moment k).world.count f) with
    ⟨h, q, rest, hfold⟩ | ⟨w, m, hunwind, hcarries⟩ | ⟨w, m, hunwind⟩
  · obtain ⟨c', rfl, hleaves⟩ := he
    have hsuffix := World.descend_suffix f true st ((r.moment k).world.count f)
    rcases hdown : World.descend f true st ((r.moment k).world.count f) with ⟨w, st'⟩
    rw [hdown] at hfold hsuffix
    obtain rfl : st' = .fold h q :: rest := hfold
    refine .recovered hbk (Nat.lt_succ_self k) ⟨y, _, w, c', h, q, rest, hworks, rfl, hleaves,
      hsuffix.trans hst, hdown, ?_⟩
    rw [hnext, World.unwind_descend]
    exact congrArg (fun down => World.conclude f
      (World.unwind f exiting (.failure c') down.2 down.1)) hdown
  · rw [hunwind] at hnext
    exact fate_of_proceed hnext hcarries
  · -- the fiber had left its program before, and this is the end of it
    have hstep : (r.moment k).world.step f y ⟨.ofExit e, st, exiting⟩ = (w, ⟨m, .done e⟩) :=
      (World.step_unwind rfl hworks.budget).trans hunwind
    obtain ⟨y', hy', hlater, -⟩ :=
      (World.step_changes (r.lawful_of_turn hworks.turn) y).grows.fibers f y hworks.fiber
    rw [World.heed_of_free hworks.free, hstep] at hy'
    have hpending := pending_of_machine hworks.fiber (Moment.machine?_of_active hworks.turn)
    rw [hunwind] at hnext
    refine .ended ?_ he
    rw [hnext]
    exact (World.conclude_done hy' (hlater.outcome.trans hpending) m e).2

/-- The program has ended with the failure, and the fiber turns to the close of its scope with it. -/
theorem fate_of_ends {y : Fiber σ} {e : AnyExit} (hbk : b < k)
    (hy : (r.moment k).world.fibers.get? f = some y) (hscope : y.scope = s)
    (hm : (r.moment k).machine? f = some ⟨.leave (some e), [], false⟩) (he : e.Conveys c) :
    r.Fate f s S c b (k + 1) := by
  rcases Moment.machine?_cases hm with hactive | ⟨haside, y₁, hy₁, hphase⟩
  · by_cases hleave : y.mustLeave = true
    · exact .lost hbk (Nat.lt_succ_self k) (.drops ⟨hactive, hy, rfl, hleave⟩ (.ends he))
    · have hfree : y.mustLeave = false := by simpa using hleave
      have hnext := Run.advance_of_turn hactive
      rw [World.advance_of_free hy (Or.inr hfree)] at hnext
      refine fate_of_proceed hnext ?_
      rw [hscope]
      exact .departs he
  · obtain ⟨-, -, -, -, hmachine⟩ := (r.move k).aside (r.lawful k) haside hy₁
    rcases hmachine with heq | hresumes
    · exact .carried (heq.trans hm) (.ends he)
    · exact .carried (Moment.machine?_of_active (hresumes.proceed (r.attentive k) hy₁ hphase trivial))
        (.ends he)

/-- The fiber asks for the close of its scope with the failure. -/
theorem fate_of_requests {y : Fiber σ} {e : AnyExit} (hbk : b < k)
    (hworks : (r.moment k).Works f y ⟨.instruct (Program.closeScope s e), World.departure s, true⟩)
    (he : e.Conveys c) : r.Fate f s S c b (k + 1) := by
  cases hask : ((r.moment k).world.scope s).requestClose? e with
  | none =>
      exact .lost hbk (Nat.lt_succ_self k)
        (.late hworks rfl he ((Scope.requestClose?_eq_none_iff _ _).mp hask))
  | some granted =>
      obtain ⟨sc, closing⟩ := granted
      have hask' : (((r.moment k).world.count f).scope s).requestClose? e = some (sc, closing) := hask
      obtain ⟨sc₀, fs, n, -, -, -, hstatus⟩ := World.requestClose_of_some hask'
      obtain ⟨sc', hsc', hstate⟩ := Option.map_eq_some_iff.mp hstatus
      rcases hrequest : ((r.moment k).world.count f).requestClose s e with ⟨w, first⟩
      rw [hrequest] at hsc'
      have hattend : ((r.moment k).world.count f).attend (.close s e) =
          (w, .ok ((Program.finishScope s).andThen (.succeed (.flag first)))) := by
        rw [World.attend, hrequest]
      have hnext : (r.moment (k + 1)).world = w := by
        rw [Run.advance_of_turn hworks.turn, World.advance_duty hworks.here rfl hattend]
      exact .requested (Nat.le_refl _) (by rw [hnext]; exact hsc') (congrArg Prod.fst hstate) he

/-- The next moment of a fiber that is on the way with the failure. -/
theorem fate_of_carries {y : Fiber σ} {m : Machine σ} (hbk : b < k)
    (hy : (r.moment k).world.fibers.get? f = some y) (hscope : y.scope = s)
    (hm : (r.moment k).machine? f = some m) (h : Carries c s S m) : r.Fate f s S c b (k + 1) := by
  have hdrops : ∀ z, (r.moment k).Leaves f z m → r.Fate f s S c b (k + 1) := fun z hleaves =>
    .lost hbk (Nat.lt_succ_self k) (.drops hleaves h)
  cases id h with
  | @falls e st exiting he hst =>
      rcases works_or_stays hm (Or.inr ⟨e, rfl⟩) (by cases e <;> trivial) with
        ⟨z, hworks⟩ | hstays | ⟨z, hleaves⟩
      · exact fate_of_falls hbk hworks he hst
      · exact .carried hstays h
      · exact hdrops z hleaves
  | @cleans _ saved st he hst hstack =>
      rcases above_or_meets hm (List.cons_ne_nil _ _) hstack with
        ⟨m', hm', hstack'⟩ | ⟨z, hleaves⟩ | ⟨z, x, w, -, -, -, hnext⟩
      · exact .carried hm' (.cleans he hst hstack')
      · exact hdrops z hleaves
      · obtain ⟨w', m', hunwind, rfl | rfl⟩ := World.unwind_cleaned (f := f) x saved st m.exiting w
        · exact fate_of_proceed (hunwind ▸ hnext) (.cleaned he hst)
        · exact fate_of_proceed (hunwind ▸ hnext) (.falls (he.thenCause _) hst)
  | @cleaned x saved st exiting he hst =>
      rcases works_or_stays hm (Or.inr ⟨x, rfl⟩) (by cases x <;> trivial) with
        ⟨z, hworks⟩ | hstays | ⟨z, hleaves⟩
      · have hnext := Run.advance_of_turn hworks.turn
        rw [World.advance_unwind hworks.here rfl, World.unwind_resumeWith] at hnext
        exact fate_of_proceed hnext (.falls (he.thenCause _) hst)
      · exact .carried hstays h
      · exact hdrops z hleaves
  | ends he => exact fate_of_ends hbk hy hscope hm he
  | departs he =>
      exact (rests_or_glides hm rfl rfl).elim (fun hm' => .carried hm' h)
        fun hm' => .carried hm' (.requests he)
  | requests he =>
      rcases works_or_rests hm rfl (Or.inl ⟨_, rfl⟩) trivial with ⟨z, hworks⟩ | hstays
      · exact fate_of_requests hbk hworks he
      · exact .carried hstays h

/-- The next moment of a failure. -/
theorem Fate.succ {y : Fiber σ} (h : r.Fate f s S c b k) (hbk : b < k)
    (hy : (r.moment k).world.fibers.get? f = some y) (hscope : y.scope = s) :
    r.Fate f s S c b (k + 1) := by
  cases h with
  | carried hm hcarries => exact fate_of_carries hbk hy hscope hm hcarries
  | recovered hbj hjk hrecovers => exact .recovered hbj (Nat.lt_succ_of_lt hjk) hrecovers
  | lost hbj hjk hloses => exact .lost hbj (Nat.lt_succ_of_lt hjk) hloses
  | requested hjk hsc hstate he => exact .requested (Nat.le_succ_of_le hjk) hsc hstate he
  | ended hexit he => exact .ended (exitOf_later (Nat.le_succ k) hexit).2 he

end Run

/-! ## Where a failure comes from -/

namespace Protection

variable (p : Protection r)

/-- The frames under the finalizer while it is run because the exit `x` has come down to its frame. -/
def cleaning (x : AnyExit) : List (Waiting σ) :=
  .restore .interruptible :: .resumeWith x :: p.machine.stack

/-- The finalizer is invoked at `a` by an exit that comes down to its frame, and ends at `b` with the
failure `c`. -/
structure Fails (a b : Nat) (x : AnyExit) (c : AnyCause) : Prop where
  unwinds : p.Unwinds a
  runs : r.Keeps p.fiber a (p.cleaning x) b
  ends : ∃ y m pre, (r.moment b).Works p.fiber y m ∧ m.control = .failure c ∧
    m.stack = pre ++ p.cleaning x ∧
    (World.descend p.fiber true pre ((r.moment b).world.count p.fiber)).2 = []

variable {p} {a b k : Nat} {x : AnyExit} {c : AnyCause}

/-- The fiber sets out with the failure. -/
theorem Fails.next (h : p.Fails a b x c) : r.Fate p.fiber s (p.cleaning x) c b (b + 1) := by
  obtain ⟨y, m, pre, hworks, hcontrol, hstack, hpast⟩ := h.ends
  have hnext := Run.advance_of_turn hworks.turn
  rw [World.advance_unwind (e := .failure c) hworks.here hcontrol, hstack,
    World.unwind_reaches (e := .failure c) hpast] at hnext
  have hfailure := Exit.conveys_failure c
  obtain ⟨w, m', hunwind, rfl | rfl⟩ := World.unwind_cleaned (f := p.fiber) (.failure c) x
    p.machine.stack m.exiting (World.descend p.fiber true pre ((r.moment b).world.count p.fiber)).1
  · exact Run.fate_of_proceed (hnext.trans (congrArg _ hunwind))
      (.falls hfailure (List.suffix_cons _ _))
  · exact Run.fate_of_proceed (hnext.trans (congrArg _ hunwind))
      (.falls (Exit.conveys_thenCause x hfailure)
        ((List.suffix_cons _ _).trans (List.suffix_cons _ _)))

/-- What becomes of it later. -/
theorem Fails.fate (h : p.Fails a b x c) (hbk : b < k) :
    r.Fate p.fiber p.state.scope (p.cleaning x) c b k := by
  have hstart : p.start < b := Nat.lt_trans h.unwinds.1.1 h.runs.1
  induction hbk with
  | refl => exact h.next
  | @step k hbk ih =>
      have hbk' : b < k := hbk
      obtain ⟨y, hy, honward⟩ := r.onward (show p.start ≤ k by omega) p.works.fiber
      exact ih.succ hbk hy honward.scope

/-- The frames under a finalizer that is run do not recover anything but in the program that encloses
it. -/
theorem recovers_below {j : Nat} (h : r.Recovers p.fiber (p.cleaning x) c j) :
    r.Recovers p.fiber p.machine.stack c j := by
  obtain ⟨y, m, w, c', hd, q, rest, hworks, hcontrol, hleaves, hsuffix, hdown, hnext⟩ := h
  refine ⟨y, m, w, c', hd, q, rest, hworks, hcontrol, hleaves, ?_, hdown, hnext⟩
  rcases List.suffix_cons_iff.mp hsuffix with heq | hsuffix
  · cases heq
  · rcases List.suffix_cons_iff.mp hsuffix with heq | hsuffix
    · cases heq
    · exact hsuffix

end Protection

/-! ## Where it shows up -/

open ScopeEvent

/-- A request to close the scope that was granted is the one that its final exit starts from. -/
theorem Run.Records.request_eq {log : Nat → List (ScopeEvent σ)} (h : r.Records s log) {j k : Nat}
    (hjk : j ≤ k) {sc : Scope (Finalizer σ)} {x e : AnyExit}
    {unclaimed : Option (List (Nat × Finalizer σ))} {late : List (AnyExit × Bool)}
    (hsc : (r.moment j).world.scopes.get? s = some sc) (hstate : sc.state = .closing x unclaimed)
    (hlog : requests (log k) = (e, true) :: late) : x = e := by
  have hlife := (h.life hsc).1
  rw [hstate] at hlife
  rcases hlife.requests_eq with ⟨hopen, -⟩ | ⟨-, e', rest, heq, -, hexit⟩
  · cases hopen
  · obtain ⟨more, hmore⟩ := h.grows hjk
    rw [hmore, requests, List.flatMap_append, ← requests, heq] at hlog
    cases hlog
    exact hexit x unclaimed rfl

/-- Where the failures of finalizers are found that were run on behalf of the fiber `f`, which is done
at `k` as `y` with the exit `e`. -/
structure Run.Reports (r : Run σ) (f : Key .fiber) (k : Nat) (y : Fiber σ) (e : AnyExit) : Prop where
  /-- If the fiber ran the finalizer when an exit came down to its frame, a frame of the program
  around recovers the failure, or the exit of the fiber conveys it, or it is lost. -/
  unwound : ∀ (p : Protection r) {a b : Nat} {x : AnyExit} {c : AnyCause}, p.fiber = f →
    p.Fails a b x c →
      (∃ j, b < j ∧ j < k ∧ r.Recovers f p.machine.stack c j) ∨ e.Conveys c ∨
        ∃ j, b < j ∧ j < k ∧ r.Loses f y.scope (p.cleaning x) c j
  /-- If the finalizer was run to close the scope of the fiber, the exit of the fiber conveys it. -/
  closed : ∀ log, r.Records y.scope log → ∃ g i j x xs, j < k ∧
    r.Finishes y.scope (log k) e g i j x xs ∧ ∀ c, .failure c ∈ xs → e.Conveys c

/-- The failures of finalizers are found, of every fiber whose scope closes in sequence. -/
theorem Run.reports (r : Run σ) {k : Nat} {y : Fiber σ} {e : AnyExit} {sc : Scope (Finalizer σ)}
    (hy : (r.moment k).world.fibers.get? f = some y) (hdone : y.phase = .done e)
    (hsc : (r.moment k).world.scopes.get? y.scope = some sc) (hseq : sc.strategy = .sequential) :
    r.Reports f k y e := by
  have hexit := Run.exitOf_of_done hy hdone hsc hseq (Nat.le_refl k)
  obtain ⟨sc', hsc', hclosed⟩ := Run.closed_of_done hy hdone hsc hseq (Nat.le_refl k)
  obtain rfl := Option.some.inj (hsc'.symm.trans hsc)
  refine ⟨fun p a b x c hp hfails => ?_, fun log hlog => ?_⟩
  · subst hp
    have hstart : p.start < b := Nat.lt_trans hfails.unwinds.1.1 hfails.runs.1
    have hbk : b < k := by
      by_contra hnot
      obtain ⟨z, m, pre, hworks, -⟩ := hfails.ends
      have hnone := (r.exitOf_later (Nat.le_of_not_lt hnot) hexit).1
      rw [Moment.machine?_of_active hworks.turn] at hnone
      cases hnone
    have hscope : y.scope = p.state.scope := by
      obtain ⟨y', hy', honward⟩ := r.onward (show p.start ≤ k by omega) p.works.fiber
      obtain rfl := Option.some.inj (hy'.symm.trans hy)
      exact honward.scope
    rw [hscope]
    rcases hfails.fate hbk with hm | ⟨hbj, hjk, hrecovers⟩ | ⟨hbj, hjk, hloses⟩ |
      ⟨hjk, hsc', hstate, hconveys⟩ | ⟨hends, hconveys⟩
    · -- a fiber that is done carries nothing
      rw [(r.exitOf_later (Nat.le_refl k) hexit).1] at hm
      cases hm
    · exact Or.inl ⟨_, hbj, hjk, Protection.recovers_below hrecovers⟩
    · exact Or.inr (Or.inr ⟨_, hbj, hjk, hloses⟩)
    · obtain ⟨log, hlog⟩ := r.exists_records p.state.scope
      obtain ⟨g, i, j, x', xs, -, hfinishes⟩ := Run.finished_of_closed hlog (hscope ▸ hsc) hclosed hseq
      obtain ⟨late, hrequests⟩ := hfinishes.requested
      obtain rfl := hlog.request_eq hjk hsc' hstate hrequests
      rw [hfinishes.exit]
      exact Or.inr (Or.inl (hconveys.total xs))
    · obtain rfl := Option.some.inj (hends.symm.trans hexit)
      exact Or.inr (Or.inl hconveys)
  · obtain ⟨g, i, j, x, xs, hjk, hfinishes⟩ := Run.finished_of_closed hlog hsc hclosed hseq
    refine ⟨g, i, j, x, xs, hjk, hfinishes, fun c hc => ?_⟩
    rw [hfinishes.exit]
    exact Exit.conveys_total x hc

/-! ## A failure that is lost -/

/-- A program with a finalizer that fails. -/
def boom : Program Nat := Program.unit.cleanup fun _ => .program (.die "boom")

theorem licensed_boom : boom.Licensed .none :=
  .ensuring .succeed (.apply fun _ => .program .failCause) rfl

/-- The run of the program. -/
def boomRun : Run Nat := .inOrder .standard 0 boom licensed_boom

/-- The finalizer fails, and the fiber ends with its failure. -/
theorem boom_reports : ∃ y, (boomRun.moment 25).world.fibers.get? ⟨0⟩ = some y ∧
    y.phase = .done (.failure (.dieWith "boom")) ∧
    boomRun.Reports ⟨0⟩ 25 y (.failure (.dieWith "boom")) := by
  have hdone : ∃ y sc, (boomRun.moment 25).world.fibers.get? ⟨0⟩ = some y ∧
      y.phase = .done (.failure (.dieWith "boom")) ∧
      (boomRun.moment 25).world.scopes.get? y.scope = some sc ∧ sc.strategy = .sequential :=
    ⟨_, _, rfl, rfl, rfl, rfl⟩
  obtain ⟨y, sc, hy, hphase, hsc, hseq⟩ := hdone
  exact ⟨y, hy, hphase, boomRun.reports hy hphase hsc hseq⟩

/-- The same program, interrupted while its finalizer runs. -/
def muffled : Program Nat :=
  Program.unit.cleanup fun _ => .call (.interruptFiber ⟨0⟩ .nobody) fun _ => .program (.die "boom")

theorem licensed_muffled : muffled.Licensed .none :=
  .ensuring .succeed (.apply fun _ => .call nofun fun _ => .program .failCause) rfl

/-- The run of the program. -/
def muffledRun : Run Nat := .inOrder .standard 0 muffled licensed_muffled

/-- The cleaning up of the program. -/
def muffledCleanup : Protection muffledRun where
  start := 3
  fiber := ⟨0⟩
  state := ((muffledRun.moment 3).world.fibers.get? ⟨0⟩).get rfl
  machine := ((muffledRun.moment 3).active.get rfl).2
  inner := .unit
  finalizer := .apply fun _ => .call (.interruptFiber ⟨0⟩ .nobody) fun _ => .program (.die "boom")
  works := ⟨rfl, rfl, Or.inr rfl, by decide, Or.inl ⟨_, rfl⟩⟩
  instruction := rfl

/-- The finalizer is invoked when the program ends, and fails. -/
theorem fails_muffledCleanup : muffledCleanup.Fails 5 7 (.success .unit) (.dieWith "boom") where
  unwinds := by
    have hinside : muffledCleanup.Inside 5 := Run.keeps_of_drop (by decide) fun l hl hlk => by
      have hstart : 3 < l := hl
      interval_cases l <;> rfl
    exact ⟨hinside, ((muffledRun.moment 5).world.fibers.get? ⟨0⟩).get rfl,
      ((muffledRun.moment 5).active.get rfl).2, .success .unit,
      ⟨rfl, rfl, Or.inr rfl, by decide, Or.inr ⟨.success .unit, rfl⟩⟩, rfl, rfl⟩
  runs := Run.keeps_of_drop (by decide) fun l hl hlk => by interval_cases l <;> rfl
  ends := ⟨((muffledRun.moment 7).world.fibers.get? ⟨0⟩).get rfl,
    ((muffledRun.moment 7).active.get rfl).2, [],
    ⟨rfl, rfl, Or.inr rfl, by decide, Or.inr ⟨.failure (.dieWith "boom"), rfl⟩⟩, rfl, rfl, rfl⟩

/-- There is no frame that could recover the failure, and the exit of the fiber does not convey it. -/
theorem muffledCleanup_lost :
    muffledCleanup.Fails 5 7 (.success .unit) (.dieWith "boom") ∧ muffledCleanup.machine.stack = [] ∧
      (muffledRun.moment 20).world.exitOf ⟨0⟩ = some (.failure (.interrupt .nobody)) ∧
      ¬ Exit.Conveys (.failure (.interrupt .nobody)) (.dieWith "boom") := by
  refine ⟨fails_muffledCleanup, rfl, rfl, ?_⟩
  rintro ⟨c', hc', hleaves⟩
  cases hc'
  exact absurd (hleaves.subset List.mem_cons_self) (by simp [Cause.leaves])

end Fibers
