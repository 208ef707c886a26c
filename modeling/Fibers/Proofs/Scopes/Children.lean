import Fibers.Proofs.Finalizers.Overtaking
import Fibers.Proofs.Scopes.Finished

set_option autoImplicit false

/-! # Scopes within scopes

A scope that closes has the scopes within it closed by finalizers. Such a finalizer asks the inner
scope to close, claims what nobody has claimed, and waits. Its machine is known up to what happens
around it, so it can be followed step by step from its invocation to its end (`Heads`). If the inner
scope closes in sequence, it is closed when the finalizer ends.
-/

namespace Fibers

open ScopeEvent

variable {σ : Type} {r : Run σ} {g : Key .fiber}

/-! ## Following a program to its end -/

/-- A machine that does not let an exit come down to the frames `T` in its next step. -/
def Machine.Before (T : List (Waiting σ)) (m : Machine σ) : Prop :=
  (∃ p, m.control = .instruct p) ∨ ∃ v pre c rest, m.control = .value v ∧
    m.stack = pre ++ .map c :: rest ∧ T.length ≤ rest.length

/-- At `k` the fiber `g` has the machine `m`. It keeps the frames `T` up to `b`, and there an exit
comes down to them. -/
structure Run.Heads (r : Run σ) (g : Key .fiber) (T : List (Waiting σ)) (b k : Nat)
    (m : Machine σ) : Prop where
  le : k ≤ b
  nonempty : T ≠ []
  machine : (r.moment k).machine? g = some m
  keeps : ∀ l, k ≤ l → l ≤ b → ∃ m, (r.moment l).machine? g = some m ∧ T <:+ m.stack
  ends : ∃ x y m, (r.moment b).Works g y m ∧ m.control = .ofExit x ∧
    (World.descend g x.isFailure m.stack ((r.moment b).world.count g)).2 = T

namespace Run.Heads

variable {T : List (Waiting σ)} {b k : Nat} {m m' : Machine σ}

theorem later (h : r.Heads g T b k m) {l : Nat} (hkl : k ≤ l) (hlb : l ≤ b)
    (hm' : (r.moment l).machine? g = some m') : r.Heads g T b l m' :=
  ⟨hlb, h.nonempty, hm', fun j hlj hjb => h.keeps j (Nat.le_trans hkl hlj) hjb, h.ends⟩

/-- The fiber does not leave its program meanwhile. -/
theorem not_leaves (h : r.Heads g T b k m) (hkb : k < b) {y : Fiber σ} {m' : Machine σ} :
    ¬ (r.moment k).Leaves g y m' := by
  intro hleaves
  obtain ⟨m₁, hm₁, hsuffix⟩ := h.keeps (k + 1) (Nat.le_succ k) hkb
  have hstack : m₁.stack = [] :=
    congrArg Machine.stack (Option.some.inj (hm₁.symm.trans (Run.machine_of_leaves hleaves)))
  rw [hstack] at hsuffix
  exact h.nonempty (List.suffix_nil.mp hsuffix)

/-- A machine that lets no exit come down to the frames is not the last one. -/
theorem lt (h : r.Heads g T b k m) (hbefore : m.Before T) : k < b := by
  refine Nat.lt_of_le_of_ne h.le ?_
  rintro rfl
  obtain ⟨x, y, m', hworks, hcontrol, hdescend⟩ := h.ends
  obtain rfl : m' = m :=
    Option.some.inj ((Moment.machine?_of_active hworks.turn).symm.trans h.machine)
  rcases hbefore with ⟨p, hp⟩ | ⟨v, pre, c, rest, hv, hstack, hlength⟩
  · rw [hp] at hcontrol
    cases x <;> cases hcontrol
  · obtain ⟨v', rfl⟩ : ∃ v', x = .success v' := by
      rw [hv] at hcontrol
      cases x with
      | success v' => exact ⟨v', rfl⟩
      | failure c => cases hcontrol
    have hlt : rest.length < T.length := by
      rw [← hdescend, hstack]
      exact World.length_descend (fun _ => rfl) pre _
    omega

/-- The fiber comes to the step of a machine that is not the last one. -/
theorem works (h : r.Heads g T b k m) (hbefore : m.Before T)
    (hminds : m.control.Minds fun _ => False) :
    ∃ j w y, k ≤ j ∧ j < b ∧ r.moment j = ⟨w, some (g, m)⟩ ∧
      Moment.Works ⟨w, some (g, m)⟩ g y m ∧
      ∀ m', (w.advance g m).machine? g = some m' → r.Heads g T b (j + 1) m' := by
  have hstep : (∃ p, m.control = .instruct p) ∨ ∃ e, m.control = .ofExit e :=
    hbefore.imp_right fun ⟨v, _, _, _, hv, _⟩ => ⟨.success v, hv⟩
  induction hn : b - k generalizing k with
  | zero =>
      have hlt := h.lt hbefore
      omega
  | succ n ih =>
      have hlt := h.lt hbefore
      rcases Run.works_or_stays h.machine hstep hminds with ⟨y, hworks⟩ | hstays | ⟨y, hleaves⟩
      · have hx : r.moment k = ⟨(r.moment k).world, some (g, m)⟩ := by rw [← hworks.turn]
        refine ⟨k, _, y, Nat.le_refl k, hlt, hx, hworks.here, fun m' hm' => ?_⟩
        exact h.later (Nat.le_succ k) hlt (Run.advance_of_turn hworks.turn ▸ hm')
      · obtain ⟨j, w, y, hkj, hrest⟩ := ih (h.later (Nat.le_succ k) hlt hstays) (by omega)
        exact ⟨j, w, y, Nat.le_trans (Nat.le_succ k) hkj, hrest⟩
      · exact absurd hleaves (h.not_leaves hlt)

/-- The fiber comes to what its machine glides to. -/
theorem glides (h : r.Heads g T b k m) (hbefore : m.Before T) (hglide : m.glide? = some m') :
    ∃ j, r.Heads g T b j m' := by
  obtain ⟨j, w, y, -, -, -, hworks, hnext⟩ := h.works hbefore (Machine.minds_of_glide hglide)
  refine ⟨j + 1, hnext m' ?_⟩
  rw [World.advance_glide hworks hglide]
  exact Moment.machine?_active

/-- The fiber puts off interruption. -/
theorem masks (h : r.Heads g T b k m) {p : Program σ}
    (hcontrol : m.control = .instruct (.mask p false)) :
    ∃ j, r.Heads g T b j
      { m with control := .instruct p, stack := .restore .interruptible :: m.stack } := by
  obtain ⟨j, w, y, -, -, -, hworks, hnext⟩ := h.works (Or.inl ⟨_, hcontrol⟩)
    (by rw [hcontrol]; trivial)
  refine ⟨j + 1, hnext _ ?_⟩
  rw [World.advance_mask hworks hcontrol]
  exact Moment.machine?_active

/-- The fiber asks a scope to close. -/
theorem closes (h : r.Heads g T b k m) {s : Key .scope} {e : AnyExit}
    (hcontrol : m.control = .instruct (.duty (.close s e))) :
    ∃ j first, r.Heads g T b j { m with
      control := .instruct ((Program.finishScope s).andThen (.succeed (.flag first))) } := by
  obtain ⟨j, w, y, -, -, -, hworks, hnext⟩ := h.works (Or.inl ⟨_, hcontrol⟩)
    (by rw [hcontrol]; trivial)
  have hattend : (w.count g).attend (.close s e) = (((w.count g).requestClose s e).1, .ok
      ((Program.finishScope s).andThen (.succeed (.flag ((w.count g).requestClose s e).2)))) := rfl
  refine ⟨j + 1, ((w.count g).requestClose s e).2, hnext _ ?_⟩
  rw [World.advance_duty hworks hcontrol hattend]
  exact Moment.machine?_active

/-- The fiber claims what nobody has claimed, and comes back when it has closed the scope. -/
theorem finishes (h : r.Heads g T b k m) {s : Key .scope}
    (hcontrol : m.control = .instruct (.duty (.finish s))) (hlength : T.length ≤ m.stack.length)
    (hseq : ∀ l sc, (r.moment l).world.scopes.get? s = some sc → sc.strategy = .sequential) :
    ∃ j exiting, r.Heads g T b j ⟨.instruct .unit, m.stack, exiting⟩ := by
  obtain ⟨j, w, y, hkj, hjb, hj, hworks, hnext⟩ := h.works (Or.inl ⟨_, hcontrol⟩)
    (by rw [hcontrol]; trivial)
  cases hclaim : (w.scope s).claim? with
  | none =>
      have hclaim' : ((w.count g).scope s).claim? = none := hclaim
      have hattend : (w.count g).attend (.finish s) = (w.count g, .ok .unit) := by
        simp only [World.attend, hclaim']
      refine ⟨j + 1, m.exiting, hnext _ ?_⟩
      rw [World.advance_duty hworks hcontrol hattend]
      exact Moment.machine?_active
  | some claim =>
      obtain ⟨sc, e, claimed⟩ := claim
      obtain ⟨sc₀, hsc₀, -, hsc⟩ := World.claim_of_some hclaim
      have hstrategy : sc.strategy = .sequential := by
        rw [hsc]
        exact hseq j sc₀ (by rw [hj]; exact hsc₀)
      rw [← hj] at hworks
      have hclaim' : ((r.moment j).world.scope s).claim? = some (sc, e, claimed) := by
        rw [hj]
        exact hclaim
      rcases Run.sequence hworks hcontrol hclaim' hstrategy hjb with ⟨-, hclosing⟩ | hdropped | hthrough
      · -- at the end it would be closing still, and let no exit come down
        obtain ⟨x, y', m₁, hworks', hcontrol', hdescend⟩ := h.ends
        obtain ⟨m₂, hm₂, hstage⟩ := hclosing.machine
        obtain rfl := Option.some.inj (hm₂.symm.trans (Moment.machine?_of_active hworks'.turn))
        rcases hstage with ⟨p, hp⟩ | ⟨-, hstop⟩
        · rw [hp] at hcontrol'
          cases x <;> cases hcontrol'
        · have hlt := hstop x ((r.moment b).world.count g) hcontrol'
          rw [hdescend] at hlt
          omega
      · obtain ⟨l, hjl, hlb, y', m₁, hleaves, -⟩ := hdropped.leaves
        obtain ⟨m₂, hm₂, -⟩ := h.keeps l (by omega) (Nat.le_of_lt hlb)
        exact absurd hleaves ((h.later (by omega) (Nat.le_of_lt hlb) hm₂).not_leaves hlb)
      · obtain ⟨l, xs, exiting, hlb, hturn, -, hmachine, -⟩ := hthrough.finished
        have hjl : j < l := hturn.lt
        exact ⟨l + 1, exiting, h.later (by omega) hlb hmachine⟩

/-- The fiber waits for the closing of a scope, until the scope is closed. -/
theorem awaits (h : r.Heads g T b k m) {s : Key .scope} {log : Nat → List (ScopeEvent σ)}
    (hlog : r.Records s log) (hwait : m.control = .instruct (.wait (.closed s))) :
    ∃ j e, r.Heads g T b j { m with control := .instruct (.succeed (.exit e)) } ∧
      ∀ l, j ≤ l → ((r.moment l).world.scope s).exit? = some e := by
  induction hn : b - k generalizing k with
  | zero =>
      have hlt := h.lt (Or.inl ⟨_, hwait⟩)
      omega
  | succ n ih =>
      have hlt := h.lt (Or.inl ⟨_, hwait⟩)
      rcases hlog.waiter h.machine hwait with ⟨y, hleaves⟩ | ⟨c, hm', rfl | ⟨e, rfl, hexit⟩⟩
      · exact absurd hleaves (h.not_leaves hlt)
      · exact ih (h.later (Nat.le_succ k) hlt hm') (by omega)
      · exact ⟨k + 1, e, h.later (Nat.le_succ k) hlt hm', hexit⟩

/-- The fiber lets interruption in again and goes on. -/
theorem unmasks (h : r.Heads g T b k m) {v : Value} {p : Program σ} {rest : List (Waiting σ)}
    (hcontrol : m.control = .value v)
    (hstack : m.stack = .restore .interruptible :: .map (.next p) :: rest)
    (hlength : T.length ≤ rest.length) :
    ∃ j, r.Heads g T b j { m with control := .instruct p, stack := rest } := by
  obtain ⟨j, w, y, -, -, -, hworks, hnext⟩ := h.works
    (Or.inr ⟨v, [.restore .interruptible], _, rest, hcontrol, hstack, hlength⟩)
    (by rw [hcontrol]; trivial)
  have hadvance := World.advance_unwind (e := .success v) hworks hcontrol
  rcases hr : (w.count g).restore g .interruptible with ⟨w', leaves⟩
  simp only [hstack, World.unwind, World.unwindValue, hr] at hadvance
  cases leaves with
  | true =>
      -- unwinding stops here, so the frame below gets the value in a step of its own
      have hbelow : r.Heads g T b (j + 1)
          { m with control := .value v, stack := .map (.next p) :: rest } := by
        refine hnext _ ?_
        rw [hadvance]
        exact Moment.machine?_active
      exact hbelow.glides (Or.inr ⟨v, [], _, rest, rfl, rfl, hlength⟩) rfl
  | false =>
      refine ⟨j + 1, hnext _ ?_⟩
      rw [hadvance]
      exact Moment.machine?_active

end Run.Heads

/-- A scope that closes in sequence is closed when the finalizer that closes it within its parent has
ended. -/
theorem Run.Performs.closes {log : Nat → List (ScopeEvent σ)} {h : Handle} {child : Key .scope}
    {parent : FiberId} {e x : AnyExit} {a b : Nat} (hlog : r.Records child log)
    (hperforms : r.Performs g (h, .closeChild child parent) e a b x)
    (hseq : ∀ l sc, (r.moment l).world.scopes.get? child = some sc → sc.strategy = .sequential) :
    ∃ e, ∀ l, b ≤ l → ((r.moment l).world.scope child).exit? = some e := by
  obtain ⟨T, hT, ⟨y, m, hworks, hcontrol, rfl⟩, hkeeps, y', m', hends⟩ := hperforms
  have hstart : r.Heads g m.stack b (a + 1) { m with
      control := .instruct ((Program.closeOrWaitScope child (.interrupt parent)).andThen .unit) } := by
    refine ⟨hkeeps.1, hT, ?_, fun l hal => hkeeps.2 l hal, x, y', m', hends⟩
    rw [Run.advance_of_turn hworks.turn, World.advance_duty hworks.here hcontrol rfl]
    exact Moment.machine?_active
  obtain ⟨k₁, h₁⟩ := hstart.glides (Or.inl ⟨_, rfl⟩) rfl
  obtain ⟨k₂, h₂⟩ := h₁.glides (Or.inl ⟨_, rfl⟩) rfl
  obtain ⟨k₃, first, h₃⟩ := h₂.closes rfl
  obtain ⟨k₄, h₄⟩ := h₃.glides (Or.inl ⟨_, rfl⟩) rfl
  obtain ⟨k₅, h₅⟩ := h₄.masks rfl
  obtain ⟨k₆, exiting, h₆⟩ := h₅.finishes rfl (by simp only [List.length_cons]; omega) hseq
  obtain ⟨k₇, h₇⟩ := h₆.glides (Or.inl ⟨_, rfl⟩) rfl
  obtain ⟨k₈, h₈⟩ := h₇.unmasks rfl rfl (by simp only [List.length_cons]; omega)
  obtain ⟨k₉, h₉⟩ := h₈.glides (Or.inl ⟨_, rfl⟩) rfl
  obtain ⟨k, h⟩ := h₉.glides (Or.inr ⟨_, [], _, _, rfl, rfl, by simp only [List.length_cons]; omega⟩) rfl
  obtain ⟨j, e', hlast, hexit⟩ := h.awaits hlog rfl
  exact ⟨e', fun l hbl => hexit l (Nat.le_trans hlast.le hbl)⟩

/-- A scope that closes in sequence and is closed is finished: the fiber that claimed its finalizers
has run all that were registered and not taken out, and none of them is invoked again. A scope within
it that had not begun to close before is closed too. -/
theorem Run.closed_means_finished {s : Key .scope} {log : Nat → List (ScopeEvent σ)}
    (h : r.Records s log) {k : Nat} {sc : Scope (Finalizer σ)} {x : AnyExit}
    (hsc : (r.moment k).world.scopes.get? s = some sc) (hclosed : sc.state = .closed x)
    (hseq : sc.strategy = .sequential) :
    (∃ g i j e xs, j < k ∧ r.Finishes s (log k) x g i j e xs) ∧
    ∀ key child parent, (key, .closeChild child parent) ∈ registrations (log k) →
      key ∉ takings (log k) → ((r.moment k).world.scope child).strategy = .sequential →
      ((r.moment k).world.scope child).isClosed = true := by
  have hfinished := Run.finished_of_closed h hsc hclosed hseq
  refine ⟨hfinished, fun key child parent hregistered htaken hsequential => ?_⟩
  obtain ⟨g, i, j, e, xs, hjk, hfinishes⟩ := hfinished
  cases hget : (r.moment k).world.scopes.get? child with
  | none =>
      rw [World.scope, hget]
      rfl
  | some sc' =>
      rw [World.scope_of_get hget] at hsequential ⊢
      have hmem : ((⟨s, key⟩ : Handle), Finalizer.closeChild child parent) ∈
          (((registrations (log k)).filter fun fin => fin.1 ∉ takings (log k)).map
            fun fin => ((⟨s, fin.1⟩ : Handle), fin.2)).reverse :=
        List.mem_reverse.mpr (List.mem_map.mpr ⟨_, List.mem_filter.mpr
          ⟨hregistered, decide_eq_true htaken⟩, rfl⟩)
      obtain ⟨a, b, x', -, hbj, hperforms⟩ := hfinishes.performed.performed hmem
      obtain ⟨log', hlog'⟩ := r.exists_records child
      obtain ⟨e', hexit⟩ := hperforms.closes hlog' fun l sc₁ hsc₁ =>
        (r.strategy_eq hsc₁ hget).trans hsequential
      have hlast := hexit k (by omega)
      rw [World.scope_of_get hget] at hlast
      rw [Scope.isClosed]
      cases hstate : sc'.state with
      | opened fs hs n =>
          rw [Scope.exit?, hstate] at hlast
          cases hlast
      | closing e u =>
          rw [Scope.exit?, hstate] at hlast
          cases hlast
      | closed x => rfl

/-- A program ends while its child is masked: its scope is closed in the end, and so is that of the
child. -/
theorem heedless_finished : ∃ log, Protection.heedlessRun.Records ⟨0⟩ log ∧
    (∃ g i j e xs, j < 80 ∧
      Protection.heedlessRun.Finishes ⟨0⟩ (log 80) (.success .unit) g i j e xs) ∧
    ∀ key child parent, (key, .closeChild child parent) ∈ registrations (log 80) →
      key ∉ takings (log 80) →
      ((Protection.heedlessRun.moment 80).world.scope child).strategy = .sequential →
      ((Protection.heedlessRun.moment 80).world.scope child).isClosed = true := by
  obtain ⟨log, hlog⟩ := Protection.heedlessRun.exists_records ⟨0⟩
  have hget : (Protection.heedlessRun.moment 80).world.scopes.get? ⟨0⟩ =
      some (((Protection.heedlessRun.moment 80).world.scopes.get? ⟨0⟩).get rfl) := rfl
  exact ⟨log, hlog, Run.closed_means_finished hlog hget rfl rfl⟩

/-- The child ends first and closes its scope, which takes a while. The program does not wait for
it. -/
def lingering : Program Nat :=
  (Program.fork (.flatMap .fiberScope <| .apply fun v =>
    match v with
    | .scope s => .register s (fun _ => .program (Protection.yields 3)) fun _ => .program .unit
    | _ => .program .unit) {}).andThen (Protection.yields 1)

theorem licensed_lingering : lingering.Licensed .none := by
  refine .flatMap (.fork (.flatMap .fiberScope (.apply fun v => ?_)))
    (.next (Protection.licensed_yields 1))
  cases v with
  | scope s =>
      exact .register (fun _ => .program (Protection.licensed_yields 3)) fun _ => .program .succeed
  | _ => exact .program .succeed

/-- The run of the child and its parent. -/
def lingeringRun : Run Nat := .inOrder .standard 0 lingering licensed_lingering

/-- The scope of the child is made within the open scope of its parent, and not closed when that
is. -/
theorem lingering_unfinished :
    ((lingeringRun.moment 5).world.scope ⟨0⟩).find? 0 = some
      (.closeChild ⟨1⟩ ((lingeringRun.moment 5).world.scope ⟨0⟩).owner) ∧
    ((lingeringRun.moment 60).world.scope ⟨0⟩).isClosed = true ∧
    ((lingeringRun.moment 60).world.scope ⟨1⟩).isClosed = false :=
  ⟨rfl, rfl, rfl⟩

end Fibers
