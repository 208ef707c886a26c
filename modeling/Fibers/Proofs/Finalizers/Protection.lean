import Fibers.Proofs.Run.Turns

set_option autoImplicit false

/-! # Protected programs

A `Protection` is one execution of an instruction that protects a program by a finalizer: a moment
of a run, and the fiber that works on the instruction then. The fiber is inside the program as long
as the frame of the instruction has stayed on its stack. Two parties can invoke the finalizer: the
fiber, when an exit comes down to the frame, and whoever claims the finalizers of its scope.
-/

namespace Fibers

variable {σ : Type}

namespace Run

variable (r : Run σ)

/-- From after `i` up to `k` the frames `T` stay on the stack of `f`. -/
def Keeps (f : Key .fiber) (i : Nat) (T : List (Waiting σ)) (k : Nat) : Prop :=
  i < k ∧ ∀ l, i < l → l ≤ k → ∃ m, (r.moment l).machine? f = some m ∧ T <:+ m.stack

theorem Keeps.succ {r : Run σ} {f : Key .fiber} {i k : Nat} {T : List (Waiting σ)} {m : Machine σ}
    (h : r.Keeps f i T k) (hm : (r.moment (k + 1)).machine? f = some m) (hsuffix : T <:+ m.stack) :
    r.Keeps f i T (k + 1) := by
  refine ⟨Nat.lt_succ_of_lt h.1, fun l hil hlk => ?_⟩
  rcases Nat.le_succ_iff.mp hlk with hlk | rfl
  · exact h.2 l hil hlk
  · exact ⟨m, hm, hsuffix⟩

theorem Keeps.before {r : Run σ} {f : Key .fiber} {i j k : Nat} {T : List (Waiting σ)}
    (h : r.Keeps f i T k) (hij : i < j) (hjk : j ≤ k) : r.Keeps f i T j :=
  ⟨hij, fun l hil hlj => h.2 l hil (Nat.le_trans hlj hjk)⟩

/-- A stack that has the frames on it is not empty. -/
theorem Keeps.stack_ne_nil {r : Run σ} {f : Key .fiber} {i k l : Nat} {T : List (Waiting σ)}
    {m : Machine σ} (h : r.Keeps f i T k) (hT : T ≠ []) (hil : i < l) (hlk : l ≤ k)
    (hm : (r.moment l).machine? f = some m) : m.stack ≠ [] := by
  obtain ⟨m', hm', hsuffix⟩ := h.2 l hil hlk
  obtain rfl := Option.some.inj (hm'.symm.trans hm)
  intro hnil
  rw [hnil] at hsuffix
  exact hT (List.suffix_nil.mp hsuffix)

/-- The frames stay if they are the last of the stack at every moment. -/
theorem keeps_of_drop {r : Run σ} {f : Key .fiber} {i k : Nat} {T : List (Waiting σ)} (hik : i < k)
    (h : ∀ l, i < l → l ≤ k → ((r.moment l).machine? f).map
      (fun m => m.stack.drop (m.stack.length - T.length)) = some T) : r.Keeps f i T k := by
  refine ⟨hik, fun l hil hlk => ?_⟩
  obtain ⟨m, hm, hdrop⟩ := Option.map_eq_some_iff.mp (h l hil hlk)
  exact ⟨m, hm, hdrop ▸ List.drop_suffix _ _⟩

/-- From `j` to `k` the fiber `f` keeps its masks, its stack and its way. -/
structure Stands (f : Key .fiber) (j k : Nat) (y y' : Fiber σ) (m m' : Machine σ) : Prop where
  before : (r.moment j).world.fibers.get? f = some y
  machine : (r.moment j).machine? f = some m
  after : (r.moment k).world.fibers.get? f = some y'
  machine' : (r.moment k).machine? f = some m'
  onward : y.Onward y'
  masks : y'.masks = y.masks
  stack : m'.stack = m.stack
  exiting : m'.exiting = m.exiting

/-- A claimed finalizer is invoked: the fiber whose turn it is works on the duty to run it. -/
def Runs (h : Handle) (j : Nat) : Prop :=
  ∃ g y m fin x, (r.moment j).Works g y m ∧ m.control = .instruct (.duty (.finalize h fin x))

end Run

/-- An execution of an instruction that protects a program by a finalizer. -/
structure Protection (r : Run σ) where
  start : Nat
  fiber : Key .fiber
  state : Fiber σ
  machine : Machine σ
  inner : Program σ
  finalizer : Finalizer σ
  works : (r.moment start).Works fiber state machine
  instruction : machine.control = .instruct (.ensuring inner finalizer)

namespace Protection

variable {r : Run σ} (p : Protection r)

/-- The handle under which the finalizer is registered with the scope of the fiber, if the scope
took it. -/
def handle : Option Handle := ((r.moment p.start).world.register p.state.scope p.finalizer).2

/-- The stack of the fiber at the start of the program that is protected. -/
def frames : List (Waiting σ) := .finalizer p.handle p.finalizer :: p.machine.stack

/-- The fiber is inside the program. -/
def Inside (k : Nat) : Prop := r.Keeps p.fiber p.start p.frames k

/-- An exit comes down to the frame, and the frame has to run the finalizer. -/
def Unwinds (j : Nat) : Prop :=
  p.Inside j ∧ ∃ y m x, (r.moment j).Works p.fiber y m ∧ m.control = .ofExit x ∧
    (World.descend p.fiber x.isFailure m.stack ((r.moment j).world.count p.fiber)).2 = p.frames

/-- The finalizer is invoked by the party that claimed it. -/
def Claimed (j : Nat) : Prop := ∃ h, p.handle = some h ∧ r.Runs h j

/-- The finalizer is invoked. -/
def Invoked (j : Nat) : Prop := p.Unwinds j ∨ p.Claimed j

/-- The fiber works inside the program. -/
def WorksInside (k : Nat) : Prop := p.Inside k ∧ ∃ y m, (r.moment k).Works p.fiber y m

/-- The fiber does not have to leave its program though its scope is closing. -/
def Shielded (j : Nat) : Prop :=
  ∃ y m, (r.moment j).world.fibers.get? p.fiber = some y ∧ (r.moment j).machine? p.fiber = some m ∧
    (m.exiting = true ∨ y.interruptible = false)

end Protection

/-! ## Standing still -/

namespace Run

variable {r : Run σ} {f : Key .fiber}

theorem Stands.refl {j : Nat} {y : Fiber σ} {m : Machine σ}
    (hy : (r.moment j).world.fibers.get? f = some y) (hm : (r.moment j).machine? f = some m) :
    r.Stands f j j y y m m := ⟨hy, hm, hy, hm, .refl y, rfl, rfl, rfl⟩

theorem Stands.trans {j k l : Nat} {y y' y'' : Fiber σ} {m m' m'' : Machine σ}
    (h : r.Stands f j k y y' m m') (h' : r.Stands f k l y' y'' m' m'') :
    r.Stands f j l y y'' m m'' :=
  ⟨h.before, h.machine, h'.after, h'.machine', h.onward.trans h'.onward, h'.masks.trans h.masks,
    h'.stack.trans h.stack, h'.exiting.trans h.exiting⟩

/-- A fiber with something on its stack that does not work stands still, or leaves. -/
theorem stands_succ {k : Nat} {y : Fiber σ} {m : Machine σ}
    (hy : (r.moment k).world.fibers.get? f = some y) (hm : (r.moment k).machine? f = some m)
    (hstack : m.stack ≠ []) (hidle : ¬ (r.moment k).Works f y m) :
    (∃ y' m', r.Stands f k (k + 1) y y' m m') ∨
      (r.moment k).Leaves f y m ∧ ∃ m', (r.moment (k + 1)).machine? f = some m' ∧ m'.stack = [] := by
  obtain ⟨y', hy', honward, ⟨hmasks, c, hc⟩ | hleaves⟩ :=
    (r.move k).rests (r.lawful k) hy hm hstack hidle
  · exact Or.inl ⟨y', _, hy, hm, hy', hc, honward, hmasks, rfl, rfl⟩
  · exact Or.inr hleaves

/-- A fiber that has to leave its program and has not done so has not moved since it had to. -/
theorem stands_bound {i j k : Nat} {T : List (Waiting σ)} (hT : T ≠ [])
    (hkeeps : r.Keeps f i T k) (hij : i < j) (hjk : j ≤ k) {y : Fiber σ} {m : Machine σ}
    (hy : (r.moment j).world.fibers.get? f = some y) (hm : (r.moment j).machine? f = some m)
    (hbound : m.exiting = false ∧ y.mustLeave = true) :
    ∃ y' m', r.Stands f j k y y' m m' ∧ m'.exiting = false ∧ y'.mustLeave = true := by
  induction k with
  | zero => exact absurd (Nat.lt_of_lt_of_le hij hjk) (Nat.not_lt_zero i)
  | succ k ih =>
      rcases Nat.lt_or_eq_of_le hjk with hlt | rfl
      · have hjk' : j ≤ k := Nat.le_of_lt_succ hlt
        have hik : i < k := Nat.lt_of_lt_of_le hij hjk'
        obtain ⟨y₁, m₁, hstands, hexiting, hleave⟩ := ih (hkeeps.before hik (Nat.le_succ k)) hjk'
        have hidle : ¬ (r.moment k).Works f y₁ m₁ := by
          intro hworks
          rcases hworks.free with h | h
          · cases hexiting.symm.trans h
          · cases hleave.symm.trans h
        rcases stands_succ hstands.after hstands.machine'
            (hkeeps.stack_ne_nil hT hik (Nat.le_succ k) hstands.machine') hidle with
          ⟨y₂, m₂, hnext⟩ | ⟨-, m₂, hm₂, hnil⟩
        · refine ⟨y₂, m₂, hstands.trans hnext, hnext.exiting.trans hexiting, ?_⟩
          simp only [Fiber.mustLeave, Bool.and_eq_true] at hleave ⊢
          refine ⟨hnext.onward.terminating hleave.1, ?_⟩
          rw [Fiber.interruptible, hnext.masks]
          exact hleave.2
        · exact absurd hnil (hkeeps.stack_ne_nil hT (Nat.lt_succ_of_lt hik) (Nat.le_refl _) hm₂)
      · exact ⟨y, m, .refl hy hm, hbound⟩

/-- A fiber that works on the duty to run a claimed finalizer stands still. -/
theorem stands_finalize {k : Nat} {y : Fiber σ} {m : Machine σ} {h : Handle}
    {fin : Finalizer σ} {x : AnyExit} (hworks : (r.moment k).Works f y m)
    (hm : m.control = .instruct (.duty (.finalize h fin x))) :
    ∃ y' m', r.Stands f k (k + 1) y y' m m' := by
  set w := (r.moment k).world with hw
  have hlicensed : fin.Licensed w.law := by
    have hcontrol := ((r.lawful_of_turn hworks.turn).licensed.active f m rfl id).control
    rw [hm] at hcontrol
    cases hcontrol with
    | duty hduty =>
        cases hduty with
        | finalize _ hfin => exact hfin
  have hcount := World.get?_count hworks.fiber
  have hsound : World.Sound w.law none (Program.Licensed w.law) (w.count f) _ :=
    World.sound_finalizeWith hlicensed x (w.count f)
  obtain ⟨y', hy', hlater, haside⟩ := hsound.changes.grows.fibers f _ hcount
  have hstep : ∃ c, r.moment (k + 1) =
      ⟨((w.count f).finalizeWith fin x).1, some (f, { m with control := c })⟩ := by
    rw [advance_of_turn hworks.turn, World.advance_instruct hworks.here hm, ← hw]
    simp only [World.instruct, World.attend]
    rcases (w.count f).finalizeWith fin x with ⟨w', result⟩
    cases result with
    | ok q => exact ⟨_, rfl⟩
    | error d => exact ⟨_, rfl⟩
  obtain ⟨c, hstep⟩ := hstep
  refine ⟨y', { m with control := c }, hworks.fiber, Moment.machine?_of_active hworks.turn,
    by rw [hstep]; exact hy', ?_, ?_, ?_, rfl, rfl⟩
  · rw [hstep]
    exact Moment.machine?_active
  · exact ⟨hlater.context, hlater.scope, hlater.terminating, fun o ho => hlater.outcome.trans ho⟩
  · exact (haside fun h => by cases h).masks

/-- A fiber that works on nothing but the duty to run a claimed finalizer, if on that, stands still
until it leaves. -/
theorem stands_until {j k : Nat} (hjk : j ≤ k) {y : Fiber σ} {m : Machine σ}
    (hy : (r.moment j).world.fibers.get? f = some y) (hm : (r.moment j).machine? f = some m)
    (hstack : m.stack ≠ [])
    (hfirst : ∀ y' m', (r.moment j).Works f y' m' →
      ∃ h fin x, m'.control = .instruct (.duty (.finalize h fin x)))
    (hidle : ∀ l y' m', j < l → l < k → ¬ (r.moment l).Works f y' m')
    (hstay : ∀ l y' m', j ≤ l → l < k → r.Stands f j l y y' m m' → (r.moment l).Leaves f y' m' →
      ∀ m'', (r.moment (l + 1)).machine? f = some m'' → m''.stack ≠ []) :
    ∃ y' m', r.Stands f j k y y' m m' := by
  induction k with
  | zero =>
      obtain rfl : j = 0 := Nat.le_zero.mp hjk
      exact ⟨y, m, .refl hy hm⟩
  | succ k ih =>
      rcases Nat.lt_or_eq_of_le hjk with hlt | rfl
      · have hjk' : j ≤ k := Nat.le_of_lt_succ hlt
        obtain ⟨y', m', hstands⟩ := ih hjk' (fun l y' m' hjl hlk => hidle l y' m' hjl (by omega))
          fun l y' m' hjl hlk => hstay l y' m' hjl (by omega)
        have hstep : (∃ y'' m'', r.Stands f k (k + 1) y' y'' m' m'') ∨
            (r.moment k).Leaves f y' m' ∧
              ∃ m'', (r.moment (k + 1)).machine? f = some m'' ∧ m''.stack = [] := by
          by_cases hworks : (r.moment k).Works f y' m'
          · rcases Nat.lt_or_eq_of_le hjk' with hlt' | rfl
            · exact absurd hworks (hidle k y' m' hlt' (by omega))
            · obtain ⟨h, fin, x, hcontrol⟩ := hfirst y' m' hworks
              exact Or.inl (stands_finalize hworks hcontrol)
          · exact stands_succ hstands.after hstands.machine' (by rw [hstands.stack]; exact hstack)
              hworks
        rcases hstep with ⟨y'', m'', hnext⟩ | ⟨hleaves, m'', hm'', hempty⟩
        · exact ⟨y'', m'', hstands.trans hnext⟩
        · exact absurd hempty (hstay k y' m' hjk' (by omega) hstands hleaves m'' hm'')
      · exact ⟨y, m, .refl hy hm⟩

end Run

end Fibers
