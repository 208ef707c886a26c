import Mathlib.Data.Nat.Find
import Mathlib.Tactic.IntervalCases
import Fibers.Proofs.Finalizers.Protection
import Fibers.Proofs.Run.Schedule

set_option autoImplicit false

/-! # When a finalizer overtakes the program that it protects

Once a finalizer has been invoked the fiber should be through with the program. It is, if an exit
came down to the frame, and if the fiber can be interrupted: then it leaves its program at its next
step. But a fiber that is masked goes on inside the program, with its finalizer already run by the
party that closed its scope.
-/

namespace Fibers

variable {σ : Type} {r : Run σ}

namespace Protection

variable (p : Protection r)

theorem frames_ne_nil : p.frames ≠ [] := List.cons_ne_nil _ _

/-- Inside up to a moment is inside up to an earlier one. -/
theorem Inside.before {p : Protection r} {j k : Nat} (h : p.Inside k) (hj : p.start < j)
    (hjk : j ≤ k) : p.Inside j := Run.Keeps.before h hj hjk

/-- A registered finalizer is one of an open scope. -/
theorem open_of_handle {h : Handle} (hh : p.handle = some h) :
    h.scope = p.state.scope ∧ ¬ (r.moment p.start).world.Sealed p.state.scope :=
  ⟨(World.issued_register hh).1, World.not_sealed_of_register hh⟩

/-- A claimed finalizer is invoked after the scope of the fiber has stopped being open. -/
theorem Claimed.sealed {p : Protection r} {j : Nat} (h : p.Claimed j) :
    p.start < j ∧ (r.moment j).world.Sealed p.state.scope := by
  obtain ⟨h', hh', g, y, m, fin, x, hworks, hcontrol⟩ := h
  obtain ⟨hscope, hopen⟩ := p.open_of_handle hh'
  have hsealed : (r.moment j).world.Sealed p.state.scope := by
    have hlicensed := ((r.lawful j).licensed.active g m hworks.turn id).control
    rw [hcontrol] at hlicensed
    cases hlicensed with
    | duty hduty =>
        cases hduty with
        | finalize hfinalize _ =>
            rw [← hscope]
            exact hfinalize
  refine ⟨?_, hsealed⟩
  by_contra hnot
  exact hopen (hsealed.mono (r.scopesLater (Nat.le_of_not_lt hnot)))

/-- From then on the fiber knows that its scope is closing. -/
theorem Claimed.terminating {p : Protection r} {j k : Nat} (h : p.Claimed j) (hjk : j ≤ k)
    {y : Fiber σ} (hy : (r.moment k).world.fibers.get? p.fiber = some y) :
    y.terminating = true := by
  obtain ⟨hstart, hsealed⟩ := h.sealed
  obtain ⟨y', hy', honward⟩ := r.onward (Nat.le_trans (Nat.le_of_lt hstart) hjk) p.works.fiber
  obtain rfl : y' = y := Option.some.inj (hy'.symm.trans hy)
  refine (r.lawful k).hooked.terminating hy ?_
  rw [honward.scope]
  exact hsealed.mono (r.scopesLater hjk)

/-- The step in which an exit comes down to the frame: the finalizer is taken out, and run. -/
theorem Unwinds.enters {p : Protection r} {j : Nat} (h : p.Unwinds j) :
    ∃ y m x w w', (r.moment j).Works p.fiber y m ∧
      World.descend p.fiber x.isFailure m.stack ((r.moment j).world.count p.fiber) = (w, p.frames) ∧
      w.claimFinalizer p.handle = (w', true) ∧
      r.moment (j + 1) = World.conclude p.fiber (w'.enterFinalizer p.fiber
        { control := .ofExit x, stack := p.machine.stack, exiting := m.exiting } p.finalizer x) := by
  obtain ⟨-, y, m, x, hworks, hcontrol, hdescend⟩ := h
  have hnext := Run.advance_of_turn hworks.turn
  rw [World.advance_unwind hworks.here hcontrol, World.unwind_descend] at hnext
  have hstop := World.descend_descend p.fiber x.isFailure m.stack ((r.moment j).world.count p.fiber)
  rcases hpass : World.descend p.fiber x.isFailure m.stack ((r.moment j).world.count p.fiber) with
    ⟨w, st⟩
  rw [hpass] at hnext hdescend hstop
  obtain rfl : st = p.frames := hdescend
  obtain ⟨w', hclaim, hstep⟩ := World.unwind_finalizer hstop m.exiting
  rw [frames, hstep] at hnext
  exact ⟨y, m, x, w, w', hworks, hpass, hclaim, hnext⟩

theorem Unwinds.next {p : Protection r} {j : Nat} (h : p.Unwinds j) :
    ∃ w m x, r.moment (j + 1) = ⟨w, some (p.fiber, m)⟩ ∧
      m.stack = .restore .interruptible :: .resumeWith x :: p.machine.stack := by
  obtain ⟨y, m, x, w, w', -, -, -, hnext⟩ := h.enters
  rw [World.enterFinalizer] at hnext
  rcases hcall : World.finalizeWith (w'.modifyFiber p.fiber fun fiber =>
    { fiber with masks := fiber.masks.push false }) p.finalizer x with ⟨w₃, result⟩
  rw [hcall] at hnext
  cases result with
  | ok q => exact ⟨_, _, x, hnext, rfl⟩
  | error d => exact ⟨_, _, x, hnext, rfl⟩

/-- Once an exit has come down to its frame, the fiber is not inside any more. -/
theorem Unwinds.not_inside {p : Protection r} {j k : Nat} (h : p.Unwinds j) (hjk : j < k) :
    ¬ p.Inside k := by
  intro hinside
  obtain ⟨w, m, x, hnext, hstack⟩ := h.next
  obtain ⟨m', hm', hsuffix⟩ := hinside.2 (j + 1) (Nat.lt_succ_of_lt h.1.1) hjk
  rw [hnext, Moment.machine?_active] at hm'
  obtain rfl : m = m' := Option.some.inj hm'
  rw [hstack] at hsuffix
  rcases List.suffix_cons_iff.mp hsuffix with heq | hsuffix
  · cases heq
  · rcases List.suffix_cons_iff.mp hsuffix with heq | hsuffix
    · cases heq
    · have hlength : p.machine.stack.length + 1 ≤ p.machine.stack.length := hsuffix.length_le
      omega

/-! ## The condition -/

/-- The first moment after `j` at which something holds. -/
theorem exists_first_after {P : Nat → Prop} {j : Nat} (h : ∃ k, j < k ∧ P k) :
    ∃ k, j < k ∧ P k ∧ ∀ l, j < l → P l → k ≤ l := by
  classical
  exact ⟨Nat.find h, (Nat.find_spec h).1, (Nat.find_spec h).2,
    fun l hjl hl => Nat.find_min' h ⟨hjl, hl⟩⟩

/-- At the invocation by the party that claimed it the fiber works at most on the very duty. -/
theorem Claimed.duty {p : Protection r} {j : Nat} (h : p.Claimed j) {y : Fiber σ}
    {m : Machine σ} (hworks : (r.moment j).Works p.fiber y m) :
    ∃ h fin x, m.control = .instruct (.duty (.finalize h fin x)) := by
  obtain ⟨h', -, g, y', m', fin, x, hworks', hcontrol⟩ := h
  have hactive := hworks.turn.symm.trans hworks'.turn
  cases hactive
  exact ⟨h', fin, x, hcontrol⟩

/-- A fiber that works inside after the invocation was masked at the invocation. -/
theorem shielded_of_worksInside {j k : Nat} (hclaimed : p.Claimed j) (hjk : j < k)
    (hinside : p.Inside k) (hworks : ∃ y m, (r.moment k).Works p.fiber y m)
    (hleast : ∀ l, j < l → (∃ y m, (r.moment l).Works p.fiber y m) → k ≤ l) : p.Shielded j := by
  obtain ⟨y', m', hworks⟩ := hworks
  obtain ⟨hstart, -⟩ := hclaimed.sealed
  obtain ⟨y, hy, -⟩ := r.onward (Nat.le_of_lt hstart) p.works.fiber
  obtain ⟨m, hm, hsuffix⟩ := hinside.2 j hstart (Nat.le_of_lt hjk)
  have hstack : m.stack ≠ [] := by
    intro hnil
    rw [hnil] at hsuffix
    exact p.frames_ne_nil (List.suffix_nil.mp hsuffix)
  obtain ⟨y₁, m₁, hstands⟩ := Run.stands_until (Nat.le_of_lt hjk) hy hm hstack
    (fun y m h => hclaimed.duty h)
    (fun l y m hjl hlk h => Nat.not_le.mpr hlk (hleast l hjl ⟨y, m, h⟩))
    (by
      intro l y₁ m₁ hjl hlk _ _ m₂ hm₂ hnil
      obtain ⟨m₃, hm₃, hsuffix₃⟩ := hinside.2 (l + 1) (by omega) hlk
      obtain rfl : m₂ = m₃ := Option.some.inj (hm₂.symm.trans hm₃)
      rw [hnil] at hsuffix₃
      exact p.frames_ne_nil (List.suffix_nil.mp hsuffix₃))
  -- at the first work the fiber does not leave, though it knows of the closing
  obtain rfl : y₁ = y' := Option.some.inj (hstands.after.symm.trans hworks.fiber)
  have hactive := Moment.machine?_of_active hworks.turn
  obtain rfl : m₁ = m' := Option.some.inj (hstands.machine'.symm.trans hactive)
  refine ⟨y, m, hy, hm, ?_⟩
  rcases hworks.free with hexiting | hfree
  · exact Or.inl (hstands.exiting ▸ hexiting)
  · right
    have hterm := hclaimed.terminating (Nat.le_of_lt hjk) hworks.fiber
    rw [Fiber.mustLeave, hterm, Bool.true_and, Fiber.interruptible, hstands.masks] at hfree
    exact hfree

/-- A fiber that is inside and masked at the invocation stays inside until it works again. -/
theorem inside_of_shielded {j k : Nat} (hclaimed : p.Claimed j) (hjk : j < k)
    (hinside : p.Inside j) (hshielded : p.Shielded j)
    (hleast : ∀ l, j < l → (∃ y m, (r.moment l).Works p.fiber y m) → k ≤ l) : p.Inside k := by
  obtain ⟨y, m, hy, hm, hshield⟩ := hshielded
  obtain ⟨m', hm', hsuffix⟩ := hinside.2 j hinside.1 (Nat.le_refl j)
  obtain rfl : m = m' := Option.some.inj (hm.symm.trans hm')
  have hstack : m.stack ≠ [] := by
    intro hnil
    rw [hnil] at hsuffix
    exact p.frames_ne_nil (List.suffix_nil.mp hsuffix)
  have hstands : ∀ l, j ≤ l → l ≤ k → ∃ y' m', r.Stands p.fiber j l y y' m m' := by
    intro l hjl hlk
    refine Run.stands_until hjl hy hm hstack (fun y m h => hclaimed.duty h)
      (fun l' y m hjl' hll' h => Nat.not_le.mpr (by omega) (hleast l' hjl' ⟨y, m, h⟩)) ?_
    -- the mask that was on at the invocation is still on
    intro l' y' m₁ hjl' _ hstands hleaves
    obtain ⟨-, hfiber, hexiting, hleave⟩ := hleaves
    exfalso
    rcases hshield with h | h
    · rw [hstands.exiting, h] at hexiting
      cases hexiting
    · rw [Fiber.mustLeave, Fiber.interruptible, hstands.masks] at hleave
      rw [Fiber.interruptible] at h
      rw [h, Bool.and_false] at hleave
      cases hleave
  refine ⟨Nat.lt_trans hinside.1 hjk, fun l hl hlk => ?_⟩
  rcases Nat.lt_or_ge j l with hjl | hlj
  · obtain ⟨y', m', hstand⟩ := hstands l (Nat.le_of_lt hjl) hlk
    exact ⟨m', hstand.machine', by rw [hstand.stack]; exact hsuffix⟩
  · exact hinside.2 l hl hlj

/-- A finalizer that has been invoked is overtaken by its fiber, which works on inside the program,
exactly if the party that closed the scope invoked it, while the fiber was inside and masked, and
the fiber works at all after that. -/
theorem overtaken_iff {j : Nat} (hj : p.Invoked j) :
    (∃ k, j < k ∧ p.WorksInside k) ↔
      ¬ p.Unwinds j ∧ p.Inside j ∧ p.Shielded j ∧
        ∃ k, j < k ∧ ∃ y m, (r.moment k).Works p.fiber y m := by
  constructor
  · rintro ⟨k, hjk, hinside, hworks⟩
    have hunwinds : ¬ p.Unwinds j := fun h => h.not_inside hjk hinside
    have hclaimed : p.Claimed j := hj.resolve_left hunwinds
    obtain ⟨hstart, -⟩ := hclaimed.sealed
    obtain ⟨k₀, hjk₀, hworks₀, hleast⟩ := exists_first_after
      (P := fun k => ∃ y m, (r.moment k).Works p.fiber y m) ⟨k, hjk, hworks⟩
    have hinside₀ : p.Inside k₀ := hinside.before (by omega) (hleast k hjk hworks)
    exact ⟨hunwinds, hinside.before hstart (Nat.le_of_lt hjk),
      p.shielded_of_worksInside hclaimed hjk₀ hinside₀ hworks₀ hleast, k, hjk, hworks⟩
  · rintro ⟨hunwinds, hinside, hshielded, hexists⟩
    have hclaimed : p.Claimed j := hj.resolve_left hunwinds
    obtain ⟨k₀, hjk₀, hworks₀, hleast⟩ := exists_first_after
      (P := fun k => ∃ y m, (r.moment k).Works p.fiber y m) hexists
    exact ⟨k₀, hjk₀, p.inside_of_shielded hclaimed hjk₀ hinside hshielded hleast, hworks₀⟩

/-! ## An overtaken program -/

/-- A program that yields a number of times. -/
def yields : Nat → Program Nat
  | 0 => .unit
  | n + 1 => Program.yieldNow.andThen (yields n)

/-- The child is masked and cleans up, and its parent does not wait for it. -/
def heedless : Program Nat :=
  (Program.fork (.uninterruptible ((yields 3).cleanup fun _ => .program .unit)) {}).andThen .yieldNow

theorem licensed_yields (n : Nat) : (yields n).Licensed .none := by
  induction n with
  | zero => exact .succeed
  | succ n ih => exact .flatMap .yieldNow (.next ih)

theorem licensed_heedless : heedless.Licensed .none :=
  .flatMap (.fork (.mask (.ensuring (licensed_yields 3) (.apply fun _ => .program .succeed) rfl)))
    (.next .yieldNow)

/-- The run of the child and its parent. -/
def heedlessRun : Run Nat := .inOrder .standard 0 heedless licensed_heedless

/-- The cleaning up of the child. -/
def heedlessChild : Protection heedlessRun where
  start := 16
  fiber := ⟨1⟩
  state := ((heedlessRun.moment 16).world.fibers.get? ⟨1⟩).get rfl
  machine := ((heedlessRun.moment 16).active.get rfl).2
  inner := yields 3
  finalizer := .apply fun _ => .program .unit
  works := ⟨rfl, rfl, Or.inr rfl, by decide, Or.inl ⟨_, rfl⟩⟩
  instruction := rfl

/-- The parent, on its way out, invokes the finalizer of the child. -/
theorem claimed_heedlessChild : heedlessChild.Claimed 49 := by
  refine ⟨⟨⟨1⟩, 1⟩, rfl, ⟨0⟩, ((heedlessRun.moment 49).world.fibers.get? ⟨0⟩).get rfl,
    ((heedlessRun.moment 49).active.get rfl).2, ?_⟩
  exact ⟨_, _, ⟨rfl, rfl, Or.inl rfl, by decide, Or.inl ⟨_, rfl⟩⟩, rfl⟩

/-- The child goes on inside its program. -/
theorem inside_heedlessChild : heedlessChild.Inside 88 := by
  refine Run.keeps_of_drop (by decide) fun l hl hlk => ?_
  have hstart : 16 < l := hl
  interval_cases l <;> rfl

theorem works_heedlessChild : ∃ y m, (heedlessRun.moment 88).Works heedlessChild.fiber y m :=
  ⟨((heedlessRun.moment 88).world.fibers.get? ⟨1⟩).get rfl,
    ((heedlessRun.moment 88).active.get rfl).2, rfl, rfl, Or.inr rfl, by decide, Or.inl ⟨_, rfl⟩⟩

/-- The finalizer of the masked child is invoked before its program has ended. -/
theorem heedlessChild_overtaken :
    heedlessChild.Invoked 49 ∧ ∃ k, 49 < k ∧ heedlessChild.WorksInside k :=
  ⟨Or.inr claimed_heedlessChild, 88, by decide, inside_heedlessChild, works_heedlessChild⟩

/-- The condition holds there: the child was inside and masked, and worked again. -/
theorem heedlessChild_condition : heedlessChild.Invoked 49 ∧ ¬ heedlessChild.Unwinds 49 ∧
    heedlessChild.Inside 49 ∧ heedlessChild.Shielded 49 ∧
      ∃ k, 49 < k ∧ ∃ y m, (heedlessRun.moment k).Works heedlessChild.fiber y m :=
  ⟨Or.inr claimed_heedlessChild,
    (heedlessChild.overtaken_iff (Or.inr claimed_heedlessChild)).mp
      ⟨88, by decide, inside_heedlessChild, works_heedlessChild⟩⟩

end Protection

end Fibers
