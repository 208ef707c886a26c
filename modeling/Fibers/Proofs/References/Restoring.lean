import Fibers.Proofs.Finalizers.Once
import Fibers.Proofs.References.Chronicle
import Fibers.Proofs.Run.Execution

set_option autoImplicit false

/-! # A reference that is set for a time

A program for whose time a reference is set reads the reference, sets it, and is protected by a finalizer that sets
it back. Whoever reads or sets a reference asks for the context of the fiber that runs just then, and works on the
map of that fiber. So the fiber of the program reads and sets the reference in its own map and in no other, and if
an exit comes down to the frame it sets the reference back there too: it is masked by then and does not leave. But
a finalizer that was claimed is run by the fiber that closes the scope, and that fiber sets the reference back in
its own map. Then the map of the program's fiber keeps the value that it had for the time, and the other map is
overwritten.
-/

namespace Fibers

variable {σ : Type} {r : Run σ} {g : Key .fiber} {T : List (Waiting σ)} {exiting : Bool}
variable {a b k n : Nat}

/-! ## A fiber that asks for its context -/

/-- The machines of a fiber that asks for its context `cx`, to go on with it above the frames `T`. -/
inductive Consulting (next : Value → Act σ .program) (cx : Context) (T : List (Waiting σ)) (exiting : Bool) :
    Machine σ → Prop
  | begins : Consulting next cx T exiting ⟨.instruct (Program.fiberContext.bindAny next), T, exiting⟩
  | asks : Consulting next cx T exiting ⟨.instruct .fiberContext, .map (.apply next) :: T, exiting⟩
  | knows : Consulting next cx T exiting ⟨.value (.context cx), .map (.apply next) :: T, exiting⟩

/-- No exit gets past such a machine: its own value goes to what is next. -/
theorem Consulting.stops {next : Value → Act σ .program} {cx : Context} {m : Machine σ} {x : AnyExit}
    (h : Consulting next cx T exiting m) (hcontrol : m.control = .ofExit x) (w : World σ) :
    (World.descend g x.isFailure m.stack w).2 ≠ T := by
  cases x with
  | success v =>
      cases h with
      | knows => exact List.cons_ne_self _ T
      | _ => cases hcontrol
  | failure cause => cases h <;> cases hcontrol

/-- A fiber that asks for its context goes on with it, unless it leaves its program first. Meanwhile it touches
no map of references and keeps its masks. -/
theorem Run.consults {next : Value → Act σ .program} {y : Fiber σ} (hT : T ≠ [])
    (hm : (r.moment a).machine? g = some ⟨.instruct (Program.fiberContext.bindAny next), T, exiting⟩)
    (hy : (r.moment a).world.fibers.get? g = some y) (han : a ≤ n)
    (hgone : ∀ next cx m, Consulting next cx T exiting m → (r.moment n).machine? g ≠ some m) :
    ∃ j y', a ≤ j ∧ j < n ∧ r.Silent g a j ∧ y.Onward y' ∧ y'.masks = y.masks ∧
      ((∃ m, (r.moment j).Leaves g y' m) ∨
        ∃ m, (r.moment j).Works g y' m ∧ r.moment (j + 1) =
          World.conclude g (World.enter g ⟨.value (.context y.context), T, exiting⟩
            (((r.moment j).world.count g).proceedWith (.apply next) (.context y.context)))) := by
  have hframe : (.map (.apply next) :: T : List (Waiting σ)) ≠ [] := List.cons_ne_nil _ _
  obtain ⟨i, y₁, hai, hin, honward₁, hmasks₁, ⟨hsilent, hleaves⟩ | ⟨hsilent₁, hm₁, hy₁⟩⟩ :=
    Run.gets_past (⟨.instruct .fiberContext, .map (.apply next) :: T, exiting⟩) hm hy (Or.inl ⟨_, rfl⟩) trivial
      han (hgone next y.context _ .begins) fun j y' _ hworks => by
        rw [Run.advance_of_turn hworks.turn, World.advance_instruct hworks.here rfl]
        rfl
  case inl => exact ⟨i, y₁, hai, hin, hsilent, honward₁, hmasks₁ hT, Or.inl ⟨_, hleaves⟩⟩
  obtain ⟨j, y₂, hij, hjn, honward₂, hmasks₂, ⟨hsilent, hleaves⟩ | ⟨hsilent₂, hm₂, hy₂⟩⟩ :=
    Run.gets_past (⟨.value (.context y.context), .map (.apply next) :: T, exiting⟩) hm₁ hy₁ (Or.inl ⟨_, rfl⟩)
      trivial hin (hgone next y.context _ .asks) fun j y' honward hworks => by
        rw [Run.advance_of_turn hworks.turn, World.advance_instruct hworks.here rfl,
          ← (honward₁.trans honward).context]
        rfl
  case inl =>
    exact ⟨j, y₂, by omega, hjn, hsilent₁.trans hsilent, honward₁.trans honward₂,
      (hmasks₂ hframe).trans (hmasks₁ hT), Or.inl ⟨_, hleaves⟩⟩
  obtain ⟨k, y₃, hjk, hkn, hsilent₃, honward₃, hmasks₃, hk⟩ :=
    Run.comes hm₂ hy₂ (Or.inr ⟨.success _, rfl⟩) trivial hjn (hgone next y.context _ .knows)
  refine ⟨k, y₃, by omega, hkn, (hsilent₁.trans hsilent₂).trans hsilent₃, (honward₁.trans honward₂).trans honward₃,
    ((hmasks₃ hframe).trans (hmasks₂ hframe)).trans (hmasks₁ hT), ?_⟩
  rcases hk with hworks | hleaves
  · refine Or.inr ⟨_, hworks, ?_⟩
    rw [Run.advance_of_turn hworks.turn, World.advance_unwind hworks.here (e := .success _) rfl]
    rfl
  · exact Or.inl ⟨_, hleaves⟩

/-! ## Reading and setting references -/

/-- In the move after `j` the fiber `g` sets the reference in its own map, and touches no other map. -/
def Run.Sets (r : Run σ) (g : Key .fiber) (ref : FiberRef) (d : Datum) (j : Nat) : Prop :=
  ∃ y m, (r.moment j).Works g y m ∧
    (r.moment (j + 1)).world.refs = (r.moment j).world.refs.modify y.context.refs (·.write ref d)

/-- Afterwards the reference reads as it was set in the map of the fiber, and the other maps are as before. -/
theorem Run.Sets.reads {ref : FiberRef} {d : Datum} {j : Nat} (h : r.Sets g ref d j) {y : Fiber σ}
    (hy : (r.moment j).world.fibers.get? g = some y) :
    ((r.moment j).world.HasRefs y.context.refs →
      ((r.moment (j + 1)).world.refMap y.context.refs).read ref = d) ∧
      ∀ key ≠ y.context.refs, (r.moment (j + 1)).world.refMap key = (r.moment j).world.refMap key := by
  obtain ⟨y', m, hworks, hrefs⟩ := h
  obtain rfl := Option.some.inj (hy.symm.trans hworks.fiber)
  constructor
  · rintro ⟨map, hmap⟩
    rw [World.refMap, hrefs, Store.get?_modify, if_pos rfl, hmap]
    simp [FiberRefs.read, FiberRefs.entry?_write]
  · intro key hkey
    rw [World.refMap, hrefs, Store.get?_modify, if_neg (Ne.symm hkey), World.refMap]

/-- A fiber that sets a reference does so in its own map, unless it leaves its program first. -/
theorem Run.sets_or_leaves {ref : FiberRef} {d : Datum} {y : Fiber σ} (hT : T ≠ [])
    (hm : (r.moment a).machine? g = some ⟨.instruct (Program.setRef ref d), T, exiting⟩)
    (hy : (r.moment a).world.fibers.get? g = some y) (han : a ≤ n)
    (hgone : ∀ next cx m, Consulting next cx T exiting m → (r.moment n).machine? g ≠ some m) :
    ∃ j, a ≤ j ∧ j < n ∧ r.Silent g a j ∧
      (r.Sets g ref d j ∨ ∃ y' m, (r.moment j).Leaves g y' m ∧ y'.masks = y.masks) := by
  obtain ⟨j, y', haj, hjn, hsilent, honward, hmasks, ⟨m, hleaves⟩ | ⟨m, hworks, hnext⟩⟩ :=
    Run.consults hT hm hy han hgone
  · exact ⟨j, haj, hjn, hsilent, Or.inr ⟨y', m, hleaves, hmasks⟩⟩
  · refine ⟨j, haj, hjn, hsilent, Or.inl ⟨y', m, hworks, ?_⟩⟩
    rw [hnext, ← honward.context]
    rfl

/-- A fiber that reads a reference comes to the value that it has in its own map. -/
theorem Run.reads_or_leaves {ref : FiberRef} {y : Fiber σ} (hT : T ≠ [])
    (hm : (r.moment a).machine? g = some ⟨.instruct (Program.getRef ref), T, exiting⟩)
    (hy : (r.moment a).world.fibers.get? g = some y) (han : a ≤ n)
    (hgone : ∀ next cx m, Consulting next cx T exiting m → (r.moment n).machine? g ≠ some m) :
    ∃ j, a ≤ j ∧ j < n ∧ r.Silent g a j ∧
      ((∃ y' m, (r.moment j).Leaves g y' m) ∨ r.Silent g j (j + 1) ∧
        (r.moment (j + 1)).machine? g = some
          ⟨.instruct (.succeed (.datum (((r.moment j).world.refMap y.context.refs).read ref))), T, exiting⟩) := by
  obtain ⟨j, y', haj, hjn, hsilent, honward, -, ⟨m, hleaves⟩ | ⟨m, hworks, hnext⟩⟩ :=
    Run.consults hT hm hy han hgone
  · exact ⟨j, haj, hjn, hsilent, Or.inl ⟨y', m, hleaves⟩⟩
  · refine ⟨j, haj, hjn, hsilent, Or.inr ⟨.of_turn hworks.turn (by rw [hnext]; rfl), ?_⟩⟩
    rw [hnext]
    exact Moment.machine?_active

/-- What expects a datum goes on with it. -/
theorem World.proceedWith_expect {cr : Carrier Datum} {v : Value} {d : Datum} (hcast : cr.cast v = .ok d)
    (w : World σ) (next : Datum → Act σ .program) :
    w.proceedWith (.apply fun v => cr.expect v next) v = w.run (next d) := by
  simp only [proceedWith, Carrier.expect, hcast]
  rfl

/-- A fiber that reads a reference to go on with its value comes to what is next for the value in its own map, unless
it leaves its program first. -/
theorem Run.goes_on_with_ref {cr : Carrier Datum} (hcr : ∀ d, cr.cast (.datum d) = .ok d) {ref : FiberRef}
    {next : Datum → Program σ} {y : Fiber σ}
    (hworks : (r.moment a).Works g y
      ⟨.instruct ((Program.getRef ref).bind cr fun d => .program (next d)), T, exiting⟩) (han : a < n)
    (hgone : ∀ m, (r.moment n).machine? g ≠ some m) :
    (∃ j, a < j ∧ j < n ∧ r.Silent g a j ∧ ∃ y' m, (r.moment j).Leaves g y' m) ∨
      ∃ i j, a < i ∧ i < j ∧ j ≤ n ∧ r.Silent g a j ∧ (r.moment j).machine? g =
        some ⟨.instruct (next (((r.moment i).world.refMap y.context.refs).read ref)), T, exiting⟩ := by
  set frame : Waiting σ := .map (.apply fun v => cr.expect v fun d => .program (next d))
  have hbegin : r.moment (a + 1) = ⟨(r.moment a).world.count g,
      some (g, ⟨.instruct (Program.getRef ref), frame :: T, exiting⟩)⟩ := by
    rw [Run.advance_of_turn hworks.turn, World.advance_instruct hworks.here rfl]
    rfl
  have hm : (r.moment (a + 1)).machine? g = some ⟨.instruct (Program.getRef ref), frame :: T, exiting⟩ := by
    rw [hbegin]
    exact Moment.machine?_active
  have hy : (r.moment (a + 1)).world.fibers.get? g = some { y with ops := y.ops + 1 } := by
    rw [hbegin]
    exact World.get?_count hworks.fiber
  have hsilent₀ : r.Silent g a (a + 1) := .of_turn hworks.turn (by rw [hbegin]; rfl)
  obtain ⟨i, hai, hin, hsilent₁, ⟨y', m, hleaves⟩ | ⟨hsilent₂, hm₁⟩⟩ :=
    Run.reads_or_leaves (List.cons_ne_nil _ _) hm hy han fun _ _ m _ => hgone m
  case inl => exact Or.inl ⟨i, hai, hin, hsilent₀.trans hsilent₁, y', m, hleaves⟩
  set d := ((r.moment i).world.refMap y.context.refs).read ref
  have hsilent₃ := (hsilent₀.trans hsilent₁).trans hsilent₂
  obtain ⟨y₁, hy₁, -⟩ := r.onward (show a ≤ i + 1 by omega) hworks.fiber
  obtain ⟨j, y₂, hij, hjn, -, -, ⟨hsilent, hleaves⟩ | ⟨hsilent₄, hm₂, hy₂⟩⟩ :=
    Run.gets_past ⟨.value (.datum d), frame :: T, exiting⟩ hm₁ hy₁ (Or.inl ⟨_, rfl⟩) trivial hin (hgone _)
      fun j y' _ hworks => by
        rw [Run.advance_of_turn hworks.turn, World.advance_instruct hworks.here rfl]
        rfl
  case inl => exact Or.inl ⟨j, by omega, hjn, hsilent₃.trans hsilent, y₂, _, hleaves⟩
  obtain ⟨k, y₃, hjk, hkn, -, -, ⟨hsilent, hleaves⟩ | ⟨hsilent₅, hm₃, -⟩⟩ :=
    Run.gets_past ⟨.instruct (next d), T, exiting⟩ hm₂ hy₂ (Or.inr ⟨.success _, rfl⟩) trivial hjn (hgone _)
      fun j y' _ hworks => by
        rw [Run.advance_of_turn hworks.turn, World.advance_unwind hworks.here (e := .success _) rfl]
        exact congrArg (fun called => World.conclude g (World.enter g ⟨.value (.datum d), T, exiting⟩ called))
          (World.proceedWith_expect (hcr d) ((r.moment j).world.count g) _)
  case inl => exact Or.inl ⟨k, by omega, hkn, (hsilent₃.trans hsilent₄).trans hsilent, y₃, _, hleaves⟩
  exact Or.inr ⟨i, k + 1, hai, by omega, hkn, (hsilent₃.trans hsilent₄).trans hsilent₅, hm₃⟩

/-! ## A reference that is set for a part of a program -/

/-- A part of a program for whose time a reference is set: it is protected by a finalizer that sets the reference
back. -/
structure Locally (r : Run σ) extends Protection r where
  ref : FiberRef
  value : Datum
  previous : Datum
  body : Program σ
  sets : inner = (Program.setRef ref value).andThen body
  restores : finalizer = .apply fun _ => .program (Program.setRef ref previous)

/-- At `a` the fiber `g` began, above the frames `T`, a program for whose time a reference is set. It then read the
reference in its own map, and protected the program. -/
structure Locally.Follows (l : Locally r) (g : Key .fiber) (ref : FiberRef) (value : Datum) (body : Program σ)
    (T : List (Waiting σ)) (a : Nat) : Prop where
  fiber : l.fiber = g
  ref : l.ref = ref
  value : l.value = value
  body : l.body = body
  stack : l.machine.stack = T
  silent : r.Silent g a l.start
  reads : ∃ i, a < i ∧ i < l.start ∧
    l.previous = ((r.moment i).world.refMap l.state.context.refs).read l.ref

/-- A fiber that begins a program with a reference set for its time reads the reference in its own map, and then
protects the program, unless it leaves its program first. -/
theorem Run.begins_locally {cr : Carrier Datum} (hcr : ∀ d, cr.cast (.datum d) = .ok d) {ref : FiberRef}
    {value : Datum} {body : Program σ} {y : Fiber σ}
    (hworks : (r.moment a).Works g y ⟨.instruct (Program.locally cr ref value body), T, exiting⟩) (han : a < n)
    (hgone : ∀ m, (r.moment n).machine? g ≠ some m) :
    (∃ j, a < j ∧ j < n ∧ r.Silent g a j ∧ ∃ y' m, (r.moment j).Leaves g y' m) ∨
      ∃ l : Locally r, l.Follows g ref value body T a ∧ l.start < n := by
  rcases Run.goes_on_with_ref hcr hworks han hgone with hleaves | ⟨i, j, hai, hij, hjn, hsilent, hm⟩
  case inl => exact Or.inl hleaves
  obtain ⟨y₁, hy₁, honward₁⟩ := r.onward (show a ≤ j by omega) hworks.fiber
  obtain ⟨k, y₂, hjk, hkn, hsilent₁, honward₂, -, hworks' | hleaves⟩ :=
    Run.comes hm hy₁ (Or.inl ⟨_, rfl⟩) trivial hjn (hgone _)
  · refine Or.inr ⟨⟨⟨k, g, y₂, _, _, _, hworks', rfl⟩, ref, value, _, body, rfl, rfl⟩,
      ⟨rfl, rfl, rfl, rfl, rfl, hsilent.trans hsilent₁, i, hai, Nat.lt_of_lt_of_le hij hjk, ?_⟩, hkn⟩
    show _ = ((r.moment i).world.refMap y₂.context.refs).read ref
    rw [(honward₁.trans honward₂).context]
  · exact Or.inl ⟨k, by omega, hkn, hsilent.trans hsilent₁, y₂, _, hleaves⟩

namespace Locally

variable {l : Locally r} {i j : Nat} {h : Handle} {x : AnyExit}

/-- The fiber `g` invokes the finalizer at `i`, and sets the reference back at `j`, in its own map. It is the fiber
of the program if an exit has come down to the frame. -/
structure Restores (l : Locally r) (g : Key .fiber) (i j : Nat) : Prop where
  invoked : l.Invoked i
  turn : ∃ m, (r.moment i).active = some (g, m)
  own : l.Unwinds i → g = l.fiber
  lt : i < j
  silent : r.Silent g i j
  sets : r.Sets g l.ref l.previous j

/-- A fiber to whose frame an exit comes down sets the reference back: it is masked, so it does not leave. -/
theorem restores_of_unwinds (hi : l.Unwinds i) (hin : i < n)
    (hgone : ∀ m, (r.moment n).machine? l.fiber ≠ some m) : ∃ j, j < n ∧ l.Restores l.fiber i j := by
  obtain ⟨y, m, x, w, w', hworks, hdescend, hclaim, hnext⟩ := hi.enters
  have hmoment : r.moment (i + 1) =
      ⟨w'.modifyFiber l.fiber fun fiber => { fiber with masks := fiber.masks.push false }, some (l.fiber,
        ⟨.instruct (Program.setRef l.ref l.previous),
          .restore .interruptible :: .resumeWith x :: l.machine.stack, m.exiting⟩)⟩ := by
    rw [hnext, l.restores]
    rfl
  have hrefs : w'.refs = (r.moment i).world.refs := by
    have hdown := World.refs_descend l.fiber x.isFailure m.stack ((r.moment i).world.count l.fiber)
    have htake := World.refs_claimFinalizer w l.handle
    rw [hdescend] at hdown
    rw [hclaim] at htake
    exact htake.trans hdown
  have hm : (r.moment (i + 1)).machine? l.fiber = some ⟨.instruct (Program.setRef l.ref l.previous),
      .restore .interruptible :: .resumeWith x :: l.machine.stack, m.exiting⟩ := by
    rw [hmoment]
    exact Moment.machine?_active
  obtain ⟨y', hy', -⟩ := r.onward (Nat.le_succ i) hworks.fiber
  have hmasked : y'.interruptible = false := by
    rw [hmoment, World.modifyFiber, Store.get?_modify, if_pos rfl] at hy'
    obtain ⟨z, -, rfl⟩ := Option.map_eq_some_iff.mp hy'
    rfl
  obtain ⟨j, hij, hjn, hsilent, hsets | ⟨z, m', hleaves, hmasks⟩⟩ :=
    Run.sets_or_leaves (List.cons_ne_nil _ _) hm hy' hin fun _ _ m _ => hgone m
  · exact ⟨j, hjn, Or.inl hi, ⟨m, hworks.turn⟩, fun _ => rfl, hij,
      Run.Silent.trans (.of_turn hworks.turn (by rw [hmoment]; exact hrefs)) hsilent, hsets⟩
  · have hleave := hleaves.2.2.2
    rw [Fiber.mustLeave, Fiber.interruptible, hmasks, ← Fiber.interruptible, hmasked, Bool.and_false] at hleave
    cases hleave

/-- A fiber that has claimed the finalizer and performs it sets the reference back, in its own map. -/
theorem restores_of_performs (hh : l.handle = some h) {e : AnyExit}
    (hperforms : r.Performs g (h, l.finalizer) e a b x) : ∃ j, j < b ∧ l.Restores g a j := by
  obtain ⟨T, hT, ⟨y, m, hworks, hcontrol, rfl⟩, hkeeps, z, m', hworks', hcontrol', hdescend⟩ := hperforms
  have hmoment : r.moment (a + 1) = ⟨(r.moment a).world.count g,
      some (g, { m with control := .instruct (Program.setRef l.ref l.previous) })⟩ := by
    rw [Run.advance_of_turn hworks.turn]
    refine World.advance_duty hworks.here hcontrol ?_
    rw [World.attend, l.restores]
    rfl
  have hm : (r.moment (a + 1)).machine? g =
      some ⟨.instruct (Program.setRef l.ref l.previous), m.stack, m.exiting⟩ := by
    rw [hmoment]
    exact Moment.machine?_active
  obtain ⟨y', hy', -⟩ := r.onward (Nat.le_succ a) hworks.fiber
  have hgone : ∀ next cx m₁, Consulting next cx m.stack m.exiting m₁ → (r.moment b).machine? g ≠ some m₁ := by
    intro next cx m₁ hconsulting hm₁
    obtain rfl := Option.some.inj ((Moment.machine?_of_active hworks'.turn).symm.trans hm₁)
    exact hconsulting.stops hcontrol' _ hdescend
  obtain ⟨j, haj, hjb, hsilent, hsets | ⟨z, m', hleaves, -⟩⟩ :=
    Run.sets_or_leaves hT hm hy' hkeeps.1 hgone
  · refine ⟨j, hjb, Or.inr ⟨h, hh, g, y, m, l.finalizer, e, hworks, hcontrol⟩, ⟨m, hworks.turn⟩, ?_, haj,
      Run.Silent.trans (.of_turn hworks.turn (by rw [hmoment]; rfl)) hsilent, hsets⟩
    rintro ⟨-, y₁, m₁, x₁, hworks₁, hcontrol₁, -⟩
    obtain ⟨⟩ : some (g, m) = some (l.fiber, m₁) := hworks.turn.symm.trans hworks₁.turn
    rfl
  · -- who leaves its program drops the frames
    obtain ⟨m₁, hm₁, hsuffix⟩ := hkeeps.2 (j + 1) (by omega) hjb
    obtain rfl := Option.some.inj (hm₁.symm.trans (Run.machine_of_leaves hleaves))
    exact absurd (List.suffix_nil.mp hsuffix) hT

/-- Once the fiber is done the reference has been set back once, by the fiber or by the party that closed its
scope, and in the map of who did it; or the scope refused the finalizer, and the fiber left the program from inside. -/
theorem restored_once {y : Fiber σ} {e : AnyExit} {sc : Scope (Finalizer σ)}
    (hy : (r.moment k).world.fibers.get? l.fiber = some y) (hdone : y.phase = .done e)
    (hsc : (r.moment k).world.scopes.get? y.scope = some sc) (hseq : sc.strategy = .sequential) :
    (l.handle = none ∧ (∃ j, j < k ∧ l.Abandons j) ∧ ∀ j, ¬ l.Invoked j) ∨
      ∃ g i j, j < k ∧ l.Restores g i j ∧ ∀ i', l.Invoked i' → i' = i := by
  have hgone : ∀ m, (r.moment k).machine? l.fiber ≠ some m := by
    intro m hm
    rw [Run.machine?_of_done hy hdone] at hm
    cases hm
  obtain ⟨hstart, hscope⟩ := Run.works_before_done l.works hy hdone
  have hunwound : ∀ i, i < k → l.Unwinds i →
      ∃ g i j, j < k ∧ l.Restores g i j ∧ ∀ i', l.Invoked i' → i' = i := by
    intro i hik hi
    obtain ⟨j, hjk, hrestores⟩ := restores_of_unwinds hi hik hgone
    exact ⟨l.fiber, i, j, hjk, hrestores, fun i' hi' => hi'.unique (Or.inl hi)⟩
  cases hh : l.handle with
  | none =>
      rcases l.refused_carries hh hstart with ⟨-, m, hcarries⟩ | ⟨i, hik, hi | habandons⟩
      · exact absurd hcarries.machine (hgone m)
      · exact Or.inr (hunwound i hik hi)
      · refine Or.inl ⟨rfl, ⟨i, hik, habandons⟩, ?_⟩
        rintro j (hunwinds | ⟨h, hh', -⟩)
        · exact habandons.not_unwinds hunwinds
        · rw [hh] at hh'
          cases hh'
  | some h =>
      obtain ⟨sc', hsc', hclosed⟩ := Run.closed_of_done hy hdone hsc hseq (Nat.le_refl k)
      obtain rfl := Option.some.inj (hsc'.symm.trans hsc)
      rw [hscope] at hsc
      rcases l.unwinds_or_performed hh hsc hclosed hseq with ⟨i, -, hik, hi⟩ | ⟨g, e', a, b, x, -, hbk, hperforms⟩
      · exact Or.inr (hunwound i hik hi)
      · obtain ⟨j, hjb, hrestores⟩ := restores_of_performs hh hperforms
        exact Or.inr ⟨g, a, j, Nat.lt_trans hjb hbk, hrestores, fun i' hi' => hi'.unique hrestores.invoked⟩

/-- The fiber sets the reference in its own map before it comes to the body, unless it leaves its program first. -/
theorem sets_value (l : Locally r) (hstart : l.start < n) (hgone : ∀ m, (r.moment n).machine? l.fiber ≠ some m) :
    ∃ j, l.start < j ∧ j < n ∧ r.Silent l.fiber l.start j ∧
      (r.Sets l.fiber l.ref l.value j ∨ ∃ y m, (r.moment j).Leaves l.fiber y m) := by
  have hmoment := l.next
  rw [l.sets] at hmoment
  have hsilent₀ : r.Silent l.fiber l.start (l.start + 1) :=
    .of_turn l.works.turn (by rw [hmoment]; exact World.refs_register _ _ _)
  have hm : (r.moment (l.start + 1)).machine? l.fiber =
      some ⟨.instruct ((Program.setRef l.ref l.value).andThen l.body), l.frames, l.machine.exiting⟩ := by
    rw [hmoment]
    exact Moment.machine?_active
  obtain ⟨y, hy, -⟩ := r.onward (Nat.le_succ l.start) l.works.fiber
  obtain ⟨i, y₁, hai, hin, -, -, ⟨hsilent, hleaves⟩ | ⟨hsilent₁, hm₁, hy₁⟩⟩ :=
    Run.gets_past ⟨.instruct (Program.setRef l.ref l.value), .map (.next l.body) :: l.frames, l.machine.exiting⟩
      hm hy (Or.inl ⟨_, rfl⟩) trivial hstart (hgone _) fun j y' _ hworks => by
        rw [Run.advance_of_turn hworks.turn, World.advance_instruct hworks.here rfl]
        rfl
  case inl => exact ⟨i, hai, hin, hsilent₀.trans hsilent, Or.inr ⟨y₁, _, hleaves⟩⟩
  obtain ⟨j, hij, hjn, hsilent₂, hsets | ⟨y', m, hleaves, -⟩⟩ :=
    Run.sets_or_leaves (List.cons_ne_nil _ _) hm₁ hy₁ hin fun _ _ m _ => hgone m
  · exact ⟨j, by omega, hjn, (hsilent₀.trans hsilent₁).trans hsilent₂, Or.inl hsets⟩
  · exact ⟨j, by omega, hjn, (hsilent₀.trans hsilent₁).trans hsilent₂, Or.inr ⟨y', m, hleaves⟩⟩

end Locally

/-- A fiber begins at `a` a program for whose time a reference is set, and is done at `k`. Then it left its program
before it came to set the reference, or it has set it in its own map alone, unless it left just then; and the
reference has been set back to the value that it read, once, in the map of the fiber that invoked the finalizer, or
the scope refused the finalizer and the fiber left the program from inside. -/
theorem Run.locally_restored {cr : Carrier Datum} (hcr : ∀ d, cr.cast (.datum d) = .ok d) {f : Key .fiber}
    {ref : FiberRef} {value : Datum} {body : Program σ} {y y' : Fiber σ} {e : AnyExit} {sc : Scope (Finalizer σ)}
    (hworks : (r.moment a).Works f y ⟨.instruct (Program.locally cr ref value body), T, exiting⟩)
    (hy' : (r.moment k).world.fibers.get? f = some y') (hdone : y'.phase = .done e)
    (hsc : (r.moment k).world.scopes.get? y'.scope = some sc) (hseq : sc.strategy = .sequential) :
    (∃ j, a < j ∧ j < k ∧ r.Silent f a (j + 1) ∧ ∃ z m, (r.moment j).Leaves f z m) ∨
      ∃ l : Locally r, l.Follows f ref value body T a ∧
        (∃ j, l.start < j ∧ j < k ∧ r.Silent f l.start j ∧
          (r.Sets f ref value j ∨ ∃ z m, (r.moment j).Leaves f z m)) ∧
        (l.handle = none ∧ (∃ j, j < k ∧ l.Abandons j) ∧ (∀ j, ¬ l.Invoked j) ∨
          ∃ g i j, j < k ∧ l.Restores g i j ∧ ∀ i', l.Invoked i' → i' = i) := by
  have hgone : ∀ m, (r.moment k).machine? f ≠ some m := by
    intro m hm
    rw [Run.machine?_of_done hy' hdone] at hm
    cases hm
  obtain ⟨hak, -⟩ := Run.works_before_done hworks hy' hdone
  rcases Run.begins_locally hcr hworks hak hgone with ⟨j, haj, hjk, hsilent, z, m, hleaves⟩ | ⟨l, hfollows, hlk⟩
  · exact Or.inl ⟨j, haj, hjk, hsilent.trans (.of_idle fun _ _ hw => hw.not_leaves hleaves), z, m, hleaves⟩
  · obtain rfl := hfollows.fiber
    refine Or.inr ⟨l, hfollows, ?_, Locally.restored_once hy' hdone hsc hseq⟩
    have hset := l.sets_value hlk hgone
    rwa [hfollows.ref, hfollows.value] at hset

/-! ## A reference that is set back elsewhere -/

/-- The data among the values. -/
def Carrier.data : Carrier Datum where
  name := "datum"
  wrap := .datum
  unwrap? := fun v => match v with
    | .datum d => some d
    | _ => none

/-- A reference that children copy. -/
def temper : FiberRef := ⟨1, .int 0, .childWins⟩

/-- The child has the reference set while it yields, and its parent, which sets it too, does not wait for it. -/
def tempered : Program Nat :=
  (Program.fork (.locally .data temper (.int 7) (Protection.yields 3)) {}).andThen
    ((Program.setRef temper (.int 5)).andThen (Protection.yields 2))

theorem licensed_tempered : tempered.Licensed .none :=
  .flatMap (.fork (Program.licensed_locally (Protection.licensed_yields 3)))
    (.next (.flatMap (Program.licensed_setRef _ _) (.next (Protection.licensed_yields 2))))

/-- The run of the child and its parent. -/
def temperedRun : Run Nat := .inOrder .standard 0 tempered licensed_tempered

set_option maxRecDepth 2048 in
/-- The child is done in the end, and the reference was set back once. -/
theorem tempered_restored : ∃ y y' e sc T,
    ((∀ d, Carrier.data.cast (.datum d) = .ok d) ∧
      (temperedRun.moment 22).Works ⟨1⟩ y
        ⟨.instruct (Program.locally .data temper (.int 7) (Protection.yields 3)), T, false⟩ ∧
      (temperedRun.moment 127).world.fibers.get? ⟨1⟩ = some y' ∧ y'.phase = .done e ∧
      (temperedRun.moment 127).world.scopes.get? y'.scope = some sc ∧ sc.strategy = .sequential) ∧
    ((∃ j, 22 < j ∧ j < 127 ∧ temperedRun.Silent ⟨1⟩ 22 (j + 1) ∧
        ∃ z m, (temperedRun.moment j).Leaves ⟨1⟩ z m) ∨
      ∃ l : Locally temperedRun, l.Follows ⟨1⟩ temper (.int 7) (Protection.yields 3) T 22 ∧
        (∃ j, l.start < j ∧ j < 127 ∧ temperedRun.Silent ⟨1⟩ l.start j ∧
          (temperedRun.Sets ⟨1⟩ temper (.int 7) j ∨ ∃ z m, (temperedRun.moment j).Leaves ⟨1⟩ z m)) ∧
        (l.handle = none ∧ (∃ j, j < 127 ∧ l.Abandons j) ∧ (∀ j, ¬ l.Invoked j) ∨
          ∃ g i j, j < 127 ∧ l.Restores g i j ∧ ∀ i', l.Invoked i' → i' = i)) := by
  have hcast : ∀ d, Carrier.data.cast (.datum d) = .ok d := fun d => rfl
  obtain ⟨y, T, hworks⟩ : ∃ y T, (temperedRun.moment 22).Works ⟨1⟩ y
      ⟨.instruct (Program.locally .data temper (.int 7) (Protection.yields 3)), T, false⟩ :=
    ⟨((temperedRun.moment 22).world.fibers.get? ⟨1⟩).get rfl, _, rfl, rfl, Or.inr rfl, by decide, Or.inl ⟨_, rfl⟩⟩
  obtain ⟨y', e, sc, hy', hdone, hsc, hseq⟩ : ∃ y' e sc,
      (temperedRun.moment 127).world.fibers.get? ⟨1⟩ = some y' ∧ y'.phase = .done e ∧
        (temperedRun.moment 127).world.scopes.get? y'.scope = some sc ∧ sc.strategy = .sequential :=
    ⟨((temperedRun.moment 127).world.fibers.get? ⟨1⟩).get rfl, _,
      ((temperedRun.moment 127).world.scopes.get? ⟨1⟩).get rfl, rfl, rfl, rfl, rfl⟩
  exact ⟨y, y', e, sc, T, ⟨hcast, hworks, hy', hdone, hsc, hseq⟩,
    Run.locally_restored hcast hworks hy' hdone hsc hseq⟩

set_option maxRecDepth 2048 in
/-- The parent closed the scope of the child. When both are done the map of the child keeps the value that was set
for the time, and the value that the parent had set is lost. -/
theorem tempered_misplaced : ∃ y z e e' T,
    (temperedRun.moment 22).Works ⟨1⟩ y
      ⟨.instruct (Program.locally .data temper (.int 7) (Protection.yields 3)), T, false⟩ ∧
    ((temperedRun.moment 127).world.fibers.get? ⟨1⟩).map (·.phase) = some (.done e) ∧
    ((temperedRun.moment 22).world.refMap y.context.refs).read temper = .int 0 ∧
    ((temperedRun.moment 127).world.refMap y.context.refs).read temper = .int 7 ∧
    (temperedRun.moment 22).world.fibers.get? ⟨0⟩ = some z ∧ z.context.refs ≠ y.context.refs ∧
    ((temperedRun.moment 127).world.fibers.get? ⟨0⟩).map (·.phase) = some (.done e') ∧
    ((temperedRun.moment 49).world.refMap z.context.refs).read temper = .int 5 ∧
    ((temperedRun.moment 127).world.refMap z.context.refs).read temper = .int 0 :=
  ⟨((temperedRun.moment 22).world.fibers.get? ⟨1⟩).get rfl, ((temperedRun.moment 22).world.fibers.get? ⟨0⟩).get rfl,
    _, _, _, ⟨rfl, rfl, Or.inr rfl, by decide, Or.inl ⟨_, rfl⟩⟩, rfl, rfl, rfl, rfl, by decide, rfl, rfl, rfl⟩

end Fibers
