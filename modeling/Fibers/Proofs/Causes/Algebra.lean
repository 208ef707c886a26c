import Fibers.Exit
import Mathlib.Tactic.Common

set_option autoImplicit false

/-! # The algebra of causes

A cause is a tree, and two views of it are enough to say what an operation does: its `leaves` from
left to right, and its `skeleton`, the tree with its traces where every leaf is alike. The two
together determine the cause.

* Mapping is looked at as a run from a state. `run_failures_mapM` says that the run over the tree
  is the run over the list of the typed failures, so each of them is visited once and in the order
  of the leaves; `skeleton_run_mapM` and `blank_run_mapM` say that nothing else changes.
* `run_tryMapM` reduces mapping with rejections to mapping: the outcomes are put into the tree
  first and settled in place afterwards.
* `RunError.ofCause` is a function of the leaves, and each of its three answers names a leaf.
-/

namespace Fibers

namespace Leaf

variable {ε φ : Type}

/-- The leaf without the error of a typed failure. -/
def blank : Leaf ε → Leaf Unit
  | .fail _ => .fail ()
  | .die d => .die d
  | .interrupt id => .interrupt id

/-- The leaf that a typed failure becomes by its outcome: a rejection is a defect. -/
def settled : Leaf (Except Defect φ) → Leaf φ
  | .fail (.ok x) => .fail x
  | .fail (.error d) => .die d
  | .die d => .die d
  | .interrupt id => .interrupt id

end Leaf

namespace Cause

variable {ε φ σ : Type}

/-- The tree with its traces, every leaf alike. -/
def skeleton : Cause ε → Cause Unit
  | .fail _ => .fail ()
  | .die _ => .fail ()
  | .interrupt _ => .fail ()
  | .andThen a b => .andThen a.skeleton b.skeleton
  | .both a b => .both a.skeleton b.skeleton
  | .traced c t => .traced c.skeleton t

/-! ## Runs of a mapping

The runs on two parts come one after the other, the second from the state where the first one
ended. -/

section Runs

variable (f : ε → StateM σ φ) (g : ε → StateM σ (Except Defect φ)) (a b c : Cause ε) (t : Trace)
  (s : σ)

theorem run_mapM_andThen : ((Cause.andThen a b).mapM f).run s =
    (.andThen ((a.mapM f).run s).1 ((b.mapM f).run ((a.mapM f).run s).2).1,
      ((b.mapM f).run ((a.mapM f).run s).2).2) := rfl

theorem run_mapM_both : ((Cause.both a b).mapM f).run s =
    (.both ((a.mapM f).run s).1 ((b.mapM f).run ((a.mapM f).run s).2).1,
      ((b.mapM f).run ((a.mapM f).run s).2).2) := rfl

theorem run_mapM_traced : ((Cause.traced c t).mapM f).run s =
    (.traced ((c.mapM f).run s).1 t, ((c.mapM f).run s).2) := rfl

theorem run_tryMapM_andThen : ((Cause.andThen a b).tryMapM g).run s =
    (.andThen ((a.tryMapM g).run s).1 ((b.tryMapM g).run ((a.tryMapM g).run s).2).1,
      ((b.tryMapM g).run ((a.tryMapM g).run s).2).2) := rfl

theorem run_tryMapM_both : ((Cause.both a b).tryMapM g).run s =
    (.both ((a.tryMapM g).run s).1 ((b.tryMapM g).run ((a.tryMapM g).run s).2).1,
      ((b.tryMapM g).run ((a.tryMapM g).run s).2).2) := rfl

theorem run_tryMapM_traced : ((Cause.traced c t).tryMapM g).run s =
    (.traced ((c.tryMapM g).run s).1 t, ((c.tryMapM g).run s).2) := rfl

end Runs

/-- The run over a list in two parts. -/
theorem run_mapM_append (f : ε → StateM σ φ) (es es' : List ε) (s : σ) :
    ((es ++ es').mapM f).run s =
      (((es.mapM f).run s).1 ++ ((es'.mapM f).run ((es.mapM f).run s).2).1,
        ((es'.mapM f).run ((es.mapM f).run s).2).2) := by
  rw [List.mapM_append]
  rfl

/-! ## Mapping the typed failures -/

theorem failures_andThen (a b : Cause ε) : (andThen a b).failures = a.failures ++ b.failures :=
  List.filterMap_append

theorem failures_both (a b : Cause ε) : (both a b).failures = a.failures ++ b.failures :=
  List.filterMap_append

/-- Mapping runs over the typed failures in the order of the leaves, each of them once, and leaves
their images in this order. -/
theorem run_failures_mapM (f : ε → StateM σ φ) (c : Cause ε) (s : σ) :
    (c.failures.mapM f).run s = (((c.mapM f).run s).1.failures, ((c.mapM f).run s).2) := by
  induction c generalizing s with
  | fail e =>
      show (([e] : List ε).mapM f).run s = _
      rw [List.mapM_cons]
      rfl
  | die d => rfl
  | interrupt id => rfl
  | andThen a b iha ihb =>
      rw [failures_andThen, run_mapM_append, iha, ihb, run_mapM_andThen, failures_andThen]
  | both a b iha ihb =>
      rw [failures_both, run_mapM_append, iha, ihb, run_mapM_both, failures_both]
  | traced c t ih => exact ih s

/-- Mapping keeps the tree and its traces. -/
theorem skeleton_run_mapM (f : ε → StateM σ φ) (c : Cause ε) (s : σ) :
    ((c.mapM f).run s).1.skeleton = c.skeleton := by
  induction c generalizing s with
  | fail e => rfl
  | die d => rfl
  | interrupt id => rfl
  | andThen a b iha ihb =>
      rw [run_mapM_andThen]
      show Cause.andThen _ _ = Cause.andThen _ _
      rw [iha, ihb]
  | both a b iha ihb =>
      rw [run_mapM_both]
      show Cause.both _ _ = Cause.both _ _
      rw [iha, ihb]
  | traced c t ih =>
      rw [run_mapM_traced]
      show Cause.traced _ t = Cause.traced _ t
      rw [ih]

/-- Mapping keeps the kind of every leaf, and the whole leaf if it is no typed failure. -/
theorem blank_run_mapM (f : ε → StateM σ φ) (c : Cause ε) (s : σ) :
    ((c.mapM f).run s).1.leaves.map Leaf.blank = c.leaves.map Leaf.blank := by
  induction c generalizing s with
  | fail e => rfl
  | die d => rfl
  | interrupt id => rfl
  | andThen a b iha ihb =>
      rw [run_mapM_andThen, leaves, leaves, List.map_append, List.map_append, iha, ihb]
  | both a b iha ihb =>
      rw [run_mapM_both, leaves, leaves, List.map_append, List.map_append, iha, ihb]
  | traced c t ih => exact ih s

/-- Mapping with rejections is mapping, where each outcome is settled in its place. -/
theorem run_tryMapM (f : ε → StateM σ (Except Defect φ)) (c : Cause ε) (s : σ) :
    (c.tryMapM f).run s = (((c.mapM f).run s).1.tryMap id, ((c.mapM f).run s).2) := by
  induction c generalizing s with
  | fail e =>
      simp only [tryMapM, mapM, StateT.run_bind]
      rcases (f e).run s with ⟨r, s'⟩
      cases r <;> rfl
  | die d => rfl
  | interrupt id => rfl
  | andThen a b iha ihb => rw [run_tryMapM_andThen, iha, ihb, run_mapM_andThen, tryMap]
  | both a b iha ihb => rw [run_tryMapM_both, iha, ihb, run_mapM_both, tryMap]
  | traced c t ih => rw [run_tryMapM_traced, ih, run_mapM_traced, tryMap]

theorem skeleton_tryMap (g : ε → Except Defect φ) (c : Cause ε) :
    (c.tryMap g).skeleton = c.skeleton := by
  induction c with
  | fail e =>
      unfold tryMap
      split <;> rfl
  | die d => rfl
  | interrupt id => rfl
  | andThen a b iha ihb => rw [tryMap, skeleton, iha, ihb, skeleton]
  | both a b iha ihb => rw [tryMap, skeleton, iha, ihb, skeleton]
  | traced c t ih => rw [tryMap, skeleton, ih, skeleton]

/-- Settling in place settles the leaves one by one. -/
theorem leaves_tryMap_id (r : Cause (Except Defect φ)) :
    (r.tryMap id).leaves = r.leaves.map Leaf.settled := by
  induction r with
  | fail e => cases e <;> rfl
  | die d => rfl
  | interrupt id => rfl
  | andThen a b iha ihb => rw [tryMap, leaves, iha, ihb, leaves, List.map_append]
  | both a b iha ihb => rw [tryMap, leaves, iha, ihb, leaves, List.map_append]
  | traced c t ih => exact ih

/-- A mapping that leaves the state alone is the mapping by a function. -/
theorem run_mapM_pure (g : ε → φ) (c : Cause ε) (s : σ) :
    (c.mapM fun e => (pure (g e) : StateM σ φ)).run s = (c.map g, s) := by
  induction c generalizing s with
  | fail e => rfl
  | die d => rfl
  | interrupt id => rfl
  | andThen a b iha ihb => rw [run_mapM_andThen, iha, ihb, map]
  | both a b iha ihb => rw [run_mapM_both, iha, ihb, map]
  | traced c t ih => rw [run_mapM_traced, ih, map]

theorem run_tryMapM_pure (g : ε → Except Defect φ) (c : Cause ε) (s : σ) :
    (c.tryMapM fun e => (pure (g e) : StateM σ (Except Defect φ))).run s = (c.tryMap g, s) := by
  have hsettle : (c.map g).tryMap id = c.tryMap g := by
    induction c with
    | fail e => rfl
    | die d => rfl
    | interrupt id => rfl
    | andThen a b iha ihb => rw [map, tryMap, iha, ihb, tryMap]
    | both a b iha ihb => rw [map, tryMap, iha, ihb, tryMap]
    | traced c t ih => rw [map, tryMap, ih, tryMap]
  rw [run_tryMapM, run_mapM_pure, hsettle]

/-! ## Removing the traces -/

theorem leaves_stripTraces (c : Cause ε) : c.stripTraces.leaves = c.leaves := by
  induction c with
  | fail e => rfl
  | die d => rfl
  | interrupt id => rfl
  | andThen a b iha ihb => rw [stripTraces, leaves, iha, ihb, leaves]
  | both a b iha ihb => rw [stripTraces, leaves, iha, ihb, leaves]
  | traced c t ih => exact ih

theorem traces_stripTraces (c : Cause ε) : c.stripTraces.traces = [] := by
  induction c with
  | fail e => rfl
  | die d => rfl
  | interrupt id => rfl
  | andThen a b iha ihb => rw [stripTraces, traces, iha, ihb, List.append_nil]
  | both a b iha ihb => rw [stripTraces, traces, iha, ihb, List.append_nil]
  | traced c t ih => exact ih

theorem stripTraces_stripTraces (c : Cause ε) : c.stripTraces.stripTraces = c.stripTraces := by
  induction c with
  | fail e => rfl
  | die d => rfl
  | interrupt id => rfl
  | andThen a b iha ihb => rw [stripTraces, stripTraces, iha, ihb]
  | both a b iha ihb => rw [stripTraces, stripTraces, iha, ihb]
  | traced c t ih => exact ih

/-- Mapping without the traces is mapping, without the traces. -/
theorem run_mapM_stripTraces (f : ε → StateM σ φ) (c : Cause ε) (s : σ) :
    (c.stripTraces.mapM f).run s = (((c.mapM f).run s).1.stripTraces, ((c.mapM f).run s).2) := by
  induction c generalizing s with
  | fail e => rfl
  | die d => rfl
  | interrupt id => rfl
  | andThen a b iha ihb =>
      rw [stripTraces, run_mapM_andThen, iha, ihb, run_mapM_andThen, stripTraces]
  | both a b iha ihb => rw [stripTraces, run_mapM_both, iha, ihb, run_mapM_both, stripTraces]
  | traced c t ih => exact ih s

theorem tryMap_stripTraces (g : ε → Except Defect φ) (c : Cause ε) :
    c.stripTraces.tryMap g = (c.tryMap g).stripTraces := by
  induction c with
  | fail e =>
      show tryMap g (.fail e) = (tryMap g (.fail e)).stripTraces
      unfold tryMap
      split <;> rfl
  | die d => rfl
  | interrupt id => rfl
  | andThen a b iha ihb => rw [stripTraces, tryMap, iha, ihb, tryMap, stripTraces]
  | both a b iha ihb => rw [stripTraces, tryMap, iha, ihb, tryMap, stripTraces]
  | traced c t ih => exact ih

end Cause

/-! ## The error of a run -/

theorem Cause.leaves_ne_nil {ε : Type} (c : Cause ε) : c.leaves ≠ [] := by
  induction c with
  | fail e => simp [leaves]
  | die d => simp [leaves]
  | interrupt id => simp [leaves]
  | andThen a b iha _ => simp [leaves, iha]
  | both a b iha _ => simp [leaves, iha]
  | traced c t ih => exact ih

/-- A leaf is a typed failure, a defect or an interruption. -/
theorem Leaf.interruptor?_isSome {ε : Type} {l : Leaf ε} (hfailure : l.failure? = none)
    (hdefect : l.defect? = none) : ∃ id, l.interruptor? = some id := by
  cases l with
  | fail e => cases hfailure
  | die d => cases hdefect
  | interrupt id => exact ⟨id, rfl⟩

namespace RunError

variable {ε : Type}

/-- The three answers: the first typed failure, else the first defect, else the first
interruption, which then exists. -/
theorem ofCause_cases (c : Cause ε) :
    (∃ e, c.leaves.findSome? Leaf.failure? = some e ∧ ofCause c = .failed e) ∨
    (c.leaves.findSome? Leaf.failure? = none ∧
      ∃ d, c.leaves.findSome? Leaf.defect? = some d ∧ ofCause c = .died d) ∨
    (c.leaves.findSome? Leaf.failure? = none ∧ c.leaves.findSome? Leaf.defect? = none ∧
      ∃ id, c.leaves.findSome? Leaf.interruptor? = some id ∧ ofCause c = .interrupted id) := by
  have hfailures : c.leaves.findSome? Leaf.failure? = c.failures.head? := List.head?_filterMap.symm
  have hdefects : c.leaves.findSome? Leaf.defect? = c.defects.head? := List.head?_filterMap.symm
  have hinterruptors : c.leaves.findSome? Leaf.interruptor? = c.interruptors.head? :=
    List.head?_filterMap.symm
  rw [hfailures, hdefects, hinterruptors]
  unfold ofCause
  cases hf : c.failures with
  | cons e _ => exact Or.inl ⟨e, rfl, rfl⟩
  | nil =>
      cases hd : c.defects with
      | cons d _ => exact Or.inr (Or.inl ⟨rfl, d, rfl, rfl⟩)
      | nil =>
          cases hi : c.interruptors with
          | cons id _ => exact Or.inr (Or.inr ⟨rfl, rfl, id, rfl, rfl⟩)
          | nil =>
              -- a cause has a leaf, and this one would be of none of the three kinds
              exfalso
              obtain ⟨l, hl⟩ := List.exists_mem_of_ne_nil _ c.leaves_ne_nil
              have hfailure := List.filterMap_eq_nil_iff.mp hf l hl
              have hdefect := List.filterMap_eq_nil_iff.mp hd l hl
              obtain ⟨id, hid⟩ := Leaf.interruptor?_isSome hfailure hdefect
              have hnone := List.filterMap_eq_nil_iff.mp hi l hl
              rw [hid] at hnone
              cases hnone

/-- Only the leaves count. -/
theorem ofCause_congr {c c' : Cause ε} (h : c.leaves = c'.leaves) : ofCause c = ofCause c' := by
  have hfailures : c.failures = c'.failures := congrArg (List.filterMap Leaf.failure?) h
  have hdefects : c.defects = c'.defects := congrArg (List.filterMap Leaf.defect?) h
  have hinterruptors : c.interruptors = c'.interruptors :=
    congrArg (List.filterMap Leaf.interruptor?) h
  unfold ofCause
  rw [hfailures, hdefects, hinterruptors]

end RunError

namespace Cause

variable {ε : Type}

/-- The laws of a cause.

A mapping that has a state visits the typed failures in the order of the leaves, each once, and
puts its outcomes in their places; with rejections, each outcome is settled there. Skeleton and
other leaves stay. Removing the traces keeps the leaves, leaves no trace, adds nothing when it is
done again, and commutes with both mappings. The error of a run depends on the leaves alone: it is
the first typed failure, else the first defect, else the first interruption. -/
theorem algebra (c : Cause ε) :
    (∀ (σ φ : Type) (f : ε → StateM σ φ) (s s' : σ) (c' : Cause φ), (c.mapM f).run s = (c', s') →
      (c.failures.mapM f).run s = (c'.failures, s') ∧
      c'.skeleton = c.skeleton ∧ c'.leaves.map Leaf.blank = c.leaves.map Leaf.blank ∧
      (c.stripTraces.mapM f).run s = (c'.stripTraces, s')) ∧
    (∀ (σ φ : Type) (f : ε → StateM σ (Except Defect φ)) (s s' : σ)
      (r : Cause (Except Defect φ)), (c.mapM f).run s = (r, s') →
      ∃ c' : Cause φ, (c.tryMapM f).run s = (c', s') ∧
        c'.skeleton = c.skeleton ∧ c'.leaves = r.leaves.map Leaf.settled ∧
        (c.stripTraces.tryMapM f).run s = (c'.stripTraces, s')) ∧
    (∀ (σ φ : Type) (g : ε → φ) (g' : ε → Except Defect φ) (s : σ),
      (c.mapM fun e => (pure (g e) : StateM σ φ)).run s = (c.map g, s) ∧
      (c.tryMapM fun e => (pure (g' e) : StateM σ (Except Defect φ))).run s = (c.tryMap g', s)) ∧
    (c.stripTraces.leaves = c.leaves ∧ c.stripTraces.traces = [] ∧
      c.stripTraces.stripTraces = c.stripTraces) ∧
    (∀ c' : Cause ε, c.leaves = c'.leaves → RunError.ofCause c = RunError.ofCause c') ∧
    ((∃ e, c.leaves.findSome? Leaf.failure? = some e ∧ RunError.ofCause c = .failed e) ∨
      (c.leaves.findSome? Leaf.failure? = none ∧
        ∃ d, c.leaves.findSome? Leaf.defect? = some d ∧ RunError.ofCause c = .died d) ∨
      (c.leaves.findSome? Leaf.failure? = none ∧ c.leaves.findSome? Leaf.defect? = none ∧
        ∃ id, c.leaves.findSome? Leaf.interruptor? = some id ∧
          RunError.ofCause c = .interrupted id)) := by
  refine ⟨?_, ?_, ?_, ⟨c.leaves_stripTraces, c.traces_stripTraces, c.stripTraces_stripTraces⟩,
    fun c' h => RunError.ofCause_congr h, RunError.ofCause_cases c⟩
  · intro σ φ f s s' c' h
    have hfailures := run_failures_mapM f c s
    have hskeleton := skeleton_run_mapM f c s
    have hblank := blank_run_mapM f c s
    have hstrip := run_mapM_stripTraces f c s
    rw [h] at hfailures hskeleton hblank hstrip
    exact ⟨hfailures, hskeleton, hblank, hstrip⟩
  · intro σ φ f s s' r h
    have htry := run_tryMapM f c s
    have hskeleton := skeleton_run_mapM f c s
    have hstrip := run_mapM_stripTraces f c s
    rw [h] at htry hskeleton hstrip
    refine ⟨r.tryMap id, htry, (skeleton_tryMap id r).trans hskeleton, leaves_tryMap_id r, ?_⟩
    calc (c.stripTraces.tryMapM f).run s = (r.stripTraces.tryMap id, s') := by
          rw [run_tryMapM, hstrip]
      _ = ((r.tryMap id).stripTraces, s') := by rw [tryMap_stripTraces]
  · intro σ φ g g' s
    exact ⟨run_mapM_pure g c s, run_tryMapM_pure g' c s⟩

/-- Two typed failures, one of them under a trace, around a defect. -/
def mishap : Cause String :=
  .andThen (.traced (.fail "read") ⟨[.label "load"]⟩) (.both (.die ⟨"lock"⟩) (.fail "close"))

/-- A mapping that numbers the errors and rejects every second one. -/
def numbered (e : String) : StateM Nat (Except Defect (Nat × String)) := fun n =>
  (if n % 2 = 0 then .ok (n, e) else .error ⟨e⟩, n + 1)

/-- The two failures are numbered in order, and the second becomes a defect in its place; the same
leaves in another grouping give the same error. -/
theorem algebra_mishap :
    (mishap.mapM numbered).run 0 =
      (.andThen (.traced (.fail (.ok (0, "read"))) ⟨[.label "load"]⟩)
        (.both (.die ⟨"lock"⟩) (.fail (.error ⟨"close"⟩))), 2) ∧
    (∃ c' : Cause (Nat × String), (mishap.tryMapM numbered).run 0 = (c', 2) ∧
      c'.leaves = [.fail (0, "read"), .die ⟨"lock"⟩, .die ⟨"close"⟩]) ∧
    mishap.leaves = (Cause.both (.andThen (.fail "read") (.die ⟨"lock"⟩)) (.fail "close")).leaves ∧
    RunError.ofCause mishap =
      RunError.ofCause (.both (.andThen (.fail "read") (.die ⟨"lock"⟩)) (.fail "close")) := by
  have hrun : (mishap.mapM numbered).run 0 =
      (.andThen (.traced (.fail (.ok (0, "read"))) ⟨[.label "load"]⟩)
        (.both (.die ⟨"lock"⟩) (.fail (.error ⟨"close"⟩))), 2) := rfl
  have hleaves : mishap.leaves =
      (Cause.both (.andThen (.fail "read") (.die ⟨"lock"⟩)) (.fail "close")).leaves := rfl
  obtain ⟨-, htry, -, -, herror, -⟩ := algebra mishap
  obtain ⟨c', hc', -, hsettled, -⟩ := htry Nat (Nat × String) numbered 0 2 _ hrun
  exact ⟨hrun, ⟨c', hc', hsettled⟩, hleaves, herror _ hleaves⟩

end Cause

end Fibers
