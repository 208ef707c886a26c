import Fibers.Proofs.Rounds.Lockstep
import Fibers.Proofs.Rounds.Walker

set_option autoImplicit false

/-! # Seeing a close through

A fiber that has asked for the close of a scope without finalizers claims them, publishes the exit, and goes on
with it (`Door`). A member of a zip does so at its end, with its own scope; the fiber that zips does so with the
arena.
-/

namespace Fibers.Rounds

open World Direct

variable {σ : Type}

/-- How a fiber closes its scope: the exit, what waits on its stack and on its masks, and whether it leaves its
program. -/
structure Closure (σ : Type) where
  exit : AnyExit
  rest : List (Waiting σ)
  masks : List Bool
  leaving : Bool

namespace Closure

variable (c : Closure σ) (s : Key .scope)

/-- What waits for the close. -/
def waitFrame : Waiting σ := .map (.next (Program.waitScope s))

/-- What waits for the finalizers. -/
def flagFrame : Waiting σ := .map (.next (.succeed (.flag true)))

def publishFrame : Waiting σ := .map (.sequel (.publish s))

/-- A spot of the way. -/
def place (control : Control σ) (stack : List (Waiting σ)) (masks : List Bool) (state : ScopeState (Finalizer σ))
    (closed : Cell AnyExit Wake) : Spot σ :=
  { machine := ⟨control, stack ++ c.rest, c.leaving⟩
    masks := masks ++ c.masks
    terminating := c.leaving
    state
    closed
    parent := false }

/-- What a fiber is like while it sees the close of the scope `s` through. -/
def spot : Door → Spot σ
  | .asked => c.place (.instruct ((Program.finishScope s).andThen (.succeed (.flag true)))) [waitFrame s] []
      (.closing c.exit (some [])) .fresh
  | .mask => c.place (.instruct (Program.finishScope s)) [flagFrame, waitFrame s] [] (.closing c.exit (some [])) .fresh
  | .finish => c.place (.instruct (.duty (.finish s))) [.restore .interruptible, flagFrame, waitFrame s] [false]
      (.closing c.exit (some [])) .fresh
  | .claimed => c.place (.instruct (.flatMap (.succeed (.exit c.exit)) (.sequel (.publish s))))
      [.restore .interruptible, flagFrame, waitFrame s] [false] (.closing c.exit none) .fresh
  | .exited => c.place (.instruct (.succeed (.exit c.exit)))
      [publishFrame s, .restore .interruptible, flagFrame, waitFrame s] [false] (.closing c.exit none) .fresh
  | .publish => c.place (.value (.exit c.exit))
      [publishFrame s, .restore .interruptible, flagFrame, waitFrame s] [false] (.closing c.exit none) .fresh
  | .published => c.place (.instruct .unit) [.restore .interruptible, flagFrame, waitFrame s] [false]
      (.closed c.exit) (.settled (.resolved c.exit))
  | .lift => c.place (.value .unit) [.restore .interruptible, flagFrame, waitFrame s] [false]
      (.closed c.exit) (.settled (.resolved c.exit))
  | .flag => c.place (.instruct (.succeed (.flag true))) [waitFrame s] [] (.closed c.exit) (.settled (.resolved c.exit))
  | .flagged => c.place (.value (.flag true)) [waitFrame s] [] (.closed c.exit) (.settled (.resolved c.exit))
  | .wait => c.place (.instruct (Program.waitScope s)) [] [] (.closed c.exit) (.settled (.resolved c.exit))
  | .closed => c.place (.instruct (.succeed (.exit c.exit))) [] [] (.closed c.exit) (.settled (.resolved c.exit))
  | .shut => c.place (.value (.exit c.exit)) [] [] (.closed c.exit) (.settled (.resolved c.exit))

variable {c} {k : Walker σ} {budget : Nat}

theorem stays (d : Door) : Walker.Stays (c.spot s d) := by
  cases hleaving : c.leaving with
  | true => exact Or.inl (by cases d <;> exact hleaving)
  | false => exact Or.inr (by cases d <;> exact hleaving)

/-- A fiber that leaves its program is masked. -/
def Masked (c : Closure σ) : Prop := c.leaving = false ∨ c.masks.head? = some false

/-- Every step but the last concerns the fiber and its scope alone. -/
theorem moves (hk : k.Sound budget) (hmasked : c.Masked) (d : Door) (hd : d.left ≠ 0) :
    Walker.Moves k (· < budget) d.spent (c.spot k.scope d) (c.spot k.scope d.next) := by
  cases d with
  | asked => exact Walker.moves_instruct hk rfl (stays _ _) rfl fun _ _ _ => rfl
  | mask =>
      refine Walker.moves_of_instruct hk rfl (stays _ _) fun w ops y hactive _ _ => ?_
      exact ⟨_, rfl, hactive.modify rfl fun token => ⟨token, rfl⟩, Walker.private_modify w _⟩
  | finish =>
      refine Walker.moves_of_instruct hk rfl (stays _ _) fun w ops y hactive _ _ => ?_
      have hattend : w.attend (.finish k.scope) =
          ({ w with scopes := w.scopes.set k.scope (k.nestAt (c.spot k.scope .claimed)) },
            .ok (.flatMap (.succeed (.exit c.exit)) (.sequel (.publish k.scope)))) := by
        simp only [attend, hactive.scope_eq]
        rfl
      refine ⟨_, ?_, hactive.setScope fun _ => rfl, Walker.private_setScope w _⟩
      show enter k.fiber _ (w.attend (.finish k.scope)) = _
      rw [hattend]
      rfl
  | claimed => exact Walker.moves_instruct hk rfl (stays _ _) rfl fun _ _ _ => rfl
  | exited => exact Walker.moves_instruct hk rfl (stays _ _) rfl fun _ _ _ => rfl
  | publish =>
      refine Walker.moves_of_unwind (e := .success (.exit c.exit)) hk rfl (stays _ _) fun w ops hactive => ?_
      have hpublish : w.publish k.scope c.exit =
          { w with scopes := w.scopes.set k.scope (k.nestAt (c.spot k.scope .published)) } := by
        simp only [World.publish, hactive.scope_eq]
        rfl
      refine ⟨_, ?_, hactive.setScope fun _ => rfl, Walker.private_setScope w _⟩
      show World.unwindValue k.fiber c.leaving (.exit c.exit) (.map (.sequel (.publish k.scope)) :: _) w = _
      simp only [World.unwindValue, World.proceedWith, World.follow, Value.asExit, hpublish]
      rfl
  | published => exact Walker.moves_instruct hk rfl (stays _ _) rfl fun _ _ _ => rfl
  | lift =>
      refine Walker.moves_of_unwind (e := .success .unit) hk rfl (stays _ _) fun w ops hactive => ?_
      obtain ⟨hrestore, hactive'⟩ :=
        Walker.restore_of_active (c.spot k.scope .flag) hk hactive rfl rfl hmasked
      refine ⟨_, ?_, hactive', Walker.private_modify w _⟩
      show World.unwindValue k.fiber c.leaving .unit (.restore .interruptible :: flagFrame :: _) w = _
      simp only [World.unwindValue, hrestore]
      rfl
  | flag => exact Walker.moves_instruct hk rfl (stays _ _) rfl fun _ _ _ => rfl
  | flagged => exact Walker.moves_unwind (e := .success (.flag true)) hk rfl (stays _ _) rfl fun _ => rfl
  | wait =>
      intro w ops hactive hops
      obtain ⟨y, token, rfl, hget, hbudget, hadvance⟩ := hactive.advance hk (stays _ _)
      have hsettled : (w.count k.fiber).settledProgram? (.closed k.scope) = some (.succeed (.exit c.exit)) := by
        simp only [settledProgram?, hactive.count.scope_eq]
        rfl
      obtain ⟨w', hconclude, hactive', hprivate⟩ :=
        hactive.count.await_settled (m := (c.spot k.scope .wait).machine) hsettled (stays _ .wait) none
      refine ⟨w', ?_, hactive'.shift rfl, (Walker.private_modify w _).trans hprivate⟩
      rw [hadvance, step_instruct (p := Program.waitScope k.scope) rfl (by rw [hbudget]; exact hops)]
      exact hconclude
  | closed => exact Walker.moves_instruct hk rfl (stays _ _) rfl fun _ _ _ => rfl
  | shut => exact absurd rfl hd

end Closure

/-- An open scope has finalizers, hooks and a next key. -/
theorem opened_of_isOpen {sc : Scope (Finalizer σ)} (h : sc.isOpen = true) :
    ∃ fs hooks next, sc = { sc with state := .opened fs hooks next } := by
  cases hstate : sc.state with
  | opened fs hooks next => exact ⟨fs, hooks, next, by rw [← hstate]⟩
  | closing e claim => simp only [Scope.isOpen, hstate, Bool.false_eq_true] at h
  | closed e => simp only [Scope.isOpen, hstate, Bool.false_eq_true] at h

/-- A scope that is open is there. -/
theorem exists_opened {w : World σ} {s : Key .scope} (h : (w.scope s).isOpen = true) :
    ∃ (sc : Scope (Finalizer σ)) (fs : List (Nat × Finalizer σ)) (hooks : List (Key .fiber)) (next : Nat),
      w.scopes.get? s = some { sc with state := .opened fs hooks next } := by
  rw [World.scope] at h
  cases hget : w.scopes.get? s with
  | none =>
      rw [hget] at h
      cases h
  | some sc =>
      rw [hget, Option.getD_some] at h
      obtain ⟨fs, hooks, next, hstate⟩ := opened_of_isOpen h
      exact ⟨sc, fs, hooks, next, congrArg some hstate⟩

namespace Walker

variable {k : Walker σ} {w : World σ} {x : Spot σ} {ops : Nat}

/-- A scope that is asked to close leaves its parent, whose other finalizers stay. -/
theorem Active.requestClose (h : k.Active x ops w) {fs : List (Nat × Finalizer σ)} {hooks : List (Key .fiber)}
    {next : Nat} (hstate : x.state = .opened fs hooks next) (hparent : x.parent = true) {u : Handle}
    (hu : k.nest.parent = some u) (hapart : u.scope ≠ k.scope) {sc : Scope (Finalizer σ)}
    {gs : List (Nat × Finalizer σ)} {others : List (Key .fiber)} {next' : Nat}
    (hsc : w.scopes.get? u.scope = some { sc with state := .opened gs others next' }) (e : AnyExit) :
    ∃ scopes : Store .scope (Scope (Finalizer σ)),
      w.requestClose k.scope e = (hooks.foldl World.scopeClosing { w with scopes }, true) ∧
      scopes.get? k.scope = some (k.nestAt { x with
        state := .closing e (some fs)
        parent := false }) ∧
      scopes.get? u.scope = some { sc with state := .opened (gs.filter (·.1 != u.key)) others next' } ∧
      ∀ s, s ≠ k.scope → s ≠ u.scope → scopes.get? s = w.scopes.get? s := by
  have hrequest : (w.scope k.scope).requestClose? e =
      some (k.nestAt { x with state := .closing e (some fs), parent := false }, ⟨hooks, k.nest.parent⟩) := by
    rw [h.scope_eq, Scope.requestClose?]
    simp only [nestAt, hstate, hparent, if_true, Bool.false_eq_true, if_false]
  set asked := w.scopes.set k.scope (k.nestAt { x with state := .closing e (some fs), parent := false }) with hasked
  have hown : asked.get? k.scope = some (k.nestAt { x with state := .closing e (some fs), parent := false }) :=
    Store.get?_set_of_some h.scope
  have hother : ∀ s, s ≠ k.scope → asked.get? s = w.scopes.get? s := fun s hs => by
    rw [hasked, Store.get?_set, if_neg hs.symm]
  have hread : World.scope { w with scopes := asked } u.scope = { sc with state := .opened gs others next' } := by
    rw [World.scope]
    show (asked.get? u.scope).getD default = _
    rw [hother _ hapart, hsc, Option.getD_some]
  simp only [World.requestClose, hrequest, hu, World.cancelFinalizer, World.takeFinalizer]
  rw [hread]
  cases hfind : gs.find? (·.1 == u.key) with
  | none =>
      have hfilter : gs.filter (·.1 != u.key) = gs := by
        refine List.filter_eq_self.mpr fun y hy => ?_
        have := List.find?_eq_none.mp hfind y hy
        simpa [bne] using this
      simp only [Scope.take?, hfind, Option.map_none]
      refine ⟨asked, rfl, hown, ?_, fun s hs _ => hother s hs⟩
      rw [hfilter, hother _ hapart, hsc]
  | some y =>
      simp only [Scope.take?, hfind, Option.map_some]
      refine ⟨_, rfl, ?_, Store.get?_set_of_some ((hother _ hapart).trans hsc), fun s hs hs' => ?_⟩
      · rw [Store.get?_set, if_neg hapart, hown]
      · rw [Store.get?_set, if_neg hs'.symm, hother s hs]

end Walker

end Fibers.Rounds
