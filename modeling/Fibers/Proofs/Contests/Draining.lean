import Mathlib.Data.List.Induction
import Fibers.Proofs.Exits.Agreement
import Fibers.Proofs.Run.Execution

set_option autoImplicit false

/-! # Waiting for members and closing arenas

A fiber that waits for other fibers in order comes to the list of their exits. A fiber that closes a scope,
or waits for the one who does, comes to the exit of the scope; on the way it runs the finalizers of the scope
if nobody else has claimed them. The failures of finalizers are kept apart as values, so that running them
fails only where it is side by side and the zip that it comes down to fails.
-/

namespace Fibers

variable {σ : Type} {r : Run σ} {g : Key .fiber} {T : List (Waiting σ)} {exiting : Bool}
variable {a b : Nat} {e : AnyExit}

/-- A program that runs a finalizer and gives its exit as a value. -/
def Program.RunsFinalizer (p : Program σ) : Prop :=
  ∃ h fin x, p = (Program.duty (.finalize h fin x)).captured

/-- Every zip of finalizers that the fiber `g` comes to after `a`, and that ends by `b`, ends with a value. -/
def Run.ZipsSucceed (r : Run σ) (g : Key .fiber) (exiting : Bool) (a b : Nat) : Prop :=
  ∀ T a' b' ps e, (∀ p ∈ ps, p.RunsFinalizer) → a < a' → b' ≤ b →
    r.Executes g T exiting a' b' (.instruct (.zipAll ps)) e → ∃ v, e = .success v

theorem Run.ZipsSucceed.mono {a' b' : Nat} (h : r.ZipsSucceed g exiting a b) (haa' : a ≤ a')
    (hb'b : b' ≤ b) : r.ZipsSucceed g exiting a' b' :=
  fun T i j ps e hps hi hj => h T i j ps e hps (Nat.lt_of_le_of_lt haa' hi) (Nat.le_trans hj hb'b)

namespace Run.Executes

/-! ## Waiting for fibers -/

/-- Waiting for a fiber gives its exit. -/
theorem awaits {f : Key .fiber} (h : r.Executes g T exiting a b (.instruct (.wait (.done f))) e) :
    ∃ x, e = .success (.exit x) ∧ (r.moment b).world.exitOf f = some x ∧ r.Silent g a b := by
  obtain ⟨k, p, -, hkb, hp, hsilent, hrest⟩ := h.waits rfl
  obtain ⟨x, hx, rfl⟩ := Option.map_eq_some_iff.mp hp
  obtain ⟨rfl, hend⟩ := hrest.ends (x := .success (.exit x))
  exact ⟨x, rfl, (r.exitOf_later (Nat.le_of_lt hkb) hx).2, hsilent.trans hend⟩

/-- Waiting for fibers in order gives their exits in order. -/
theorem awaitExits {fs : List (Key .fiber)}
    (h : r.Executes g T exiting a b (.instruct (World.awaitExits fs)) e) :
    ∃ xs, e = .success (.exits xs) ∧
      List.Forall₂ (fun f x => (r.moment b).world.exitOf f = some x) fs xs ∧ r.Silent g a b := by
  induction fs using List.reverseRecOn generalizing T a b e with
  | nil =>
      obtain ⟨rfl, hsilent⟩ := h.ends (x := .success (.exits []))
      exact ⟨[], rfl, .nil, hsilent⟩
  | append_singleton fs f ih =>
      have hsplit : World.awaitExits (σ := σ) (fs ++ [f]) =
          .flatMap (World.awaitExits fs) (.sequel (.awaitNext f)) := by
        rw [World.awaitExits, List.foldl_append]
        rfl
      rw [hsplit] at h
      obtain ⟨a₁, b₁, e₁, haa₁, hb₁b, hsilent₁, hpart₁, hafter₁⟩ := h.flatMap
      obtain ⟨xs, rfl, hxs, hsilent₂⟩ := ih hpart₁
      obtain ⟨cause, hcause, -⟩ | ⟨v, w, m, hv, hlt, -, hrefs, hactive, hnext⟩ := hafter₁
      · cases hcause
      cases hv
      have hab₁ : a ≤ b₁ := Nat.le_trans (Nat.le_of_lt haa₁) hpart₁.le
      obtain ⟨hworld, hgoes⟩ := h.enters hab₁ hlt hnext
      obtain ⟨a₂, b₂, e₂, haa₂, hb₂b, hsilent₃, hpart₂, hafter₂⟩ := hgoes.flatMap
      obtain ⟨x, rfl, hx, hsilent₄⟩ := hpart₂.awaits
      obtain ⟨cause, hcause, -⟩ | ⟨v, w', m', hv, hlt', -, hrefs', hactive', hnext'⟩ := hafter₂
      · cases hcause
      cases hv
      obtain ⟨hworld', hgoes'⟩ := hgoes.enters (Nat.le_trans (Nat.le_of_lt haa₂) hpart₂.le) hlt' hnext'
      obtain ⟨rfl, hsilent₅⟩ := hgoes'.ends (x := .success (.exits (xs ++ [x])))
      have hhand₁ : r.Silent g b₁ (b₁ + 1) := .of_turn hactive (by rw [hworld, hrefs])
      have hhand₂ : r.Silent g b₂ (b₂ + 1) := .of_turn hactive' (by rw [hworld', hrefs'])
      refine ⟨xs ++ [x], rfl, ?_, ?_⟩
      · exact List.rel_append (hxs.imp fun f x hx => (r.exitOf_later (Nat.le_of_lt hlt) hx).2)
          (.cons (r.exitOf_later hb₂b hx).2 .nil)
      · exact (((((hsilent₁.trans hsilent₂).trans hhand₁).trans hsilent₃).trans hsilent₄).trans
          hhand₂).trans hsilent₅

/-! ## Running finalizers -/

open Sequence in
/-- Finalizers run one after the other end with a value, whatever they come to. -/
theorem nest {x : AnyExit} {fins : List (Handle × Finalizer σ)}
    (h : r.Executes g T exiting a b (.instruct (nest x fins)) e) : ∃ z, e = .success (.exit z) := by
  induction fins using List.reverseRecOn generalizing T a b e with
  | nil =>
      obtain ⟨rfl, -⟩ := h.ends (x := .success (.exit x))
      exact ⟨x, rfl⟩
  | append_singleton fins fin ih =>
      rw [nest_concat] at h
      obtain ⟨a₁, b₁, e₁, haa₁, -, -, hpart₁, hafter₁⟩ := h.flatMap
      obtain ⟨z, rfl⟩ := ih hpart₁
      obtain ⟨cause, hcause, -⟩ | ⟨v, w, m, hv, hlt, -, -, -, hnext⟩ := hafter₁
      · cases hcause
      cases hv
      obtain ⟨-, hgoes⟩ := h.enters (Nat.le_trans (Nat.le_of_lt haa₁) hpart₁.le) hlt hnext
      obtain ⟨a₂, b₂, e₂, haa₂, -, -, hpart₂, hafter₂⟩ := hgoes.flatMap
      obtain ⟨-, -, x₂, -, -, -, -, rfl, -⟩ := hpart₂.captured
      obtain ⟨cause, hcause, -⟩ | ⟨v, w', m', hv, hlt', -, -, -, hnext'⟩ := hafter₂
      · cases hcause
      cases hv
      obtain ⟨-, hgoes'⟩ := hgoes.enters (Nat.le_trans (Nat.le_of_lt haa₂) hpart₂.le) hlt' hnext'
      obtain ⟨rfl, -⟩ := hgoes'.ends (x := .success (.exit (World.combine z x₂)))
      exact ⟨_, rfl⟩

/-- Finalizers end with a value if the zips do that the fiber runs them with. -/
theorem finalizers {x : AnyExit} {fins : List (Handle × Finalizer σ)} {strategy : Strategy}
    (h : r.Executes g T exiting a b (.instruct (World.finalizers x fins strategy)) e)
    (hzips : r.ZipsSucceed g exiting a b) :
    ∃ z, e = .success (.exit z) := by
  have hsideBySide : ∀ {T' a' b' e' ps level}, (∀ p ∈ ps, p.RunsFinalizer) → a < a' → b' ≤ b →
      r.Executes g T' exiting a' b' (.instruct (.flatMap (.withConcurrency (.zipAll ps) level)
        (.sequel (.combineAll x)))) e' → ∃ z, e' = .success (.exit z) := by
    intro T' a' b' e' ps level hps haa' hb'b h
    obtain ⟨a₁, b₁, e₁, haa₁, hb₁b, -, hpart₁, hafter₁⟩ := h.flatMap
    obtain ⟨a₂, b₂, haa₂, hb₂b, -, -, hpart₂⟩ := hpart₁.withConcurrency
    obtain ⟨v, rfl⟩ := hzips _ a₂ b₂ _ _ hps (by omega) (by omega) hpart₂
    obtain ⟨cause, hcause, -⟩ | ⟨v', w, m, hv, hlt, -, -, -, hnext⟩ := hafter₁
    · cases hcause
    cases hv
    obtain ⟨-, hgoes⟩ := h.enters (Nat.le_trans (Nat.le_of_lt haa₁) hpart₁.le) hlt hnext
    obtain ⟨rfl, -⟩ := hgoes.ends (x := .success (.exit _))
    exact ⟨_, rfl⟩
  have hruns : ∀ p ∈ fins.reverse.map (fun fin => (Program.duty (.finalize fin.1 fin.2 x)).captured),
      p.RunsFinalizer := fun p hp => by
    obtain ⟨fin, -, rfl⟩ := List.mem_map.mp hp
    exact ⟨fin.1, fin.2, x, rfl⟩
  unfold World.finalizers at h
  split at h
  · obtain ⟨rfl, -⟩ := h.ends (x := .success (.exit x))
    exact ⟨x, rfl⟩
  · obtain ⟨a', b', haa', hb'b, -, -, hpart⟩ := h.uninterruptible
    cases strategy with
    | sequential =>
        have hnest : r.Executes g _ exiting a' b' (.instruct (Sequence.nest x fins.reverse)) e := hpart
        exact hnest.nest
    | concurrent => exact hsideBySide hruns haa' hb'b hpart
    | bounded n => exact hsideBySide hruns haa' hb'b hpart

end Run.Executes

/-! ## Closing a scope -/

/-- From `a` to `b` the fiber `g` runs finalizers of the scope `s`. -/
def Run.Finalizes (r : Run σ) (g : Key .fiber) (s : Key .scope) (a b : Nat) : Prop :=
  ∃ T exiting x strategy e, ∃ fins : List (Nat × Finalizer σ), r.Executes g T exiting a b
    (.instruct (World.finalizers x (fins.map fun fin => (⟨s, fin.1⟩, fin.2)) strategy)) e

/-- From `a` to `b` the fiber `g` leaves the maps of references alone, but for what finalizers of the scope
`s` do. -/
def Run.SilentBut (r : Run σ) (g : Key .fiber) (s : Key .scope) (a b : Nat) : Prop :=
  r.Silent g a b ∨ ∃ c d, a ≤ c ∧ d ≤ b ∧ r.Silent g a c ∧ r.Finalizes g s c d ∧ r.Silent g d b

namespace Run.SilentBut

variable {s : Key .scope} {c : Nat}

theorem before (h : r.SilentBut g s b c) (hab : a ≤ b) (hsilent : r.Silent g a b) : r.SilentBut g s a c := by
  rcases h with h | ⟨i, j, hbi, hjc, hbefore, hfins, hafter⟩
  · exact Or.inl (hsilent.trans h)
  · exact Or.inr ⟨i, j, Nat.le_trans hab hbi, hjc, hsilent.trans hbefore, hfins, hafter⟩

theorem after (h : r.SilentBut g s a b) (hbc : b ≤ c) (hsilent : r.Silent g b c) : r.SilentBut g s a c := by
  rcases h with h | ⟨i, j, hai, hjb, hbefore, hfins, hafter⟩
  · exact Or.inl (h.trans hsilent)
  · exact Or.inr ⟨i, j, hai, Nat.le_trans hjb hbc, hbefore, hfins, hafter.trans hsilent⟩

end Run.SilentBut

namespace Run.Executes

variable {s : Key .scope}

/-- Claiming the finalizers of a scope and running them, unless somebody else does. -/
theorem finishes (h : r.Executes g T exiting a b (.instruct (Program.finishScope s)) e)
    (hzips : r.ZipsSucceed g exiting a b) :
    (∃ v, e = .success v) ∧ r.SilentBut g s a b := by
  obtain ⟨a₁, b₁, haa₁, hb₁b, hsilent₁, hsilent₂, hpart⟩ := h.uninterruptible
  obtain ⟨k, y, hak, hkb, hsilent₃, hworks, hnext⟩ := hpart.instructs trivial
  have hak' : a ≤ k + 1 := by omega
  -- what comes after the duty is silent but for the finalizers; so is the whole
  suffices hrest : (∃ v, e = .success v) ∧ r.SilentBut g s (k + 1) b₁ ∧
      (r.moment (k + 1)).world.refs = (r.moment k).world.refs by
    obtain ⟨hvalue, hbut, hrefs⟩ := hrest
    exact ⟨hvalue, (hbut.before hak' ((hsilent₁.trans hsilent₃).trans (.of_turn hworks.turn hrefs))).after
      hb₁b hsilent₂⟩
  cases hclaim : (((r.moment k).world.count g).scope s).claim? with
  | none =>
      have hattend : ((r.moment k).world.count g).attend (.finish s) =
          ((r.moment k).world.count g, .ok .unit) := by simp only [World.attend, hclaim]
      rw [World.instruct, hattend] at hnext
      obtain ⟨hworld, hgoes⟩ := hpart.enters hak hkb hnext
      obtain ⟨rfl, hend⟩ := hgoes.ends (x := .success .unit)
      exact ⟨⟨_, rfl⟩, Or.inl hend, by rw [hworld]; rfl⟩
  | some claimed =>
      obtain ⟨sc, x, fins⟩ := claimed
      have hattend : ((r.moment k).world.count g).attend (.finish s) =
          ({ (r.moment k).world.count g with
              scopes := ((r.moment k).world.count g).scopes.set s sc },
            .ok (.flatMap (World.finalizers x (fins.map fun fin => (⟨s, fin.1⟩, fin.2)) sc.strategy)
              (.sequel (.publish s)))) := by simp only [World.attend, hclaim]
      rw [World.instruct, hattend] at hnext
      obtain ⟨hworld, hgoes⟩ := hpart.enters hak hkb hnext
      obtain ⟨a₂, b₂, e₂, haa₂, hb₂b, hsilent₄, hfins, hafter⟩ := hgoes.flatMap
      obtain ⟨z, rfl⟩ := hfins.finalizers (hzips.mono (by omega) (by omega))
      obtain ⟨cause, hcause, -⟩ | ⟨v, w, m, hv, hlt, -, hrefs, hactive, hnext'⟩ := hafter
      · cases hcause
      cases hv
      obtain ⟨hworld', hgoes'⟩ := hgoes.enters (Nat.le_trans (Nat.le_of_lt haa₂) hfins.le) hlt hnext'
      obtain ⟨rfl, hend⟩ := hgoes'.ends (x := .success .unit)
      have hpublish : r.Silent g b₂ (b₂ + 1) :=
        .of_turn hactive (by rw [hworld', World.refs_publish, hrefs])
      exact ⟨⟨_, rfl⟩, Or.inr ⟨a₂, b₂, Nat.le_of_lt haa₂, hb₂b, hsilent₄,
        ⟨_, exiting, x, sc.strategy, _, fins, hfins⟩, hpublish.trans hend⟩, by rw [hworld]; rfl⟩

/-- Closing a scope, or waiting for the one who does, gives the exit of the scope. -/
theorem closes {x : AnyExit}
    (h : r.Executes g T exiting a b (.instruct (Program.closeOrWaitScope s x)) e)
    (hzips : r.ZipsSucceed g exiting a b) :
    ∃ z, e = .success (.exit z) ∧ ((r.moment b).world.scope s).exit? = some z ∧
      r.SilentBut g s a b := by
  obtain ⟨a₁, b₁, e₁, haa₁, hb₁b, hsilent₁, hpart₁, hafter₁⟩ := h.andThen
  obtain ⟨k, y, hak, hkb, hsilent₂, hworks, hnext⟩ := hpart₁.instructs trivial
  obtain ⟨hworld, hgoes⟩ := hpart₁.enters (w := (((r.moment k).world.count g).requestClose s x).1)
    (q := (Program.finishScope s).andThen
      (.succeed (.flag (((r.moment k).world.count g).requestClose s x).2))) hak hkb hnext
  have hrequest : r.Silent g k (k + 1) :=
    .of_turn hworks.turn (by rw [hworld, World.refs_requestClose]; rfl)
  obtain ⟨a₂, b₂, e₂, haa₂, hb₂b, hsilent₃, hpart₂, hafter₂⟩ := hgoes.andThen
  obtain ⟨⟨v₂, rfl⟩, hbut⟩ := hpart₂.finishes (hzips.mono (by omega) (by omega))
  obtain ⟨cause, hcause, -⟩ | ⟨v, -, hlt₂, hhand₂, hflag⟩ := hafter₂
  · cases hcause
  obtain ⟨rfl, hsilent₄⟩ := hflag.ends (x := .success (.flag _))
  obtain ⟨cause, hcause, -⟩ | ⟨v', -, hlt₁, hhand₁, hwait⟩ := hafter₁
  · cases hcause
  obtain ⟨j, p, hbj, hjb, hp, hsilent₅, hrest⟩ := hwait.waits rfl
  -- what is told of the scope is the exit that was published
  rw [World.settledProgram?] at hp
  obtain ⟨log, hlog⟩ := r.exists_records s
  cases ho : ((r.moment j).world.scope s).closed.outcome? with
  | none =>
      rw [ho] at hp
      cases hp
  | some o =>
      obtain ⟨z, rfl, hexit⟩ := hlog.exit_of_outcome ho
      rw [ho] at hp
      cases hp
      obtain ⟨rfl, hsilent₆⟩ := hrest.ends (x := .success (.exit z))
      refine ⟨z, rfl, hexit b (Nat.le_of_lt hjb), ?_⟩
      have hbefore : r.Silent g a a₂ := ((hsilent₁.trans hsilent₂).trans hrequest).trans hsilent₃
      have hafter : r.Silent g b₂ b :=
        (((hhand₂.trans hsilent₄).trans hhand₁).trans hsilent₅).trans hsilent₆
      have hpart := hpart₂.le
      exact (hbut.before (by omega) hbefore).after (by omega) hafter

end Run.Executes

end Fibers
