import Mathlib.Data.List.Perm.Basic
import Mathlib.Data.List.Flatten
import Mathlib.Data.List.Pairwise
import Fibers.Proofs.World.Frame
import Fibers.Program.Combinators

set_option autoImplicit false

/-! # Shutting down in some order

The root fibers of a system have no order of their own, and a shutdown interrupts them in some order or
other. What the interruptions do to fibers and scopes does not depend on it, but those that are waiting are
told by tasks, and the tasks run in the order in which they were queued. So the order shows wherever the ways
out of two fibers meet: in what their finalizers write, say.

An interruption is taken apart into a stroke, which reaches fibers and scopes, and tasks that are queued.
Strokes on different scopes do not see one another.
-/

namespace Fibers

/-! ## Changes of a store at different places -/

theorem Store.set_set_comm {kind : Kind} {α : Type} (s : Store kind α) {j k : Key kind} (h : j ≠ k) (a b : α) :
    (s.set j a).set k b = (s.set k b).set j a := by
  refine Store.ext_get? fun l => ?_
  simp only [Store.get?_set]
  by_cases hj : j = l
  · subst hj
    simp only [if_neg h.symm, if_true]
  · rw [if_neg hj, if_neg hj]

theorem Store.modify_modify_comm {kind : Kind} {α : Type} (s : Store kind α) (j k : Key kind) {a b : α → α}
    (h : j = k → ∀ x, b (a x) = a (b x)) : (s.modify j a).modify k b = (s.modify k b).modify j a := by
  refine Store.ext_get? fun l => ?_
  simp only [Store.get?_modify]
  by_cases hj : j = l
  · by_cases hk : k = l
    · subst hj hk
      simp only [if_true, Option.map_map]
      exact congrArg (Option.map · _) (funext (h rfl))
    · simp only [if_neg hk]
  · simp only [if_neg hj]

namespace World

variable {σ : Type}

/-! ## Tasks that are queued -/

/-- Queues tasks one after the other. -/
def queueAll (w : World σ) (ts : List (Task σ)) : World σ := ts.foldl queue w

theorem queueAll_append (w : World σ) (ts us : List (Task σ)) :
    w.queueAll (ts ++ us) = (w.queueAll ts).queueAll us := List.foldl_append

/-- Queued tasks reach nothing but the queue, and nothing else in the world makes a difference to it. -/
theorem queueAll_eq (w : World σ) (ts : List (Task σ)) :
    w.queueAll ts = { w with timers := ts.foldl (fun q t => (q.set 0 t).1) w.timers } := by
  induction ts generalizing w with
  | nil => rfl
  | cons t ts ih => exact ih (w.queue t)

/-- The task by which a fiber that waits is told that its scope is closing. -/
def summons? (w : World σ) (f : Key .fiber) : Option (Task σ) :=
  match (w.fibers.get? f).map Fiber.phase with
  | some (.suspended token _) => some (.resume f token .terminate)
  | _ => none

/-- Fibers that are told that their scope is closing. -/
def tell (fibers : Store .fiber (Fiber σ)) (f : Key .fiber) : Store .fiber (Fiber σ) :=
  fibers.modify f fun x => { x with terminating := true }

theorem scopeClosing_eq (w : World σ) (f : Key .fiber) :
    w.scopeClosing f = ({ w with fibers := tell w.fibers f } : World σ).queueAll (w.summons? f).toList := by
  have hget : (tell w.fibers f).get? f =
      (w.fibers.get? f).map fun x => { x with terminating := true } := by
    rw [tell, Store.get?_modify, if_pos rfl]
  unfold scopeClosing
  simp only [modifyFiber]
  rw [tell] at hget
  rw [hget, summons?]
  cases w.fibers.get? f with
  | none => rfl
  | some x => cases hphase : x.phase <;> simp only [Option.map_some, hphase] <;> rfl

/-- Nobody is summoned otherwise because somebody was told. -/
theorem summons?_congr {w w' : World σ}
    (h : ∀ k, (w'.fibers.get? k).map Fiber.phase = (w.fibers.get? k).map Fiber.phase) :
    w'.summons? = w.summons? := by
  funext f
  rw [summons?, summons?, h f]

theorem phase_tell (fibers : Store .fiber (Fiber σ)) (f k : Key .fiber) :
    ((tell fibers f).get? k).map Fiber.phase = (fibers.get? k).map Fiber.phase := by
  rw [tell, Store.get?_modify]
  split
  · rw [Option.map_map]
    rfl
  · rfl

theorem foldl_scopeClosing (w : World σ) (fs : List (Key .fiber)) :
    fs.foldl scopeClosing w =
      ({ w with fibers := fs.foldl tell w.fibers } : World σ).queueAll (fs.filterMap w.summons?) := by
  induction fs generalizing w with
  | nil => rfl
  | cons f fs ih =>
      have hsummons : (w.scopeClosing f).summons? = w.summons? := by
        refine summons?_congr fun k => ?_
        rw [scopeClosing_eq, queueAll_eq]
        exact phase_tell w.fibers f k
      rw [List.foldl_cons, ih, hsummons, List.foldl_cons]
      have hrest : ({ w.scopeClosing f with fibers := fs.foldl tell (w.scopeClosing f).fibers } : World σ) =
          ({ w with fibers := fs.foldl tell (tell w.fibers f) } : World σ).queueAll (w.summons? f).toList := by
        rw [scopeClosing_eq, queueAll_eq, queueAll_eq]
      rw [hrest, ← queueAll_append]
      congr 1
      cases h : w.summons? f <;> simp [h]

/-! ## Strokes -/

/-- What an interruption does to fibers and scopes: one scope begins to close, and the fibers that hang on it
are told; or the name is kept with a fiber that is masked. -/
inductive Stroke (σ : Type) where
  | none
  | close (s : Key .scope) (sc : Scope (Finalizer σ)) (hooks : List (Key .fiber))
  | defer (f : Key .fiber) (id : FiberId)

/-- A world after a stroke. -/
def strike (w : World σ) : Stroke σ → World σ
  | .none => w
  | .close s sc hooks => { w with scopes := w.scopes.set s sc, fibers := hooks.foldl tell w.fibers }
  | .defer f id => w.modifyFiber f fun fiber => { fiber with deferred := id.insert fiber.deferred }

/-- The tasks that are queued with a stroke. -/
def summonses (w : World σ) : Stroke σ → List (Task σ)
  | .none => []
  | .close _ _ hooks => hooks.filterMap w.summons?
  | .defer _ _ => []

/-- The stroke by which a fiber is interrupted. -/
def strokeOf (w : World σ) (id : FiberId) (f : Key .fiber) : Stroke σ :=
  match w.fibers.get? f with
  | none => .none
  | some x =>
      if !x.done.isPending then .none
      else if x.interruptible then
        match (w.scope x.scope).requestClose? (.interrupt id) with
        | some (sc, closing) => .close x.scope sc closing.hooks
        | none => .none
      else .defer f id

/-- An interruption is a stroke and the tasks that are queued with it, if the scope of the fiber has no
parent. -/
theorem interruptFiber_eq (w : World σ) (f : Key .fiber) (id : FiberId)
    (h : ∀ x, w.fibers.get? f = some x → (w.scope x.scope).parent = none) :
    w.interruptFiber f id = (w.strike (w.strokeOf id f)).queueAll (w.summonses (w.strokeOf id f)) := by
  unfold interruptFiber strokeOf
  cases hf : w.fibers.get? f with
  | none => rfl
  | some x =>
      by_cases hdone : (!x.done.isPending) = true
      · simp only [if_pos hdone]
        rfl
      by_cases hmasked : x.interruptible = true
      · simp only [if_neg hdone, if_pos hmasked]
        unfold requestClose Scope.requestClose?
        cases hstate : (w.scope x.scope).state with
        | opened fs hooks next =>
            simp only [h x hf]
            exact foldl_scopeClosing _ hooks
        | closing e fs => rfl
        | closed e => rfl
      · simp only [if_neg hdone, if_neg hmasked]
        rfl

/-! ## Strokes on different scopes -/

/-- What an interruption reads of a fiber. -/
def bearings (x : Fiber σ) : Bool × Bool × Key .scope × Phase σ :=
  (x.done.isPending, x.interruptible, x.scope, x.phase)

/-- A stroke does not change what an interruption reads of a fiber. -/
theorem bearings_strike (w : World σ) (t : Stroke σ) (k : Key .fiber) :
    ((w.strike t).fibers.get? k).map bearings = (w.fibers.get? k).map bearings := by
  cases t with
  | none => rfl
  | close s sc hooks =>
      show ((hooks.foldl tell w.fibers).get? k).map bearings = _
      generalize w.fibers = fibers
      induction hooks generalizing fibers with
      | nil => rfl
      | cons f hooks ih =>
          rw [List.foldl_cons, ih, tell, Store.get?_modify]
          split
          · rw [Option.map_map]
            rfl
          · rfl
  | defer f id =>
      rw [strike, modifyFiber, Store.get?_modify]
      split
      · rw [Option.map_map]
        rfl
      · rfl

/-- Strokes and tasks do not see one another. -/
theorem strike_queueAll (w : World σ) (ts : List (Task σ)) (t : Stroke σ) :
    (w.queueAll ts).strike t = (w.strike t).queueAll ts := by
  rw [queueAll_eq, queueAll_eq]
  cases t <;> rfl

/-- What is read of a fiber and its scope decides on the stroke. -/
theorem strokeOf_congr {w w' : World σ} {f : Key .fiber} (id : FiberId)
    (hfiber : (w'.fibers.get? f).map bearings = (w.fibers.get? f).map bearings)
    (hscope : ∀ x, w.fibers.get? f = some x → w'.scope x.scope = w.scope x.scope) :
    w'.strokeOf id f = w.strokeOf id f := by
  unfold strokeOf
  cases hf : w.fibers.get? f with
  | none =>
      rw [hf, Option.map_none, Option.map_eq_none_iff] at hfiber
      rw [hfiber]
  | some x =>
      rw [hf, Option.map_some, Option.map_eq_some_iff] at hfiber
      obtain ⟨x', hx', hbearings⟩ := hfiber
      simp only [bearings, Prod.mk.injEq] at hbearings
      obtain ⟨hdone, hmasks, hs, -⟩ := hbearings
      simp only [hx', hdone, hmasks, hs, hscope x hf]

/-- Two fibers with different scopes. -/
def Separate (w : World σ) (f g : Key .fiber) : Prop :=
  ∀ x y, w.fibers.get? f = some x → w.fibers.get? g = some y → x.scope ≠ y.scope

instance (w : World σ) : Std.Symm w.Separate where
  symm _ _ h x y hx hy := (h y x hy hx).symm

/-- Fibers whose scopes have no parents, each with a scope of its own. -/
structure Apart (w : World σ) (fs : List (Key .fiber)) : Prop where
  parentless : ∀ f ∈ fs, ∀ x, w.fibers.get? f = some x → (w.scope x.scope).parent = none
  own : fs.Pairwise w.Separate

variable {w : World σ} {f g : Key .fiber} {fs : List (Key .fiber)} {id : FiberId}

/-- A stroke reaches no scope but that of the fiber. -/
theorem scope_strike {s : Key .scope} (h : ∀ x, w.fibers.get? f = some x → x.scope ≠ s) :
    (w.strike (w.strokeOf id f)).scope s = w.scope s := by
  unfold strokeOf
  cases hf : w.fibers.get? f with
  | none => rfl
  | some x =>
      dsimp only
      split
      · rfl
      · split
        · split
          · rw [strike, scope, Store.get?_set, if_neg (h x hf)]
            rfl
          · rfl
        · rfl

/-- After the stroke on one fiber the others are read as before. -/
theorem Apart.scope_eq (h : w.Apart (f :: fs)) (hg : g ∈ fs) {x : Fiber σ} (hx : w.fibers.get? g = some x) :
    (w.strike (w.strokeOf id f)).scope x.scope = w.scope x.scope :=
  scope_strike fun y hy => (List.pairwise_cons.mp h.own).1 g hg y x hy hx

theorem Apart.strike (h : w.Apart (f :: fs)) : (w.strike (w.strokeOf id f)).Apart fs := by
  have hread (k : Key .fiber) (x' : Fiber σ) (hx' : (w.strike (w.strokeOf id f)).fibers.get? k = some x') :
      ∃ x, w.fibers.get? k = some x ∧ x'.scope = x.scope := by
    have hbearings := bearings_strike w (w.strokeOf id f) k
    rw [hx', Option.map_some, eq_comm, Option.map_eq_some_iff] at hbearings
    obtain ⟨x, hx, heq⟩ := hbearings
    simp only [bearings, Prod.mk.injEq] at heq
    exact ⟨x, hx, heq.2.2.1.symm⟩
  constructor
  · intro g hg x' hx'
    obtain ⟨x, hx, hscope⟩ := hread g x' hx'
    rw [hscope, h.scope_eq hg hx]
    exact h.parentless g (List.mem_cons_of_mem _ hg) x hx
  · refine (List.pairwise_cons.mp h.own).2.imp fun hne x' y' hx' hy' => ?_
    obtain ⟨x, hx, hscope⟩ := hread _ x' hx'
    obtain ⟨y, hy, hscope'⟩ := hread _ y' hy'
    rw [hscope, hscope']
    exact hne x y hx hy

theorem foldl_strike_queueAll (w : World σ) (ts : List (Task σ)) (us : List (Stroke σ)) :
    us.foldl strike (w.queueAll ts) = (us.foldl strike w).queueAll ts := by
  induction us generalizing w with
  | nil => rfl
  | cons u us ih => rw [List.foldl_cons, strike_queueAll, ih, List.foldl_cons]

/-- The strokes by which fibers are interrupted. -/
def strokesOf (w : World σ) (id : FiberId) (fs : List (Key .fiber)) : List (Stroke σ) := fs.map (w.strokeOf id)

/-- The tasks that are queued when fibers are interrupted one after the other. -/
def told (w : World σ) (id : FiberId) (fs : List (Key .fiber)) : List (Task σ) :=
  (w.strokesOf id fs).flatMap w.summonses

/-- To interrupt several fibers is to strike all of them and to queue the tasks for all of them. -/
theorem interruptAll_eq (h : w.Apart fs) (id : FiberId) :
    w.interruptAll fs id = ((w.strokesOf id fs).foldl strike w).queueAll (w.told id fs) := by
  induction fs generalizing w with
  | nil => rfl
  | cons f fs ih =>
      set w₁ := w.strike (w.strokeOf id f) with hw₁
      set ts := w.summonses (w.strokeOf id f) with hts
      have hfirst : w.interruptFiber f id = w₁.queueAll ts :=
        interruptFiber_eq w f id (h.parentless f List.mem_cons_self)
      have hapart : (w₁.queueAll ts).Apart fs := by
        have hstrike : w₁.Apart fs := h.strike
        rw [queueAll_eq]
        exact ⟨hstrike.parentless, hstrike.own⟩
      have hsummons : (w₁.queueAll ts).summons? = w.summons? := by
        refine summons?_congr fun k => ?_
        have hbearings := congrArg (Option.map fun b => b.2.2.2) (bearings_strike w (w.strokeOf id f) k)
        rw [Option.map_map, Option.map_map] at hbearings
        rw [queueAll_eq]
        exact hbearings
      have hsummonses : (w₁.queueAll ts).summonses = w.summonses := by
        funext t
        cases t with
        | none => rfl
        | close s sc hooks => exact congrArg (hooks.filterMap ·) hsummons
        | defer g id => rfl
      have hstrokes : (w₁.queueAll ts).strokesOf id fs = w.strokesOf id fs := by
        refine List.map_congr_left fun g hg => strokeOf_congr id ?_ fun x hx => ?_
        · rw [queueAll_eq]
          exact bearings_strike w _ g
        · rw [queueAll_eq]
          exact h.scope_eq hg hx
      calc w.interruptAll (f :: fs) id
        _ = (w₁.queueAll ts).interruptAll fs id := by rw [interruptAll, List.foldl_cons, hfirst]; rfl
        _ = ((w.strokesOf id fs).foldl World.strike (w₁.queueAll ts)).queueAll (w.told id fs) := by
            rw [ih hapart, told, told, hstrokes, hsummonses]
        _ = ((w.strokesOf id fs).foldl World.strike w₁).queueAll (ts ++ w.told id fs) := by
            rw [foldl_strike_queueAll, queueAll_append]
        _ = ((w.strokesOf id (f :: fs)).foldl World.strike w).queueAll (w.told id (f :: fs)) := rfl

/-! ## The order of strokes -/

/-- To tell fibers commutes with any change that does not mind. -/
theorem foldl_tell_modify (hooks : List (Key .fiber)) (fibers : Store .fiber (Fiber σ)) (k : Key .fiber)
    {a : Fiber σ → Fiber σ} (h : ∀ x, a { x with terminating := true } = { a x with terminating := true }) :
    hooks.foldl tell (fibers.modify k a) = (hooks.foldl tell fibers).modify k a := by
  induction hooks generalizing fibers with
  | nil => rfl
  | cons f hooks ih =>
      rw [List.foldl_cons, tell, Store.modify_modify_comm _ _ _ fun _ x => (h x).symm, ih]
      rfl

theorem foldl_tell_comm (hooks hooks' : List (Key .fiber)) (fibers : Store .fiber (Fiber σ)) :
    hooks'.foldl tell (hooks.foldl tell fibers) = hooks.foldl tell (hooks'.foldl tell fibers) := by
  induction hooks generalizing fibers with
  | nil => rfl
  | cons f hooks ih =>
      rw [List.foldl_cons, ih, tell, foldl_tell_modify hooks' fibers f fun _ => rfl]
      rfl

/-- Strokes that reach different scopes, and different fibers that are masked. -/
def Stroke.Clear : Stroke σ → Stroke σ → Prop
  | .close s _ _, .close s' _ _ => s ≠ s'
  | .defer f _, .defer g _ => f ≠ g
  | .close _ _ _, _ => True
  | .defer _ _, _ => True
  | .none, _ => True

theorem strike_strike_comm (w : World σ) {t u : Stroke σ} (h : t.Clear u) :
    (w.strike t).strike u = (w.strike u).strike t := by
  cases t with
  | none => rfl
  | close s sc hooks =>
      cases u with
      | none => rfl
      | close s' sc' hooks' =>
          simp only [World.strike, Store.set_set_comm _ h, foldl_tell_comm hooks hooks']
      | defer g id =>
          simp only [World.strike, modifyFiber]
          rw [foldl_tell_modify hooks w.fibers g fun _ => rfl]
  | defer f id =>
      cases u with
      | none => rfl
      | close s sc hooks =>
          simp only [World.strike, modifyFiber]
          rw [foldl_tell_modify hooks w.fibers f fun _ => rfl]
      | defer g id' =>
          simp only [World.strike, modifyFiber]
          rw [Store.modify_modify_comm _ _ _ fun heq => absurd heq h]

/-- A stroke that closes a scope closes the scope of the fiber. -/
theorem strokeOf_close {s : Key .scope} {sc : Scope (Finalizer σ)} {hooks : List (Key .fiber)}
    (h : w.strokeOf id f = .close s sc hooks) : ∃ x, w.fibers.get? f = some x ∧ x.scope = s := by
  unfold strokeOf at h
  split at h
  · cases h
  · rename_i x hx
    split at h
    · cases h
    · split at h
      · split at h
        · cases h
          exact ⟨x, hx, rfl⟩
        · cases h
      · cases h

/-- A stroke that is deferred is deferred for the fiber. -/
theorem strokeOf_defer {k : Key .fiber} {id' : FiberId} (h : w.strokeOf id f = .defer k id') : k = f := by
  unfold strokeOf at h
  split at h
  · cases h
  · split at h
    · cases h
    · split at h
      · split at h <;> cases h
      · cases h
        rfl

/-- The strokes on two fibers with scopes of their own are clear of one another. -/
theorem clear_strokeOf (hne : f ≠ g) (h : w.Separate f g) :
    (w.strokeOf id f).Clear (w.strokeOf id g) := by
  cases ht : w.strokeOf id f with
  | none => trivial
  | close s sc hooks =>
      cases hu : w.strokeOf id g with
      | none => trivial
      | defer g' id' => trivial
      | close s' sc' hooks' =>
          obtain ⟨x, hx, rfl⟩ := strokeOf_close ht
          obtain ⟨y, hy, rfl⟩ := strokeOf_close hu
          exact h x y hx hy
  | defer f' id' =>
      cases hu : w.strokeOf id g with
      | none => trivial
      | close s sc hooks => trivial
      | defer g' id'' =>
          rw [strokeOf_defer ht, strokeOf_defer hu]
          exact hne

theorem Apart.perm {gs : List (Key .fiber)} (h : w.Apart fs) (hperm : fs.Perm gs) : w.Apart gs where
  parentless f hf := h.parentless f (hperm.mem_iff.mpr hf)
  own := hperm.pairwise h.own fun hne => Std.Symm.symm _ _ hne

/-- It makes no difference in which order fibers are struck. -/
theorem foldl_strike_perm {gs : List (Key .fiber)} (h : w.Apart fs) (hperm : fs.Perm gs) (id : FiberId) :
    (w.strokesOf id fs).foldl World.strike w = (w.strokesOf id gs).foldl World.strike w := by
  refine (hperm.map _).foldl_eq' (fun t ht u hu z => ?_) w
  obtain ⟨f, hf, rfl⟩ := List.mem_map.mp ht
  obtain ⟨g, hg, rfl⟩ := List.mem_map.mp hu
  by_cases hne : f = g
  · rw [hne]
  · exact strike_strike_comm z (clear_strokeOf hne (h.own.forall hf hg hne))

/-! ## Shutting down -/

/-- Interrupts fibers in an order and runs tasks until all root fibers have ended; gives the number of those
that were interrupted. -/
def shutdownIn (order : List (Key .fiber)) (fuel : Nat) (w : World σ) : World σ × Verdict Nat :=
  match (host fuel).driveUntil fuel (fun w => w.roots.isEmpty) (w.interruptAll order .nobody) with
  | (w, .finished _) => (w, .finished order.length)
  | (w, .panicked d) => (w, .panicked d)
  | (w, .unfinished) => (w, .unfinished)

/-- A shutdown interrupts the root fibers in the order in which they stand. -/
theorem shutdown_eq (fuel : Nat) (w : World σ) : w.shutdown fuel = w.shutdownIn w.roots fuel := rfl

/-- The root fibers may be interrupted in any two orders: the worlds that this leads to differ in nothing but the
order in which the fibers that wait are told. If they are told in the same order, the shutdown is the same,
with everything that is run in it. -/
theorem shutdown_orders {order order' : List (Key .fiber)} (h : w.Apart w.roots) (horder : order.Perm w.roots)
    (horder' : order'.Perm w.roots) :
    (∃ w₁ : World σ, w.interruptAll order .nobody = w₁.queueAll (w.told .nobody order) ∧
      w.interruptAll order' .nobody = w₁.queueAll (w.told .nobody order')) ∧
    (w.told .nobody order = w.told .nobody order' →
      ∀ fuel, w.shutdownIn order fuel = w.shutdownIn order' fuel) := by
  have hfirst := interruptAll_eq (h.perm horder.symm) .nobody
  have hsecond := interruptAll_eq (h.perm horder'.symm) .nobody
  rw [← foldl_strike_perm (h.perm horder.symm) (horder.trans horder'.symm)] at hsecond
  refine ⟨⟨_, hfirst, hsecond⟩, fun htold fuel => ?_⟩
  have hsame : w.interruptAll order .nobody = w.interruptAll order' .nobody := by
    rw [hfirst, hsecond, htold]
  rw [shutdownIn, shutdownIn, hsame, (horder.trans horder'.symm).length_eq]

end World

/-! ## Two roots that wait -/

/-- A program that sleeps and notes a number when it ends. -/
def moored (n : Nat) : Program (List Nat) :=
  (Program.sleep 5).cleanup fun _ => .look fun s => .tell (s ++ [n]) (.program .unit)

/-- Two root fibers, each of which runs a program up to its first wait. -/
def harbour (p q : Program (List Nat)) : World (List Nat) :=
  let w : World (List Nat) := .new { Config.standard with clock := .virtual } .empty []
  ((World.host 20).runReady 20 ((w.runFiber p).1.runFiber q).1).1

/-- The order in which two roots are interrupted that sleep is the order in which they make their notes. -/
theorem harbour_order :
    let w := harbour (moored 0) (moored 1)
    [⟨0⟩, ⟨1⟩].Perm w.roots ∧ [⟨1⟩, ⟨0⟩].Perm w.roots ∧
      (w.shutdownIn [⟨0⟩, ⟨1⟩] 40).1.board = [0, 1] ∧ (w.shutdownIn [⟨1⟩, ⟨0⟩] 40).1.board = [1, 0] := by
  refine ⟨.refl _, .swap _ _ _, ?_, ?_⟩
  · rfl
  · rfl

/-- The second root is masked when they are interrupted, so the first is told alone, whatever the order. -/
theorem harbour_shutdown :
    let w := harbour (moored 0) (moored 1).uninterruptible
    let order : List (Key .fiber) := [⟨0⟩, ⟨1⟩]
    let order' : List (Key .fiber) := [⟨1⟩, ⟨0⟩]
    (w.Apart w.roots ∧ order.Perm w.roots ∧ order'.Perm w.roots ∧
      w.told .nobody order = w.told .nobody order') ∧
    (∃ w₁ : World (List Nat), w.interruptAll order .nobody = w₁.queueAll (w.told .nobody order) ∧
      w.interruptAll order' .nobody = w₁.queueAll (w.told .nobody order')) ∧
    ∀ fuel, w.shutdownIn order fuel = w.shutdownIn order' fuel := by
  intro w order order'
  have hfirst : w.fibers.get? ⟨0⟩ = some ((w.fibers.get? ⟨0⟩).get rfl) := rfl
  have hsecond : w.fibers.get? ⟨1⟩ = some ((w.fibers.get? ⟨1⟩).get rfl) := rfl
  have hapart : w.Apart w.roots := by
    constructor
    · intro f hf x hx
      rcases List.mem_cons.mp hf with rfl | hf
      · cases hfirst.symm.trans hx
        rfl
      · obtain rfl := List.mem_singleton.mp hf
        cases hsecond.symm.trans hx
        rfl
    · refine List.pairwise_pair.mpr fun x y hx hy => ?_
      cases hfirst.symm.trans hx
      cases hsecond.symm.trans hy
      decide
  have hmasked : w.strokeOf .nobody ⟨1⟩ = .defer ⟨1⟩ .nobody := rfl
  have htold : w.told .nobody order = w.told .nobody order' := by
    simp [World.told, World.strokesOf, order, order', hmasked, World.summonses]
  have hroots : w.roots = order := rfl
  have horder : order.Perm w.roots := hroots ▸ .refl order
  have horder' : order'.Perm w.roots := hroots ▸ .swap _ _ _
  obtain ⟨hqueued, hsame⟩ := World.shutdown_orders hapart horder horder'
  exact ⟨⟨hapart, horder, horder', htold⟩, hqueued, hsame htold⟩

end Fibers
