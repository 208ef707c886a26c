import Fibers.Proofs.Rounds.Cast
import Mathlib.Algebra.Order.BigOperators.Group.Finset

set_option autoImplicit false

/-! # Scenes of a zip

A `Score` says how far a zip is: where the fiber and the members are, what the semaphore knows of them, and
which round it is. A `Scene` is a world that is as a score says, and `Turn` tells whose turn it is. Every step
leads from one scene to another with less left to do (`Score.weight`); a member begins when it gets its permit,
and never two at once (`Follows`).
-/

namespace Fibers.Rounds

open World Direct

variable {σ : Type} {n : Nat}

/-! ## Scores -/

/-- How far a zip of `n` members is. -/
structure Score (n : Nat) where
  seat : Seat
  stance : Fin n → Stance
  book : Book n
  round : Nat

namespace Stance

/-- What a member has left to do at an instant. A yield counts, and so does waiting for the clock. -/
def weight (budget now : Nat) : Stance → Nat
  | .active p ops => 3 * p.left + if ops < budget then 0 else 2
  | .ready p _ => 3 * p.left + 1
  | .waiting _ => 3 * 34
  | .asleep _ _ due => 3 * 26 + if now < due then 1 else 0
  | .gone => 0

end Stance

/-- What the fiber that zips has left to do. -/
def Seat.weight (budget : Nat) : Seat → Nat
  | .active p ops => 3 * p.left + if ops < budget then 0 else 2
  | .ready p _ => 3 * p.left + 1
  | .waiting _ => 3 * 22

namespace Score

variable (P : Score n)

/-- The semaphore of the zip. -/
def semaphore (level : Nat) : Semaphore (Key .future) where
  capacity := level
  available := P.book.available
  waiters := P.book.line.map fun i => (i.val, (P.stance i).future?.getD default)
  holders := P.book.holders.map (·.val)
  nextTicket := P.book.drawn

/-- What is left to do. -/
def weight (budget now : Nat) : Nat := P.seat.weight budget + ∑ i, (P.stance i).weight budget now

/-- A member goes elsewhere. -/
def put (i : Fin n) (s : Stance) : Score n := { P with stance := Function.update P.stance i s }

/-- The semaphore gets to know something. -/
def note (b : Book n) : Score n := { P with book := b }

/-- The fiber that zips goes elsewhere. -/
def sit (s : Seat) : Score n := { P with seat := s }

end Score

theorem stage_update (stance : Fin n → Stance) (i : Fin n) (s : Stance) :
    (fun j => (Function.update stance i s j).stage) = Function.update (fun j => (stance j).stage) i s.stage := by
  funext j
  rw [Function.update_apply, Function.update_apply]
  split <;> rfl

/-! ## Scenes -/

/-- A world of a zip that is as far as a score says. -/
structure Scene (Z : Zip σ n) (P : Score n) (w : World σ) : Prop where
  cast : Cast Z P.seat P.stance w
  permits : w.semaphores.get? Z.permits = some (P.semaphore Z.level)
  agenda : Agenda w.timers (alarm P.seat P.stance) Z.horizon
  ledger : Ledger Z.level (fun i => (P.stance i).stage) P.book
  lockstep : Lockstep Z.budget P.stance
  tempo : Tempo Z.level Z.span Z.start P.round w.now.nanos P.stance

/-- Whose turn it is, and with which machine. -/
inductive Turn (Z : Zip σ n) (P : Score n) : Option (Key .fiber × Machine σ) → Prop
  | host {p : Post} {ops : Nat} : P.seat = .active p ops → (∀ i, (P.stance i).isActive = false) →
      Turn Z P (some (Z.host.fiber, (Z.host.spot [] p).machine))
  | member {i : Fin n} {p : Point} {ops : Nat} : P.stance i = .active p ops → P.seat.isActive = false →
      (∀ j, j ≠ i → (P.stance j).isActive = false) →
      Turn Z P (some ((Z.walker i).fiber, ((Z.member i).spot p).machine))
  | idle : P.seat.isActive = false → (∀ i, (P.stance i).isActive = false) → Turn Z P none

/-- Between two scores those who begin have got a permit, and they are not two. -/
structure Follows (stance stance' : Fin n → Stance) : Prop where
  holding : ∀ i, (stance' i).stage.isBegun = true → (stance i).stage.isBegun = false →
    (stance' i).stage.isHolding = true
  single : ∀ i j, (stance' i).stage.isBegun = true → (stance i).stage.isBegun = false →
    (stance' j).stage.isBegun = true → (stance j).stage.isBegun = false → i = j

/-- Nobody has a turn, and no task is due. -/
structure Pauses (P : Score n) (w : World σ) : Prop where
  seat : P.seat.isActive = false
  idle : ∀ i, (P.stance i).isActive = false
  later : ∀ t ∈ w.timers.live, w.now.nanos < t.deadline.nanos

/-- The moment `x` is a scene of the zip with less left to do than the score `P`. No time has passed but in a
pause. -/
def Goes (Z : Zip σ n) (P : Score n) (w : World σ) (x : Moment σ) : Prop :=
  ∃ P' : Score n, Scene Z P' x.world ∧ Turn Z P' x.active ∧
    P'.weight Z.budget x.world.now.nanos < P.weight Z.budget w.now.nanos ∧ Follows P.stance P'.stance ∧
    (x.world.now = w.now ∨ Pauses P w)

variable {Z : Zip σ n} {P P' : Score n} {w w' : World σ} {i j : Fin n} {s s' : Stance} {p : Point} {ops : Nat}
  {b : Book n}

/-! ## Following -/

theorem Follows.refl (stance : Fin n → Stance) : Follows stance stance :=
  ⟨fun _ h h' => absurd (h.symm.trans h') (by simp),
    fun _ _ h h' => absurd (h.symm.trans h') (by simp)⟩

/-- One member goes elsewhere. -/
theorem follows_put {stance : Fin n → Stance}
    (h : s.stage.isBegun = true → (stance i).stage.isBegun = false → s.stage.isHolding = true) :
    Follows stance (Function.update stance i s) := by
  have hsame : ∀ j, (Function.update stance i s j).stage.isBegun = true → (stance j).stage.isBegun = false → j = i := by
    intro j hj hj'
    by_contra hji
    rw [Function.update_of_ne hji, hj'] at hj
    cases hj
  refine ⟨fun j hj hj' => ?_, fun j l hj hj' hl hl' => (hsame j hj hj').trans (hsame l hl hl').symm⟩
  obtain rfl := hsame j hj hj'
  rw [Function.update_self] at hj ⊢
  exact h hj hj'

/-! ## Weights -/

theorem sum_put_lt {stance : Fin n → Stance} {budget now : Nat}
    (h : s.weight budget now < (stance i).weight budget now) :
    ∑ j, (Function.update stance i s j).weight budget now < ∑ j, (stance j).weight budget now := by
  refine Finset.sum_lt_sum (fun j _ => ?_) ⟨i, Finset.mem_univ i, by rw [Function.update_self]; exact h⟩
  rw [Function.update_apply]
  split
  · rename_i hji
    rw [hji]
    exact le_of_lt h
  · exact le_refl _

/-! ## Turns -/

theorem Turn.advance (hi : P.seat.isActive = false) (hothers : ∀ j, j ≠ i → (P.stance j).isActive = false)
    {p : Point} {ops : Nat} :
    Turn Z ((P.put i (.active p ops)).note b) (some ((Z.walker i).fiber, ((Z.member i).spot p).machine)) := by
  refine .member (i := i) (show (P.put i (.active p ops)).stance i = .active p ops from Function.update_self _ _ _) hi
    fun j hj => ?_
  show (Function.update P.stance i _ j).isActive = false
  rw [Function.update_of_ne hj]
  exact hothers j hj

theorem Turn.rest (hi : P.seat.isActive = false) (hothers : ∀ j, j ≠ i → (P.stance j).isActive = false)
    (hs : s.isActive = false) : Turn Z ((P.put i s).note b) none := by
  refine .idle hi fun j => ?_
  show (Function.update P.stance i _ j).isActive = false
  rw [Function.update_apply]
  split
  · exact hs
  · rename_i hj
    exact hothers j hj

/-! ## The semaphore -/

theorem future_of_queued {s : Stance} (h : s.stage = .queued) : ∃ g, s.future? = some g := by
  cases s with
  | active p ops => cases p <;> first | exact ⟨_, rfl⟩ | cases h
  | ready p id => cases p <;> first | exact ⟨_, rfl⟩ | cases h
  | waiting grant => exact ⟨grant, rfl⟩
  | asleep callback id due => cases h
  | gone => cases h

/-- What the semaphore has of the members that queue. -/
theorem waiters_put {stance : Fin n → Stance} {line : List (Fin n)}
    (h : i ∈ line → s.future? = (stance i).future?) :
    (line.map fun j => (j.val, (Function.update stance i s j).future?.getD default)) =
      line.map fun j => (j.val, (stance j).future?.getD default) := by
  refine List.map_congr_left fun j hj => ?_
  rw [Function.update_apply]
  split
  · rename_i hji
    rw [h (hji ▸ hj), hji]
  · rfl

theorem semaphore_put (level : Nat) (h : i ∈ P.book.line → s.future? = (P.stance i).future?) :
    (P.put i s).semaphore level = P.semaphore level := by
  simp only [Score.semaphore, Score.put, waiters_put h]

/-- A ticket is held if the member is one of those that hold a permit. -/
theorem isHeld_iff (level : Nat) : (P.semaphore level).isHeld i.val = true ↔ i ∈ P.book.holders := by
  simp only [Semaphore.isHeld, Score.semaphore, List.contains_eq_mem, List.mem_map, decide_eq_true_eq]
  constructor
  · rintro ⟨j, hj, heq⟩
    rwa [← Fin.ext heq]
  · exact fun hi => ⟨i, hi, rfl⟩

theorem isFree_iff (level : Nat) : (P.semaphore level).isFree = true ↔ P.book.line = [] ∧ 0 < P.book.available := by
  simp only [Semaphore.isFree, Bool.and_eq_true, decide_eq_true_eq]
  simp [Score.semaphore]

/-! ## One member goes elsewhere -/

namespace Scene

/-- A member that does not queue is not in the queue of the semaphore. -/
theorem not_mem_line (h : Scene Z P w) (hi : (P.stance i).stage ≠ .queued) : i ∉ P.book.line :=
  fun hmem => hi ((h.ledger.line i).mp hmem)

/-- A member without a permit is not among the holders. -/
theorem not_mem_holders (h : Scene Z P w) (hi : (P.stance i).stage.isHolding = false) : i ∉ P.book.holders :=
  fun hmem => absurd ((h.ledger.holders i).mp hmem) (by rw [hi]; simp)

/-- A step of one member, and what the semaphore gets to know. -/
theorem record (h : Scene Z P w) (hspares : Z.Spares (alarm P.seat P.stance) (some i) w w')
    (hin : (Z.member i).In w' s) (hapart : Cast.Apart P.stance i w w')
    (hnew : ∀ g, s.future? = some g → (P.stance i).future? = some g ∨ w.futures.get? g = none)
    (hwithin : s.isWithin = (P.stance i).isWithin) (hgone : s.stage = .gone ↔ (P.stance i).stage = .gone)
    (htallies : w'.tallies = w.tallies)
    (hpermits : w'.semaphores.get? Z.permits = some (((P.put i s).note b).semaphore Z.level))
    (hagenda : Agenda w'.timers (alarm P.seat (Function.update P.stance i s)) Z.horizon)
    (hledger : Ledger Z.level (Function.update (fun j => (P.stance j).stage) i s.stage) b)
    (hlockstep : Lockstep Z.budget (Function.update P.stance i s))
    (htempo : Tempo Z.level Z.span Z.start P.round w.now.nanos (Function.update P.stance i s))
    (hnow : w'.now = w.now) : Scene Z ((P.put i s).note b) w' where
  cast := h.cast.put hspares hin hapart hnew hwithin hgone htallies
  permits := hpermits
  agenda := hagenda
  ledger := by
    show Ledger Z.level (fun j => (Function.update P.stance i s j).stage) b
    rw [stage_update]
    exact hledger
  lockstep := hlockstep
  tempo := hnow ▸ htempo

/-- A step of one member which the semaphore does not get to know. -/
theorem put (h : Scene Z P w) (hspares : Z.Spares (alarm P.seat P.stance) (some i) w w')
    (hin : (Z.member i).In w' s) (hapart : Cast.Apart P.stance i w w')
    (hnew : ∀ g, s.future? = some g → (P.stance i).future? = some g ∨ w.futures.get? g = none)
    (hline : (P.stance i).stage = .queued → s.future? = (P.stance i).future?)
    (hwithin : s.isWithin = (P.stance i).isWithin) (hgone : s.stage = .gone ↔ (P.stance i).stage = .gone)
    (htallies : w'.tallies = w.tallies) (hsemaphores : w'.semaphores = w.semaphores)
    (hagenda : Agenda w'.timers (alarm P.seat (Function.update P.stance i s)) Z.horizon)
    (hledger : Ledger Z.level (Function.update (fun j => (P.stance j).stage) i s.stage) P.book)
    (hlockstep : Lockstep Z.budget (Function.update P.stance i s))
    (htempo : Tempo Z.level Z.span Z.start P.round w.now.nanos (Function.update P.stance i s))
    (hnow : w'.now = w.now) : Scene Z ((P.put i s).note P.book) w' := by
  refine h.record hspares hin hapart hnew hwithin hgone htallies ?_ hagenda hledger hlockstep htempo hnow
  show _ = some ((P.put i s).semaphore Z.level)
  rw [hsemaphores, semaphore_put]
  · exact h.permits
  · exact fun hi => hline ((h.ledger.line i).mp hi)

/-- A member that has given its permit back goes elsewhere, whatever becomes of the fiber that zips. -/
theorem depart (h : Scene Z P w) {seat' : Seat} (hi : (P.stance i).stage = .freed)
    (hs : s.stage = .freed ∨ s.stage = .gone) (hcast : Cast Z seat' (Function.update P.stance i s) w')
    (hsemaphores : w'.semaphores = w.semaphores)
    (hagenda : Agenda w'.timers (alarm seat' (Function.update P.stance i s)) Z.horizon) (hnow : w'.now = w.now) :
    Scene Z ((P.put i s).sit seat') w' := by
  have hasked : s.stage.isAsked = true := by rcases hs with hs | hs <;> rw [hs] <;> rfl
  refine ⟨hcast, ?_, hagenda, ?_, h.lockstep.leave (Stance.base?_eq_none.mpr hasked), ?_⟩
  · show w'.semaphores.get? Z.permits = some ((P.put i s).semaphore Z.level)
    rw [hsemaphores, semaphore_put _ fun hmem => absurd hmem (h.not_mem_line (by rw [hi]; simp))]
    exact h.permits
  · show Ledger Z.level (fun j => (Function.update P.stance i s j).stage) P.book
    rw [stage_update]
    have hbase : (P.stance i).stage ≠ .fresh ∧ (P.stance i).stage ≠ .queued := by simp [hi]
    rcases hs with hs | hs
    · exact h.ledger.progress hbase.1 (by simp [hs]) (by rw [hs, hi]) (by rw [hs, hi]) (by rw [hs, hi]) (by simp [hs])
        hbase.2
    · exact h.ledger.progress hbase.1 (by simp [hs]) (by rw [hs, hi]; rfl) (by rw [hs, hi]; rfl) (by rw [hs, hi]; rfl)
        (by simp [hs]) hbase.2
  · rw [hnow]
    have hlate : s.stage.isEarly = false ∧ s.stage ≠ .asleep := by
      rcases hs with hs | hs <;> rw [hs] <;> simp [Stage.isEarly]
    exact h.tempo.progress (fun hearly => by rw [hlate.1] at hearly; cases hearly) (fun _ => by rw [hi]; rfl) hlate.2

end Scene

end Fibers.Rounds
