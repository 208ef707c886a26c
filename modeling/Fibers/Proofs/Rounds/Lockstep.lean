import Fibers.Proofs.Rounds.Ledger
import Fibers.Store

set_option autoImplicit false

/-! # Members in lockstep

A member of a bounded zip takes a fixed way (`Point`); at its end it sees the close of its scope through
(`Door`). At each moment it is somewhere on this way (`Stance`): it has its turn, its next turn is in the queue, it
waits for a permit, it sleeps, or it is done. All members take the same steps until they ask for a permit, and a
turn has the same number of steps for each. So they come to their permits in lockstep (`Lockstep`): of two members
the first is ahead by one turn, or by nothing and then it has the next turn. That is why they draw their tickets,
and ask for their permits, in order.
-/

namespace Fibers.Rounds

/-! ## Where a member is -/

/-- The points from the request to close a scope on. -/
inductive Door where
  | asked
  | mask
  | finish
  | claimed
  | exited
  | publish
  | published
  | lift
  | flag
  | flagged
  | wait
  | closed
  | shut

namespace Door

/-- The point after. -/
def next : Door → Door
  | .asked => .mask
  | .mask => .finish
  | .finish => .claimed
  | .claimed => .exited
  | .exited => .publish
  | .publish => .published
  | .published => .lift
  | .lift => .flag
  | .flag => .flagged
  | .flagged => .wait
  | .wait => .closed
  | .closed => .shut
  | .shut => .shut

/-- The steps that are done of the budget at the point after. -/
def spent : Door → Nat → Nat
  | .wait, _ => 0
  | _, ops => ops + 1

/-- The number of steps that are left. -/
def left : Door → Nat
  | .asked => 12
  | .mask => 11
  | .finish => 10
  | .claimed => 9
  | .exited => 8
  | .publish => 7
  | .published => 6
  | .lift => 5
  | .flag => 4
  | .flagged => 3
  | .wait => 2
  | .closed => 1
  | .shut => 0

end Door

/-- The points of the way of a member, in their order. -/
inductive Point where
  | start
  | guarded
  | ensuring
  | bind
  | take
  | queue (grant : Key .future)
  | called (grant : Key .future)
  | granted
  | passed
  | begun
  | asking
  | told
  | nap
  | awake (timer : Nat)
  | rising (timer : Nat)
  | given
  | back
  | finished
  | leave
  | leaving
  | close
  | door (d : Door)

namespace Point

/-- How far a member is at a point. -/
def stage : Point → Stage
  | .start => .fresh
  | .guarded => .fresh
  | .ensuring => .drawn
  | .bind => .drawn
  | .take => .drawn
  | .queue _ => .queued
  | .called _ => .held
  | .granted => .held
  | .passed => .held
  | .begun => .held
  | .asking => .held
  | .told => .held
  | .nap => .held
  | .awake _ => .risen
  | .rising _ => .risen
  | _ => .freed

/-- The number of steps up to a point, before a permit is asked for. The very first step does not count. -/
def pace? : Point → Option Nat
  | .start => some 0
  | .guarded => some 0
  | .ensuring => some 1
  | .bind => some 2
  | .take => some 3
  | _ => none

/-- The number of steps that are left, those of waiting and sleeping counted. -/
def left : Point → Nat
  | .start => 40
  | .guarded => 39
  | .ensuring => 38
  | .bind => 37
  | .take => 36
  | .queue _ => 35
  | .called _ => 33
  | .granted => 32
  | .passed => 31
  | .begun => 30
  | .asking => 29
  | .told => 28
  | .nap => 27
  | .awake _ => 25
  | .rising _ => 24
  | .given => 23
  | .back => 22
  | .finished => 21
  | .leave => 20
  | .leaving => 19
  | .close => 18
  | .door d => d.left + 1

theorem pace?_eq_none {p : Point} : p.pace? = none ↔ p.stage.isAsked = true := by
  cases p <;> simp [pace?, stage, Stage.isAsked]

theorem pace?_le {p : Point} {q : Nat} (h : p.pace? = some q) : q ≤ 3 := by
  cases p <;> simp only [pace?, Option.some.injEq, reduceCtorEq] at h <;> omega

theorem pace?_of_fresh {p : Point} (h : p.stage = .fresh) : p.pace? = some 0 := by
  cases p <;> first | rfl | cases h

end Point

/-- Where a member is: it has its turn, with a number of steps of its budget done; its next turn is in the
queue under a number; it waits for its grant; it sleeps until something is due; or it is done. -/
inductive Stance where
  | active (p : Point) (ops : Nat)
  | ready (p : Point) (id : Nat)
  | waiting (grant : Key .future)
  | asleep (callback : Key .future) (id due : Nat)
  | gone

namespace Stance

/-- How far the member is. -/
def stage : Stance → Stage
  | .active p _ => p.stage
  | .ready p _ => p.stage
  | .waiting _ => .queued
  | .asleep _ _ _ => .asleep
  | .gone => .gone

/-- The pace at which the turn of a member began, or will begin, before it asks for a permit. -/
def base? : Stance → Option Nat
  | .active p ops => p.pace?.map (· - ops)
  | .ready p _ => p.pace?
  | _ => none

/-- The first member has its turn before the second. -/
def Before : Stance → Stance → Prop
  | .active _ _, .ready _ _ => True
  | .ready _ id, .ready _ id' => id < id'
  | _, _ => False

theorem base?_eq_none {s : Stance} : s.base? = none ↔ s.stage.isAsked = true := by
  cases s <;> simp [base?, stage, Stage.isAsked, Point.pace?_eq_none]

end Stance

/-! ## Lockstep -/

variable {n budget : Nat} {stance : Fin n → Stance} {i j : Fin n} {p p' : Point} {ops id q b : Nat} {s : Stance}

/-- Where two members are of which the first comes before the second. -/
def Abreast (budget : Nat) (s s' : Stance) : Prop :=
  ∀ b b', s.base? = some b → s'.base? = some b' →
    (b = b' ∧ s.Before s') ∨ (b = b' + budget ∧ s'.Before s)

/-- Up to the point where they ask for a permit, the members are in lockstep. -/
structure Lockstep (budget : Nat) (stance : Fin n → Stance) : Prop where
  spent : ∀ i p ops q, stance i = .active p ops → p.pace? = some q → ops ≤ q ∧ ops ≤ budget
  abreast : ∀ i j, i < j → Abreast budget (stance i) (stance j)

namespace Lockstep

/-- A change of one member that keeps it abreast of the others. -/
theorem update (h : Lockstep budget stance)
    (hspent : ∀ p ops q, s = .active p ops → p.pace? = some q → ops ≤ q ∧ ops ≤ budget)
    (hbefore : ∀ i, i < j → Abreast budget (stance i) s) (hafter : ∀ i, j < i → Abreast budget s (stance i)) :
    Lockstep budget (Function.update stance j s) := by
  refine ⟨fun i p ops q hi => ?_, fun i l hil => ?_⟩
  · rw [Function.update_apply] at hi
    split at hi
    · exact hspent p ops q hi
    · exact h.spent i p ops q hi
  · rw [Function.update_apply, Function.update_apply]
    split
    · rename_i hij
      split
      · rename_i hlj
        rw [hij, hlj] at hil
        exact absurd hil (lt_irrefl j)
      · exact hafter l (hij ▸ hil)
    · split
      · rename_i hlj
        exact hbefore i (hlj ▸ hil)
      · exact h.abreast i l hil

/-- A member that has asked for its permit is out of it. -/
theorem leave (h : Lockstep budget stance) (hs : s.base? = none) : Lockstep budget (Function.update stance j s) := by
  refine h.update (fun p ops q hp hpace => ?_) (fun i _ b b' _ hb' => ?_) fun i _ b b' hb _ => ?_
  · rw [hp] at hs
    simp [Stance.base?, hpace] at hs
  · rw [hs] at hb'
    cases hb'
  · rw [hs] at hb
    cases hb

/-- A step of the turn of a member keeps the pace at which the turn began. -/
theorem advance {ops' : Nat} (h : Lockstep budget stance) (hj : stance j = .active p ops)
    (hbase : (Stance.active p' ops').base? = (Stance.active p ops).base?)
    (hspent : ∀ q, p'.pace? = some q → ops' ≤ q ∧ ops' ≤ budget) :
    Lockstep budget (Function.update stance j (.active p' ops')) := by
  refine h.update (fun p ops q hp hq => ?_) (fun i hi b b' hb hb' => ?_) fun i hi b b' hb hb' => ?_
  · cases hp
    exact hspent q hq
  · have := h.abreast i j hi b b' hb (by rw [hj, ← hbase, hb'])
    rw [hj] at this
    cases hs : stance i <;> rw [hs] at this <;> exact this
  · have := h.abreast j i hi b b' (by rw [hj, ← hbase, hb]) hb'
    rw [hj] at this
    cases hs : stance i <;> rw [hs] at this <;> exact this

/-- Those before a member that has its turn are ahead by one turn. -/
theorem ahead (h : Lockstep budget stance) (hj : stance j = .active p ops) (hp : p.pace? = some q) (hij : i < j)
    (hb : (stance i).base? = some b) : b = q - ops + budget ∧ ∃ p' id, stance i = .ready p' id := by
  have := h.abreast i j hij b (q - ops) hb (by rw [hj, Stance.base?, hp, Option.map_some])
  rw [hj] at this
  rcases this with ⟨-, hbefore⟩ | ⟨heq, hbefore⟩
  · cases hs : stance i <;> rw [hs] at hbefore <;> exact absurd hbefore id
  · refine ⟨heq, ?_⟩
    cases hs : stance i <;> rw [hs] at hbefore hb <;> first | exact ⟨_, _, rfl⟩ | exact absurd hbefore id

/-- Those after it are where it was when its turn began. -/
theorem behind (h : Lockstep budget stance) (hj : stance j = .active p ops) (hp : p.pace? = some q) (hji : j < i)
    (hb : (stance i).base? = some b) : b = q - ops ∧ ∃ p' id, stance i = .ready p' id := by
  have := h.abreast j i hji (q - ops) b (by rw [hj, Stance.base?, hp, Option.map_some]) hb
  rw [hj] at this
  rcases this with ⟨heq, hbefore⟩ | ⟨-, hbefore⟩
  · refine ⟨heq.symm, ?_⟩
    cases hs : stance i <;> rw [hs] at hbefore hb <;> first | exact ⟨_, _, rfl⟩ | exact absurd hbefore id
  · cases hs : stance i <;> rw [hs] at hbefore <;> exact absurd hbefore id

/-- A member that yields goes behind all others. -/
theorem yield (h : Lockstep budget stance) (hj : stance j = .active p ops) (hops : budget ≤ ops)
    (hid : ∀ i p' id', stance i = .ready p' id' → id' < id) :
    Lockstep budget (Function.update stance j (.ready p id)) := by
  refine h.update (fun p ops q hp => by cases hp) (fun i hi b b' hb hb' => ?_) fun i hi b b' hb hb' => ?_
  · obtain ⟨rfl, p', id', hready⟩ := h.ahead hj hb' hi hb
    obtain ⟨hle, hle'⟩ := h.spent j p ops b' hj hb'
    rw [hready]
    exact Or.inl ⟨by omega, hid i p' id' hready⟩
  · obtain ⟨rfl, p', id', hready⟩ := h.behind hj hb hi hb'
    obtain ⟨hle, hle'⟩ := h.spent j p ops b hj hb
    rw [hready]
    exact Or.inr ⟨by omega, hid i p' id' hready⟩

/-- The member that has the next turn begins it. -/
theorem begin (h : Lockstep budget stance) (hj : stance j = .ready p id)
    (hidle : ∀ i p' ops, stance i ≠ .active p' ops)
    (hnext : ∀ i p' id', i ≠ j → stance i = .ready p' id' → id < id') :
    Lockstep budget (Function.update stance j (.active p 0)) := by
  have hbase : (Stance.active p 0).base? = (stance j).base? := by
    rw [hj]
    simp [Stance.base?]
  refine h.update (fun p ops q hp hq => ?_) (fun i hi b b' hb hb' => ?_) fun i hi b b' hb hb' => ?_
  · cases hp
    exact ⟨Nat.zero_le _, Nat.zero_le _⟩
  · have := h.abreast i j hi b b' hb (by rw [← hbase, hb'])
    rw [hj] at this
    cases hs : stance i with
    | ready p' id' =>
        rw [hs] at this
        refine this.imp (fun hsame => ?_) fun hahead => ⟨hahead.1, trivial⟩
        exact absurd hsame.2 (Nat.lt_asymm (hnext i p' id' (ne_of_lt hi) hs))
    | active p' ops' => exact absurd hs (hidle i p' ops')
    | _ => simp [hs, Stance.Before] at this
  · have := h.abreast j i hi b b' (by rw [← hbase, hb]) hb'
    rw [hj] at this
    cases hs : stance i with
    | ready p' id' =>
        rw [hs] at this
        refine this.imp (fun hsame => ⟨hsame.1, trivial⟩) fun hahead => ?_
        exact absurd hahead.2 (Nat.lt_asymm (hnext i p' id' (ne_of_gt hi) hs))
    | active p' ops' => exact absurd hs (hidle i p' ops')
    | _ => simp [hs, Stance.Before] at this

/-- Before anybody has had a turn. -/
theorem start {id : Fin n → Nat} (hid : ∀ i j, i < j → id i < id j) :
    Lockstep budget fun i => .ready .start (id i) := by
  refine ⟨fun i p ops q hi => ?_, fun i j hij b b' hb hb' => Or.inl ⟨?_, hid i j hij⟩⟩
  · cases hi
  · cases hb
    cases hb'
    rfl

/-! ## In order -/

/-- When a member draws its ticket, all before it have drawn theirs. -/
theorem drawn_before (h : Lockstep budget stance) (hbudget : 0 < budget) (hj : stance j = .active .guarded ops)
    (hij : i < j) : (stance i).stage ≠ .fresh := by
  intro hfresh
  have hbase : (stance i).base? = some 0 := by
    cases hs : stance i with
    | active p' ops' =>
        rw [hs] at hfresh
        simp [Stance.base?, Point.pace?_of_fresh hfresh]
    | ready p' id' =>
        rw [hs] at hfresh
        exact Point.pace?_of_fresh hfresh
    | _ =>
        rw [hs] at hfresh
        cases hfresh
  have := (h.ahead hj rfl hij hbase).1
  omega

/-- When a member asks for its permit, all before it have asked for theirs. -/
theorem asked_before (h : Lockstep budget stance) (hj : stance j = .active .take ops) (hops : ops < budget)
    (hij : i < j) : (stance i).stage.isAsked = true := by
  by_contra hnot
  obtain ⟨b, hb⟩ := Option.ne_none_iff_exists'.mp (mt Stance.base?_eq_none.mp hnot)
  obtain ⟨heq, p', id', hready⟩ := h.ahead hj rfl hij hb
  rw [hready] at hb
  have hle : b ≤ 3 := Point.pace?_le hb
  have hspent := (h.spent j .take ops 3 hj rfl).1
  omega

end Lockstep

end Fibers.Rounds
