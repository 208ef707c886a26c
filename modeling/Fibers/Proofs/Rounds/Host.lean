import Fibers.Proofs.References.Maps
import Fibers.Proofs.Rounds.Door

set_option autoImplicit false

/-! # The course of the fiber that zips

Once it has started the members, the fiber waits until the last of them has ended. Then it collects their
values, closes the arena, and goes on with the list. `Post` has the points of this way. Like those of a member,
most of its steps concern the fiber and its arena alone.
-/

namespace Fibers.Rounds

open World Direct

variable {σ : Type}

/-- The points of the way of the fiber that zips, in their order. -/
inductive Post where
  | posed
  | asking
  | told
  | settled
  | leaving
  | entering
  | close
  | door (d : Door)
  | last
  | handing

namespace Post

/-- The number of steps that are left, that of waiting counted. -/
def left : Post → Nat
  | .posed => 24
  | .asking => 23
  | .told => 21
  | .settled => 20
  | .leaving => 19
  | .entering => 18
  | .close => 17
  | .door d => d.left + 2
  | .last => 1
  | .handing => 0

end Post

/-- What is fixed of the fiber that zips `n` members: its arena is the scope it works on. -/
structure Host (σ : Type) extends Walker σ where
  contest : Contest
  tally : Key .tally
  stack : List (Waiting σ)
  size : Nat

namespace Host

variable (k : Host σ)

/-- The record of the fiber, and its keys, fit together. -/
structure Sound (budget : Nat) : Prop extends k.toWalker.Sound budget where
  calm : k.birth.terminating = false
  arena : k.contest.arena = k.scope
  parent : ∃ key, k.nest.parent = some ⟨k.birth.scope, key⟩
  apart : k.birth.scope ≠ k.scope

/-- The value of the zip. -/
def value : Value := .list (List.replicate k.size .unit)

/-- The program that closes the arena and ends with the value. -/
def departure : Program σ := leaveArena k.contest (.succeed k.value)

def decidedFrame : Waiting σ := .map (.sequel (.zipDecided k.contest))

def endFrame : Waiting σ := .map (.next (.succeed k.value))

/-- The exit that the arena is closed with. -/
def parting : AnyExit := .interrupt k.contest.owner

/-- How the fiber closes its arena. -/
def closure : Closure σ := ⟨k.parting, k.endFrame :: k.stack, [], false⟩

/-- The arena, open with some finalizers. -/
def held (fs : List (Nat × Finalizer σ)) : ScopeState (Finalizer σ) := .opened fs [] k.size

/-- A spot at which the arena is open. -/
def open' (fs : List (Nat × Finalizer σ)) (control : Control σ) (stack : List (Waiting σ)) : Spot σ :=
  { machine := ⟨control, stack ++ k.stack, false⟩, state := k.held fs }

/-- A spot at which the arena is closed. -/
def shut' (control : Control σ) : Spot σ :=
  { machine := ⟨control, k.stack, false⟩
    state := .closed k.parting
    closed := .settled (.resolved k.parting)
    parent := false }

/-- What the fiber and its arena are like at the points of the way, while `fs` are the finalizers of the arena. -/
def spot (fs : List (Nat × Finalizer σ)) : Post → Spot σ
  | .posed => k.open' fs (.instruct (.flatMap (.wait (.decided k.tally)) (.sequel (.zipDecided k.contest)))) []
  | .asking => k.open' fs (.instruct (.wait (.decided k.tally))) [k.decidedFrame]
  | .told => k.open' fs (.instruct (.succeed (.decided none))) [k.decidedFrame]
  | .settled => k.open' fs (.value (.decided none)) [k.decidedFrame]
  | .leaving => k.open' fs (.instruct k.departure) []
  | .entering => k.open' fs (.instruct (Program.closeOrWaitScope k.scope k.parting)) [k.endFrame]
  | .close => k.open' fs (.instruct (Program.closeScope k.scope k.parting)) [Closure.waitFrame k.scope, k.endFrame]
  | .door d => k.closure.spot k.scope d
  | .last => k.shut' (.instruct (.succeed k.value))
  | .handing => k.shut' (.value k.value)

end Host

namespace Post

/-- The point after a step that concerns the fiber alone, if the step at the point does. -/
def next? : Post → Option Post
  | .posed => some .asking
  | .told => some .settled
  | .leaving => some .entering
  | .entering => some .close
  | .door .shut => some .last
  | .door d => some (.door d.next)
  | .last => some .handing
  | _ => none

/-- The steps that are done of the budget after a step. -/
def spent (p : Post) (ops : Nat) : Nat :=
  match p with
  | .asking => 0
  | .door d => d.spent ops
  | _ => ops + 1

end Post

namespace Host

variable {k : Host σ} {budget ops : Nat} {fs : List (Nat × Finalizer σ)} {w : World σ}

theorem stays (p : Post) : Walker.Stays (k.spot fs p) := by
  cases p <;> first | exact Or.inr rfl | exact Closure.stays _ _

theorem works (p : Post) :
    (∃ q, (k.spot fs p).machine.control = .instruct q) ∨ ∃ e, (k.spot fs p).machine.control = .ofExit e := by
  have hvalue : ∀ v : Value, (∃ q, Control.value v = (.instruct q : Control σ)) ∨
      ∃ e, (Control.value v : Control σ) = .ofExit e := fun v => Or.inr ⟨.success v, rfl⟩
  cases p with
  | door d => cases d <;> first | exact Or.inl ⟨_, rfl⟩ | exact hvalue _
  | _ => first | exact Or.inl ⟨_, rfl⟩ | exact hvalue _

/-- The steps that concern the fiber and its arena alone. -/
theorem moves (hk : k.Sound budget) {p p' : Post} (hp : p.next? = some p') :
    Walker.Moves k.toWalker (· < budget) p.spent (k.spot fs p) (k.spot fs p') := by
  cases p with
  | posed =>
      cases hp
      exact Walker.moves_instruct hk.toSound rfl (stays .posed) rfl fun _ _ _ => rfl
  | told =>
      cases hp
      exact Walker.moves_instruct hk.toSound rfl (stays .told) rfl fun _ _ _ => rfl
  | leaving =>
      cases hp
      refine Walker.moves_instruct hk.toSound rfl (stays .leaving) rfl fun _ _ _ => ?_
      simp only [spot, open', departure, leaveArena, parting, hk.arena]
      rfl
  | entering =>
      cases hp
      exact Walker.moves_instruct hk.toSound rfl (stays .entering) rfl fun _ _ _ => rfl
  | door d =>
      by_cases hd : d.left = 0
      · cases d <;> first
          | cases hd; done
          | cases hp
            exact Walker.moves_unwind (e := .success (.exit k.parting)) hk.toSound rfl (stays (.door .shut)) rfl
              fun _ => rfl
      · have hp' : p' = .door d.next := by
          cases d <;> first | cases hp; rfl | exact absurd rfl hd
        rw [hp']
        exact Closure.moves hk.toSound (Or.inl rfl) d hd
  | last =>
      cases hp
      exact Walker.moves_instruct hk.toSound rfl (stays .last) rfl fun _ _ _ => rfl
  | _ => cases hp

/-! ## What depends on the members -/

/-- The fiber waits for the last member to end. -/
theorem waits (hk : k.Sound budget) (h : k.Active (k.spot fs .asking) ops w) (hops : ops < budget) {tally : Tally}
    (htally : w.tallies.get? k.tally = some tally) (hdecided : tally.decided = .fresh) :
    ∃ w₁ token, k.Private w w₁ ∧
      w.advance k.fiber (k.spot fs .asking).machine =
        ⟨{ w₁ with tallies := w₁.tallies.set k.tally { tally with decided := .pending [(0, ⟨k.fiber, token⟩)] 1 } },
          none⟩ ∧
      k.Parked (k.spot fs .asking) token (k.spot fs .asking).machine w₁ := by
  obtain ⟨y, token, rfl, hget, hbudget, hadvance⟩ := h.advance hk.toSound (stays .asking)
  have hread : (w.count k.fiber).tally k.tally = tally := by
    show (w.tallies.get? k.tally).getD default = _
    rw [htally, Option.getD_some]
  have hnone : (w.count k.fiber).settledProgram? (.decided k.tally) = none := by
    simp only [settledProgram?, hread, hdecided]
    rfl
  obtain ⟨w₁, token', hconclude, hprivate, hparked⟩ :=
    h.count.await (m := (k.spot fs .asking).machine) hnone (Or.inr rfl) none
  have hread₁ : w₁.tally k.tally = tally := by
    rw [hprivate.rest]
    exact hread
  refine ⟨w₁, token', (Walker.private_modify w _).trans hprivate, ?_, hparked⟩
  rw [hadvance, step_instruct (p := .wait (.decided k.tally)) rfl (by rw [hbudget]; exact hops)]
  show conclude k.fiber (w.count k.fiber, ⟨_, .await (.decided k.tally) none⟩) = _
  rw [hconclude]
  simp only [subscribe, hread₁, hdecided]
  rfl

/-- The fiber comes to wait when the last member has ended. -/
theorem enters (hk : k.Sound budget) (h : k.Active (k.spot fs .asking) ops w) (hops : ops < budget) {tally : Tally}
    (htally : w.tallies.get? k.tally = some tally) (hdecided : tally.decided = .settled (.resolved none)) :
    ∃ w', k.Private w w' ∧
      w.advance k.fiber (k.spot fs .asking).machine = ⟨w', some (k.fiber, (k.spot fs .told).machine)⟩ ∧
      k.Active (k.spot fs .told) 0 w' := by
  obtain ⟨y, token, rfl, hget, hbudget, hadvance⟩ := h.advance hk.toSound (stays .asking)
  have hsome : (w.count k.fiber).settledProgram? (.decided k.tally) = some (.succeed (.decided none)) := by
    have hread : (w.count k.fiber).tally k.tally = tally := by
      show (w.tallies.get? k.tally).getD default = _
      rw [htally, Option.getD_some]
    simp only [settledProgram?, hread, hdecided]
    rfl
  obtain ⟨w', hconclude, hactive, hprivate⟩ :=
    h.count.await_settled (m := (k.spot fs .asking).machine) hsome (Or.inr rfl) none
  refine ⟨w', (Walker.private_modify w _).trans hprivate, ?_, hactive.shift rfl⟩
  rw [hadvance, step_instruct (p := .wait (.decided k.tally)) rfl (by rw [hbudget]; exact hops)]
  exact hconclude

/-- Merging references that were not written changes nothing. -/
theorem joinRefs_untouched (w : World σ) (m child : Key .refs)
    (h : ∀ e ∈ (w.refMap child).entries, e.touched = false) : w.joinRefs m child = (w, .ok ()) := by
  unfold World.joinRefs
  split
  · rfl
  · have hfilter : (w.refMap child).entries.filter (·.touched) = [] :=
      List.filter_eq_nil_iff.mpr fun e he => by simp [h e he]
    have hset : w.refs.set m (w.refMap m) = w.refs := by
      refine Store.ext_get? fun k => ?_
      rw [Store.get?_set]
      split
      · rename_i heq
        subst heq
        rw [World.refMap]
        cases w.refs.get? m <;> rfl
      · rfl
    simp only [FiberRefs.join, hfilter, FiberRefs.joinEntries, hset]

/-- The member has ended with nothing, and has written none of its references. -/
def Ended (w : World σ) (c : Key .fiber) : Prop :=
  ∃ y, w.fibers.get? c = some y ∧ y.exit? = some (.success .unit) ∧
    ∀ e ∈ (w.refMap y.context.refs).entries, e.touched = false

theorem collect_of_ended (w : World σ) (m : Key .refs) (cs : List (Key .fiber)) (h : ∀ c ∈ cs, Ended w c)
    (vs : List Value) :
    w.collect m cs vs = (w, .ok (.ok (vs.reverse ++ List.replicate cs.length .unit))) := by
  induction cs generalizing vs with
  | nil => simp [World.collect]
  | cons c rest ih =>
      obtain ⟨y, hget, hexit, huntouched⟩ := h c List.mem_cons_self
      have hrefs : w.refsOf c = y.context.refs := by
        simp only [World.refsOf, hget, Option.map_some, Option.getD_some]
      simp only [World.collect, hget, Option.bind_some, hexit, hrefs, joinRefs_untouched w m _ huntouched]
      rw [ih (fun c' hc' => h c' (List.mem_cons_of_mem c hc'))]
      simp [List.replicate_succ]

/-- With all members ended, the fiber collects their values. -/
theorem collects (hk : k.Sound budget) (h : k.Active (k.spot fs .settled) ops w) (hops : ops < budget)
    (hsize : k.contest.members.length = k.size) (hended : ∀ c ∈ k.contest.members, Ended w c) :
    ∃ w', k.Private w w' ∧
      w.advance k.fiber (k.spot fs .settled).machine = ⟨w', some (k.fiber, (k.spot fs .leaving).machine)⟩ ∧
      k.Active (k.spot fs .leaving) (ops + 1) w' := by
  obtain ⟨y, token, rfl, hget, hbudget, hadvance⟩ := h.advance hk.toSound (stays .settled)
  have hended' : ∀ c ∈ k.contest.members, Ended (w.count k.fiber) c := by
    intro c hc
    obtain ⟨y, hy, hexit, huntouched⟩ := hended c hc
    by_cases heq : k.fiber = c
    · subst heq
      exact ⟨_, get?_count hy, hexit, huntouched⟩
    · refine ⟨y, ?_, hexit, huntouched⟩
      rw [count, modifyFiber, Store.get?_modify, if_neg heq, hy]
  refine ⟨w.count k.fiber, Walker.private_modify w _, ?_, h.count.shift rfl⟩
  rw [hadvance, step_unwind (e := .success (.decided none)) rfl (by rw [hbudget]; exact hops)]
  show conclude k.fiber (World.unwindValue k.fiber false (.decided none) (k.decidedFrame :: k.stack) _) = _
  simp only [World.unwindValue, decidedFrame, World.proceedWith, World.follow,
    collect_of_ended _ k.contest.refs _ hended' [], hsize]
  rfl

/-- The fiber asks for the close of its arena, which has no finalizers left. -/
theorem closes (hk : k.Sound budget) (h : k.Active (k.spot [] .close) ops w) (hops : ops < budget)
    {sc : Scope (Finalizer σ)} {gs : List (Nat × Finalizer σ)} {hooks : List (Key .fiber)} {next : Nat}
    (hsc : w.scopes.get? k.birth.scope = some { sc with state := .opened gs hooks next }) :
    ∃ w' gs', w.advance k.fiber (k.spot [] .close).machine = ⟨w', some (k.fiber, (k.spot [] (.door .asked)).machine)⟩ ∧
      k.Active (k.spot [] (.door .asked)) (ops + 1) w' ∧
      (∀ g, g ≠ k.fiber → w'.fibers.get? g = w.fibers.get? g) ∧
      (∀ s, s ≠ k.scope → s ≠ k.birth.scope → w'.scopes.get? s = w.scopes.get? s) ∧
      w'.scopes.get? k.birth.scope = some { sc with state := .opened gs' hooks next } ∧
      w' = { w with
        fibers := w'.fibers
        scopes := w'.scopes } := by
  obtain ⟨y, token, rfl, hget, hbudget, hadvance⟩ := h.advance hk.toSound (stays .close)
  have hcount := h.count
  obtain ⟨key, hparent⟩ := hk.parent
  obtain ⟨scopes, hrequest, hown, hleft, hothers⟩ := hcount.requestClose (x := k.spot [] .close) rfl rfl hparent
    hk.apart hsc k.parting
  obtain ⟨token₁, hfiber₁⟩ := hcount.fiber
  have hactive : k.Active (k.spot [] (.door .asked)) (ops + 1) { w.count k.fiber with scopes } :=
    ⟨⟨token₁, hfiber₁⟩, hown⟩
  refine ⟨_, _, ?_, hactive, fun g hg => (Walker.private_modify w _).fibers g hg, hothers, hleft, rfl⟩
  rw [hadvance, step_instruct (p := Program.closeScope k.scope k.parting) rfl (by rw [hbudget]; exact hops)]
  show conclude k.fiber (enter k.fiber _ ((w.count k.fiber).attend (.close k.scope k.parting))) = _
  simp only [attend, hrequest, List.foldl_nil]
  rfl

end Host

end Fibers.Rounds
