import Fibers.Proofs.Run.Roster
import Fibers.Proofs.Run.Turns

set_option autoImplicit false

/-! # The roster in a step

A step changes the roster in three ways. The fiber whose step it is pops what the frames that leave its
stack pop, and pushes what those that come onto it pop later (`Card.Shifts`); or it drops its piles
altogether. A fork gives out a number, and adds a card for the child if the references of its parent can be
copied (`Roster.Birth`). And a fiber that is done has that written on its card.
-/

namespace Fibers

variable {σ : Type}

/-! ## Piles and frames -/

namespace Card

/-- The frames of the trace, oldest first. -/
def frames (c : Card) : List Frame := c.inherited ++ c.labels.reverse

/-- The card of a fiber that comes into a labelled region. -/
def labelled (c : Card) (frame : Frame) : Card := { c with labels := frame :: c.labels }

/-- Pops one of the four piles. -/
def restore (c : Card) : Restore → Card
  | .interruptible => { c with masks := c.masks.pop }
  | .semaphore => { c with semaphores := c.semaphores.pop }
  | .services => { c with services := c.services.pop }
  | .label => { c with labels := c.labels.tail }

/-- How much lies on one of the four piles. -/
def height (c : Card) : Restore → Nat
  | .interruptible => c.masks.pushed.length
  | .semaphore => c.semaphores.pushed.length
  | .services => c.services.pushed.length
  | .label => c.labels.length

/-- Pops what the frames of a stack pop, from the top on. -/
def pop (c : Card) : List (Waiting σ) → Card
  | [] => c
  | .restore r :: rest => (c.restore r).pop rest
  | .map _ :: rest => c.pop rest
  | .fold _ _ :: rest => c.pop rest
  | .finalizer _ _ :: rest => c.pop rest
  | .resumeWith _ :: rest => c.pop rest
  | .release _ :: rest => c.pop rest

theorem pop_append (c : Card) (xs ys : List (Waiting σ)) : c.pop (xs ++ ys) = (c.pop xs).pop ys := by
  induction xs generalizing c with
  | nil => rfl
  | cons x xs ih => cases x <;> exact ih _

/-- What comes onto the piles with a frame: what it pops later, if it pops anything. -/
def Raises : Waiting σ → Card → Card → Prop
  | .restore r, c, d => d.restore r = c ∧ d.height r = c.height r + 1
  | _, c, d => d = c

/-- What comes onto the piles with the frames of a stack, from the bottom on. -/
inductive Builds (c : Card) : List (Waiting σ) → Card → Prop
  | nil : Builds c [] c
  | cons {x : Waiting σ} {xs : List (Waiting σ)} {d e : Card} :
      Builds c xs d → Raises x d e → Builds c (x :: xs) e

/-- Popping what came with some frames brings back what there was before. -/
theorem Builds.pop {c d : Card} {xs : List (Waiting σ)} (h : Builds c xs d) : d.pop xs = c := by
  induction h with
  | nil => rfl
  | @cons x xs d e _ hraises ih =>
      cases x with
      | restore r => exact (congrArg (Card.pop · xs) hraises.1).trans ih
      | map k => exact hraises ▸ ih
      | fold h k => exact hraises ▸ ih
      | finalizer h fin => exact hraises ▸ ih
      | resumeWith e => exact hraises ▸ ih
      | release h => exact hraises ▸ ih

/-- What a card says but for the piles. -/
structure Alike (c d : Card) : Prop where
  context : d.context = c.context
  scope : d.scope = c.scope
  inherited : d.inherited = c.inherited
  pending : d.pending = c.pending
  vowed : d.vowed = c.vowed

theorem Alike.refl (c : Card) : c.Alike c := ⟨rfl, rfl, rfl, rfl, rfl⟩

theorem Alike.trans {c d e : Card} (h : c.Alike d) (h' : d.Alike e) : c.Alike e :=
  ⟨h'.context.trans h.context, h'.scope.trans h.scope, h'.inherited.trans h.inherited,
    h'.pending.trans h.pending, h'.vowed.trans h.vowed⟩

theorem alike_restore (c : Card) (r : Restore) : c.Alike (c.restore r) := by
  cases r <;> exact ⟨rfl, rfl, rfl, rfl, rfl⟩

theorem alike_pop (c : Card) (xs : List (Waiting σ)) : c.Alike (c.pop xs) := by
  induction xs generalizing c with
  | nil => exact .refl c
  | cons x xs ih =>
      cases x with
      | restore r => exact (alike_restore c r).trans (ih _)
      | map k => exact ih c
      | fold h k => exact ih c
      | finalizer h fin => exact ih c
      | resumeWith e => exact ih c
      | release h => exact ih c

/-- Frames do nothing to a card but to its piles. -/
theorem Builds.alike {c d : Card} {xs : List (Waiting σ)} (h : Builds c xs d) : c.Alike d := by
  have hpop := alike_pop d xs
  rw [h.pop] at hpop
  exact ⟨hpop.context.symm, hpop.scope.symm, hpop.inherited.symm, hpop.pending.symm, hpop.vowed.symm⟩

/-- A card with nothing on the piles. -/
def bare (c : Card) : Card :=
  { c with
    semaphores := c.semaphores.unwind
    masks := c.masks.unwind
    services := c.services.unwind
    labels := [] }

/-- The piles of a fiber that leaves its program: nothing but the mask that it puts on for good. -/
def left (c : Card) : Card :=
  { c with
    semaphores := c.semaphores.unwind
    masks := c.masks.unwind.push false
    services := c.services.unwind
    labels := [] }

/-! ## Births -/

/-- A child of a fiber as it is made. -/
structure Begets (c d : Card) : Prop where
  parent : d.context.parent = some c.context.id
  limits : d.context.limits = c.context.limits
  inherited : d.inherited = newest c.context.limits.maxTrace c.frames ++ [.fork c.context.id]
  labels : d.labels = []
  semaphores : d.semaphores.pushed = []
  masks : d.masks = ⟨d.context.interruptible, []⟩
  services : d.services = ⟨c.services.top, []⟩
  pending : d.pending = true
  vowed : d.vowed = false

end Card

/-- A fork of a fiber: a number is given out, to the child if there comes to be one. -/
inductive Roster.Birth (parent : Card) (r : Roster) : Roster → Prop
  | number : Birth parent r { r with sequence := r.sequence + 1 }
  | child {c : Card} : parent.Begets c → c.context.id.sequence = r.sequence + 1 →
      Birth parent r { r with sequence := r.sequence + 1, cards := (r.cards.add c).1 }

/-- Some forks of a fiber, one after the other. -/
def Roster.Bears (parent : Card) : Roster → Roster → Prop := Relation.ReflTransGen (Roster.Birth parent)

theorem Roster.Birth.get? {parent : Card} {r r' : Roster} (h : r.Birth parent r') {f : Key .fiber}
    {c : Card} (hc : r.cards.get? f = some c) : r'.cards.get? f = some c := by
  cases h with
  | number => exact hc
  | child => exact Store.get?_add_of_some _ hc

/-- Forks leave the cards of the others alone. -/
theorem Roster.Bears.get? {parent : Card} {r r' : Roster} (h : r.Bears parent r') {f : Key .fiber}
    {c : Card} (hc : r.cards.get? f = some c) : r'.cards.get? f = some c := by
  induction h with
  | refl => exact hc
  | tail _ hbirth ih => exact hbirth.get? ih

/-- Who is there after some forks was there before, or is a child. -/
theorem Roster.Bears.old_or_child {parent : Card} {r r' : Roster} (h : r.Bears parent r')
    {f : Key .fiber} {c : Card} (hc : r'.cards.get? f = some c) :
    r.cards.get? f = some c ∨ r.cards.get? f = none ∧ parent.Begets c := by
  induction h generalizing c with
  | refl => exact Or.inl hc
  | @tail r₁ r₂ hbears hbirth ih =>
      cases hbirth with
      | number => exact ih hc
      | @child d hchild _ =>
          rw [Store.get?_add] at hc
          split at hc
          · rename_i heq
            obtain rfl := Option.some.inj hc
            refine Or.inr ⟨?_, hchild⟩
            cases hf : r.cards.get? f with
            | none => rfl
            | some e =>
                have hthere := Roster.Bears.get? hbears hf
                rw [heq, Store.get?_next] at hthere
                cases hthere
          · exact ih hc

namespace World

/-- A fiber that is added has a card of its own. -/
theorem roster_newFiber (w : World σ) (c : Context) (s : Key .scope) (p : Program σ) (services : Services)
    (inherited : List Frame) :
    ∃ semaphore card, card = ⟨c, s, ⟨semaphore, []⟩, ⟨c.interruptible, []⟩, ⟨services, []⟩, inherited, [],
        true, false⟩ ∧ (w.newFiber c s p services inherited).2 = (w.roster.cards.add card).2 ∧
      (w.newFiber c s p services inherited).1.roster =
        { w.roster with cards := (w.roster.cards.add card).1 } := by
  obtain ⟨x, semaphore, hcard, hkey, hnew⟩ : ∃ (x : Fiber σ) (semaphore : Key .semaphore),
      x.card = ⟨c, s, ⟨semaphore, []⟩, ⟨c.interruptible, []⟩, ⟨services, []⟩, inherited, [], true, false⟩ ∧
      (w.newFiber c s p services inherited).2 = (w.fibers.add x).2 ∧
      (w.newFiber c s p services inherited).1 =
        hook { (w.newSemaphore c.concurrency).1 with fibers := (w.fibers.add x).1 } s (w.fibers.add x).2 :=
    ⟨_, _, rfl, rfl, rfl⟩
  refine ⟨semaphore, x.card, hcard, hkey.trans (congrArg Key.mk Array.size_map.symm), ?_⟩
  rw [hnew, roster_hook]
  exact congrArg (Roster.mk w.limits w.sequence w.roots) (congrArg Store.mk Array.map_push)

theorem roster_startFiber (w : World σ) (f : Key .fiber) : (w.startFiber f).roster = w.roster := by
  unfold startFiber
  split
  · rfl
  · rename_i x hx
    split
    · rename_i m _
      exact roster_set_fiber (y := (x.park m).1) hx rfl
    · rfl

theorem roster_childRefs (w : World σ) (m : Key .refs) (given : Option (Key .refs)) :
    (w.childRefs m given).1.roster = w.roster := by
  cases given with
  | some g => rfl
  | none => exact roster_forkRefs w m

/-- A fork gives out a number, and a child that it gives back is new. -/
theorem roster_forkChild {w : World σ} {f : Key .fiber} {x : Fiber σ} (hx : w.fibers.get? f = some x)
    (p : Program σ) (params : ForkParams) :
    w.roster.Birth x.card (w.forkChild f p params).1.roster := by
  simp only [forkChild, hx]
  have hscope := roster_forkScope w.nextId.1 (params.scope.getD x.scope) w.nextId.2
  have hrefs := roster_childRefs (w.nextId.1.forkScope (params.scope.getD x.scope) w.nextId.2).1
    x.context.refs params.refs
  split
  · rename_i w' d heq
    rw [heq] at hrefs
    rw [hrefs.trans hscope]
    exact .number
  · rename_i w' refs heq
    rw [heq] at hrefs
    obtain ⟨semaphore, card, hcard, -, hnew⟩ := roster_newFiber w' (x.context.child w.nextId.2 refs params.concurrency)
      (w.nextId.1.forkScope (params.scope.getD x.scope) w.nextId.2).2
      (.duty (.guarded x.semaphores.top p)) x.services.top
      (newest x.context.limits.maxTrace x.frames ++ [.fork x.context.id])
    dsimp only
    rw [roster_startFiber, hnew, hrefs.trans hscope]
    subst hcard
    exact .child ⟨rfl, rfl, rfl, rfl, rfl, rfl, rfl, rfl, rfl⟩ rfl

/-- The forks of a contest. -/
theorem roster_forkAll {w : World σ} {f : Key .fiber} {x : Fiber σ} (hx : w.fibers.get? f = some x)
    (arena : Key .scope) (ps : List (Program σ)) (children : List (Key .fiber)) :
    w.roster.Bears x.card (w.forkAll f arena ps children).1.roster := by
  induction ps generalizing w x children with
  | nil => exact .refl
  | cons p rest ih =>
      have hbirth := roster_forkChild hx p { scope := some arena }
      simp only [forkAll]
      split
      · rename_i w' child heq
        rw [heq] at hbirth
        obtain ⟨y, hy, hcard⟩ := get_of_card (hbirth.get? (card_of_get hx))
        have hrest := ih hy (child :: children)
        rw [hcard] at hrest
        exact .head hbirth hrest
      · rename_i w' d heq
        rw [heq] at hbirth
        exact .single hbirth

theorem roster_watchAll (w : World σ) {watcher : Nat → DoneWatcher σ}
    (hwatcher : ∀ n, (watcher n).isRoot = false) (members : List (Key .fiber)) :
    (w.watchAll watcher members).roster = w.roster :=
  foldl_keeps roster (fun (w : World σ) (m : Key .fiber × Nat) => (w.watchFiber m.1 (watcher m.2)).1)
    (fun w m => roster_watchFiber w m.1 (hwatcher m.2)) _ w

theorem roster_contest {w : World σ} {f : Key .fiber} {x : Fiber σ} (hx : w.fibers.get? f = some x)
    (ps : List (Program σ)) (watcher : Key .tally → Nat → DoneWatcher σ)
    (hwatcher : ∀ t n, (watcher t n).isRoot = false) (decided : Contest → Sequel σ) :
    w.roster.Bears x.card (w.contest f ps watcher decided).1.roster := by
  have hscope := roster_forkScope w x.scope x.context.id
  obtain ⟨y, hy, hcard⟩ := get_of_card (hscope ▸ card_of_get hx)
  have hforks := roster_forkAll hy (w.forkScope x.scope x.context.id).2 ps []
  rw [hcard, hscope] at hforks
  simp only [contest, hx]
  split
  · rename_i w' d heq
    rw [heq] at hforks
    exact hforks
  · rename_i w' members heq
    rw [heq] at hforks
    rw [roster_watchAll _ (hwatcher _)]
    exact hforks

/-! ## Down the stack -/

theorem roster_applyDeferred (w : World σ) (f : Key .fiber) : (w.applyDeferred f).roster = w.roster := by
  unfold applyDeferred
  split
  · rfl
  · split
    · split
      · rfl
      · exact (roster_requestClose _ _ _).trans (roster_modifyFiber fun _ _ => rfl)
    · rfl

theorem card_restore (x : Fiber σ) (r : Restore) : (x.restore r).card = x.card.restore r := by
  cases r <;> rfl

theorem roster_restore (w : World σ) (f : Key .fiber) (r : Restore) :
    (w.restore f r).1.roster = w.roster.modify f (·.restore r) := by
  have hpop : (w.modifyFiber f (·.restore r)).roster = w.roster.modify f (·.restore r) :=
    roster_modifyFiber_of fun x _ => card_restore x r
  cases r with
  | interruptible => exact (roster_applyDeferred _ f).trans hpop
  | semaphore => exact hpop
  | services => exact hpop
  | label => exact hpop

theorem roster_claimFinalizer (w : World σ) (ho : Option Handle) :
    (w.claimFinalizer ho).1.roster = w.roster := by
  cases ho with
  | none => rfl
  | some h => exact roster_takeFinalizer w h

/-- On the way down a stack the fiber pops what the frames pop that the exit passes. -/
theorem roster_descend (f : Key .fiber) (failed : Bool) (stack : List (Waiting σ)) (w : World σ) :
    ∃ gone, stack = gone ++ (descend f failed stack w).2 ∧
      (descend f failed stack w).1.roster = w.roster.modify f (·.pop gone) := by
  have hstop : w.roster = w.roster.modify f (Card.pop · ([] : List (Waiting σ))) :=
    (Roster.modify_eq_self fun _ _ => rfl).symm
  induction stack generalizing w with
  | nil => exact ⟨[], rfl, hstop⟩
  | cons x rest ih =>
      -- a frame that the exit passes and that pops nothing
      have hpass : ∀ w' : World σ, w'.roster = w.roster → (∀ c : Card, c.pop [x] = c) →
          ∃ gone, x :: rest = gone ++ (descend f failed rest w').2 ∧
            (descend f failed rest w').1.roster = w.roster.modify f (·.pop gone) := by
        intro w' hroster hx
        obtain ⟨gone, hgone, hmodify⟩ := ih w' (Roster.modify_eq_self fun _ _ => rfl).symm
        refine ⟨x :: gone, by rw [List.cons_append, ← hgone], ?_⟩
        rw [hmodify, hroster]
        refine congrArg (Roster.modify w.roster f) (funext fun c => ?_)
        exact (congrArg (Card.pop · gone) (hx c)).symm.trans (Card.pop_append c [x] gone).symm
      cases x with
      | map k =>
          cases failed with
          | true => exact hpass w rfl fun _ => rfl
          | false => exact ⟨[], rfl, hstop⟩
      | fold h k => exact ⟨[], rfl, hstop⟩
      | restore r =>
          have hrestore := roster_restore w f r
          rcases hr : w.restore f r with ⟨w', left⟩
          rw [hr] at hrestore
          simp only [descend, hr]
          cases left with
          | true => exact ⟨[], rfl, hstop⟩
          | false =>
              obtain ⟨gone, hgone, hmodify⟩ := ih w' (Roster.modify_eq_self fun _ _ => rfl).symm
              refine ⟨.restore r :: gone, by rw [List.cons_append, ← hgone], ?_⟩
              dsimp only at hrestore ⊢
              rw [hmodify, hrestore, Roster.modify_modify]
              rfl
      | release h => exact hpass _ (roster_takeFinalizer w h) fun _ => rfl
      | finalizer ho fin =>
          have hclaim := roster_claimFinalizer w ho
          rcases hc : w.claimFinalizer ho with ⟨w', won⟩
          rw [hc] at hclaim
          simp only [descend, hc]
          cases won with
          | true => exact ⟨[], rfl, hstop⟩
          | false => exact hpass w' hclaim fun _ => rfl
      | resumeWith saved => exact ⟨[], rfl, hstop⟩

/-! ## Steps -/

/-- The stack of the fiber `f`, which has the card `c`, is cut off at some frame and built up anew from there,
without a label, and its piles with it. -/
structure Shifts (f : Key .fiber) (c : Card) (stack : List (Waiting σ)) (w : World σ)
    (s : World σ × Stepped σ) : Prop where
  shift : ∃ gone left pushed c', stack = gone ++ left ∧ s.2.machine.stack = pushed ++ left ∧
    (c.pop gone).Builds pushed c' ∧ .restore .label ∉ pushed ∧ s.1.roster = w.roster.modify f fun _ => c'

/-- What a step of the fiber does to its stack and to the roster: it forks, it comes into a labelled region, or
its piles shift with its stack. -/
inductive Piles (f : Key .fiber) (c : Card) (m : Machine σ) (w : World σ)
    (s : World σ × Stepped σ) : Prop
  | forks : s.2.machine.stack = m.stack → w.roster.Bears c s.1.roster → Piles f c m w s
  | labels {p : Program σ} {frame : Frame} :
      m.control = .instruct (.addFrame p frame) → s.2.machine.stack = .restore .label :: m.stack →
      s.1.roster = w.roster.modify f (fun _ => c.labelled frame) →
      Piles f c m w s
  | shifts : Shifts f c m.stack w s → Piles f c m w s

variable {f : Key .fiber} {c : Card} {m : Machine σ} {w : World σ} {s : World σ × Stepped σ}
variable {stack : List (Waiting σ)}

/-- A fiber that changes what is on its own card. -/
theorem roster_own {z : Fiber σ} {g : Fiber σ → Fiber σ} (hz : w.fibers.get? f = some z) :
    (w.modifyFiber f g).roster = w.roster.modify f fun _ => (g z).card :=
  roster_modifyFiber_of fun x hx => by rw [Option.some.inj (hx.symm.trans hz)]

theorem modify_const (hc : w.roster.cards.get? f = some c) (g : Card → Card) :
    w.roster.modify f g = w.roster.modify f fun _ => g c := by
  refine congrArg (Roster.mk w.roster.limits w.roster.sequence w.roster.roots) ?_
  rw [Store.modify_eq_set _ hc, Store.modify_eq_set _ hc]

theorem modify_keep (hc : w.roster.cards.get? f = some c) : w.roster = w.roster.modify f fun _ => c :=
  (Roster.modify_eq_self fun _ hd => Option.some.inj (hc.symm.trans hd)).symm

/-- The stack and the roster are left alone. -/
theorem Shifts.stays (hc : w.roster.cards.get? f = some c) (hstack : s.2.machine.stack = stack)
    (h : s.1.roster = w.roster) : Shifts f c stack w s :=
  ⟨[], stack, [], c, rfl, hstack, .nil, List.not_mem_nil, h.trans (modify_keep hc)⟩

/-- A frame comes onto the stack. -/
theorem Shifts.push (c' : Card) {x : Waiting σ} (hstack : s.2.machine.stack = x :: stack)
    (hraises : Card.Raises x c c') (hx : .restore .label ≠ x)
    (h : s.1.roster = w.roster.modify f fun _ => c') : Shifts f c stack w s :=
  ⟨[], stack, [x], c', rfl, hstack, .cons .nil hraises, fun hmem => hx (List.mem_singleton.mp hmem), h⟩

/-- A frame that pops nothing leaves the stack. -/
theorem Shifts.drop {x : Waiting σ} (hc : w.roster.cards.get? f = some c) (hx : c.pop [x] = c)
    (hstack : s.2.machine.stack = stack) (h : s.1.roster = w.roster) : Shifts f c (x :: stack) w s :=
  ⟨[x], stack, [], c, rfl, hstack, hx.symm ▸ .nil, List.not_mem_nil, h.trans (modify_keep hc)⟩

/-- Some frames leave the stack first. -/
theorem Shifts.after {gone : List (Waiting σ)} {w' : World σ}
    (hw : w'.roster = w.roster.modify f (·.pop gone)) (h : Shifts f (c.pop gone) stack w' s) :
    Shifts f c (gone ++ stack) w s := by
  obtain ⟨gone', left, pushed, c', rfl, hstack, hbuilds, hlabel, hroster⟩ := h
  refine ⟨gone ++ gone', left, pushed, c', (List.append_assoc _ _ _).symm, hstack, ?_, hlabel, ?_⟩
  · rw [Card.pop_append]
    exact hbuilds
  · rw [hroster, hw, Roster.modify_modify]
    rfl

theorem shifts_enter {called : World σ × Except Defect (Program σ)} (hc : w.roster.cards.get? f = some c)
    (h : called.1.roster = w.roster) : Shifts f c m.stack w (enter f m called) :=
  .stays hc (stack_enter f m called) ((congrArg roster (world_enter f m called)).trans h)

/-- What becomes of the roster in a step that works on an instruction. -/
theorem piles_instruct {y z : Fiber σ} (hz : w.fibers.get? f = some z) (hcard : z.card = c)
    {p : Program σ} (hm : m.control = .instruct p) : Piles f c m w (w.instruct f y m p) := by
  subst hcard
  have hc := card_of_get hz
  have hstays : ∀ {s : World σ × Stepped σ}, s.2.machine.stack = m.stack → s.1.roster = w.roster →
      Piles f z.card m w s := fun hstack hroster => .shifts (.stays hc hstack hroster)
  have henter : ∀ called : World σ × Except Defect (Program σ), called.1.roster = w.roster →
      Piles f z.card m w (enter f m called) := fun _ hroster => .shifts (shifts_enter hc hroster)
  cases p with
  | succeed v => exact hstays rfl rfl
  | failCause cause => exact hstays rfl rfl
  | lazy thunk =>
      have hrun := roster_run thunk w
      simp only [instruct]
      split
      · rename_i w' e heq
        rw [heq] at hrun
        exact hstays rfl hrun
      · rename_i w' d heq
        rw [heq] at hrun
        exact henter _ hrun
  | defer make => exact henter _ (roster_run make w)
  | flatMap p k => exact .shifts (.push _ rfl rfl (fun h => by cases h) (modify_keep hc))
  | fold p h k => exact .shifts (.push _ rfl rfl (fun h => by cases h) (modify_keep hc))
  | access g => exact henter _ (roster_run (g y.services.top) w)
  | provide p services =>
      refine .shifts (.push
        { z.card with services := z.services.push (z.services.top.union services) } rfl ⟨rfl, rfl⟩
        (fun h => by cases h) ?_)
      exact roster_own (g := fun x => { x with services := x.services.push (x.services.top.union services) }) hz
  | async reg =>
      have hrun := roster_run (reg w.newFuture.2) w.newFuture.1
      simp only [instruct]
      split
      · rename_i w' p heq
        rw [heq] at hrun
        exact hstays rfl hrun
      · rename_i w' heq
        rw [heq] at hrun
        exact hstays rfl hrun
      · rename_i w' canceler heq
        rw [heq] at hrun
        exact hstays rfl ((roster_register w' y.scope _).trans hrun)
      · rename_i w' heq
        rw [heq] at hrun
        exact henter _ hrun
  | ensuring p fin =>
      exact .shifts (.push _ rfl rfl (fun h => by cases h) ((roster_register w y.scope fin).trans (modify_keep hc)))
  | fork p params =>
      have hbirth := roster_forkChild hz p params
      simp only [instruct]
      split
      · rename_i w' child heq
        rw [heq] at hbirth
        exact .forks rfl (.single hbirth)
      · rename_i w' d heq
        rw [heq] at hbirth
        exact .forks rfl (.single hbirth)
  | fiberContext => exact hstays rfl rfl
  | fiberScope => exact hstays rfl rfl
  | fiberTrace => exact hstays rfl rfl
  | join child => exact hstays rfl rfl
  | raceAll ps =>
      cases ps with
      | nil => exact hstays rfl rfl
      | cons p rest =>
          have hforks := roster_contest hz (p :: rest) .racer (fun _ _ => rfl) .raceDecided
          rw [← world_enter f m] at hforks
          exact .forks (stack_enter f m _) hforks
  | zipAll ps =>
      cases ps with
      | nil => exact hstays rfl rfl
      | cons p rest =>
          have hforks := roster_contest hz (p :: rest) .member (fun _ _ => rfl) .zipDecided
          rw [← world_enter f m] at hforks
          exact .forks (stack_enter f m _) hforks
  | mask p interruptible =>
      have hpush := roster_own (g := fun x => { x with masks := x.masks.push interruptible }) hz
      refine .shifts (.push { z.card with masks := z.masks.push interruptible }
        rfl ⟨rfl, rfl⟩ (fun h => by cases h) ?_)
      cases interruptible with
      | true => exact (roster_applyDeferred _ f).trans hpush
      | false => exact hpush
  | withConcurrency p level =>
      refine .shifts (.push
        { z.card with semaphores := z.semaphores.push (w.newSemaphore level).2 } rfl ⟨rfl, rfl⟩
        (fun h => by cases h) ?_)
      exact roster_own (w := (w.newSemaphore level).1)
        (g := fun x => { x with semaphores := x.semaphores.push (w.newSemaphore level).2 }) hz
  | addFrame p frame =>
      exact .labels hm rfl (roster_own (g := fun x => { x with labels := frame :: x.labels }) hz)
  | wait a => exact hstays rfl rfl
  | yieldNow => exact hstays rfl rfl
  | duty d => exact henter _ (roster_attend w d)

/-- What becomes of it where an exit comes down to a frame that stops it, or to the bottom. -/
theorem shifts_stop {e : AnyExit} (hc : w.roster.cards.get? f = some c)
    (hstop : descend f e.isFailure stack w = (w, stack)) (exiting : Bool) :
    Shifts f c stack w (unwind f exiting e stack w) := by
  have henter : ∀ {x : Waiting σ} {rest : List (Waiting σ)} {control : Control σ}
      {called : World σ × Except Defect (Program σ)}, c.pop [x] = c → called.1.roster = w.roster →
      Shifts f c (x :: rest) w (enter f { control, stack := rest, exiting } called) :=
    fun hpop hroster =>
      .drop hc hpop (stack_enter f _ _) ((congrArg roster (world_enter f _ _)).trans hroster)
  cases stack with
  | nil =>
      have hend : ∀ m : Machine σ, m.stack = [] → ∀ x, (endWith m x).machine.stack = [] := by
        intro m hm x
        unfold endWith
        split <;> exact hm
      cases e with
      | success v => exact .stays hc (hend _ rfl _) rfl
      | failure cause => exact .stays hc (hend _ rfl _) rfl
  | cons x rest =>
      cases x with
      | map k =>
          cases e with
          | success v => exact henter rfl (roster_proceedWith w k v)
          | failure cause => exact absurd hstop (descend_ne_cons f _ _ rest w w)
      | fold h k =>
          cases e with
          | success v => exact henter rfl (roster_proceedWith w k v)
          | failure cause => exact henter rfl (roster_recoverWith w h cause)
      | restore r =>
          have hrestore := roster_restore w f r
          rcases hr : w.restore f r with ⟨w', left⟩
          rw [hr] at hrestore
          cases left with
          | true =>
              have hstep : unwind f exiting e (.restore r :: rest) w =
                  (w', { machine := { control := .ofExit e, stack := rest, exiting } }) := by
                cases e with
                | success v => simp only [unwind, unwindValue, hr, Control.ofExit]
                | failure cause => simp only [unwind, unwindFailure, hr, Control.ofExit]
              rw [hstep]
              exact ⟨[.restore r], rest, [], _, rfl, rfl, .nil, List.not_mem_nil,
                hrestore.trans (modify_const hc _)⟩
          | false =>
              simp only [descend, hr] at hstop
              exact absurd hstop (descend_ne_cons f _ _ rest w' w)
      | release h => exact absurd hstop (descend_ne_cons f _ _ rest _ w)
      | finalizer ho fin =>
          have hclaim := roster_claimFinalizer w ho
          obtain ⟨w', hwon, hstep⟩ := unwind_finalizer hstop exiting
          rw [hwon] at hclaim
          rw [hstep]
          obtain ⟨z, hz, rfl⟩ := get_of_card (hclaim ▸ hc)
          have hmask := roster_own (g := fun x => { x with masks := x.masks.push false }) hz
          have hfinalize := roster_finalizeWith
            (w'.modifyFiber f fun fiber => { fiber with masks := fiber.masks.push false }) fin e
          rw [hmask, hclaim] at hfinalize
          -- the finalizer runs under a mask of its own, over the exit that is to go on afterwards
          refine ⟨[.finalizer ho fin], rest, [.restore .interruptible, .resumeWith e],
            { z.card with masks := z.masks.push false }, rfl, stack_enter f _ _,
            .cons (.cons .nil rfl) ⟨rfl, rfl⟩, by simp, ?_⟩
          exact (congrArg roster (world_enter f _ _)).trans hfinalize
      | resumeWith saved =>
          cases e with
          | success v => exact .drop hc rfl rfl rfl
          | failure cause => exact .drop hc rfl rfl rfl

/-- What becomes of it where an exit goes down a stack. -/
theorem shifts_unwind {e : AnyExit} (hc : w.roster.cards.get? f = some c) (exiting : Bool)
    (stack : List (Waiting σ)) : Shifts f c stack w (unwind f exiting e stack w) := by
  obtain ⟨gone, hgone, hroster⟩ := roster_descend f e.isFailure stack w
  have hstop := descend_descend f e.isFailure stack w
  rw [unwind_descend]
  generalize descend f e.isFailure stack w = met at hgone hroster hstop
  obtain ⟨w', below⟩ := met
  have hc' : w'.roster.cards.get? f = some (c.pop gone) := by
    rw [hroster, Roster.modify, Store.get?_modify, if_pos rfl, hc, Option.map_some]
  rw [hgone]
  exact .after hroster (shifts_stop hc' hstop exiting)

theorem roster_count (w : World σ) (f : Key .fiber) : (w.count f).roster = w.roster :=
  roster_modifyFiber fun _ _ => rfl

/-- What a step that works makes of the roster. -/
theorem piles_step {y : Fiber σ} (hworks : Moment.Works ⟨w, some (f, m)⟩ f y m) :
    Piles f y.card m w (w.step f y (m.heed y)) := by
  have hy : w.fibers.get? f = some y := hworks.fiber
  have hcount : ∀ {s}, Piles f y.card m (w.count f) s → Piles f y.card m w s := by
    intro s h
    cases h with
    | forks hstack hbears => exact .forks hstack (roster_count w f ▸ hbears)
    | labels hm hstack hroster => exact .labels hm hstack (roster_count w f ▸ hroster)
    | shifts h =>
        obtain ⟨gone, left, pushed, c', hgone, hstack, hbuilds, hlabel, hroster⟩ := h
        exact .shifts ⟨gone, left, pushed, c', hgone, hstack, hbuilds, hlabel, roster_count w f ▸ hroster⟩
  rw [heed_of_free hworks.free]
  rcases hworks.work with ⟨p, hp⟩ | ⟨e, he⟩
  · rw [step_instruct hp hworks.budget]
    exact hcount (piles_instruct (get?_count hy) rfl hp)
  · rw [step_unwind he hworks.budget]
    exact hcount (.shifts (shifts_unwind (card_of_get (get?_count hy)) _ _))

end World

end Fibers
