import Fibers.Proofs.Detour.Passage
import Fibers.Proofs.Run.Stopping

set_option autoImplicit false

/-! # A detour makes no difference

A program that runs in a child which is joined at once comes to the same as the program itself: it ends with
the same exit but for traces, the references read the same afterwards, the same time has passed, and the
permit that the child had is back (`detour_transparent`). The fiber has the system to itself meanwhile
(`Solo`): others could come between the fork and the first turn of the child and take the permit. And forking
the references must not fail: a reference whose policy panics when it is forked ends the detour before the
program is begun (`not_transparent_of_panic`).
-/

namespace Fibers.Detour

open World Direct

variable {σ S : Type} {view : σ → S} {f : Key .fiber} {w : World σ} {fiber : Fiber σ}
  {refs : FiberRef → Prop} {m copy : FiberRefs} {s : Semaphore (Key .future)} {p : Program σ}
  {stack : List (Waiting σ)}

/-- What belongs to a fiber. -/
def homeOf (fiber : Fiber σ) : Home := ⟨fiber.scope, fiber.context.refs, fiber.semaphores.top⟩

/-- In the middle of its turn the fiber `f` is alone on its clock, with the references `m`; nobody has
interrupted it, and of the semaphore for its forks, `s`, a permit is free and nobody waits for one. The keys
of finalizers and the tickets of the semaphore are given out in order. -/
structure Solo (f : Key .fiber) (w : World σ) (fiber : Fiber σ) (m : FiberRefs)
    (s : Semaphore (Key .future)) : Prop where
  found : w.fibers.get? f = some fiber
  pending : fiber.done.isPending = true
  calm : Calm fiber
  scope : ∃ sc fs hooks next, w.scopes.get? fiber.scope = some sc ∧ sc.state = .opened fs hooks next ∧
    ∀ x ∈ fs, x.1 < next
  refs : w.refs.get? fiber.context.refs = some m
  permits : w.semaphores.get? fiber.semaphores.top = some s
  free : s.isFree = true
  unissued : s.isHeld s.nextTicket = false
  alone : w.timers.live = []

theorem Solo.stands (h : Solo f w fiber m s) (view : σ → S) :
    ∃ base hooks fs, Stands view f (homeOf fiber) w ⟨fiber, m, s, view w.board, w.now⟩ (Holds base hooks fs) := by
  obtain ⟨sc, fs, hooks, next, hsc, hstate, hkeys⟩ := h.scope
  refine ⟨sc, hooks, fs, ⟨fiber, h.found, fiber.ops, fiber.nextToken, fiber.done, h.pending, rfl⟩, rfl, rfl,
    ⟨next, ?_, hkeys⟩, h.refs, h.permits, rfl, rfl⟩
  have heq : sc = { sc with state := .opened fs hooks next } := by rw [← hstate]
  exact hsc.trans (congrArg some heq)

theorem Solo.at (h : Solo f w fiber m s) : At f fiber m fiber.ops w :=
  ⟨⟨fiber, h.found, ⟨fiber.ops, fiber.nextToken, fiber.done, h.pending, rfl⟩, rfl⟩, h.refs⟩

/-! ## The program itself -/

/-- The course of a fiber is left where it hands `e` to what waits on its stack. -/
def handing (view : σ → S) (f : Key .fiber) (home : Home) (e : AnyExit) (y : Place σ S)
    (stack : List (Waiting σ)) : Outlet σ f home where
  leads _ z := Hands view f home e y stack z
  absorbs _ h := h

/-- A fiber that is alone comes to the end of its program. -/
theorem eventually_inline (stack : List (Waiting σ)) {home : Home} {e : AnyExit} {x y : Place σ S} {base : Scope (Finalizer σ)}
    {hooks : List (Key .fiber)} {fs : List (Nat × Finalizer σ)} (hp : Comes view p e x y)
    (h : Stands view f home w x (Holds base hooks fs)) (hlive : w.timers.live = []) :
    Moment.Eventually (Hands view f home e y stack) ⟨w, some (f, ⟨.instruct p, stack, false⟩)⟩ := by
  have hruns : Runs view f home (handing view f home e y stack) ⟨.instruct p, stack, false⟩ w :=
    hp f home _ base hooks fs stack w h fun w' h' => Ends.of_leads ⟨w', h'.weaken, rfl⟩
  obtain ⟨n, z, hstrides, ⟨t, hidle, -, hlive', hlife⟩ | hleads⟩ := hruns
  · -- it is in the queue, and nobody else is
    obtain ⟨w', active⟩ := z
    obtain rfl : active = none := hidle
    refine .of_strides hstrides (hlife.eventually [] (J := fun _ => True)
      (fun _ _ h _ => h) ?_ (fun _ _ _ _ hleads => .now hleads) trivial (Or.inl ?_))
    · rintro w t u later - - hrest
      cases hrest
    · rw [hlive', hlive]
      rfl
  · exact .of_strides hstrides (.now hleads)

/-! ## The detour -/

/-- A fiber that is alone comes to the end of a detour, whatever the child comes to. -/
theorem eventually_detour (view : σ → S) {P : Moment σ → Prop} (hsolo : Solo f w fiber m s) (hfork : m.fork = .ok copy)
    (hp : ∀ child : Fiber σ, Calm child → child.services.top = fiber.services.top →
      ∃ e c b now, Comes view p e ⟨child, copy, s.lent, view w.board, w.now⟩ ⟨child, c, s.lent, b, now⟩ ∧
        (m.join c).2 = .ok () ∧
        ∀ z, Hands view f (homeOf fiber) e ⟨fiber, (m.join c).1, s.ticket.1, b, now⟩ stack z → P z) :
    Moment.Eventually P ⟨w, some (f, ⟨.instruct p.detour, stack, false⟩)⟩ := by
  obtain ⟨sc, fs, hooks, next, hsc, hstate, -⟩ := hsolo.scope
  have hopen : sc.isOpen = true := by simp only [Scope.isOpen, hstate]
  refine eventually_fork view hsolo.calm hsolo.at hsolo.alone hsc hopen hfork hsolo.permits ?_
  intro w₁ w₂ c home base parent child t ops hidles hvaries hborn hat hlive
  have hcontext : parent.context = fiber.context := hvaries.context
  have hstacks : parent.services.top = fiber.services.top ∧ parent.semaphores.top = fiber.semaphores.top := by
    obtain ⟨_, _, _, -, rfl⟩ := hvaries
    exact ⟨rfl, rfl⟩
  have hboard : view w₁.board = view w.board := by rw [congrArg World.board hidles.rest]
  obtain ⟨e, refs, b, now, hcomes, hmerge, hP⟩ :=
    hp child hborn.calm (hborn.services.trans hstacks.1)
  obtain ⟨token, htask, hstands⟩ := hborn.task
  rw [hboard, hidles.now] at hstands
  set y : Place σ S := ⟨child, refs, s.ticket.1, b, now⟩ with hy
  have hlife : Life view c home (ended view c home e y) t w₂ :=
    life_of_child (x := ⟨child, copy, s, view w.board, w.now⟩) (p := p)
      (by rw [hlive]; exact List.mem_singleton.mpr rfl) htask hborn.due hborn.calm hsolo.free hsolo.unissued
      hborn.fresh hborn.apart hstands fun out fs => hcomes c home out base [c] fs
  have hrefs : fiber.context.refs ≠ home.refs := by
    rw [← hcontext]
    exact hborn.refs
  have hhome : homeOf fiber = ⟨fiber.scope, fiber.context.refs, home.permits⟩ := by
    rw [homeOf, hborn.permitsKey, hstacks.2]
  refine eventually_awaited hborn.ne hrefs hsolo.calm (Or.inr ⟨t, rfl, hlife, hborn.kept⟩) hat hlive ?_
  intro w₃ hgone hat hlive
  have hback := eventually_merged stack hborn.ne.symm hrefs hsolo.calm hmerge hgone hat hlive
  rw [← hhome] at hback
  exact hback.trans fun z hz => .now (hP z hz)

/-! ## No difference -/

/-- On a virtual clock, a program whose functions do not look at traces is run by a fiber that is alone, and
by a child of the fiber that is joined at once. Both ways the fiber comes to hand an exit to what waits on its
stack; the exits agree but for traces, the references under the default policy read the same, the board shows
the same, the same time has passed, and the semaphore is as it was but for the ticket that the child used. -/
theorem detour_transparent (hsolo : Solo f w fiber m s) (hrefs : ByDefault refs m)
    (hfork : m.fork = .ok copy) (hp : Blind view refs p) (stack : List (Waiting σ)) :
    ∃ e e' c c' b now,
      Moment.Eventually (Hands view f (homeOf fiber) e ⟨fiber, c, s, b, now⟩ stack)
        ⟨w, some (f, ⟨.instruct p, stack, false⟩)⟩ ∧
      Moment.Eventually (Hands view f (homeOf fiber) e' ⟨fiber, c', s.ticket.1, b, now⟩ stack)
        ⟨w, some (f, ⟨.instruct p.detour, stack, false⟩)⟩ ∧
      Value.eraseExit e = Value.eraseExit e' ∧ ∀ r, refs r → c.read r = c'.read r := by
  obtain ⟨base, hooks, fs, hstands⟩ := hsolo.stands view
  have hdetour : Moment.Eventually (fun z => ∃ e e' c c' b now,
      Moment.Eventually (Hands view f (homeOf fiber) e ⟨fiber, c, s, b, now⟩ stack)
        ⟨w, some (f, ⟨.instruct p, stack, false⟩)⟩ ∧
      Hands view f (homeOf fiber) e' ⟨fiber, c', s.ticket.1, b, now⟩ stack z ∧
      Value.eraseExit e = Value.eraseExit e' ∧ ∀ r, refs r → c.read r = c'.read r)
      ⟨w, some (f, ⟨.instruct p.detour, stack, false⟩)⟩ := by
    refine eventually_detour view hsolo hfork fun child hcalm hservices => ?_
    -- the fiber and its child, each with the program before it
    have htwins : Twins (Bond refs m) ⟨fiber, m, s, view w.board, w.now⟩ ⟨child, copy, s.lent, view w.board, w.now⟩ :=
      ⟨hsolo.calm, hcalm, hservices.symm, rfl, rfl, bond_fork hrefs hfork⟩
    obtain ⟨e, e', c, c', b, now, he, hbond, hinline, hchild⟩ :=
      Alike.agree (binds_bond refs m) hp _ _ htwins
    obtain ⟨hmerge, hreads⟩ := hbond.join hrefs
    refine ⟨e', c', b, now, hchild, hmerge, fun z hz => ⟨e, e', c, _, b, now, ?_, hz, he, ?_⟩⟩
    · exact eventually_inline stack hinline hstands hsolo.alone
    · exact fun r hr => (hreads r hr).symm
  obtain ⟨n, e, e', c, c', b, now, hinline, hz, hagree⟩ := hdetour
  exact ⟨e, e', c, c', b, now, hinline, ⟨n, hz⟩, hagree⟩

theorem defects_thrown (max : Nat) (frames : List Frame) (d : Defect) : (thrown max frames d).defects = [d] := by
  unfold thrown Cause.withTrace
  split <;> rfl

/-- Where the references of the fiber cannot be forked, the detour ends with the panic, whatever the
program. -/
theorem eventually_detour_panics {d : Defect} (hsolo : Solo f w fiber m s) (hfork : m.fork = .error d)
    (view : σ → S) (p : Program σ) (stack : List (Waiting σ)) :
    Moment.Eventually
      (Hands view f (homeOf fiber) (panicked ⟨fiber, m, s, view w.board, w.now⟩ d)
        ⟨fiber, m, s, view w.board, w.now⟩ stack)
      ⟨w, some (f, ⟨.instruct p.detour, stack, false⟩)⟩ := by
  obtain ⟨sc, fs, hooks, next, hsc, hstate, -⟩ := hsolo.scope
  have hopen : sc.isOpen = true := by simp only [Scope.isOpen, hstate]
  exact eventually_panics (y := ⟨fiber, m, s, view w.board, w.now⟩) hsolo.calm hsolo.at hsolo.permits rfl rfl
    hsolo.alone hsc hopen hfork

/-! ## In a new system -/

/-- A new system in which a root fiber is about to work on its program. -/
def solitary : World Nat := (Moment.tick^[2] ⟨(blank.runFiber .yieldNow).1, none⟩).world

/-- Whatever its program is. -/
theorem begins_solitary (q : Program Nat) : Moment.tick^[2] ⟨(blank.runFiber q).1, none⟩ =
    ⟨solitary, some (⟨0⟩, ⟨.instruct q, [], false⟩)⟩ := rfl

/-- A reference under the default policy. -/
def mileage : FiberRef := ⟨0, .int 0, .childWins⟩

/-- A program that writes a reference and reads it back some time later. -/
def wander : Program Nat :=
  (Program.setRef mileage (.int 3)).andThen ((Program.sleep 1000).andThen (.getRef mileage))

theorem blind_wander : Blind id (· = mileage) wander := by
  have hnext : ∀ {p q : Program Nat}, Blind id (· = mileage) p → Blind id (· = mileage) q →
      Blind id (· = mileage) (p.andThen q) := fun hp hq => .flatMap hp fun _ _ _ =>
    alikeCalls_of_does (fun _ w hw => ⟨w.board, rfl, hw⟩) (fun _ w hw => ⟨w.board, rfl, hw⟩) hq
  exact hnext (.setRef rfl) (hnext .sleep (.getRef rfl))

theorem solo_solitary : ∃ fiber s, Solo ⟨0⟩ solitary fiber .empty s :=
  ⟨(solitary.fibers.get? ⟨0⟩).get rfl, (solitary.semaphores.get? ⟨0⟩).get rfl, {
    found := rfl
    pending := rfl
    calm := ⟨⟨by decide, rfl⟩, rfl, rfl⟩
    scope := ⟨_, _, _, _, rfl, rfl, by simp⟩
    refs := rfl
    permits := rfl
    free := rfl
    unissued := rfl
    alone := rfl }⟩

/-- The program comes to the same in the root fiber of a new system and in a child of it. -/
theorem wander_detour : ∃ fiber s, Solo ⟨0⟩ solitary fiber .empty s ∧
    ByDefault (· = mileage) .empty ∧ FiberRefs.fork .empty = .ok .empty ∧ Blind id (· = mileage) wander ∧
    ∃ e e' c c' b now,
      Moment.Eventually (Hands id ⟨0⟩ (homeOf fiber) e ⟨fiber, c, s, b, now⟩ [])
        ⟨solitary, some (⟨0⟩, ⟨.instruct wander, [], false⟩)⟩ ∧
      Moment.Eventually (Hands id ⟨0⟩ (homeOf fiber) e' ⟨fiber, c', s.ticket.1, b, now⟩ [])
        ⟨solitary, some (⟨0⟩, ⟨.instruct wander.detour, [], false⟩)⟩ ∧
      Value.eraseExit e = Value.eraseExit e' ∧ ∀ r, r = mileage → c.read r = c'.read r := by
  obtain ⟨fiber, s, hsolo⟩ := solo_solitary
  have hrefs : ByDefault (· = mileage) .empty := ⟨fun r hr => by rw [hr]; rfl, nofun, List.nodup_nil⟩
  exact ⟨fiber, s, hsolo, hrefs, rfl, blind_wander, detour_transparent hsolo hrefs rfl blind_wander []⟩

/-! ## Where a fork panics -/

/-- A reference that no child can have. -/
def brittle : FiberRef := ⟨1, .int 0, ⟨fun _ => .error ⟨"fork policy"⟩, fun _ child => .ok child⟩⟩

/-- The references of a fiber that has written it. -/
def fragile : FiberRefs := FiberRefs.write .empty brittle (.int 1)

/-- The new system with these references for the root fiber. -/
def burdened : World Nat := { solitary with refs := solitary.refs.set ⟨0⟩ fragile }

theorem solo_burdened : ∃ fiber s, Solo ⟨0⟩ burdened fiber fragile s := by
  obtain ⟨fiber, s, hsolo⟩ := solo_solitary
  have hrefs : fiber.context.refs = ⟨0⟩ := by
    have hfound := hsolo.found
    obtain rfl := Option.some.inj hfound.symm
    rfl
  exact ⟨fiber, s, hsolo.found, hsolo.pending, hsolo.calm, hsolo.scope, by rw [hrefs]; rfl, hsolo.permits, hsolo.free,
    hsolo.unissued, hsolo.alone⟩

/-- A program that succeeds at once fails on the detour. -/
theorem not_transparent_of_panic : ∃ fiber s y y' cause, Solo ⟨0⟩ burdened fiber fragile s ∧
    ByDefault (· = mileage) fragile ∧ Blind id (· = mileage) (.succeed .unit : Program Nat) ∧
    Moment.Eventually (Hands id ⟨0⟩ (homeOf fiber) (.success .unit) y [])
      ⟨burdened, some (⟨0⟩, ⟨.instruct (.succeed .unit), [], false⟩)⟩ ∧
    Moment.Eventually (Hands id ⟨0⟩ (homeOf fiber) (.failure cause) y' [])
      ⟨burdened, some (⟨0⟩, ⟨.instruct (Program.detour (.succeed .unit)), [], false⟩)⟩ ∧
    cause.defects = [⟨"fork policy"⟩] := by
  obtain ⟨fiber, s, hsolo⟩ := solo_burdened
  obtain ⟨base, hooks, fs, hstands⟩ := hsolo.stands id
  have hrefs : ByDefault (· = mileage) fragile := by
    refine ⟨fun r hr => by rw [hr]; rfl, fun e he r hr hid => ?_, (FiberRefs.Distinct.write (m := .empty) List.nodup_nil _ _)⟩
    obtain rfl := List.mem_singleton.mp he
    rw [hr] at hid
    cases hid
  have hinline := eventually_inline [] (comes_ofExit hsolo.calm (.success .unit)) hstands hsolo.alone
  exact ⟨fiber, s, _, _, _, hsolo, hrefs, .succeed rfl, hinline,
    eventually_detour_panics hsolo rfl id (.succeed .unit) [], defects_thrown _ _ _⟩

end Fibers.Detour
