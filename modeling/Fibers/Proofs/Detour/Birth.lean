import Fibers.Proofs.Detour.Meeting
import Fibers.Proofs.Detour.Guarded

set_option autoImplicit false

/-! # The start of a child

A fiber that starts a child gives it a scope within its own, a fork of its references, its services and the
semaphore that bounds its forks. The child is new, and so is all that belongs to it alone; what was there
before is left as it is, except that the scope of the parent keeps a finalizer that closes the scope of the
child (`forkChild_of_open`).
-/

namespace Fibers.Detour

open World Direct

variable {σ S : Type} {f c : Key .fiber} {w w' : World σ} {parent : Fiber σ} {p : Program σ}

/-- A scope within an open scope is new, empty and open. -/
theorem forkScope_of_open {s : Key .scope} {sc : Scope (Finalizer σ)} (owner : FiberId)
    (hsc : w.scopes.get? s = some sc) (hopen : sc.isOpen = true) :
    ∃ scopes child key, w.forkScope s owner = ({ w with scopes }, child) ∧ child ≠ s ∧
      scopes.get? child = some { Scope.new owner sc.strategy with parent := some ⟨s, key⟩ } := by
  set added : Store .scope (Scope (Finalizer σ)) := (w.scopes.add (.new owner sc.strategy)).1 with hadded
  set child : Key .scope := (w.scopes.add (.new owner sc.strategy)).2 with hchild
  have hne : child ≠ s := by
    rintro heq
    have hnone : w.scopes.get? child = none := Store.get?_next _ _
    rw [heq, hsc] at hnone
    cases hnone
  have hsc' : added.get? s = some sc := Store.get?_add_of_some _ hsc
  have hnew : added.get? child = some (.new owner sc.strategy) := by
    rw [hadded, Store.get?_add, if_pos hchild]
  have hread : w.scope s = sc := by simp only [World.scope, hsc, Option.getD_some]
  cases hstate : sc.state with
  | closing e claim => simp only [Scope.isOpen, hstate] at hopen; cases hopen
  | closed e => simp only [Scope.isOpen, hstate] at hopen; cases hopen
  | opened fs hooks next =>
      set held : Store .scope (Scope (Finalizer σ)) := added.set s { sc with
        state := .opened (fs ++ [(next, .closeChild child sc.owner)]) hooks (next + 1) } with hheld
      have hregister : World.register { w with scopes := added } s (.closeChild child sc.owner) =
          ({ w with scopes := held }, some ⟨s, next⟩) := by
        simp only [World.register, World.scope, hsc', Option.getD_some, Scope.register?, hstate, hheld]
      refine ⟨held.modify child fun sc => { sc with parent := some ⟨s, next⟩ }, child, next, ?_, hne, ?_⟩
      · simp only [World.forkScope, hread, World.newScope, ← hadded, ← hchild, hregister]
      · rw [Store.get?_modify, if_pos rfl, hheld, Store.get?_set, if_neg hne.symm, hnew]
        rfl

/-- What a child has from its parent: it has yet to start on its program, under a permit. -/
structure Born (view : σ → S) (f c : Key .fiber) (home : Home) (base : Scope (Finalizer σ))
    (parent child : Fiber σ) (p : Program σ) (t : Timer (Task σ)) (copy : FiberRefs)
    (permits : Semaphore (Key .future)) (w w' : World σ) : Prop where
  ne : f ≠ c
  refs : parent.context.refs ≠ home.refs
  permitsKey : home.permits = parent.semaphores.top
  calm : Calm child
  services : child.services.top = parent.services.top
  fresh : base.closed = .fresh
  apart : ∀ h, base.parent = some h → h.scope ≠ home.scope
  task : ∃ token, t.task = .resume c token .proceed ∧
    Stands view c home w'
      { fiber := { child with
          phase := .suspended token { control := .start (.duty (.guarded home.permits p)) } }
        refs := copy
        permits
        board := view w.board
        now := w.now } (Holds base [c] [])
  due : w'.now = t.deadline
  live : w'.timers.live = Timers.insert t w.timers.live
  kept : Kept c home .fresh w'
  fiber : w'.fibers.get? f = w.fibers.get? f
  map : w'.refs.get? parent.context.refs = w.refs.get? parent.context.refs

/-- A fiber starts a child. -/
theorem forkChild_of_open (view : σ → S) {sc : Scope (Finalizer σ)} {refs copy : FiberRefs}
    {permits : Semaphore (Key .future)} (hget : w.fibers.get? f = some parent)
    (hbudget : 0 < parent.context.limits.maxOps)
    (hsc : w.scopes.get? parent.scope = some sc) (hopen : sc.isOpen = true)
    (hrefs : w.refs.get? parent.context.refs = some refs) (hfork : refs.fork = .ok copy)
    (hpermits : w.semaphores.get? parent.semaphores.top = some permits) :
    ∃ w' c home base child t, w.forkChild f p {} = (w', .ok c) ∧
      Born view f c home base parent child p t copy permits w w' := by
  set id : FiberId := ⟨w.sequence + 1, w.now⟩ with hid
  set w₁ : World σ := { w with sequence := w.sequence + 1 } with hw₁
  obtain ⟨scopes, s, key, hscope, hne, hsc'⟩ := forkScope_of_open (w := w₁) id hsc hopen
  set r : Key .refs := (w.refs.add copy).2 with hr
  set context : Context := parent.context.child id r none with hcontext
  set child : Fiber σ :=
    { context, scope := s, phase := .running
      semaphores := ⟨(w.semaphores.add (.withPermits context.concurrency)).2, []⟩
      masks := ⟨context.interruptible, []⟩, services := ⟨parent.services.top, []⟩
      inherited := newest parent.context.limits.maxTrace parent.frames ++ [.fork parent.context.id] }
    with hchild
  set m : Machine σ := { control := .start (.duty (.guarded parent.semaphores.top p)) } with hm
  set c : Key .fiber := (w.fibers.add { child with phase := .notStarted m }).2 with hc
  set base : Scope (Finalizer σ) := { Scope.new id sc.strategy with parent := some ⟨parent.scope, key⟩ }
    with hbase
  -- the world with all that belongs to the child, and the child on the hooks of its scope
  set w₂ : World σ := { w₁ with
    scopes := scopes
    refs := (w.refs.add copy).1
    semaphores := (w.semaphores.add (.withPermits context.concurrency)).1
    fibers := (w.fibers.add { child with phase := .notStarted m }).1 } with hw₂
  set w₃ : World σ := { w₂ with scopes := scopes.set s { base with state := .opened [] [c] 0 } } with hw₃
  have hhook : w₂.hook s c = w₃ := by
    simp only [World.hook, World.scope, hw₂, hsc', Option.getD_some, Scope.hook?, hw₃, hbase, Scope.new,
      List.nil_append]
  have hget₃ : w₃.fibers.get? c = some { child with phase := .notStarted m } := by
    simp only [hw₃, hw₂, Store.get?_add, hc, if_pos]
  have hfc : f ≠ c := by
    rintro rfl
    have hnone : w.fibers.get? c = none := Store.get?_next _ _
    rw [hget] at hnone
    cases hnone
  have hrr : parent.context.refs ≠ r := by
    intro heq
    have hnone : w.refs.get? r = none := Store.get?_next _ _
    rw [← heq, hrefs] at hnone
    cases hnone
  set started : Fiber σ := { child with phase := .suspended 0 m, nextToken := 1 } with hstarted
  set w₄ : World σ := { w₃ with fibers := w₃.fibers.set c started } with hw₄
  have hget₄ : w₄.fibers.get? c = some started := Store.get?_set_of_some hget₃
  have hstart : w₃.startFiber c = w₄.queue (.resume c 0 .proceed) := by
    simp only [World.startFiber, hget₃, Fiber.park]
    rfl
  have hmap : w.refMap parent.context.refs = refs := by
    simp only [World.refMap, hrefs, Option.getD_some]
  have hrefs' : w₂.refs.get? parent.context.refs = some refs := Store.get?_add_of_some _ hrefs
  refine ⟨w₄.queue (.resume c 0 .proceed), c, ⟨s, r, parent.semaphores.top⟩, base, child,
    prompt w₄ c 0 .proceed, ?_, ?_⟩
  · have hchildRefs : World.childRefs { w₁ with scopes } parent.context.refs none =
        ({ w₁ with scopes, refs := (w.refs.add copy).1 }, .ok r) := by
      simp only [World.childRefs, World.forkRefs]
      have : World.refMap { w₁ with scopes } parent.context.refs = refs := hmap
      rw [this, hfork]
      rfl
    simp only [World.forkChild, hget, World.nextId, ← hw₁, ← hid, Option.getD_none, hscope, hchildRefs]
    have hnew : World.newFiber { w₁ with scopes, refs := (w.refs.add copy).1 } context s
        (.duty (.guarded parent.semaphores.top p)) parent.services.top
        (newest parent.context.limits.maxTrace parent.frames ++ [.fork parent.context.id]) =
          (w₂.hook s c, c) := rfl
    rw [hnew]
    dsimp only
    rw [hhook, hstart]
  · have hpermits' : w₄.semaphores.get? parent.semaphores.top = some permits :=
      Store.get?_add_of_some _ hpermits
    refine
      { ne := hfc
        refs := hrr
        permitsKey := rfl
        calm := ⟨⟨hbudget, rfl⟩, rfl, rfl⟩
        services := rfl
        fresh := rfl
        apart := ?_
        task := ⟨0, rfl, ⟨⟨started, hget₄, 0, 1, .fresh, rfl, rfl⟩, rfl, rfl, ⟨0, ?_, ?_⟩, ?_, hpermits', rfl, rfl⟩⟩
        due := (deadline_prompt w₄ c 0 .proceed).symm
        live := rfl
        kept := ⟨started, hget₄, rfl, rfl⟩
        fiber := ?_
        map := Store.get?_add_of_some _ hrefs |>.trans hrefs.symm }
    · rintro h hh
      obtain rfl := Option.some.inj hh
      exact hne.symm
    · show (scopes.set s _).get? s = _
      exact Store.get?_set_of_some hsc'
    · exact fun x hx => absurd hx List.not_mem_nil
    · show (w.refs.add copy).1.get? r = some copy
      rw [Store.get?_add, if_pos hr]
    · show (w₃.fibers.set c started).get? f = _
      rw [Store.get?_set, if_neg hfc.symm]
      show (w.fibers.add _).1.get? f = _
      rw [Store.get?_add_of_some _ hget, hget]

/-- A fiber whose references cannot be forked starts no child. -/
theorem forkChild_of_panic {sc : Scope (Finalizer σ)} {refs : FiberRefs} {d : Defect}
    (hget : w.fibers.get? f = some parent) (hsc : w.scopes.get? parent.scope = some sc)
    (hopen : sc.isOpen = true) (hrefs : w.refs.get? parent.context.refs = some refs)
    (hfork : refs.fork = .error d) :
    ∃ sequence scopes, w.forkChild f p {} = ({ w with sequence, scopes }, .error d) := by
  set w₁ : World σ := { w with sequence := w.sequence + 1 } with hw₁
  obtain ⟨scopes, s, key, hscope, -⟩ := forkScope_of_open (w := w₁) ⟨w.sequence + 1, w.now⟩ hsc hopen
  have hmap : World.refMap { w₁ with scopes } parent.context.refs = refs := by
    show (w.refs.get? parent.context.refs).getD default = refs
    rw [hrefs, Option.getD_some]
  refine ⟨w.sequence + 1, scopes, ?_⟩
  simp only [World.forkChild, hget, World.nextId, ← hw₁, Option.getD_none, hscope, World.childRefs,
    World.forkRefs, hmap, hfork]
  rfl

end Fibers.Detour
