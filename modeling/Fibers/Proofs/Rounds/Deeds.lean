import Fibers.Proofs.Rounds.Course

set_option autoImplicit false

/-! # What members do to others

The steps of a member that concern more than itself and its scope: it draws a ticket, asks for a permit, queues
and waits, goes to sleep, gives its permit back, closes its scope and ends. Each is a step that concerns the
member alone, followed by a change of what is shared.
-/

namespace Fibers.Rounds

open World Direct

variable {σ : Type}

namespace Member

variable {k : Member σ} {w : World σ} {ops budget : Nat} {sem : Semaphore (Key .future)} {grant : Key .future}

/-! ## The permit -/

/-- A member draws its ticket. -/
theorem draws (hk : k.Sound budget) (h : k.Active (k.spot .guarded) ops w) (hops : ops < budget)
    (hsem : w.semaphores.get? k.permits = some sem) (hticket : sem.nextTicket = k.ticket) :
    ∃ w₁, k.Private w w₁ ∧
      w.advance k.fiber (k.spot .guarded).machine =
        ⟨{ w₁ with semaphores := w₁.semaphores.set k.permits sem.ticket.1 },
          some (k.fiber, (k.spot .ensuring).machine)⟩ ∧
      k.Active (k.spot .ensuring) (ops + 1) w₁ := by
  obtain ⟨y, token, rfl, hget, hbudget, hadvance⟩ := h.advance hk.toSound (stays .guarded)
  refine ⟨w.count k.fiber, Walker.private_modify w _, ?_, h.count.shift rfl⟩
  rw [hadvance, step_instruct (p := .duty (.guarded k.permits (.sleep k.span))) rfl (by rw [hbudget]; exact hops)]
  have hread : (w.count k.fiber).semaphore k.permits = sem := semaphore_of_get hsem
  simp only [World.instruct, attend, hread, Semaphore.ticket, hticket]
  rfl

/-- A member gets a free permit. -/
theorem takes (hk : k.Sound budget) (h : k.Active (k.spot .take) ops w) (hops : ops < budget)
    (hsem : w.semaphores.get? k.permits = some sem) {sem' : Semaphore (Key .future)}
    (htake : sem.take? k.ticket = some sem') :
    ∃ w₁, k.Private w w₁ ∧
      w.advance k.fiber (k.spot .take).machine =
        ⟨{ w₁ with semaphores := w₁.semaphores.set k.permits sem' },
          some (k.fiber, (k.spot .granted).machine)⟩ ∧
      k.Active (k.spot .granted) (ops + 1) w₁ := by
  obtain ⟨y, token, rfl, hget, hbudget, hadvance⟩ := h.advance hk.toSound (stays .take)
  refine ⟨w.count k.fiber, Walker.private_modify w _, ?_, h.count.shift rfl⟩
  rw [hadvance, step_instruct (p := .duty (.take k.permits k.ticket)) rfl (by rw [hbudget]; exact hops)]
  have hread : (w.count k.fiber).semaphore k.permits = sem := semaphore_of_get hsem
  simp only [World.instruct, attend, hread, htake]
  rfl

/-- A member queues for a permit. -/
theorem queues (hk : k.Sound budget) (h : k.Active (k.spot .take) ops w) (hops : ops < budget)
    (hsem : w.semaphores.get? k.permits = some sem) (htake : sem.take? k.ticket = none)
    (hgrant : grant = (w.futures.add .fresh).2) :
    ∃ w₁, k.Private w w₁ ∧
      w.advance k.fiber (k.spot .take).machine =
        ⟨{ w₁ with
            futures := (w₁.futures.add .fresh).1
            semaphores := w₁.semaphores.set k.permits (sem.enqueue k.ticket grant) },
          some (k.fiber, (k.spot (.queue grant)).machine)⟩ ∧
      k.Active (k.spot (.queue grant)) (ops + 1) w₁ := by
  obtain ⟨y, token, rfl, hget, hbudget, hadvance⟩ := h.advance hk.toSound (stays .take)
  refine ⟨w.count k.fiber, Walker.private_modify w _, ?_, h.count.shift rfl⟩
  rw [hadvance, step_instruct (p := .duty (.take k.permits k.ticket)) rfl (by rw [hbudget]; exact hops)]
  have hread : (w.count k.fiber).semaphore k.permits = sem := semaphore_of_get hsem
  have hmodify : (w.count k.fiber).semaphores.modify k.permits (·.enqueue k.ticket grant) =
      (w.count k.fiber).semaphores.set k.permits (sem.enqueue k.ticket grant) :=
    Store.modify_eq_set _ hsem
  rw [← hmodify, hgrant]
  simp only [World.instruct, attend, hread, htake]
  rfl

/-- A member waits for its permit. -/
theorem waits (hk : k.Sound budget) (h : k.Active (k.queuing grant) ops w) (hops : ops < budget)
    (hfuture : w.futures.get? grant = some .fresh) :
    ∃ w₁ token, k.Private w w₁ ∧
      w.advance k.fiber (k.queuing grant).machine =
        ⟨{ w₁ with futures := w₁.futures.set grant (.pending [(0, .wake ⟨k.fiber, token⟩)] 1) }, none⟩ ∧
      k.Parked (k.queuing grant) token (k.queuing grant).machine w₁ := by
  obtain ⟨y, token, rfl, hget, hbudget, hadvance⟩ := h.advance hk.toSound (stays (.queue grant))
  have hread : (w.count k.fiber).future grant = .fresh := by
    show (w.futures.get? grant).getD default = _
    rw [hfuture, Option.getD_some]
  have hnone : (w.count k.fiber).settledProgram? (.future grant) = none := by
    simp only [settledProgram?, hread]
    rfl
  obtain ⟨w₁, token', hconclude, hprivate, hparked⟩ :=
    h.count.await (m := (k.queuing grant).machine) hnone (Or.inr rfl) none
  have hread₁ : w₁.future grant = .fresh := by
    rw [hprivate.rest]
    exact hread
  refine ⟨w₁, token', (Walker.private_modify w _).trans hprivate, ?_, hparked⟩
  rw [hadvance, step_instruct (p := .wait (.future grant)) rfl (by rw [hbudget]; exact hops)]
  show conclude k.fiber (w.count k.fiber, ⟨_, .await (.future grant) none⟩) = _
  rw [hconclude]
  simp only [subscribe, watchFuture, hread₁]
  rfl

/-- A member whose permit was granted before it came to wait goes on. -/
theorem enters (hk : k.Sound budget) (h : k.Active (k.queuing grant) ops w) (hops : ops < budget)
    (hfuture : w.futures.get? grant = some (.settled (.resolved .unit))) :
    ∃ w', k.Private w w' ∧
      w.advance k.fiber (k.queuing grant).machine = ⟨w', some (k.fiber, (k.spot .granted).machine)⟩ ∧
      k.Active (k.spot .granted) 0 w' := by
  obtain ⟨y, token, rfl, hget, hbudget, hadvance⟩ := h.advance hk.toSound (stays (.queue grant))
  have hsome : (w.count k.fiber).settledProgram? (.future grant) = some .unit := by
    have hread : (w.count k.fiber).future grant = .settled (.resolved .unit) := by
      show (w.futures.get? grant).getD default = _
      rw [hfuture, Option.getD_some]
    simp only [settledProgram?, hread]
    rfl
  obtain ⟨w', hconclude, hactive, hprivate⟩ :=
    h.count.await_settled (m := (k.queuing grant).machine) hsome (Or.inr rfl) none
  refine ⟨w', (Walker.private_modify w _).trans hprivate, ?_, hactive.shift rfl⟩
  rw [hadvance, step_instruct (p := .wait (.future grant)) rfl (by rw [hbudget]; exact hops)]
  exact hconclude

/-! ## The sleep -/

/-- The machine of a member that sleeps. -/
def dozing (k : Member σ) : Machine σ :=
  ⟨.instruct (.async (Program.asleep k.span)), [.release ⟨k.scope, 1⟩, k.refundFrame], false⟩

/-- A member goes to sleep. -/
theorem naps (hk : k.Sound budget) (h : k.Active (k.spot .nap) ops w) (hops : ops < budget) {callback : Key .future}
    (hcallback : callback = (w.futures.add .fresh).2) :
    ∃ w₁ token, k.Private w w₁ ∧
      w.advance k.fiber (k.spot .nap).machine =
        ⟨{ w₁ with
            futures := (w₁.futures.add .fresh).1.set callback (.pending [(0, .wake ⟨k.fiber, token⟩)] 1)
            timers := (w₁.timers.set k.span (.ring callback)).1 }, none⟩ ∧
      k.Parked (k.spot (.awake w.timers.nextId)) token k.dozing w₁ := by
  obtain ⟨y, token, rfl, hget, hbudget, hadvance⟩ := h.advance hk.toSound (stays .nap)
  have hcount := h.count
  set x : Spot σ := k.spot (.awake w.timers.nextId) with hx
  -- the world in which the timer is set, and the one in which its canceler is registered
  set w₁ : World σ := { w.count k.fiber with
    futures := (w.futures.add .fresh).1
    timers := (w.timers.set k.span (.ring callback)).1 } with hw₁
  set w₂ : World σ := { w₁ with scopes := w₁.scopes.set k.scope (k.nestAt x) } with hw₂
  have hregister : w₁.register k.scope (.canceler (.dropTimer w.timers.nextId)) = (w₂, some ⟨k.scope, 1⟩) := by
    have hread : w₁.scope k.scope = k.nestAt (k.spot .nap) := hcount.scope_eq
    simp only [World.register, hread]
    rfl
  have hactive : k.Active x (ops + 1) w₂ := by
    obtain ⟨token', hfiber⟩ := hcount.fiber
    exact ⟨⟨token', hfiber⟩, Store.get?_set_of_some hcount.scope⟩
  have hfresh : w₂.futures.get? callback = some .fresh := by
    show (w.futures.add .fresh).1.get? callback = _
    rw [Store.get?_add, if_pos hcallback]
  have hread : w₂.future callback = .fresh := by
    rw [World.future, hfresh, Option.getD_some]
  have hnone : w₂.settledProgram? (.future callback) = none := by
    simp only [settledProgram?, hread]
    rfl
  obtain ⟨w₃, token', hconclude, hprivate, hparked⟩ :=
    hactive.await (m := (k.spot .nap).machine) hnone (Or.inr rfl) (some ⟨k.scope, 1⟩)
  have hread₃ : w₃.future callback = .fresh := by
    rw [hprivate.rest]
    exact hread
  refine ⟨{ w with
    fibers := w₃.fibers
    scopes := w₃.scopes }, token', ⟨fun g hg => ?_, fun s hs => ?_, rfl⟩, ?_, hparked.congr rfl rfl⟩
  · exact (hprivate.fibers g hg).trans ((Walker.private_modify w _).fibers g hg)
  · refine (hprivate.scopes s hs).trans ?_
    show (w.scopes.set k.scope _).get? s = _
    rw [Store.get?_set, if_neg (Ne.symm hs)]
  · rw [hadvance, step_instruct (p := .async (Program.asleep k.span)) rfl (by rw [hbudget]; exact hops)]
    have hinstruct : (w.count k.fiber).instruct k.fiber (k.record (k.spot .nap) ops token .running)
        (k.spot .nap).machine (.async (Program.asleep k.span)) =
          (w₂, ⟨(k.spot .nap).machine, .await (.future callback) (some ⟨k.scope, 1⟩)⟩) := by
      have hscope : (k.record (k.spot .nap) ops token .running).scope = k.scope := hk.scope
      have hregistered : (w.count k.fiber).instruct k.fiber (k.record (k.spot .nap) ops token .running)
          (k.spot .nap).machine (.async (Program.asleep k.span)) =
            ((w₁.register k.scope (.canceler (.dropTimer w.timers.nextId))).1, ⟨(k.spot .nap).machine,
              .await (.future callback) (w₁.register k.scope (.canceler (.dropTimer w.timers.nextId))).2⟩) := by
        simp only [World.instruct, hscope, Program.asleep, World.run, World.command, World.newFuture, hw₁, hcallback]
        rfl
      rw [hregistered, hregister]
    rw [hinstruct, hconclude]
    simp only [subscribe, watchFuture, hread₃]
    rw [hprivate.rest]
    rfl

/-! ## The way out -/

/-- A member gives its permit back. -/
theorem givesBack (hk : k.Sound budget) {timer : Nat} (h : k.Active (k.spot (.rising timer)) ops w)
    (hops : ops < budget) :
    ∃ w₁, k.Private w w₁ ∧
      w.advance k.fiber (k.spot (.rising timer)).machine =
        ⟨w₁.relinquish k.permits k.ticket, some (k.fiber, (k.spot .given).machine)⟩ ∧
      k.Active (k.spot .given) (ops + 1) w₁ := by
  obtain ⟨y, token, rfl, hget, hbudget, hadvance⟩ := h.advance hk.toSound (stays (.rising timer))
  have hcount := h.count
  set w₁ := w.count k.fiber with hw₁
  -- both finalizers are taken out of the scope, then the member is masked
  set insured : Scope (Finalizer σ) := k.nestAt { k.spot (.rising timer) with
    state := .opened [(0, k.refund)] [k.fiber] 2 } with hinsured
  set free : Scope (Finalizer σ) := k.nestAt (k.spot .given) with hfree
  have hrelease : (w₁.cancelFinalizer ⟨k.scope, 1⟩).1 = { w₁ with scopes := w₁.scopes.set k.scope insured } := by
    simp only [cancelFinalizer, takeFinalizer, hcount.scope_eq]
    rfl
  set w₂ : World σ := { w₁ with scopes := w₁.scopes.set k.scope insured } with hw₂
  have hget₂ : w₂.scopes.get? k.scope = some insured := Store.get?_set_of_some hcount.scope
  have hclaim : w₂.cancelFinalizer ⟨k.scope, 0⟩ = ({ w₂ with scopes := w₂.scopes.set k.scope free }, true) := by
    have hread : w₂.scope k.scope = insured := by rw [World.scope, hget₂, Option.getD_some]
    simp only [cancelFinalizer, takeFinalizer, hread]
    rfl
  set w₃ : World σ := { w₂ with scopes := w₂.scopes.set k.scope free } with hw₃
  have hactive₃ : k.Active { k.spot .given with masks := [] } (ops + 1) w₃ := by
    obtain ⟨token', hfiber⟩ := hcount.fiber
    exact ⟨⟨token', hfiber⟩, Store.get?_set_of_some hget₂⟩
  refine ⟨w₃.modifyFiber k.fiber fun fiber => { fiber with masks := fiber.masks.push false }, ?_, ?_,
    hactive₃.modify rfl fun token => ⟨token, rfl⟩⟩
  · have hcounted : k.Private w w₁ := Walker.private_modify w _
    have hfreed : k.Private w₁ w₃ := (Walker.private_setScope w₁ insured).trans (Walker.private_setScope w₂ free)
    exact (hcounted.trans hfreed).trans (Walker.private_modify w₃ _)
  · rw [hadvance, step_unwind (e := .success .unit) rfl (by rw [hbudget]; exact hops)]
    show conclude k.fiber (World.unwindValue k.fiber false .unit [.release ⟨k.scope, 1⟩, k.refundFrame] w₁) = _
    simp only [World.unwindValue, refundFrame, hrelease, claimFinalizer]
    rw [hclaim]
    rfl

/-- A member asks for the close of its scope, which leaves the arena. -/
theorem closes (hk : k.Sound budget) (h : k.Active (k.spot .close) ops w) (hops : ops < budget)
    (sc : Scope (Finalizer σ)) {fs : List (Nat × Finalizer σ)} {hooks : List (Key .fiber)} {next : Nat}
    (hsc : w.scopes.get? k.arena = some { sc with state := .opened fs hooks next }) :
    ∃ w', w.advance k.fiber (k.spot .close).machine = ⟨w', some (k.fiber, (k.spot (.door .asked)).machine)⟩ ∧
      k.Active (k.spot (.door .asked)) (ops + 1) w' ∧
      (∀ g, g ≠ k.fiber → w'.fibers.get? g = w.fibers.get? g) ∧
      (∀ s, s ≠ k.scope → s ≠ k.arena → w'.scopes.get? s = w.scopes.get? s) ∧
      w'.scopes.get? k.arena = some { sc with state := .opened (fs.filter (·.1 != k.ticket)) hooks next } ∧
      w' = { w with
        fibers := w'.fibers
        scopes := w'.scopes } := by
  obtain ⟨y, token, rfl, hget, hbudget, hadvance⟩ := h.advance hk.toSound (stays .close)
  have hcount := h.count
  obtain ⟨scopes, hrequest, hown, harena, hothers⟩ := hcount.requestClose (x := k.spot .close) rfl rfl hk.parent
    hk.apart hsc ending
  obtain ⟨token₁, hfiber₁⟩ := hcount.fiber
  have hclosing := Detour.scopeClosing_of_running (w := { w.count k.fiber with scopes }) hfiber₁ rfl
  have hactive : k.Active { k.spot .close with
      state := .closing ending (some [])
      parent := false } (ops + 1) { w.count k.fiber with scopes } := ⟨⟨token₁, hfiber₁⟩, hown⟩
  have hactive' : k.Active (k.spot (.door .asked)) (ops + 1) _ :=
    hactive.modify (g := fun fiber => { fiber with terminating := true }) rfl fun token => ⟨token, rfl⟩
  refine ⟨_, ?_, hactive', fun g hg => ?_, hothers, harena, rfl⟩
  · rw [hadvance, step_instruct (p := Program.closeScope k.scope ending) rfl (by rw [hbudget]; exact hops)]
    show conclude k.fiber (enter k.fiber _ ((w.count k.fiber).attend (.close k.scope ending))) = _
    simp only [attend, hrequest, List.foldl_cons, List.foldl_nil, hclosing]
    rfl
  · exact ((Walker.private_modify _ _).fibers g hg).trans ((Walker.private_modify w _).fibers g hg)

/-- A member ends. -/
theorem ends (hk : k.Sound budget) (h : k.Active (k.spot (.door .shut)) ops w) (hops : ops < budget) :
    w.advance k.fiber (k.spot (.door .shut)).machine = ⟨(w.count k.fiber).finishFiber k.fiber ending, none⟩ := by
  obtain ⟨y, token, rfl, hget, hbudget, hadvance⟩ := h.advance hk.toSound (stays (.door .shut))
  rw [hadvance, step_unwind (e := .success (.exit ending)) rfl (by rw [hbudget]; exact hops)]
  rfl

end Member

end Fibers.Rounds
