import Fibers.Proofs.Run.Above

set_option autoImplicit false

/-! # Masks

A region in which interruption is put off, or let in again, pushes a mask on the fiber and a frame
that takes it off. So a fiber wears as many masks as its stack has such frames, and one more when it
is on its way out (`Fits`). At the bottom every fiber lets interruption in, and a fiber that lets it
in has put nothing off: whenever the last mask that holds an interruption back comes off, the scope
of the fiber is asked to close on behalf of all that was put off (`Hears`).
-/

namespace Fibers

variable {σ : Type} {n : Nat}

/-! ## Counting masks -/

/-- Whether a frame takes a mask off. -/
def Waiting.unmasks : Waiting σ → Bool
  | .restore .interruptible => true
  | _ => false

/-- The number of masks that a stack takes off. -/
def masksOf (stack : List (Waiting σ)) : Nat := stack.countP Waiting.unmasks

theorem masksOf_cons (x : Waiting σ) (rest : List (Waiting σ)) :
    masksOf (x :: rest) = masksOf rest + if x.unmasks then 1 else 0 := List.countP_cons

/-- A frame that takes a mask off takes off one more than what is under it. -/
theorem masksOf_unmask (rest : List (Waiting σ)) (n : Nat) :
    masksOf (.restore .interruptible :: rest) + n = masksOf rest + n + 1 := by
  rw [masksOf_cons]
  exact Nat.add_right_comm _ _ _

/-- The number of masks that a machine takes off, with the one that it puts on for good when it leaves
its program. -/
def Machine.masks (m : Machine σ) : Nat := masksOf m.stack + if m.exiting then 1 else 0

/-- A fiber that wears `n` masks. With none it can be interrupted, and while it can it has put nothing
off. What it has put off stands in the order of the ids. -/
structure Fiber.Fits (y : Fiber σ) (n : Nat) : Prop where
  bottom : y.masks.bottom = true
  height : y.masks.pushed.length = n
  drained : y.interruptible = true → y.deferred = []
  ordered : y.deferred.Pairwise FiberId.Before

namespace Fiber

/-- A fiber without a mask can be interrupted. -/
theorem Fits.interruptible {y : Fiber σ} (h : y.Fits 0) : y.interruptible = true := by
  rw [Fiber.interruptible, Stack.top, List.length_eq_zero_iff.mp h.height]
  exact h.bottom

/-- A fiber that has put something off is masked. -/
theorem Fits.masked {y : Fiber σ} (h : y.Fits n) (hne : y.deferred ≠ []) :
    y.interruptible = false := by
  cases hopen : y.interruptible with
  | false => rfl
  | true => exact absurd (h.drained hopen) hne

/-- A fiber with the same masks that has put off the same. -/
theorem Fits.of_eq {y y' : Fiber σ} (h : y.Fits n) (hmasks : y'.masks = y.masks)
    (hdeferred : y'.deferred = y.deferred) : y'.Fits n := by
  have hopen : y'.interruptible = y.interruptible := congrArg Stack.top hmasks
  exact ⟨hmasks ▸ h.bottom, hmasks ▸ h.height, fun hi => hdeferred.trans (h.drained (hopen ▸ hi)),
    hdeferred ▸ h.ordered⟩

theorem pairwise_foldl (ids : List FiberId) {acc : List FiberId} (h : acc.Pairwise FiberId.Before) :
    (ids.foldl (fun acc id => id.insert acc) acc).Pairwise FiberId.Before := by
  induction ids generalizing acc with
  | nil => exact h
  | cons id rest ih => exact ih (FiberId.pairwise_insert h)

theorem mem_foldl_of_mem (ids : List FiberId) {acc : List FiberId} {id : FiberId} (h : id ∈ acc) :
    id ∈ ids.foldl (fun acc id => id.insert acc) acc := by
  induction ids generalizing acc with
  | nil => exact h
  | cons other rest ih => exact ih (FiberId.mem_insert.mpr (Or.inr h))

/-- What others do to a fiber takes back nothing that it has put off. -/
theorem Aside.mem_deferred {y y' : Fiber σ} (h : y.Aside y') {id : FiberId}
    (hid : id ∈ y.deferred) : id ∈ y'.deferred := by
  obtain ⟨ids, hids, -⟩ := h.deferred
  rw [hids]
  exact mem_foldl_of_mem ids hid

/-- What others do to a fiber leaves its masks alone. -/
theorem Fits.aside {y y' : Fiber σ} (h : y.Fits n) (ha : y.Aside y') : y'.Fits n := by
  have hopen : y'.interruptible = y.interruptible := congrArg Stack.top ha.masks
  obtain ⟨ids, hids, hmasked⟩ := ha.deferred
  refine ⟨ha.masks ▸ h.bottom, ha.masks ▸ h.height, fun hi => ?_, hids ▸ pairwise_foldl ids h.ordered⟩
  rw [hopen] at hi
  have hnil : ids = [] := by
    by_contra hne
    rw [hmasked hne] at hi
    cases hi
  rw [hids, hnil]
  exact h.drained hi

/-- One mask more. Interruption may be let in where nothing was put off. -/
theorem Fits.push {y : Fiber σ} (h : y.Fits n) {b : Bool} (hb : b = true → y.deferred = []) :
    ({ y with masks := y.masks.push b } : Fiber σ).Fits (n + 1) :=
  ⟨h.bottom, congrArg Nat.succ h.height, hb, h.ordered⟩

/-- One mask less. -/
theorem Fits.pop {y : Fiber σ} (h : y.Fits (n + 1))
    (hdrained : ({ y with masks := y.masks.pop } : Fiber σ).interruptible = true → y.deferred = []) :
    ({ y with masks := y.masks.pop } : Fiber σ).Fits n := by
  refine ⟨h.bottom, ?_, hdrained, h.ordered⟩
  have hheight := h.height
  show y.masks.pushed.tail.length = n
  rw [List.length_tail]
  omega

/-- Taking up what was put off. -/
theorem Fits.drain {y : Fiber σ} (h : y.Fits n) : ({ y with deferred := [] } : Fiber σ).Fits n :=
  ⟨h.bottom, h.height, fun _ => rfl, List.Pairwise.nil⟩

end Fiber

/-! ## Taking up what was put off -/

namespace World

/-- Whether a scope is open, before and after. -/
def SameOpen (w w' : World σ) : Prop := ∀ s, (w'.scope s).isOpen = (w.scope s).isOpen

theorem sameOpen_of_eq {w w' : World σ} (h : w'.scopes = w.scopes) : SameOpen w w' := fun s => by
  rw [scope, scope, h]

/-- A scope that is asked to close tells the fiber that it is the scope of, and does nothing else
to it. -/
theorem get?_requestClose {w : World σ} (hw : w.Hooked) {f : Key .fiber} {x : Fiber σ}
    (hx : w.fibers.get? f = some x) (e : AnyExit) :
    (w.requestClose x.scope e).1.fibers.get? f = some { x with terminating := true } := by
  have hgrows : Grows none w (w.requestClose x.scope e).1 := grows_requestClose w x.scope e
  obtain ⟨x', hx', hlater, -⟩ := hgrows.fibers f x hx
  obtain ⟨x₀, hx₀, heq⟩ := (parts_requestClose w x.scope e).2.2 f x' hx'
  obtain rfl : x₀ = x := Option.some.inj (hx₀.symm.trans hx)
  have hterm : x'.terminating = true := by
    cases hbefore : x₀.terminating with
    | true => exact hlater.terminating hbefore
    | false =>
        -- the scope of a fiber that was not told is open, so this request closes it
        obtain ⟨sc, fs, hooks, n, hsc, hstate, -⟩ := hw f x₀ hx id hbefore
        refine (hooked_requestClose hw x₀.scope e).terminating hx' ?_
        rw [hlater.scope]
        obtain ⟨sc', hsc', -⟩ := hgrows.scopes x₀.scope sc hsc
        refine ⟨sc', hsc', ?_⟩
        have hrequest : ∃ c, (w.scope x₀.scope).requestClose? e = some c := by
          rw [scope_of_get hsc, Scope.requestClose?, hstate]
          exact ⟨_, rfl⟩
        obtain ⟨⟨sc₁, c⟩, hc⟩ := hrequest
        obtain ⟨_, _, _, _, _, _, hstatus⟩ := requestClose_of_some hc
        rw [status, hsc', Option.map_some] at hstatus
        injection hstatus with hstatus
        injection hstatus with hstatus
        rw [Scope.isOpen, hstatus]
  rw [hx', heq, hterm]

/-- An open scope that is asked to close is closing with that exit. -/
theorem state_requestClose {w : World σ} {s : Key .scope} (hopen : (w.scope s).isOpen = true)
    (e : AnyExit) : ∃ fins, ((w.requestClose s e).1.scope s).state = .closing e (some fins) := by
  cases hrequest : (w.scope s).requestClose? e with
  | none =>
      rw [((w.scope s).requestClose?_eq_none_iff e).mp hrequest] at hopen
      cases hopen
  | some closing =>
      obtain ⟨sc, c⟩ := closing
      obtain ⟨_, fins, _, _, _, _, hstatus⟩ := requestClose_of_some hrequest
      obtain ⟨sc', hsc', heq⟩ := Option.map_eq_some_iff.mp hstatus
      injection heq with hstate
      exact ⟨fins, by rw [scope_of_get hsc', hstate]⟩

/-- A fiber that can be interrupted has its scope closed on behalf of what it has put off, and knows
it. -/
theorem applyDeferred_cases {w : World σ} (hw : w.Hooked) {f : Key .fiber} {y : Fiber σ}
    (hy : w.fibers.get? f = some y) :
    (y.interruptible = true → y.deferred = []) ∧ w.applyDeferred f = w ∨
      y.interruptible = true ∧ ∃ cause, Cause.interrupts? y.deferred = some cause ∧
        (w.applyDeferred f).fibers.get? f = some { y with deferred := [], terminating := true } ∧
        ((w.scope y.scope).isOpen = true → ∃ fins,
          ((w.applyDeferred f).scope y.scope).state = .closing (.failure cause) (some fins)) := by
  simp only [applyDeferred, hy]
  cases hopen : y.interruptible with
  | false => exact Or.inl ⟨nofun, rfl⟩
  | true =>
      cases hdeferred : y.deferred with
      | nil => exact Or.inl ⟨fun _ => rfl, rfl⟩
      | cons id rest =>
          right
          simp only [Cause.interrupts?, if_pos, modifyFiber, Store.modify_eq_set _ hy]
          have hset : (w.fibers.set f { y with deferred := [] }).get? f =
              some { y with deferred := [] } := Store.get?_set_of_some hy
          have hhooked : Hooked { w with fibers := w.fibers.set f { y with deferred := [] } } :=
            hooked_set_fiber hw hy rfl rfl
          exact ⟨trivial, _, rfl, get?_requestClose hhooked hset _, fun h => state_requestClose
            (w := { w with fibers := w.fibers.set f { y with deferred := [] } }) h _⟩

/-- What becomes, in the course of a step, of the interruptions that a fiber has put off: it stays
masked and keeps them, or interruption is let in and its scope, if that is open, is asked to close on
behalf of all of them. -/
inductive Hears (f : Key .fiber) (y : Fiber σ) (w w' : World σ) : Prop
  | keeps {y' : Fiber σ} : w'.fibers.get? f = some y' → y'.interruptible = false →
      (∀ id ∈ y.deferred, id ∈ y'.deferred) → Hears f y w w'
  | acts {y' : Fiber σ} {cause : AnyCause} : w'.fibers.get? f = some y' → y'.interruptible = true →
      y'.terminating = true → Cause.interrupts? y.deferred = some cause →
      ((w.scope y.scope).isOpen = true →
        ∃ fins, (w'.scope y.scope).state = .closing (.failure cause) (some fins)) →
      Hears f y w w'

/-- Popping a mask. If that lets interruption in where something was put off, the fiber has to leave
its program. -/
theorem restore_mask {w : World σ} (hw : w.Hooked) {f : Key .fiber} {y : Fiber σ}
    (hy : w.fibers.get? f = some y) (hfits : y.Fits (n + 1)) :
    (∃ z : Fiber σ, z = { y with masks := y.masks.pop } ∧ z.Fits n ∧
      w.restore f .interruptible = ({ w with fibers := w.fibers.set f z }, z.mustLeave)) ∨
      ∃ w' z, w.restore f .interruptible = (w', true) ∧ w'.fibers.get? f = some z ∧ z.Fits n ∧
        z.ops = y.ops ∧ Hears f y w w' := by
  set z : Fiber σ := { y with masks := y.masks.pop } with hz
  have hmodify : w.modifyFiber f (·.restore .interruptible) =
      { w with fibers := w.fibers.set f z } := by
    rw [modifyFiber, Store.modify_eq_set _ hy]
    rfl
  have hget : (w.fibers.set f z).get? f = some z := Store.get?_set_of_some hy
  have hhooked : Hooked { w with fibers := w.fibers.set f z } := hooked_set_fiber hw hy rfl rfl
  simp only [restore, hmodify]
  rcases applyDeferred_cases hhooked hget with ⟨hdrained, hsame⟩ | ⟨hopen, cause, hcause, hafter, hstate⟩
  · refine Or.inl ⟨z, rfl, hfits.pop hdrained, ?_⟩
    simp only [hsame, mustLeave, hget, Option.map_some, Option.getD_some]
  · refine Or.inr ⟨_, { z with deferred := [], terminating := true }, ?_, hafter, ?_, rfl, ?_⟩
    · simp only [mustLeave, hafter, Option.map_some, Option.getD_some]
      exact congrArg _ hopen
    · exact (hfits.drain.pop fun _ => rfl).of_eq rfl rfl
    · exact .acts hafter hopen rfl hcause hstate

/-- Popping a stack of another kind lets nothing in, and goes on. -/
theorem restore_other {w : World σ} {f : Key .fiber} {y : Fiber σ} (hy : w.fibers.get? f = some y)
    {r : Restore} (hr : r ≠ .interruptible) :
    ∃ z : Fiber σ, w.restore f r = ({ w with fibers := w.fibers.set f z }, false) ∧
      z.masks = y.masks ∧ z.deferred = y.deferred ∧ z.ops = y.ops ∧ z.scope = y.scope ∧
      z.terminating = y.terminating := by
  refine ⟨y.restore r, ?_⟩
  have hmodify : w.modifyFiber f (·.restore r) = { w with fibers := w.fibers.set f (y.restore r) } := by
    rw [modifyFiber, Store.modify_eq_set _ hy]
  rw [← hmodify]
  cases r with
  | interruptible => exact absurd rfl hr
  | semaphore => exact ⟨rfl, rfl, rfl, rfl, rfl, rfl⟩
  | services => exact ⟨rfl, rfl, rfl, rfl, rfl, rfl⟩
  | label => exact ⟨rfl, rfl, rfl, rfl, rfl, rfl⟩

/-! ## Down the stack -/

/-- What a fiber keeps on the way down its stack. -/
structure Descends (f : Key .fiber) (y : Fiber σ) (w w' : World σ) (n : Nat) : Prop where
  hooked : w'.Hooked
  fiber : ∃ y', w'.fibers.get? f = some y' ∧ y'.Fits n ∧ y'.ops = y.ops ∧ y'.scope = y.scope ∧
    y'.deferred = y.deferred
  opened : SameOpen w w'

theorem sameOpen_takeFinalizer (w : World σ) (h : Handle) : SameOpen w (w.takeFinalizer h).1 := by
  intro s
  unfold takeFinalizer
  split
  · rename_i sc fin heq
    obtain ⟨fs, hooks, n, hstate, hsc⟩ : ∃ fs hooks n, (w.scope h.scope).state = .opened fs hooks n ∧
        sc.isOpen = true := by
      unfold Scope.take? at heq
      split at heq
      · rename_i fs hooks n hstate
        obtain ⟨x, -, hx⟩ := Option.map_eq_some_iff.mp heq
        cases hx
        exact ⟨fs, hooks, n, hstate, rfl⟩
      · cases heq
    simp only [scope, Store.get?_set]
    split
    · rename_i hs
      subst hs
      have hget := get_of_opened hstate
      rw [hget, Option.map_some, Option.getD_some, Option.getD_some, hsc, Scope.isOpen, hstate]
    · rfl
  · rfl

theorem Descends.refl {f : Key .fiber} {y : Fiber σ} {w : World σ} (hw : w.Hooked)
    (hy : w.fibers.get? f = some y) (hfits : y.Fits n) : Descends f y w w n :=
  ⟨hw, ⟨y, hy, hfits, rfl, rfl, rfl⟩, fun _ => rfl⟩

/-- A frame more to go past. -/
theorem Descends.after {f : Key .fiber} {y y₁ : Fiber σ} {w w₁ w' : World σ}
    (h : Descends f y₁ w₁ w' n) (hops : y₁.ops = y.ops) (hscope : y₁.scope = y.scope)
    (hdeferred : y₁.deferred = y.deferred) (hopen : SameOpen w w₁) : Descends f y w w' n := by
  obtain ⟨y', hy', hfits, hops', hscope', hdeferred'⟩ := h.fiber
  exact ⟨h.hooked, ⟨y', hy', hfits, hops'.trans hops, hscope'.trans hscope,
    hdeferred'.trans hdeferred⟩, fun s => (h.opened s).trans (hopen s)⟩

/-- On the way down the masks come off with their frames, and nothing that was put off is taken up:
a frame that would do so is not passed. -/
theorem descends (f : Key .fiber) (failed : Bool) (stack : List (Waiting σ)) {w : World σ}
    {y : Fiber σ} (hw : w.Hooked) (hy : w.fibers.get? f = some y)
    (hfits : y.Fits (masksOf stack + n)) :
    Descends f y w (descend f failed stack w).1 (masksOf (descend f failed stack w).2 + n) := by
  induction stack generalizing w y with
  | nil => exact .refl hw hy hfits
  | cons x rest ih =>
      cases x with
      | map k =>
          cases failed with
          | true => exact ih hw hy hfits
          | false => exact .refl hw hy hfits
      | fold h k => exact .refl hw hy hfits
      | resumeWith saved => exact .refl hw hy hfits
      | release h =>
          have hfibers := fibers_takeFinalizer w h
          exact (ih (hooked_takeFinalizer hw h) (hfibers ▸ hy) hfits).after rfl rfl rfl
            (sameOpen_takeFinalizer w h)
      | finalizer ho fin =>
          cases ho with
          | none => exact .refl hw hy hfits
          | some h =>
              rcases hc : w.claimFinalizer (some h) with ⟨w', won⟩
              have hw' : w' = (w.takeFinalizer h).1 := (congrArg Prod.fst hc).symm
              simp only [descend, hc]
              cases won with
              | true => exact .refl hw hy hfits
              | false =>
                  rw [hw']
                  have hfibers := fibers_takeFinalizer w h
                  exact (ih (hooked_takeFinalizer hw h) (hfibers ▸ hy) hfits).after rfl rfl rfl
                    (sameOpen_takeFinalizer w h)
      | restore r =>
          by_cases hr : r = .interruptible
          · subst hr
            rcases restore_mask hw hy (masksOf_unmask rest n ▸ hfits) with
              ⟨z, hz, hbelow, heq⟩ | ⟨w', z, heq, -⟩
            · simp only [descend, heq]
              cases z.mustLeave with
              | true => exact .refl hw hy hfits
              | false =>
                  have hget : (w.fibers.set f z).get? f = some z := Store.get?_set_of_some hy
                  have hhooked : Hooked { w with fibers := w.fibers.set f z } :=
                    hooked_set_fiber hw hy (by rw [hz]) (by rw [hz])
                  exact (ih hhooked hget hbelow).after (by rw [hz]) (by rw [hz]) (by rw [hz])
                    (sameOpen_of_eq rfl)
            · -- the scope is asked to close, and the descent stops above the frame
              simp only [descend, heq]
              exact .refl hw hy hfits
          · obtain ⟨z, heq, hmasks, hdeferred, hops, hscope, hterm⟩ := restore_other hy hr
            have hbelow : masksOf (.restore r :: rest) = masksOf rest := by
              cases r with
              | interruptible => exact absurd rfl hr
              | semaphore => rfl
              | services => rfl
              | label => rfl
            rw [hbelow] at hfits
            simp only [descend, heq]
            exact (ih (hooked_set_fiber hw hy hscope hterm) (Store.get?_set_of_some hy)
              (hfits.of_eq hmasks hdeferred)).after hops hscope hdeferred (sameOpen_of_eq rfl)

/-! ## One step -/

/-- What a step leaves of the masks of its fiber: it wears as many as the machine takes off, and it
has kept or taken up what it had put off. -/
structure Treads (f : Key .fiber) (y : Fiber σ) (w : World σ) (n : Nat)
    (stepped : World σ × Stepped σ) : Prop where
  fiber : ∃ y', stepped.1.fibers.get? f = some y' ∧ y'.ops = y.ops ∧
    y'.Fits (masksOf stepped.2.machine.stack + n)
  hears : y.deferred ≠ [] → Hears f y w stepped.1

theorem Hears.after {f : Key .fiber} {y y₁ : Fiber σ} {w w₁ w' : World σ} (h : Hears f y₁ w₁ w')
    (hscope : y₁.scope = y.scope) (hdeferred : y₁.deferred = y.deferred) (hopen : SameOpen w w₁) :
    Hears f y w w' := by
  cases h with
  | keeps hy' hmasked hids => exact .keeps hy' hmasked (hdeferred ▸ hids)
  | acts hy' hlets hterm hcause hstate =>
      refine .acts hy' hlets hterm (hdeferred ▸ hcause) fun h => ?_
      rw [← hscope] at h ⊢
      exact hstate ((hopen _).trans h)

theorem Treads.after {f : Key .fiber} {y y₁ : Fiber σ} {w w₁ : World σ}
    {stepped : World σ × Stepped σ} (h : Treads f y₁ w₁ n stepped) (hops : y₁.ops = y.ops)
    (hscope : y₁.scope = y.scope) (hdeferred : y₁.deferred = y.deferred) (hopen : SameOpen w w₁) :
    Treads f y w n stepped := by
  obtain ⟨y', hy', hops', hfits⟩ := h.fiber
  exact ⟨⟨y', hy', hops'.trans hops, hfits⟩,
    fun hne => (h.hears (hdeferred ▸ hne)).after hscope hdeferred hopen⟩

/-- A step that does nothing to its fiber that anybody else could not do. -/
theorem treads_of_grows {f : Key .fiber} {y : Fiber σ} {w : World σ}
    {stepped : World σ × Stepped σ} (hgrows : Grows none w stepped.1)
    (hy : w.fibers.get? f = some y) (hfits : y.Fits (masksOf stepped.2.machine.stack + n)) :
    Treads f y w n stepped := by
  obtain ⟨y', hy', -, haside⟩ := hgrows.fibers f y hy
  have hstays := haside nofun
  refine ⟨⟨y', hy', hstays.ops, hfits.aside hstays⟩,
    fun hne => .keeps hy' ?_ fun _ => hstays.mem_deferred⟩
  rw [Fiber.interruptible, hstays.masks]
  exact hfits.masked hne

/-- Going on with what a call gave back. -/
theorem treads_enter {f : Key .fiber} {y : Fiber σ} {w : World σ} {m : Machine σ}
    {called : World σ × Except Defect (Program σ)} (hgrows : Grows none w called.1)
    (hy : w.fibers.get? f = some y) (hfits : y.Fits (masksOf m.stack + n)) :
    Treads f y w n (enter f m called) := by
  exact treads_of_grows (world_enter f m called ▸ hgrows) hy (stack_enter f m called ▸ hfits)

/-- Running a finalizer puts on a mask. -/
theorem treads_enterFinalizer {L : Licence} {f : Key .fiber} {y : Fiber σ} {w : World σ}
    {m : Machine σ} {fin : Finalizer σ} (hfin : fin.Licensed L) (e : AnyExit)
    (hy : w.fibers.get? f = some y) (hfits : y.Fits (masksOf m.stack + n)) :
    Treads f y w n (w.enterFinalizer f m fin e) := by
  set z : Fiber σ := { y with masks := y.masks.push false } with hz
  have hget : (w.fibers.set f z).get? f = some z := Store.get?_set_of_some hy
  have hstack : z.Fits (masksOf (.restore .interruptible :: .resumeWith e :: m.stack) + n) := by
    rw [masksOf_unmask]
    exact hfits.push nofun
  simp only [enterFinalizer, modifyFiber, Store.modify_eq_set _ hy]
  have henter : Treads f z { w with fibers := w.fibers.set f z } n (enter f
      { m with stack := .restore .interruptible :: .resumeWith e :: m.stack }
      (finalizeWith { w with fibers := w.fibers.set f z } fin e)) :=
    treads_enter (sound_finalizeWith hfin e _).changes.grows hget hstack
  exact henter.after rfl rfl rfl (sameOpen_of_eq rfl)

/-- A frame that takes a mask off, and that an exit does not pass: the fiber has to leave its program. -/
theorem treads_unmask {f : Key .fiber} {rest : List (Waiting σ)} {w w' : World σ} {y : Fiber σ}
    (hw : w.Hooked) (hy : w.fibers.get? f = some y)
    (hfits : y.Fits (masksOf (.restore .interruptible :: rest) + n))
    (hleaves : w.restore f .interruptible = (w', true)) (control : Control σ) (exiting : Bool) :
    Treads f y w n (w', { machine := ⟨control, rest, exiting⟩ }) := by
  rcases restore_mask hw hy (masksOf_unmask rest n ▸ hfits) with
    ⟨z, hz, hbelow, heq⟩ | ⟨w'', z, heq, hget, hbelow, hops, hhears⟩
  · -- with nothing put off the mask just comes off
    obtain ⟨rfl, hleave⟩ := Prod.mk.inj (hleaves.symm.trans heq)
    refine ⟨⟨z, Store.get?_set_of_some hy, by rw [hz], hbelow⟩, fun hne => absurd ?_ hne⟩
    have hsame : y.deferred = z.deferred := by rw [hz]
    rw [hsame]
    exact hbelow.drained (Bool.and_eq_true_iff.mp hleave.symm).2
  · obtain ⟨rfl, -⟩ := Prod.mk.inj (hleaves.symm.trans heq)
    exact ⟨⟨z, hget, hops, hbelow⟩, fun _ => hhears⟩

/-- What the first frame of a stack does with an exit that does not pass it. -/
theorem treads_unwind_cons {L : Licence} {f : Key .fiber} {e : AnyExit} {x : Waiting σ}
    {rest : List (Waiting σ)} {w : World σ} {y : Fiber σ} (hx : x.Licensed L)
    (hstop : descend f e.isFailure (x :: rest) w = (w, x :: rest)) (exiting : Bool)
    (hw : w.Hooked) (hy : w.fibers.get? f = some y) (hfits : y.Fits (masksOf (x :: rest) + n)) :
    Treads f y w n (unwind f exiting e (x :: rest) w) := by
  have hpassed : ∀ w', descend f e.isFailure rest w' ≠ (w, x :: rest) := fun w' =>
    descend_ne_cons f _ x rest w' w
  cases x with
  | map k =>
      cases e with
      | success v => exact treads_enter (sound_proceedWith hx v w).changes.grows hy hfits
      | failure c => exact absurd hstop (hpassed w)
  | fold h k =>
      cases e with
      | success v => exact treads_enter (sound_proceedWith hx.2 v w).changes.grows hy hfits
      | failure c => exact treads_enter (sound_recoverWith hx.1 c w).changes.grows hy hfits
  | restore r =>
      rcases hr : w.restore f r with ⟨w', left⟩
      cases left with
      | false =>
          simp only [descend, hr] at hstop
          exact absurd hstop (hpassed w')
      | true =>
          have hstep : unwind f exiting e (.restore r :: rest) w =
              (w', { machine := { control := .ofExit e, stack := rest, exiting } }) := by
            cases e with
            | success v => simp only [unwind, unwindValue, hr, Control.ofExit]
            | failure c => simp only [unwind, unwindFailure, hr, Control.ofExit]
          rw [hstep]
          obtain rfl : r = .interruptible := by
            by_contra hne
            obtain ⟨z, heq, -⟩ := restore_other hy hne
            rw [heq] at hr
            cases hr
          exact treads_unmask hw hy hfits hr (.ofExit e) exiting
  | release h => exact absurd hstop (hpassed _)
  | finalizer ho fin =>
      obtain ⟨w', hc, hstep⟩ := unwind_finalizer hstop exiting
      rw [hstep]
      have hsame : w'.fibers = w.fibers ∧ SameOpen w w' := by
        cases ho with
        | none =>
            cases hc
            exact ⟨rfl, fun _ => rfl⟩
        | some h =>
            obtain rfl : (w.takeFinalizer h).1 = w' := congrArg Prod.fst hc
            exact ⟨fibers_takeFinalizer w h, sameOpen_takeFinalizer w h⟩
      -- the frame runs its finalizer, behind a mask of its own
      have htreads : Treads f y w' n
          (w'.enterFinalizer f { control := .ofExit e, stack := rest, exiting } fin e) :=
        treads_enterFinalizer hx.2 e (hsame.1 ▸ hy) hfits
      exact htreads.after rfl rfl rfl hsame.2
  | resumeWith saved =>
      cases e with
      | success v => exact treads_of_grows (.refl w) hy hfits
      | failure c => exact treads_of_grows (.refl w) hy hfits

/-- An exit that goes down the stack. -/
theorem treads_unwind {L : Licence} {f : Key .fiber} {e : AnyExit} {stack : List (Waiting σ)}
    {w : World σ} {y : Fiber σ} (hstack : ∀ x ∈ stack, x.Licensed L) (exiting : Bool)
    (hw : w.Hooked) (hy : w.fibers.get? f = some y) (hfits : y.Fits (masksOf stack + n)) :
    Treads f y w n (unwind f exiting e stack w) := by
  have hdown := descends f e.isFailure stack hw hy hfits
  have hsuffix := descend_suffix f e.isFailure stack w
  have hstop := descend_descend f e.isFailure stack w
  rw [unwind_descend]
  rcases hpass : descend f e.isFailure stack w with ⟨w', st⟩
  rw [hpass] at hdown hsuffix hstop
  obtain ⟨y', hy', hfits', hops, hscope, hdeferred⟩ := hdown.fiber
  refine Treads.after ?_ hops hscope hdeferred hdown.opened
  cases st with
  | nil =>
      have hend : (unwind f exiting e [] w').1 = w' ∧
          (unwind f exiting e [] w').2.machine.stack = [] := by
        cases exiting with
        | true => cases e <;> exact ⟨rfl, rfl⟩
        | false => cases e <;> exact ⟨rfl, rfl⟩
      refine treads_of_grows ?_ hy' ?_
      · rw [hend.1]
        exact .refl w'
      · rw [hend.2]
        exact hfits'
  | cons x rest =>
      exact treads_unwind_cons (hstack x (hsuffix.subset List.mem_cons_self)) hstop exiting
        hdown.hooked hy' hfits'

/-- An instruction that is no region pushes no frame that takes a mask off. -/
theorem masksOf_instruct (w : World σ) (f : Key .fiber) (fiber : Fiber σ) (m : Machine σ)
    {p : Program σ} (hp : p.isRegion = false) :
    masksOf (w.instruct f fiber m p).2.machine.stack = masksOf m.stack := by
  have henter : ∀ called, masksOf (enter f m called).2.machine.stack = masksOf m.stack :=
    fun called => by rw [stack_enter f m called]
  cases p with
  | provide => cases hp
  | mask => cases hp
  | withConcurrency => cases hp
  | addFrame => cases hp
  | lazy thunk =>
      simp only [instruct]
      split
      · rfl
      · exact henter _
  | async reg =>
      simp only [instruct]
      split
      · rfl
      · rfl
      · rfl
      · exact henter _
  | fork p params =>
      simp only [instruct]
      split
      · rfl
      · exact henter _
  | raceAll ps =>
      cases ps with
      | nil => rfl
      | cons p rest => exact henter _
  | zipAll ps =>
      cases ps with
      | nil => rfl
      | cons p rest => exact henter _
  | defer make => exact henter _
  | access g => exact henter _
  | duty d => exact henter _
  | succeed | failCause | flatMap | fold | ensuring | fiberContext | fiberScope | fiberTrace | join
  | wait | yieldNow => rfl

/-- A region of another kind than a mask. -/
theorem treads_region {f : Key .fiber} {y z : Fiber σ} {w : World σ} {m : Machine σ} {r : Restore}
    {p : Program σ} (hr : (.restore r : Waiting σ).unmasks = false) (hy : w.fibers.get? f = some y)
    (hfits : y.Fits (masksOf m.stack + n)) (hmasks : z.masks = y.masks)
    (hdeferred : z.deferred = y.deferred) (hops : z.ops = y.ops) (hscope : z.scope = y.scope) :
    Treads f y w n ({ w with fibers := w.fibers.set f z },
      { machine := { m with control := .instruct p, stack := .restore r :: m.stack } }) := by
  have hget : (w.fibers.set f z).get? f = some z := Store.get?_set_of_some hy
  have hstack : z.Fits (masksOf (.restore r :: m.stack) + n) := by
    rw [masksOf_cons, hr]
    exact hfits.of_eq hmasks hdeferred
  have htreads : Treads f z { w with fibers := w.fibers.set f z } n
      ({ w with fibers := w.fibers.set f z },
        { machine := { m with control := .instruct p, stack := .restore r :: m.stack } }) :=
    treads_of_grows (.refl _) hget hstack
  exact htreads.after hops hscope hdeferred (sameOpen_of_eq rfl)

/-- A mask that is put on, or one that lets interruption in. -/
theorem treads_mask {f : Key .fiber} {fiber y : Fiber σ} {w : World σ} {m : Machine σ} (hw : w.Hooked)
    (hy : w.fibers.get? f = some y) (hfits : y.Fits (masksOf m.stack + n)) (p : Program σ)
    (interruptible : Bool) : Treads f y w n (w.instruct f fiber m (.mask p interruptible)) := by
  set z : Fiber σ := { y with masks := y.masks.push interruptible } with hz
  set w₁ : World σ := { w with fibers := w.fibers.set f z } with hw₁
  have hget : w₁.fibers.get? f = some z := Store.get?_set_of_some hy
  have hhooked : w₁.Hooked := hooked_set_fiber hw hy rfl rfl
  have hentered : (interruptible = true → y.deferred = []) → Treads f z w₁ n (w₁, { machine :=
      { m with control := .instruct p, stack := .restore .interruptible :: m.stack } }) := fun h =>
    treads_of_grows (.refl w₁) hget (masksOf_unmask m.stack n ▸ hfits.push h)
  simp only [instruct, modifyFiber, Store.modify_eq_set _ hy]
  cases interruptible with
  | false => exact (hentered fun h => by cases h).after rfl rfl rfl (sameOpen_of_eq rfl)
  | true =>
      rw [if_pos rfl]
      rcases applyDeferred_cases hhooked hget with
        ⟨hdrained, hsame⟩ | ⟨hopen, cause, hcause, hafter, hstate⟩
      · rw [hsame]
        exact (hentered fun _ => hdrained rfl).after rfl rfl rfl (sameOpen_of_eq rfl)
      · refine ⟨⟨_, hafter, rfl, ?_⟩, fun _ => .acts hafter hopen rfl hcause hstate⟩
        rw [masksOf_unmask]
        exact (hfits.drain.push fun _ => rfl).of_eq rfl rfl

/-- The instruction at the root of a program. -/
theorem treads_instruct {L : Licence} {f : Key .fiber} {fiber : Fiber σ} {m : Machine σ}
    {p : Program σ} {w : World σ} {y : Fiber σ} (hp : p.Licensed L) (hcontrol : m.control.Licensed L)
    (hstay : ∀ e, m.control ≠ .leave e) (hlicensed : w.Licensed L) (hhold : ∀ h, L.hold h)
    (hclaims : ∀ s, p = .duty (.finish s) → ClaimLicensed L w s) (hw : w.Hooked)
    (hy : w.fibers.get? f = some y) (hfits : y.Fits (masksOf m.stack + n)) :
    Treads f y w n (w.instruct f fiber m p) := by
  cases hregion : p.isRegion with
  | false =>
      -- no region: the step does nothing to the fiber that only the fiber itself could do
      have hsound : StepSound L none w m.exiting m.stack (w.instruct f fiber m p) :=
        stepSound_instruct (fun h => by rw [hregion] at h; cases h) hp hcontrol hstay hlicensed.finalizers
          hclaims
          fun h _ _ => hhold h
      exact treads_of_grows hsound.changes.grows hy (masksOf_instruct w f fiber m hregion ▸ hfits)
  | true =>
      cases p with
      | provide p s =>
          simp only [instruct, modifyFiber, Store.modify_eq_set _ hy]
          exact treads_region rfl hy hfits rfl rfl rfl rfl
      | addFrame p frame =>
          simp only [instruct, modifyFiber, Store.modify_eq_set _ hy]
          exact treads_region rfl hy hfits rfl rfl rfl rfl
      | withConcurrency p level =>
          have hnew : (w.newSemaphore level).1.fibers.get? f = some y := hy
          have hregion : Treads f y (w.newSemaphore level).1 n
              (w.instruct f fiber m (.withConcurrency p level)) := by
            simp only [instruct, modifyFiber, Store.modify_eq_set _ hnew]
            exact treads_region rfl hnew hfits rfl rfl rfl rfl
          exact hregion.after rfl rfl rfl (sameOpen_of_eq rfl)
      | mask p interruptible => exact treads_mask hw hy hfits p interruptible
      | _ => cases hregion

/-- What becomes of the masks of a fiber in a step in which it works. -/
theorem treads_step {w : World σ} {f : Key .fiber} {y : Fiber σ} {m : Machine σ}
    (hx : Moment.Lawful ⟨w, some (f, m)⟩) (hworks : Moment.Works ⟨w, some (f, m)⟩ f y m)
    (hfits : y.Fits m.masks) :
    (w.step f y m).2.machine.exiting = m.exiting ∧
      (∃ y', (w.step f y m).1.fibers.get? f = some y' ∧ y'.ops = y.ops + 1 ∧
        y'.Fits (w.step f y m).2.machine.masks) ∧
      (y.deferred ≠ [] → Hears f y w (w.step f y m).1) := by
  -- which handles the frames hold makes no difference here
  set L : Licence := { w.law with hold := fun _ => True } with hL
  have hle : w.law ≤ L := ⟨fun _ h => h, fun _ h => h, fun _ _ => trivial, id⟩
  have hm : m.Licensed L := (hx.licensed.active f m rfl id).mono hle
  have hcount : Changes L (some f) w (w.count f) := changes_own rfl fun x => rfl
  have hlicensed : (w.count f).Licensed L :=
    hcount.licensed (fun _ _ _ => trivial) (hx.licensed.world.mono hle fun _ h => h)
  have hhooked : (w.count f).Hooked := hcount.hooked (fun _ h => h) hx.hooked
  have hget := get?_count hworks.fiber
  have hfits' : ({ y with ops := y.ops + 1 } : Fiber σ).Fits
      (masksOf m.stack + if m.exiting then 1 else 0) := hfits.of_eq rfl rfl
  obtain ⟨hexiting, htreads⟩ : (w.step f y m).2.machine.exiting = m.exiting ∧
      Treads f { y with ops := y.ops + 1 } (w.count f) (if m.exiting then 1 else 0)
        (w.step f y m) := by
    rcases hworks.work with ⟨p, hp⟩ | ⟨e, he⟩
    · have hpl : p.Licensed L := by
        have hcontrol := hm.control
        rw [hp] at hcontrol
        exact hcontrol
      have hstay : ∀ e, m.control ≠ .leave e := fun e => by rw [hp]; exact nofun
      rw [step_instruct hp hworks.budget]
      have hsound : StepSound L (some f) (w.count f) m.exiting m.stack ((w.count f).instruct f y m p) :=
        stepSound_instruct (fun _ => rfl) hpl hm.control hstay hlicensed.finalizers
          (fun s _ => claimLicensed_law w s) fun _ _ _ => trivial
      exact ⟨hsound.exiting, treads_instruct hpl hm.control hstay hlicensed (fun _ => trivial)
        (fun s _ => claimLicensed_law w s) hhooked hget hfits'⟩
    · rw [step_unwind he hworks.budget]
      exact ⟨(stepSound_unwind hm.stack (w.count f)).exiting,
        treads_unwind hm.stack m.exiting hhooked hget hfits'⟩
  obtain ⟨y', hy', hops, hafter⟩ := htreads.fiber
  refine ⟨hexiting, ⟨y', hy', hops, ?_⟩, fun hne => ?_⟩
  · rw [Machine.masks, hexiting]
    exact hafter
  · exact (htreads.hears hne).after rfl rfl (sameOpen_of_eq rfl)

end World

end Fibers
