import Fibers.Proofs.Detour.Birth
import Fibers.Proofs.Rounds.Agenda
import Fibers.Proofs.Rounds.Deeds

set_option autoImplicit false

/-! # The members are mustered

A fiber that zips opens an arena and starts its members in it, one after the other. Each member is new, has a
scope of its own in the arena and references of its own, and its first turn is put into the queue behind those
of the members before it (`Muster`). What was there before is left as it is.
-/

namespace Fibers.Rounds

open World Direct

variable {σ : Type} {w w' w₀ : World σ} {f : Key .fiber} {p : Program σ}

/-! ## A scope within a scope -/

/-- A scope that is opened within an open one. -/
theorem forkScope_within {s : Key .scope} {sc : Scope (Finalizer σ)} {fs : List (Nat × Finalizer σ)}
    {hooks : List (Key .fiber)} {next : Nat} (owner : FiberId)
    (hsc : w.scopes.get? s = some { sc with state := .opened fs hooks next }) :
    ∃ scopes child, w.forkScope s owner = ({ w with scopes }, child) ∧ w.scopes.get? child = none ∧
      scopes.get? child = some { Scope.new owner sc.strategy with parent := some ⟨s, next⟩ } ∧
      scopes.get? s = some { sc with state := .opened (fs ++ [(next, .closeChild child sc.owner)]) hooks (next + 1) } ∧
      ∀ u, u ≠ s → u ≠ child → scopes.get? u = w.scopes.get? u := by
  set added : Store .scope (Scope (Finalizer σ)) := (w.scopes.add (.new owner sc.strategy)).1 with hadded
  set child : Key .scope := (w.scopes.add (.new owner sc.strategy)).2 with hchild
  have hnone : w.scopes.get? child = none := Store.get?_next _ _
  have hne : child ≠ s := by
    rintro heq
    rw [heq, hsc] at hnone
    cases hnone
  have hsc' : added.get? s = some { sc with state := .opened fs hooks next } := Store.get?_add_of_some _ hsc
  have hnew : added.get? child = some (.new owner sc.strategy) := by
    rw [hadded, Store.get?_add, if_pos hchild]
  set held : Store .scope (Scope (Finalizer σ)) := added.set s { sc with
    state := .opened (fs ++ [(next, .closeChild child sc.owner)]) hooks (next + 1) } with hheld
  have hregister : World.register { w with scopes := added } s (.closeChild child sc.owner) =
      ({ w with scopes := held }, some ⟨s, next⟩) := by
    simp only [World.register, World.scope, hsc', Option.getD_some, Scope.register?, hheld]
  have hread : w.scope s = { sc with state := .opened fs hooks next } := by
    rw [World.scope, hsc, Option.getD_some]
  refine ⟨held.modify child fun sc => { sc with parent := some ⟨s, next⟩ }, child, ?_, hnone, ?_, ?_,
    fun u hu hu' => ?_⟩
  · simp only [World.forkScope, hread, World.newScope, ← hadded, ← hchild, hregister]
  · rw [Store.get?_modify, if_pos rfl, hheld, Store.get?_set, if_neg hne.symm, hnew]
    rfl
  · rw [Store.get?_modify, if_neg hne, hheld, Store.get?_set_of_some hsc']
  · rw [Store.get?_modify, if_neg hu'.symm, hheld, Store.get?_set, if_neg hu.symm, hadded, Store.get?_add, if_neg hu']

/-! ## One member -/

/-- A member before its first turn. -/
def Walker.eve (k : Walker σ) (permits : Key .semaphore) (p : Program σ) : Spot σ :=
  { machine := ⟨.start (.duty (.guarded permits p)), [], false⟩, state := .opened [] [k.fiber] 0 }

/-- A walker that is a new child, in the arena under the key `place`. -/
structure Walker.Newcomer (k : Walker σ) (budget : Nat) (arena : Key .scope) (place : Nat) : Prop
    extends k.Sound budget where
  scope : k.birth.scope = k.scope
  semaphores : k.birth.semaphores.pushed = []
  services : k.birth.services.pushed = []
  masks : k.birth.masks.pushed = []
  labels : k.birth.labels = []
  parent : k.nest.parent = some ⟨arena, place⟩
  apart : arena ≠ k.scope
  unwatched : k.birth.done = .fresh

/-- From `w` to `w'` a child comes into the arena, with a copy of the references; `next` is its place. -/
structure Walker.Joins (k : Walker σ) (arena : Key .scope) (nest : Scope (Finalizer σ)) (fs : List (Nat × Finalizer σ))
    (next : Nat) (copy : FiberRefs) (x : Spot σ) (w w' : World σ) : Prop where
  fiber : w.fibers.get? k.fiber = none
  scope : w.scopes.get? k.scope = none
  fibers : ∀ g, g ≠ k.fiber → w'.fibers.get? g = w.fibers.get? g
  scopes : ∀ s, s ≠ arena → s ≠ k.scope → w'.scopes.get? s = w.scopes.get? s
  arena : ∃ fin, w'.scopes.get? arena = some { nest with state := .opened (fs ++ [(next, fin)]) [] (next + 1) }
  copy : w'.refs.get? k.birth.context.refs = some copy
  maps : ∀ m map, w.refs.get? m = some map → w'.refs.get? m = some map
  semaphores : ∀ s sem, w.semaphores.get? s = some sem → w'.semaphores.get? s = some sem
  turn : ∃ token, w'.timers = (w.timers.set 0 (.resume k.fiber token .proceed)).1 ∧
    k.Parked x token x.machine w'

namespace Walker.Joins

variable {k : Walker σ} {arena : Key .scope} {nest : Scope (Finalizer σ)} {fs : List (Nat × Finalizer σ)} {next : Nat}
  {copy : FiberRefs} {x : Spot σ}

theorem now_eq (h : k.Joins arena nest fs next copy x w w') : w'.now = w.now := by
  obtain ⟨token, htimers, -⟩ := h.turn
  show w'.timers.now = w.timers.now
  rw [htimers]
  rfl

/-- The fibers that are there stay as they are. -/
theorem fiber_there (h : k.Joins arena nest fs next copy x w w') {g : Key .fiber} {y : Fiber σ}
    (hy : w.fibers.get? g = some y) : g ≠ k.fiber ∧ w'.fibers.get? g = some y := by
  have hg : g ≠ k.fiber := by
    rintro rfl
    rw [h.fiber] at hy
    cases hy
  exact ⟨hg, (h.fibers g hg).trans hy⟩

/-- So do the scopes, but for the arena. -/
theorem scope_there (h : k.Joins arena nest fs next copy x w w') {s : Key .scope} {sc : Scope (Finalizer σ)}
    (hsc : w.scopes.get? s = some sc) : s ≠ k.scope ∧ (s ≠ arena → w'.scopes.get? s = some sc) := by
  have hs : s ≠ k.scope := by
    rintro rfl
    rw [h.scope] at hsc
    cases hsc
  exact ⟨hs, fun harena => (h.scopes s harena hs).trans hsc⟩

/-- A task that is in the queue stays there. -/
theorem live_there (h : k.Joins arena nest fs next copy x w w') {t : Timer (Task σ)} (ht : t ∈ w.timers.live) :
    t ∈ w'.timers.live := by
  obtain ⟨token, htimers, -⟩ := h.turn
  rw [htimers]
  exact Timers.mem_insert.mpr (Or.inr ht)

/-- The first turn of the child is in the queue. -/
theorem awaits (h : k.Joins arena nest fs next copy x w w') :
    ∃ t ∈ w'.timers.live, t.id = w.timers.nextId ∧ t.deadline = w'.now ∧ k.Awaits x t w' := by
  have hzero : w.timers.now.add 0 = w'.now := (Time.ext (Time.nanos_add_zero _)).trans h.now_eq.symm
  obtain ⟨token, htimers, hparked⟩ := h.turn
  refine ⟨⟨w.timers.now.add 0, w.timers.nextId, .resume k.fiber token .proceed⟩, ?_, rfl, hzero, token, .proceed, _,
    rfl, hparked, rfl⟩
  rw [htimers]
  exact Timers.mem_insert.mpr (Or.inl rfl)

end Walker.Joins

/-- A fiber starts a child in its arena. -/
theorem forkChild_within {parent : Fiber σ} {arena : Key .scope} {nest : Scope (Finalizer σ)}
    {fs : List (Nat × Finalizer σ)} {next : Nat} {refs copy : FiberRefs} (hget : w.fibers.get? f = some parent)
    (harena : w.scopes.get? arena = some { nest with state := .opened fs [] next })
    (hrefs : w.refs.get? parent.context.refs = some refs) (hfork : refs.fork = .ok copy) (p : Program σ) :
    ∃ (w' : World σ) (k : Walker σ), w.forkChild f p { scope := some arena } = (w', .ok k.fiber) ∧
      k.Newcomer parent.context.limits.maxOps arena next ∧
      k.Joins arena nest fs next copy (k.eve parent.semaphores.top p) w w' := by
  set id : FiberId := ⟨w.sequence + 1, w.now⟩ with hid
  set w₁ : World σ := { w with sequence := w.sequence + 1 } with hw₁
  obtain ⟨scopes, s, hscope, hnone, hnew, hheld, hothers⟩ := forkScope_within (w := w₁) id harena
  have hapart : arena ≠ s := by
    rintro rfl
    exact absurd (hnone.symm.trans harena) (by simp)
  set r : Key .refs := (w.refs.add copy).2 with hr
  set context : Context := parent.context.child id r none with hcontext
  set child : Fiber σ :=
    { context, scope := s, phase := .running
      semaphores := ⟨(w.semaphores.add (.withPermits context.concurrency)).2, []⟩
      masks := ⟨context.interruptible, []⟩, services := ⟨parent.services.top, []⟩
      inherited := newest parent.context.limits.maxTrace parent.frames ++ [.fork parent.context.id] }
    with hchild
  set m : Machine σ := { control := .start (.duty (.guarded parent.semaphores.top p)) } with hm
  set c : Key .fiber := (w.fibers.add { child with phase := .notStarted m }).2 with hc
  set base : Scope (Finalizer σ) := { Scope.new id nest.strategy with parent := some ⟨arena, next⟩ } with hbase
  -- the world with all that belongs to the child, and the child on the hooks of its scope
  set w₂ : World σ := { w₁ with
    scopes := scopes
    refs := (w.refs.add copy).1
    semaphores := (w.semaphores.add (.withPermits context.concurrency)).1
    fibers := (w.fibers.add { child with phase := .notStarted m }).1 } with hw₂
  set w₃ : World σ := { w₂ with scopes := scopes.set s { base with state := .opened [] [c] 0 } } with hw₃
  have hhook : w₂.hook s c = w₃ := by
    simp only [World.hook, World.scope, hw₂, hnew, Option.getD_some, Scope.hook?, hw₃, hbase, Scope.new,
      List.nil_append]
  have hget₃ : w₃.fibers.get? c = some { child with phase := .notStarted m } := by
    simp only [hw₃, hw₂, Store.get?_add, hc, if_pos]
  set started : Fiber σ := { child with phase := .suspended 0 m, nextToken := 1 } with hstarted
  set w₄ : World σ := { w₃ with fibers := w₃.fibers.set c started } with hw₄
  have hget₄ : w₄.fibers.get? c = some started := Store.get?_set_of_some hget₃
  have hstart : w₃.startFiber c = w₄.queue (.resume c 0 .proceed) := by
    simp only [World.startFiber, hget₃, Fiber.park]
    rfl
  have hmap : w.refMap parent.context.refs = refs := by
    simp only [World.refMap, hrefs, Option.getD_some]
  refine ⟨w₄.queue (.resume c 0 .proceed), ⟨c, s, child, base⟩, ?_,
    ⟨⟨rfl, rfl⟩, rfl, rfl, rfl, rfl, rfl, rfl, hapart, rfl⟩, ?_⟩
  · have hchildRefs : World.childRefs { w₁ with scopes } parent.context.refs none =
        ({ w₁ with scopes, refs := (w.refs.add copy).1 }, .ok r) := by
      simp only [World.childRefs, World.forkRefs]
      have : World.refMap { w₁ with scopes } parent.context.refs = refs := hmap
      rw [this, hfork]
      rfl
    simp only [World.forkChild, hget, World.nextId, ← hw₁, ← hid, Option.getD_some, hscope, hchildRefs]
    have hmade : World.newFiber { w₁ with scopes, refs := (w.refs.add copy).1 } context s
        (.duty (.guarded parent.semaphores.top p)) parent.services.top
        (newest parent.context.limits.maxTrace parent.frames ++ [.fork parent.context.id]) =
          (w₂.hook s c, c) := rfl
    rw [hmade]
    dsimp only
    rw [hhook, hstart]
  · refine
      { fiber := Store.get?_next w.fibers { child with phase := .notStarted m }
        scope := hnone
        fibers := fun g hg => ?_
        scopes := fun u hu hu' => ?_
        arena := ⟨.closeChild s nest.owner, ?_⟩
        copy := ?_
        maps := fun k map hk => Store.get?_add_of_some _ hk
        semaphores := fun k sem hk => Store.get?_add_of_some _ hk
        turn := ⟨0, rfl, ⟨1, hget₄⟩, ?_⟩ }
    · show (w₃.fibers.set c started).get? g = _
      rw [Store.get?_set, if_neg (Ne.symm hg)]
      show (w.fibers.add _).1.get? g = _
      rw [Store.get?_add, if_neg hg]
    · show (scopes.set s _).get? u = _
      rw [Store.get?_set, if_neg (Ne.symm hu')]
      exact hothers u hu hu'
    · show (scopes.set s _).get? arena = _
      rw [Store.get?_set, if_neg hapart.symm]
      exact hheld
    · show (w.refs.add copy).1.get? r = some copy
      rw [Store.get?_add, if_pos hr]
    · exact Store.get?_set_of_some hnew

/-! ## All members -/

/-- A child that has been started, with the number of the task of its first turn. -/
structure Recruit (σ : Type) extends Walker σ where
  id : Nat

/-- What a fiber has when it musters children for `p` in its arena: its record, the arena, and the copy of its
references. -/
structure Recruiter (σ : Type) where
  parent : Fiber σ
  arena : Key .scope
  nest : Scope (Finalizer σ)
  copy : FiberRefs
  program : Program σ
  horizon : Nat

namespace Recruiter

variable (M : Recruiter σ)

/-- A recruit waits for its first turn. -/
def Waits (k : Recruit σ) (w : World σ) : Prop :=
  ∃ t ∈ w.timers.live, t.id = k.id ∧ t.deadline = w.now ∧ k.Awaits (k.eve M.parent.semaphores.top M.program) t w

/-- Since `w₀` the recruits `ks` have been started, in this order, and nothing else has happened. -/
structure Muster (w₀ : World σ) (ks : List (Recruit σ)) (w : World σ) : Prop where
  newcomer : ∀ (i : Nat) (k : Recruit σ), ks[i]? = some k → k.Newcomer M.parent.context.limits.maxOps M.arena i
  fiber : ∀ k ∈ ks, w₀.fibers.get? k.fiber = none
  scope : ∀ k ∈ ks, w₀.scopes.get? k.scope = none
  fibersApart : (ks.map (·.fiber)).Nodup
  scopesApart : (ks.map (·.scope)).Nodup
  fibers : ∀ g y, w₀.fibers.get? g = some y → w.fibers.get? g = some y
  scopes : ∀ s sc, s ≠ M.arena → w₀.scopes.get? s = some sc → w.scopes.get? s = some sc
  arena : ∃ fs, w.scopes.get? M.arena = some { M.nest with state := .opened fs [] ks.length } ∧
    ∀ x ∈ fs, x.1 < ks.length
  copies : ∀ k ∈ ks, w.refs.get? k.birth.context.refs = some M.copy
  maps : ∀ m map, w₀.refs.get? m = some map → w.refs.get? m = some map
  semaphores : ∀ s sem, w₀.semaphores.get? s = some sem → w.semaphores.get? s = some sem
  now : w.now = w₀.now
  agenda : Agenda w.timers (fun i : Nat => ks[i]?.map Recruit.id) M.horizon
  waits : ∀ k ∈ ks, M.Waits k w
  sorted : ks.Pairwise (·.id < ·.id)

namespace Muster

variable {M : Recruiter σ} {ks : List (Recruit σ)} {refs : FiberRefs}

/-- Before the first child. -/
theorem start (harena : w.scopes.get? M.arena = some { M.nest with state := .opened [] [] 0 })
    (hclear : Clear w.timers M.horizon) : M.Muster w [] w where
  newcomer := fun _ _ h => by cases h
  fiber := fun _ h => absurd h List.not_mem_nil
  scope := fun _ h => absurd h List.not_mem_nil
  fibersApart := List.nodup_nil
  scopesApart := List.nodup_nil
  fibers := fun _ _ h => h
  scopes := fun _ _ _ h => h
  arena := ⟨[], harena, fun _ h => absurd h List.not_mem_nil⟩
  copies := fun _ h => absurd h List.not_mem_nil
  maps := fun _ _ h => h
  semaphores := fun _ _ h => h
  now := rfl
  agenda := ⟨hclear.ordered, hclear.numbered, fun t ht => Or.inr (hclear.later t ht), fun _ _ h => (by cases h),
    fun _ _ _ h => (by cases h)⟩
  waits := fun _ h => absurd h List.not_mem_nil
  sorted := .nil

/-- Those that have been started have their fibers and scopes. -/
theorem there (h : M.Muster w₀ ks w) {l : Recruit σ} (hl : l ∈ ks) :
    ∃ y sc, w.fibers.get? l.fiber = some y ∧ w.scopes.get? l.scope = some sc := by
  obtain ⟨t, -, -, -, token, r, m, -, ⟨⟨next, hy⟩, hsc⟩, -⟩ := h.waits l hl
  exact ⟨_, _, hy, hsc⟩

/-- The numbers of the tasks, with another child at the end. -/
theorem alarm_concat (ks : List (Recruit σ)) (k : Recruit σ) :
    (fun i : Nat => (ks ++ [k])[i]?.map Recruit.id) =
      Function.update (fun i : Nat => ks[i]?.map Recruit.id) ks.length (some k.id) := by
  funext i
  rw [Function.update_apply]
  split
  · rename_i hi
    rw [hi, List.getElem?_concat_length]
    rfl
  · rename_i hi
    rcases Nat.lt_or_gt_of_ne hi with hlt | hgt
    · rw [List.getElem?_append_left hlt]
    · have hlength : (ks ++ [k]).length ≤ i := by
        rw [List.length_append, List.length_singleton]
        omega
      rw [List.getElem?_eq_none hlength, List.getElem?_eq_none (le_of_lt hgt)]

theorem nodup_map_concat {α β : Type} {f : α → β} {l : List α} {a : α} (h : (l.map f).Nodup)
    (ha : ∀ x ∈ l, f x ≠ f a) : ((l ++ [a]).map f).Nodup := by
  rw [List.map_append, List.map_cons, List.map_nil, List.nodup_append]
  refine ⟨h, List.nodup_singleton _, fun y hy z hz => ?_⟩
  obtain ⟨x, hx, rfl⟩ := List.mem_map.mp hy
  rw [List.mem_singleton.mp hz]
  exact ha x hx

/-- A child that joins is the last. -/
theorem concat {k : Walker σ} {fs : List (Nat × Finalizer σ)} (h : M.Muster w₀ ks w)
    (hkeys : ∀ x ∈ fs, x.1 < ks.length) (hnewcomer : k.Newcomer M.parent.context.limits.maxOps M.arena ks.length)
    (hjoins : k.Joins M.arena M.nest fs ks.length M.copy (k.eve M.parent.semaphores.top M.program) w w') :
    M.Muster w₀ (ks ++ [{ k with id := w.timers.nextId }]) w' := by
  have hmem : ∀ {l : Recruit σ}, l ∈ ks ++ [{ k with id := w.timers.nextId }] ↔
      l ∈ ks ∨ l = { k with id := w.timers.nextId } := by simp
  have hfiber : ∀ l ∈ ks, l.fiber ≠ k.fiber := fun l hl => by
    obtain ⟨y, -, hy, -⟩ := h.there hl
    exact (hjoins.fiber_there hy).1
  have hscope : ∀ l ∈ ks, l.scope ≠ k.scope := fun l hl => by
    obtain ⟨-, sc, -, hsc⟩ := h.there hl
    exact (hjoins.scope_there hsc).1
  refine
    { newcomer := fun i l hl => ?_
      fiber := fun l hl => ?_
      scope := fun l hl => ?_
      fibersApart := nodup_map_concat h.fibersApart hfiber
      scopesApart := nodup_map_concat h.scopesApart hscope
      fibers := fun g y hg => (hjoins.fiber_there (h.fibers g y hg)).2
      scopes := fun s sc hs hsc => (hjoins.scope_there (h.scopes s sc hs hsc)).2 hs
      arena := ?_
      copies := fun l hl => ?_
      maps := fun m map hm => hjoins.maps m map (h.maps m map hm)
      semaphores := fun s sem hs => hjoins.semaphores s sem (h.semaphores s sem hs)
      now := hjoins.now_eq.trans h.now
      agenda := ?_
      waits := fun l hl => ?_
      sorted := ?_ }
  · rcases Nat.lt_or_ge i ks.length with hlt | hge
    · rw [List.getElem?_append_left hlt] at hl
      exact h.newcomer i l hl
    · have hi : i = ks.length := by
        have := (List.getElem?_eq_some_iff.mp hl).1
        simp only [List.length_append, List.length_singleton] at this
        omega
      rw [hi, List.getElem?_concat_length] at hl
      cases hl
      rw [hi]
      exact hnewcomer
  · rcases hmem.mp hl with hl | rfl
    · exact h.fiber l hl
    · exact Option.eq_none_iff_forall_ne_some.mpr fun y hy => (hjoins.fiber_there (h.fibers _ y hy)).1 rfl
  · rcases hmem.mp hl with hl | rfl
    · exact h.scope l hl
    · exact Option.eq_none_iff_forall_ne_some.mpr fun sc hsc =>
        (hjoins.scope_there (h.scopes _ sc (Ne.symm hnewcomer.apart) hsc)).1 rfl
  · obtain ⟨fin, harena'⟩ := hjoins.arena
    refine ⟨_, by rw [harena', List.length_append, List.length_singleton], fun x hx => ?_⟩
    rw [List.length_append, List.length_singleton]
    rcases List.mem_append.mp hx with hx | hx
    · exact Nat.lt_succ_of_lt (hkeys x hx)
    · rw [List.mem_singleton.mp hx]
      exact Nat.lt_succ_self _
  · rcases hmem.mp hl with hl | rfl
    · exact hjoins.maps _ _ (h.copies l hl)
    · exact hjoins.copy
  · obtain ⟨token, htimers, -⟩ := hjoins.turn
    rw [htimers, alarm_concat]
    exact h.agenda.post (by rw [List.getElem?_eq_none (le_refl _)]; rfl) 0 _
  · rcases hmem.mp hl with hl | rfl
    · obtain ⟨t, ht, hid, hdue, hawaits⟩ := h.waits l hl
      obtain ⟨i, hi⟩ := List.getElem?_of_mem hl
      refine ⟨t, hjoins.live_there ht, hid, hdue.trans hjoins.now_eq.symm,
        hawaits.congr (hjoins.fibers _ (hfiber l hl)) ?_⟩
      exact hjoins.scopes _ (Ne.symm (h.newcomer i l hi).apart) (hscope l hl)
    · exact hjoins.awaits
  · rw [List.pairwise_append]
    refine ⟨h.sorted, List.pairwise_singleton _ _, fun l hl l' hl' => ?_⟩
    obtain rfl := List.mem_singleton.mp hl'
    obtain ⟨i, hi⟩ := List.getElem?_of_mem hl
    exact h.agenda.below i l.id (by rw [hi]; rfl)

/-- Another child. -/
theorem add (h : M.Muster w₀ ks w) (hget : w₀.fibers.get? f = some M.parent)
    (hrefs : w₀.refs.get? M.parent.context.refs = some refs) (hfork : refs.fork = .ok M.copy) :
    ∃ (w' : World σ) (k : Recruit σ), w.forkChild f M.program { scope := some M.arena } = (w', .ok k.fiber) ∧
      M.Muster w₀ (ks ++ [k]) w' := by
  obtain ⟨fs, hfs, hkeys⟩ := h.arena
  obtain ⟨w', k, hforkChild, hnewcomer, hjoins⟩ :=
    forkChild_within (h.fibers f _ hget) hfs (h.maps _ _ hrefs) hfork M.program
  exact ⟨w', _, hforkChild, h.concat hkeys hnewcomer hjoins⟩

/-- All children. -/
theorem forkAll (h : M.Muster w₀ ks w) (hget : w₀.fibers.get? f = some M.parent)
    (hrefs : w₀.refs.get? M.parent.context.refs = some refs) (hfork : refs.fork = .ok M.copy) (m : Nat) :
    ∃ (w' : World σ) (ks' : List (Recruit σ)),
      w.forkAll f M.arena (List.replicate m M.program) (ks.map (·.fiber)).reverse = (w', .ok (ks'.map (·.fiber))) ∧
        ks'.length = ks.length + m ∧ M.Muster w₀ ks' w' := by
  induction m generalizing w ks with
  | zero => exact ⟨w, ks, by simp [World.forkAll], rfl, h⟩
  | succ m ih =>
      obtain ⟨w₁, k, hforkChild, hadd⟩ := h.add hget hrefs hfork
      obtain ⟨w', ks', hrest, hlength, hall⟩ := ih hadd
      refine ⟨w', ks', ?_, ?_, hall⟩
      · rw [List.replicate_succ, World.forkAll, hforkChild]
        simpa using hrest
      · rw [hlength, List.length_append, List.length_singleton]
        omega

end Muster

end Recruiter

end Fibers.Rounds
