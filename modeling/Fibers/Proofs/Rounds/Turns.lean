import Fibers.Proofs.Rounds.Scene

set_option autoImplicit false

/-! # The turns of the members

Every step of a member leads from a scene to a scene. There is one lemma for the steps that concern the member
alone, one for a yield, and one for each of its deeds.
-/

namespace Fibers.Rounds

open World Direct

variable {σ : Type} {n : Nat} {Z : Zip σ n} {P : Score n} {w w' : World σ} {i : Fin n} {p p' : Point} {ops : Nat}
  {s : Stance} {b : Book n}

/-! ## Points of the way -/

namespace Point

theorem stage_next (h : p.next? = some p') : p'.stage = p.stage := by
  cases p with
  | door d => cases d <;> first | (cases h; rfl) | cases h
  | _ => first | (cases h; rfl) | cases h

theorem future_next (h : p.next? = some p') (ops : Nat) : (Stance.active p' ops).future? = none := by
  cases p with
  | door d => cases d <;> first | (cases h; rfl) | cases h
  | _ => first | (cases h; rfl) | cases h

theorem heard_next (h : p.next? = some p') (w : World σ) : p'.Heard w := by
  cases p with
  | door d => cases d <;> first | (cases h; trivial) | cases h
  | _ => first | (cases h; trivial) | cases h

theorem isWithin_next (h : p.next? = some p') (ops ops' : Nat) :
    (Stance.active p' ops').isWithin = (Stance.active p ops).isWithin := by
  cases p with
  | door d => cases d <;> first | (cases h; rfl) | cases h
  | _ => first | (cases h; rfl) | cases h

theorem left_next (h : p.next? = some p') : p'.left < p.left := by
  cases p with
  | door d => cases d <;> first | (cases h; decide) | cases h
  | awake timer => cases h; simp [left]
  | _ => first | (cases h; decide) | cases h

/-- Up to the request for the permit, a step that counts is one of the pace. -/
theorem pace_next {q : Nat} (h : p.next? = some p') (hq : p.pace? = some q) :
    p'.pace? = some (q + if p.isFree then 0 else 1) ∧ ∀ ops, p.spent ops = ops + if p.isFree then 0 else 1 := by
  cases p with
  | start =>
      cases h
      cases hq
      exact ⟨rfl, fun _ => rfl⟩
  | ensuring =>
      cases h
      cases hq
      exact ⟨rfl, fun _ => rfl⟩
  | bind =>
      cases h
      cases hq
      exact ⟨rfl, fun _ => rfl⟩
  | guarded => cases h
  | take => cases h
  | _ => cases hq

theorem stage_ne_asleep (p : Point) : p.stage ≠ .asleep := by
  cases p <;> simp [stage]

theorem stage_ne_gone (p : Point) : p.stage ≠ .gone := by
  cases p <;> simp [stage]

end Point

namespace Stance

theorem future_ready (p : Point) (id ops : Nat) : (Stance.ready p id).future? = (Stance.active p ops).future? := by
  cases p <;> rfl

theorem isWithin_ready (p : Point) (id ops : Nat) : (Stance.ready p id).isWithin = (Stance.active p ops).isWithin := by
  cases p <;> rfl

end Stance

/-! ## Going on -/

/-- A member that goes elsewhere has less left to do. -/
theorem Goes.of_put {x : Moment σ} (hscene : Scene Z ((P.put i s).note b) x.world)
    (hturn : Turn Z ((P.put i s).note b) x.active) (hnow : x.world.now = w.now)
    (hweight : s.weight Z.budget w.now.nanos < (P.stance i).weight Z.budget w.now.nanos)
    (hfollows : s.stage.isBegun = true → (P.stance i).stage.isBegun = false → s.stage.isHolding = true) :
    Goes Z P w x := by
  refine ⟨_, hscene, hturn, ?_, follows_put hfollows, Or.inl hnow⟩
  rw [hnow]
  exact Nat.add_lt_add_left (sum_put_lt hweight) _

/-- The task that is set last is in the queue. -/
theorem queue_live (w : World σ) (task : Task σ) :
    ∃ t ∈ (w.queue task).timers.live, t.id = w.timers.nextId ∧ t.deadline = w.now ∧ t.task = task :=
  ⟨⟨w.timers.now.add 0, w.timers.nextId, task⟩, Timers.mem_insert.mpr (Or.inl rfl), rfl,
    Time.ext (Time.nanos_add_zero _), rfl⟩

theorem mem_queue {w : World σ} {task : Task σ} {t : Timer (Task σ)} (ht : t ∈ w.timers.live) :
    t ∈ (w.queue task).timers.live := Timers.mem_insert.mpr (Or.inr ht)

namespace Scene

section

variable (hZ : Z.Sound) (h : Scene Z P w) (hi : P.stance i = .active p ops) (hseat : P.seat.isActive = false)
  (hothers : ∀ j, j ≠ i → (P.stance j).isActive = false)

include h hi

theorem active : (Z.member i).Active ((Z.member i).spot p) ops w := by
  have hin := h.cast.member i
  rw [hi] at hin
  exact hin.1

theorem heard : p.Heard w := by
  have hin := h.cast.member i
  rw [hi] at hin
  exact hin.2

/-- A member that has its turn waits for no task. -/
theorem agenda_active (ops' : Nat) :
    Agenda w.timers (alarm P.seat (Function.update P.stance i (.active p' ops'))) Z.horizon := by
  rw [alarm_put]
  have hnone : alarm P.seat P.stance (some i) = none := by rw [alarm, hi]; rfl
  have hsame : Function.update (alarm P.seat P.stance) (some i) (Stance.active p' ops').alarm? =
      alarm P.seat P.stance :=
    Function.update_eq_self_iff.mpr hnone.symm
  rw [hsame]
  exact h.agenda

/-- A member that has its turn gets a task. -/
theorem agenda_post (hs : s.alarm? = some w.timers.nextId) (delay : Duration) (task : Task σ) :
    Agenda (w.timers.set delay task).1 (alarm P.seat (Function.update P.stance i s)) Z.horizon := by
  rw [alarm_put, hs]
  exact h.agenda.post (by rw [alarm, hi]; rfl) delay task

/-- A member that has its turn comes to wait without a task. -/
theorem agenda_aside (hs : s.alarm? = none) :
    Agenda w.timers (alarm P.seat (Function.update P.stance i s)) Z.horizon := by
  rw [alarm_put, hs]
  have hnone : alarm P.seat P.stance (some i) = none := by rw [alarm, hi]; rfl
  have hsame : Function.update (alarm P.seat P.stance) (some i) none = alarm P.seat P.stance :=
    Function.update_eq_self_iff.mpr hnone.symm
  rw [hsame]
  exact h.agenda

theorem ledger_same (hs : s.stage = p.stage) :
    Ledger Z.level (Function.update (fun j => (P.stance j).stage) i s.stage) P.book := by
  have hsame : Function.update (fun j => (P.stance j).stage) i s.stage = fun j => (P.stance j).stage := by
    refine Function.update_eq_self_iff.mpr ?_
    rw [hs, hi]
    rfl
  rw [hsame]
  exact h.ledger

include hZ hseat hothers

/-- A step that concerns the member alone. -/
theorem goes_private (hp : p.next? = some p') (hcan : p.Can Z.budget ops) :
    Goes Z P w (w.advance (Z.walker i).fiber ((Z.member i).spot p).machine) := by
  obtain ⟨w', hadvance, hactive, hprivate⟩ := Member.moves (hZ.member i) hp w ops (h.active hi) hcan
  have hprivate' : (Z.party (some i)).Private w w' := hprivate
  have htimers : w'.timers = w.timers := by rw [hprivate.rest]
  have hstage : (Stance.active p' (p.spent ops)).stage = p.stage := Point.stage_next hp
  have hbase : (P.stance i).stage = p.stage := by rw [hi]; rfl
  show Goes Z P w (w.advance (Z.member i).fiber _)
  rw [hadvance]
  have hlockstep : Lockstep Z.budget (Function.update P.stance i (.active p' (p.spent ops))) := by
    cases hpace : p.pace? with
    | none =>
        have hpace' : p'.pace? = none := by
          rw [Point.pace?_eq_none] at hpace ⊢
          rw [Point.stage_next hp]
          exact hpace
        exact h.lockstep.leave (by simp [Stance.base?, hpace'])
    | some q =>
        obtain ⟨hle, hbudget⟩ := h.lockstep.spent i p ops q hi hpace
        obtain ⟨hpace', hspent⟩ := Point.pace_next hp hpace
        have hops : p.isFree = true ∨ ops < Z.budget := hcan
        refine h.lockstep.advance hi ?_ fun q' hq' => ?_
        · simp only [Stance.base?, hpace, hpace', hspent, Option.map_some, Option.some.injEq]
          omega
        · obtain rfl := Option.some.inj (hpace'.symm.trans hq')
          rw [hspent]
          rcases hops with hfree | hlt
          · simp only [hfree, if_true]
            omega
          · split <;> omega
  refine .of_put (i := i) (s := .active p' (p.spent ops)) (b := P.book) ?_ (.advance hseat hothers) ?_ ?_ ?_
  · refine h.put (Zip.spares_private hZ hprivate') ⟨hactive, Point.heard_next hp w'⟩
      (Cast.apart_of_eq (by rw [hprivate.rest])) (fun g hg => ?_) (fun hq => ?_) ?_ ?_ (by rw [hprivate.rest])
      (by rw [hprivate.rest]) ?_ (h.ledger_same hi hstage) hlockstep
      (h.tempo.progress (fun hs => ?_) (fun hs => ?_) ?_) (congrArg Timers.now htimers)
    · rw [Point.future_next hp] at hg
      cases hg
    · rw [hbase] at hq
      cases p <;> first | (cases hq; done) | cases hp
    · rw [hi]
      exact Point.isWithin_next hp ops _
    · rw [hbase, hstage]
    · rw [htimers]
      exact h.agenda_active hi _
    · rw [hbase]
      exact hstage ▸ hs
    · rw [hbase]
      exact hstage ▸ hs
    · rw [hstage]
      exact p.stage_ne_asleep
  · exact congrArg Timers.now htimers
  · have := Point.left_next hp
    rw [hi]
    simp only [Stance.weight]
    split <;> omega
  · intro hs hs'
    rw [hbase] at hs'
    rw [hstage, hs'] at hs
    cases hs

/-- A member whose budget is spent yields. -/
theorem goes_tired (hfree : p.isFree = false) (hops : Z.budget ≤ ops) :
    Goes Z P w (w.advance (Z.walker i).fiber ((Z.member i).spot p).machine) := by
  obtain ⟨w₁, task, hadvance, hprivate, hawaits⟩ :=
    (h.active hi).tired (hZ.member i).toSound (Member.stays p) (Member.works hfree) hops
  have hprivate' : (Z.party (some i)).Private w w₁ := hprivate
  have htimers : w₁.timers = w.timers := by rw [hprivate.rest]
  have hfutures : w₁.futures = w.futures := by rw [hprivate.rest]
  have hnow : (w₁.queue task).now = w.now := by
    show w₁.timers.now = w.timers.now
    rw [htimers]
  obtain ⟨t, ht, hid, hdue, htask⟩ := queue_live w₁ task
  show Goes Z P w (w.advance (Z.member i).fiber _)
  rw [hadvance]
  have hbase : (P.stance i).stage = p.stage := by rw [hi]; rfl
  have hheard : p.Heard (w₁.queue task) :=
    (h.heard hi).congr ops fun g _ => congrArg (Store.get? · g) hfutures
  refine .of_put (i := i) (s := .ready p w.timers.nextId) (b := P.book) ?_ (.rest hseat hothers rfl) ?_ ?_ ?_
  · refine h.put ((Zip.spares_private hZ hprivate').trans
        (Zip.spares_shared Z _ _ rfl rfl (fun _ => mem_queue) rfl rfl))
      ⟨⟨t, ht, hid.trans (by rw [htimers]), hdue, hawaits t htask⟩, hheard⟩ (Cast.apart_of_eq hfutures) (fun g hg => ?_)
      (fun _ => ?_) ?_ ?_ (by rw [show (w₁.queue task).tallies = w₁.tallies from rfl, hprivate.rest])
      (by rw [show (w₁.queue task).semaphores = w₁.semaphores from rfl, hprivate.rest]) ?_ (h.ledger_same hi rfl)
      (h.lockstep.yield hi hops fun j p' id hj => ?_)
      (h.tempo.progress (fun hs => ?_) (fun hs => ?_) p.stage_ne_asleep) ?_
    · rw [hi, ← Stance.future_ready p w.timers.nextId ops]
      exact Or.inl hg
    · rw [hi]
      exact Stance.future_ready p _ ops
    · rw [hi]
      exact Stance.isWithin_ready p _ ops
    · rw [hbase]
      rfl
    · show Agenda (w₁.timers.set 0 task).1 _ _
      rw [htimers]
      exact h.agenda_post hi rfl 0 task
    · exact h.agenda.below (some j) id (by rw [alarm, hj]; rfl)
    · rw [hbase]
      exact hs
    · rw [hbase]
      exact hs
    · exact hnow
  · exact hnow
  · rw [hi]
    simp only [Stance.weight, if_neg (not_lt.mpr hops)]
    omega
  · intro hs hs'
    rw [hbase] at hs'
    rw [show (Stance.ready p w.timers.nextId).stage = p.stage from rfl, hs'] at hs
    cases hs

/-! ## The permit -/

omit hZ hi hseat hothers in
theorem get?_permits {w₁ : World σ} (hw : w₁.semaphores = w.semaphores) (sem : Semaphore (Key .future)) :
    (w₁.semaphores.set Z.permits sem).get? Z.permits = some sem := by
  rw [hw, Store.get?_set_of_some h.permits]

/-- A member draws its ticket. All before it have drawn theirs. -/
theorem goes_draws (hp : p = .guarded) (hops : ops < Z.budget) :
    Goes Z P w (w.advance (Z.walker i).fiber ((Z.member i).spot p).machine) := by
  subst hp
  have hbase : (P.stance i).stage = .fresh := by rw [hi]; rfl
  have hbefore : ∀ j, j < i → (P.stance j).stage ≠ .fresh := fun j hj =>
    h.lockstep.drawn_before hZ.budget hi hj
  obtain ⟨hdrawn, hledger⟩ := h.ledger.draw hbase hbefore
  obtain ⟨w₁, hprivate, hadvance, hactive⟩ := Member.draws (hZ.member i) (h.active hi) hops h.permits hdrawn
  have hprivate' : (Z.party (some i)).Private w w₁ := hprivate
  have htimers : w₁.timers = w.timers := by rw [hprivate.rest]
  have hline : i ∉ P.book.line := h.not_mem_line (by rw [hbase]; simp)
  show Goes Z P w (w.advance (Z.member i).fiber _)
  rw [hadvance]
  refine .of_put (i := i) (s := .active .ensuring (ops + 1)) (b := { P.book with drawn := P.book.drawn + 1 }) ?_
    (.advance hseat hothers) (congrArg Timers.now htimers) ?_ ?_
  · refine h.record ((Zip.spares_private hZ hprivate').trans
        (Zip.spares_shared Z _ _ rfl rfl (fun _ ht => ht) rfl rfl))
      ⟨hactive.congr rfl rfl, trivial⟩ (Cast.apart_of_eq (by rw [hprivate.rest])) (fun g hg => by cases hg) ?_ ?_
      (by rw [hprivate.rest]) ?_ ?_ hledger (h.lockstep.advance hi (by simp [Stance.base?, Point.pace?]) fun q hq => ?_)
      (h.tempo.progress (fun _ => by rw [hbase]; rfl) (fun hs => by cases hs) (by simp [Stance.stage, Point.stage]))
      (congrArg Timers.now htimers)
    · rw [hi]
      rfl
    · rw [hbase]
      simp [Stance.stage, Point.stage]
    · refine (h.get?_permits (by rw [hprivate.rest]) _).trans (congrArg some ?_)
      simp only [Score.semaphore, Score.put, Score.note, waiters_put fun hmem => absurd hmem hline, Semaphore.ticket]
    · show Agenda w₁.timers _ _
      rw [htimers]
      exact h.agenda_active hi _
    · obtain ⟨hle, -⟩ := h.lockstep.spent i .guarded ops 0 hi rfl
      cases hq
      omega
  · rw [hi]
    simp only [Stance.weight, Point.left]
    split <;> omega
  · intro hs
    cases hs

/-- A member that asks for a permit gets a free one. -/
theorem goes_takes (hp : p = .take) (hops : ops < Z.budget) (hfree : (P.semaphore Z.level).isFree = true) :
    Goes Z P w (w.advance (Z.walker i).fiber ((Z.member i).spot p).machine) := by
  subst hp
  have hbase : (P.stance i).stage = .drawn := by rw [hi]; rfl
  have hbefore : ∀ j, j < i → (P.stance j).stage.isAsked = true := fun j hj => h.lockstep.asked_before hi hops hj
  have hline : i ∉ P.book.line := h.not_mem_line (by rw [hbase]; simp)
  have hheld : (P.semaphore Z.level).isHeld i.val = false :=
    Bool.eq_false_iff.mpr fun hheld => h.not_mem_holders (by rw [hbase]; rfl) ((isHeld_iff Z.level).mp hheld)
  obtain ⟨hnobody, havailable⟩ := (isFree_iff Z.level).mp hfree
  have htake : (P.semaphore Z.level).take? i.val = some ((P.semaphore Z.level).give i.val) := by
    simp only [Semaphore.take?, hheld, Bool.false_eq_true, if_false, hfree, if_true]
  obtain ⟨w₁, hprivate, hadvance, hactive⟩ := Member.takes (hZ.member i) (h.active hi) hops h.permits htake
  have hprivate' : (Z.party (some i)).Private w w₁ := hprivate
  have htimers : w₁.timers = w.timers := by rw [hprivate.rest]
  show Goes Z P w (w.advance (Z.member i).fiber _)
  rw [hadvance]
  refine .of_put (i := i) (s := .active .granted (ops + 1))
    (b := { P.book with
      holders := i :: P.book.holders
      available := P.book.available - 1 }) ?_ (.advance hseat hothers) (congrArg Timers.now htimers) ?_ fun _ _ => rfl
  · refine h.record ((Zip.spares_private hZ hprivate').trans
        (Zip.spares_shared Z _ _ rfl rfl (fun _ ht => ht) rfl rfl))
      ⟨hactive.congr rfl rfl, trivial⟩ (Cast.apart_of_eq (by rw [hprivate.rest])) (fun g hg => by cases hg) ?_ ?_
      (by rw [hprivate.rest]) ?_ ?_ (h.ledger.take hbase hbefore hnobody havailable) (h.lockstep.leave rfl)
      (h.tempo.progress (fun _ => by rw [hbase]; rfl) (fun hs => by cases hs) (by simp [Stance.stage, Point.stage]))
      (congrArg Timers.now htimers)
    · rw [hi]
      rfl
    · rw [hbase]
      simp [Stance.stage, Point.stage]
    · refine (h.get?_permits (by rw [hprivate.rest]) _).trans (congrArg some ?_)
      simp only [Score.semaphore, Score.put, Score.note, waiters_put fun hmem => absurd hmem hline, Semaphore.give,
        List.map_cons]
    · show Agenda w₁.timers _ _
      rw [htimers]
      exact h.agenda_active hi _
  · rw [hi]
    simp only [Stance.weight, Point.left]
    split <;> omega

/-- A member that finds no free permit, or others that queue, queues. -/
theorem goes_queues (hp : p = .take) (hops : ops < Z.budget) (hfree : ¬ (P.semaphore Z.level).isFree = true) :
    Goes Z P w (w.advance (Z.walker i).fiber ((Z.member i).spot p).machine) := by
  subst hp
  have hbase : (P.stance i).stage = .drawn := by rw [hi]; rfl
  have hbefore : ∀ j, j < i → (P.stance j).stage.isAsked = true := fun j hj => h.lockstep.asked_before hi hops hj
  have hline : i ∉ P.book.line := h.not_mem_line (by rw [hbase]; simp)
  have hheld : (P.semaphore Z.level).isHeld i.val = false :=
    Bool.eq_false_iff.mpr fun hheld => h.not_mem_holders (by rw [hbase]; rfl) ((isHeld_iff Z.level).mp hheld)
  have htake : (P.semaphore Z.level).take? i.val = none := by
    simp only [Semaphore.take?, hheld, Bool.false_eq_true, if_false, hfree]
  have hfull : ¬ (P.book.line = [] ∧ 0 < P.book.available) := fun hbook => hfree ((isFree_iff Z.level).mpr hbook)
  set grant : Key .future := (w.futures.add .fresh).2 with hgrant
  obtain ⟨w₁, hprivate, hadvance, hactive⟩ := Member.queues (hZ.member i) (h.active hi) hops h.permits htake hgrant
  have hprivate' : (Z.party (some i)).Private w w₁ := hprivate
  have htimers : w₁.timers = w.timers := by rw [hprivate.rest]
  have hfutures : w₁.futures = w.futures := by rw [hprivate.rest]
  show Goes Z P w (w.advance (Z.member i).fiber _)
  rw [hadvance]
  refine .of_put (i := i) (s := .active (.queue grant) (ops + 1)) (b := { P.book with line := P.book.line ++ [i] }) ?_
    (.advance hseat hothers) (congrArg Timers.now htimers) ?_ ?_
  · refine h.record ((Zip.spares_private hZ hprivate').trans
        (Zip.spares_shared Z _ _ rfl rfl (fun _ ht => ht) rfl rfl))
      ⟨hactive.congr rfl rfl, ?_⟩ (h.cast.apart_add (by rw [← hfutures])) (fun g hg => ?_) ?_ ?_
      (by rw [hprivate.rest]) ?_ ?_ (h.ledger.enqueue hbase hbefore hfull) (h.lockstep.leave rfl)
      (h.tempo.progress (fun _ => by rw [hbase]; rfl) (fun hs => by cases hs) (by simp [Stance.stage, Point.stage]))
      (congrArg Timers.now htimers)
    · show (w₁.futures.add .fresh).1.get? grant = some .fresh
      rw [hfutures, Store.get?_add, if_pos hgrant]
    · cases hg
      exact Or.inr (hgrant ▸ Store.get?_next _ _)
    · rw [hi]
      rfl
    · rw [hbase]
      simp [Stance.stage, Point.stage]
    · refine (h.get?_permits (by rw [hprivate.rest]) _).trans (congrArg some ?_)
      have hlast : (Function.update P.stance i (.active (.queue grant) (ops + 1)) i).future?.getD default = grant := by
        rw [Function.update_self]
        rfl
      simp only [Score.semaphore, Score.put, Score.note, Semaphore.enqueue, List.map_append, List.map_cons,
        List.map_nil, waiters_put fun hmem => absurd hmem hline, hlast]
      rfl
    · show Agenda w₁.timers _ _
      rw [htimers]
      exact h.agenda_active hi _
  · rw [hi]
    simp only [Stance.weight, Point.left]
    split <;> omega
  · intro hs
    cases hs

/-- A member asks for a permit: it gets a free one, or queues. All before it have asked for theirs. -/
theorem goes_asks (hp : p = .take) (hops : ops < Z.budget) :
    Goes Z P w (w.advance (Z.walker i).fiber ((Z.member i).spot p).machine) := by
  by_cases hfree : (P.semaphore Z.level).isFree = true
  · exact h.goes_takes hZ hi hseat hothers hp hops hfree
  · exact h.goes_queues hZ hi hseat hothers hp hops hfree

/-- A member that queues comes to wait for its grant. -/
theorem goes_waits {grant : Key .future} (hp : p = .queue grant) (hops : ops < Z.budget) :
    Goes Z P w (w.advance (Z.walker i).fiber ((Z.member i).spot p).machine) := by
  subst hp
  have hbase : (P.stance i).stage = .queued := by rw [hi]; rfl
  have hfuture : (P.stance i).future? = some grant := by rw [hi]; rfl
  have hfresh : w.futures.get? grant = some .fresh := h.heard hi
  obtain ⟨w₁, token, hprivate, hadvance, hparked⟩ := Member.waits (hZ.member i) (h.active hi) hops hfresh
  have hprivate' : (Z.party (some i)).Private w w₁ := hprivate
  have htimers : w₁.timers = w.timers := by rw [hprivate.rest]
  have hfutures : w₁.futures = w.futures := by rw [hprivate.rest]
  show Goes Z P w (w.advance (Z.member i).fiber ((Z.member i).queuing grant).machine)
  rw [hadvance]
  refine .of_put (i := i) (s := .waiting grant) (b := P.book) ?_ (.rest hseat hothers rfl) (congrArg Timers.now htimers)
    ?_ fun hs => by cases hs
  · refine h.put ((Zip.spares_private hZ hprivate').trans
        (Zip.spares_shared Z _ _ rfl rfl (fun _ ht => ht) rfl rfl))
      ⟨token, hparked.congr rfl rfl, ?_⟩ (h.cast.apart_set hfuture (by rw [← hfutures])) (fun g hg => ?_)
      (fun _ => hfuture.symm) ?_ ?_ (by rw [hprivate.rest]) (by rw [hprivate.rest]) ?_ (h.ledger_same hi rfl)
      (h.lockstep.leave rfl)
      (h.tempo.progress (fun _ => by rw [hbase]; rfl) (fun hs => by cases hs) (by simp [Stance.stage]))
      (congrArg Timers.now htimers)
    · show (w₁.futures.set grant _).get? grant = _
      rw [hfutures, Store.get?_set_of_some hfresh]
    · rw [hfuture]
      exact Or.inl hg
    · rw [hi]
      rfl
    · rw [hbase]
      rfl
    · show Agenda w₁.timers _ _
      rw [htimers]
      exact h.agenda_aside hi rfl
  · rw [hi]
    simp only [Stance.weight, Point.left]
    omega

/-- A member that has been called before it came to wait goes on. -/
theorem goes_enters {grant : Key .future} (hp : p = .called grant) (hops : ops < Z.budget) :
    Goes Z P w (w.advance (Z.walker i).fiber ((Z.member i).spot p).machine) := by
  subst hp
  have hbase : (P.stance i).stage = .held := by rw [hi]; rfl
  obtain ⟨w', hprivate, hadvance, hactive⟩ := Member.enters (hZ.member i) (h.active hi) hops (h.heard hi)
  have hprivate' : (Z.party (some i)).Private w w' := hprivate
  have htimers : w'.timers = w.timers := by rw [hprivate.rest]
  show Goes Z P w (w.advance (Z.member i).fiber ((Z.member i).queuing grant).machine)
  rw [hadvance]
  refine .of_put (i := i) (s := .active .granted 0) (b := P.book) ?_ (.advance hseat hothers)
    (congrArg Timers.now htimers) ?_ fun _ _ => rfl
  · refine h.put (Zip.spares_private hZ hprivate') ⟨hactive, trivial⟩ (Cast.apart_of_eq (by rw [hprivate.rest]))
      (fun g hg => by cases hg) (fun hq => ?_) ?_ ?_ (by rw [hprivate.rest]) (by rw [hprivate.rest]) ?_
      (h.ledger_same hi rfl) (h.lockstep.leave rfl)
      (h.tempo.progress (fun _ => by rw [hbase]; rfl) (fun hs => by cases hs) (by simp [Stance.stage, Point.stage]))
      (congrArg Timers.now htimers)
    · rw [hbase] at hq
      cases hq
    · rw [hi]
      rfl
    · rw [hbase]
      rfl
    · rw [htimers]
      exact h.agenda_active hi _
  · rw [hi]
    simp only [Stance.weight, Point.left]
    split <;> omega

/-! ## The sleep -/

/-- A member goes to sleep, and it will wake up by the end of the zip. -/
theorem goes_naps (hp : p = .nap) (hops : ops < Z.budget) :
    Goes Z P w (w.advance (Z.walker i).fiber ((Z.member i).spot p).machine) := by
  subst hp
  have hbase : (P.stance i).stage = .held := by rw [hi]; rfl
  set callback : Key .future := (w.futures.add .fresh).2 with hcallback
  obtain ⟨w₁, token, hprivate, hadvance, hparked⟩ := Member.naps (hZ.member i) (h.active hi) hops hcallback
  have hprivate' : (Z.party (some i)).Private w w₁ := hprivate
  have htimers : w₁.timers = w.timers := by rw [hprivate.rest]
  have hfutures : w₁.futures = w.futures := by rw [hprivate.rest]
  have hspan : (Z.member i).span = Z.span := rfl
  have hdue : (w.now.add Z.span).nanos = w.now.nanos + Z.span := by
    have hle := h.tempo.due_le hZ.level (i := i) (by rw [hbase]; rfl)
    have hfits : Z.horizon ≤ Time.limit := hZ.fits
    rw [Time.add, Time.nanos_ofNanos]
    unfold Zip.horizon at hfits
    omega
  have hnext : w₁.timers.nextId = w.timers.nextId := by rw [htimers]
  show Goes Z P w (w.advance (Z.member i).fiber _)
  rw [hadvance]
  have hnow : (w₁.timers.set (Z.member i).span (.ring callback)).1.now = w.now := by
    show w₁.timers.now = w.timers.now
    rw [htimers]
  refine .of_put (i := i) (s := .asleep callback w.timers.nextId (w.now.nanos + Z.span)) (b := P.book) ?_
    (.rest hseat hothers rfl) hnow ?_ fun _ _ => rfl
  · refine h.put ((Zip.spares_private hZ hprivate').trans
        (Zip.spares_shared Z _ _ rfl rfl (fun t ht => Timers.mem_insert.mpr (Or.inr ht)) rfl rfl))
      ⟨⟨⟨w₁.timers.now.add Z.span, w₁.timers.nextId, .ring callback⟩, Timers.mem_insert.mpr (Or.inl rfl), hnext, ?_,
        rfl⟩, token, hparked.congr rfl rfl, ?_⟩ (fun j _ g hg => ?_) (fun g hg => ?_) (fun hq => ?_) ?_ ?_
      (by rw [hprivate.rest]) (by rw [hprivate.rest]) ?_ ?_ (h.lockstep.leave rfl) (h.tempo.nap hbase callback _) hnow
    · show (w₁.timers.now.add Z.span).nanos = _
      rw [htimers]
      exact hdue
    · show ((w₁.futures.add .fresh).1.set callback _).get? callback = _
      have hnew : (w₁.futures.add .fresh).1.get? callback = some .fresh := by
        rw [hfutures, Store.get?_add, if_pos hcallback]
      rw [Store.get?_set_of_some hnew]
    · obtain ⟨c, hc⟩ := (h.cast.member j).future hg
      have hne : callback ≠ g := by
        rintro heq
        have hnone : w.futures.get? callback = none := hcallback ▸ Store.get?_next _ _
        rw [heq, hc] at hnone
        cases hnone
      show ((w₁.futures.add .fresh).1.set callback _).get? g = _
      rw [Store.get?_set, if_neg hne, hfutures, Store.get?_add_of_some _ hc, hc]
    · cases hg
      exact Or.inr (hcallback ▸ Store.get?_next _ _)
    · rw [hbase] at hq
      cases hq
    · rw [hi]
      rfl
    · rw [hbase]
      simp [Stance.stage]
    · show Agenda (w₁.timers.set (Z.member i).span (.ring callback)).1 _ _
      rw [htimers]
      exact h.agenda_post hi rfl _ _
    · exact h.ledger.progress (by rw [hbase]; simp) (by simp [Stance.stage]) (by rw [hbase]; rfl) (by rw [hbase]; rfl)
        (by rw [hbase]; rfl) (by simp [Stance.stage]) (by rw [hbase]; simp)
  · rw [hi]
    simp only [Stance.weight, Point.left]
    split <;> omega

end

end Scene

end Fibers.Rounds
