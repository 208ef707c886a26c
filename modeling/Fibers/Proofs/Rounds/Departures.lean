import Fibers.Proofs.Rounds.Turns

set_option autoImplicit false

/-! # The way out of the members

A member that has slept gives its permit back, and the first in the queue gets it. At its end its scope leaves
the arena, and the last member to end decides the zip.
-/

namespace Fibers.Rounds

open World Direct

variable {σ : Type} {n : Nat} {Z : Zip σ n} {P : Score n} {w w₁ w' : World σ} {i j : Fin n} {p p' : Point} {ops : Nat}
  {s : Stance} {b : Book n}

/-! ## What is done with a permit that is given back -/

theorem relinquish_aside {sem sem' : Semaphore (Key .future)} {k : Key .semaphore} {ticket : Nat}
    (hsem : w.semaphores.get? k = some sem) (h : sem.relinquish ticket = (sem', none)) :
    w.relinquish k ticket = { w with semaphores := w.semaphores.set k sem' } := by
  simp only [World.relinquish, semaphore_of_get hsem, h]

theorem relinquish_onward {sem sem' : Semaphore (Key .future)} {k : Key .semaphore} {ticket : Nat} {g : Key .future}
    {os : List (Nat × FutureWatcher σ)} {next : Nat} (hsem : w.semaphores.get? k = some sem)
    (h : sem.relinquish ticket = (sem', some g)) (hg : w.futures.get? g = some (.pending os next)) :
    w.relinquish k ticket = (os.map (·.2)).foldl (notifyFuture (.resolved .unit))
      { w with
        semaphores := w.semaphores.set k sem'
        futures := w.futures.set g (.settled (.resolved .unit)) } := by
  have hread : World.future { w with semaphores := w.semaphores.set k sem' } g = .pending os next := by
    show (w.futures.get? g).getD default = _
    rw [hg, Option.getD_some]
  simp only [World.relinquish, semaphore_of_get hsem, h, World.resolve, World.settle, hread, Cell.settle?]
  rfl

/-- What the semaphore of the zip does with the permit of a member. -/
theorem relinquish_score (level : Nat) (hline : i ∉ P.book.line) (hheld : i ∈ P.book.holders) :
    (P.semaphore level).relinquish i.val =
      Semaphore.handOff { P.semaphore level with holders := (P.book.holders.erase i).map (·.val) } := by
  have hwaiters : (P.semaphore level).waiters.any (·.1 == i.val) = false := by
    rw [List.any_eq_false]
    intro y hy
    obtain ⟨j, hj, rfl⟩ := List.mem_map.mp hy
    simp only [beq_iff_eq]
    exact fun heq => hline (Fin.ext heq ▸ hj)
  have herase : (P.semaphore level).holders.erase i.val = (P.book.holders.erase i).map (·.val) :=
    (List.map_erase Fin.val_injective P.book.holders).symm
  rw [Semaphore.relinquish, hwaiters, (isHeld_iff level).mpr hheld, herase]
  rfl

theorem Follows.of_old {stance stance₁ stance' : Fin n → Stance} (h : Follows stance₁ stance')
    (hold : ∀ l, (stance₁ l).stage.isBegun = true → (stance l).stage.isBegun = true) : Follows stance stance' := by
  have hfalse : ∀ l, (stance l).stage.isBegun = false → (stance₁ l).stage.isBegun = false := by
    intro l hl
    refine Bool.eq_false_iff.mpr fun htrue => ?_
    rw [hold l htrue] at hl
    cases hl
  exact ⟨fun l hl hl' => h.holding l hl (hfalse l hl'),
    fun l m hl hl' hm hm' => h.single l m hl (hfalse l hl') hm (hfalse m hm')⟩

/-! ## The first in the queue is called -/

/-- From `w` to `w'` the member `j`, which queued, has got a permit, and has less left to do. What the semaphores
are like now does not matter for it. -/
structure Called (Z : Zip σ n) (seat : Seat) (stance : Fin n → Stance) (j : Fin n) (s : Stance)
    (semaphores : Store .semaphore (Semaphore (Key .future))) (w w' : World σ) : Prop where
  semaphores : w'.semaphores = semaphores
  cast : Cast Z seat (Function.update stance j s) w'
  agenda : Agenda w'.timers (alarm seat (Function.update stance j s)) Z.horizon
  stage : s.stage = .held
  idle : s.isActive = false
  lighter : s.weight Z.budget w.now.nanos < (stance j).weight Z.budget w.now.nanos
  now : w'.now = w.now

section

variable {stance : Fin n → Stance} {seat : Seat} {grant : Key .future} {id token : Nat}
  (h : Cast Z seat stance w) (hagenda : Agenda w.timers (alarm seat stance) Z.horizon)
  (semaphores : Store .semaphore (Semaphore (Key .future)))

include h hagenda

/-- A member that is about to wait for its grant finds it there. -/
theorem called_ready (hj : stance j = .ready (.queue grant) id) :
    Called Z seat stance j (.ready (.called grant) id) semaphores w
      { w with
        semaphores
        futures := w.futures.set grant (.settled (.resolved .unit)) } := by
  have hin := h.member j
  rw [hj] at hin
  obtain ⟨⟨t, ht, hid, hdue, hawaits⟩, hfresh⟩ := hin
  refine ⟨rfl, ?_, ?_, rfl, rfl, ?_, rfl⟩
  · refine h.put (Zip.spares_shared Z _ _ rfl rfl (fun _ ht => ht) rfl rfl)
      ⟨⟨t, ht, hid, hdue, hawaits.congr rfl rfl⟩, Store.get?_set_of_some hfresh⟩ (h.apart_set (by rw [hj]; rfl) rfl)
      (fun g hg => ?_) (by rw [hj]; rfl) (by rw [hj]; simp [Stance.stage, Point.stage]) rfl
    rw [hj]
    exact Or.inl hg
  · have hsame : Function.update (alarm seat stance) (some j) (Stance.ready (.called grant) id).alarm? =
        alarm seat stance := Function.update_eq_self_iff.mpr (by rw [alarm, hj]; rfl)
    rw [alarm_put, hsame]
    exact hagenda
  · rw [hj]
    simp only [Stance.weight, Point.left]
    omega

/-- A member that waits for its grant gets a turn. -/
theorem called_waiting (hj : stance j = .waiting grant)
    (hparked : (Z.member j).Parked ((Z.member j).queuing grant) token ((Z.member j).queuing grant).machine w) :
    Called Z seat stance j (.ready .granted w.timers.nextId) semaphores w
      (World.queue { w with
        semaphores
        futures := w.futures.set grant (.settled (.resolved .unit)) }
        (.resume (Z.member j).fiber token (.program .unit))) := by
  obtain ⟨t, ht, hid, hdue, htask⟩ := queue_live
    { w with
      semaphores
      futures := w.futures.set grant (.settled (.resolved .unit)) }
    (.resume (Z.member j).fiber token (.program .unit))
  refine ⟨rfl, ?_, ?_, rfl, rfl, ?_, rfl⟩
  · exact h.put (Zip.spares_shared Z _ _ rfl rfl (fun _ => mem_queue) rfl rfl)
      ⟨⟨t, ht, hid, hdue, token, .program .unit, _, htask, ⟨hparked.fiber, hparked.scope⟩, rfl⟩, trivial⟩
      (h.apart_set (by rw [hj]; rfl) rfl) (fun g hg => by cases hg) (by rw [hj]; rfl)
      (by rw [hj]; simp [Stance.stage, Point.stage]) rfl
  · rw [alarm_put]
    exact hagenda.post (by rw [alarm, hj]; rfl) 0 _
  · rw [hj]
    simp only [Stance.weight, Point.left]
    omega

/-- The first in the queue, which does not have its turn, is called. -/
theorem calls (hgrant : (stance j).future? = some grant) (hstage : (stance j).stage = .queued)
    (hidle : (stance j).isActive = false) :
    ∃ os next s, w.futures.get? grant = some (.pending os next) ∧
      Called Z seat stance j s semaphores w ((os.map (·.2)).foldl (notifyFuture (.resolved .unit))
        { w with
          semaphores
          futures := w.futures.set grant (.settled (.resolved .unit)) }) := by
  have hin := h.member j
  cases hj : stance j with
  | active p ops =>
      rw [hj] at hidle
      cases hidle
  | gone =>
      rw [hj] at hstage
      cases hstage
  | asleep callback id due =>
      rw [hj] at hstage
      cases hstage
  | ready p id =>
      rw [hj] at hgrant hstage hin
      cases p with
      | queue grant' =>
          obtain rfl := Option.some.inj hgrant
          exact ⟨[], 0, _, hin.2, called_ready h hagenda semaphores hj⟩
      | _ => cases hstage
  | waiting grant' =>
      rw [hj] at hgrant hin
      obtain rfl := Option.some.inj hgrant
      obtain ⟨token, hparked, hpending⟩ := hin
      exact ⟨_, _, _, hpending, called_waiting h hagenda semaphores hj hparked⟩

end

/-! ## Giving a permit back -/

namespace Scene

section

/-! In `w` a member has its turn when its sleep is over. In `w₁` it has left the region of its permit, but the
semaphore does not know yet. -/

variable {timer : Nat} (hZ : Z.Sound) (h : Scene Z P w) (hi : P.stance i = .active (.rising timer) ops)
  (hprivate : (Z.party (some i)).Private w w₁)
  (hactive : (Z.member i).Active ((Z.member i).spot .given) (ops + 1) w₁)

include hi in
theorem stage_rising : (P.stance i).stage = .risen := by
  rw [hi]
  rfl

include h hi in
theorem rising_not_mem_line : i ∉ P.book.line := h.not_mem_line (by rw [stage_rising hi]; simp)

include hi in
theorem weight_given : (Stance.active .given (ops + 1)).weight Z.budget w.now.nanos <
    (P.stance i).weight Z.budget w.now.nanos := by
  rw [hi]
  simp only [Stance.weight, Point.left]
  split <;> omega

include h hi in
theorem tempo_given : Tempo Z.level Z.span Z.start P.round w.now.nanos
    (Function.update P.stance i (.active .given (ops + 1))) :=
  h.tempo.progress (fun hs => by cases hs) (fun _ => by rw [stage_rising hi]; rfl) (by simp [Stance.stage, Point.stage])

include h hi hprivate in
theorem agenda_given :
    Agenda w₁.timers (alarm P.seat (Function.update P.stance i (.active .given (ops + 1)))) Z.horizon := by
  rw [show w₁.timers = w.timers by rw [hprivate.rest]]
  exact h.agenda_active hi _

include hZ h hi hprivate hactive

theorem cast_given : Cast Z P.seat (Function.update P.stance i (.active .given (ops + 1))) w₁ := by
  refine h.cast.put (Zip.spares_private hZ hprivate) ⟨hactive, trivial⟩ (Cast.apart_of_eq (by rw [hprivate.rest]))
    (fun g hg => by cases hg) (by rw [hi]; rfl) ?_ (by rw [hprivate.rest])
  rw [stage_rising hi]
  simp [Stance.stage, Point.stage]

/-- Nobody waits for the permit. -/
theorem goes_back_aside (hseat : P.seat.isActive = false) (hothers : ∀ j, j ≠ i → (P.stance j).isActive = false)
    (hqueue : P.book.line = []) :
    Goes Z P w ⟨w₁.relinquish Z.permits i.val, some ((Z.walker i).fiber, ((Z.member i).spot .given).machine)⟩ := by
  have hbase := stage_rising hi
  have hline := h.rising_not_mem_line hi
  have hsemaphores : w₁.semaphores = w.semaphores := by rw [hprivate.rest]
  have hnow : w₁.now = w.now := congrArg Timers.now (show w₁.timers = w.timers by rw [hprivate.rest])
  have hagenda := h.agenda_given hi hprivate
  have hrelinquish := relinquish_score Z.level hline ((h.ledger.holders i).mpr (by rw [hbase]; rfl))
  rw [Semaphore.handOff, show (P.semaphore Z.level).waiters = [] by simp [Score.semaphore, hqueue]] at hrelinquish
  dsimp only at hrelinquish
  rw [relinquish_aside (hsemaphores ▸ h.permits) hrelinquish]
  refine @Goes.of_put _ _ _ _ _ i (.active .given (ops + 1))
    { P.book with
      holders := P.book.holders.erase i
      available := P.book.available + 1 } _ ?_ (.advance hseat hothers) hnow (weight_given hi)
    fun _ hs => by rw [hbase] at hs; cases hs
  refine h.record ((Zip.spares_private hZ hprivate).trans (Zip.spares_shared Z _ _ rfl rfl (fun _ ht => ht) rfl rfl))
    ⟨hactive.congr rfl rfl, trivial⟩ (Cast.apart_of_eq (by rw [hprivate.rest])) (fun g hg => by cases hg)
    (by rw [hi]; rfl) ?_ (by rw [hprivate.rest]) ?_ hagenda (h.ledger.putBack hbase hqueue)
    (h.lockstep.leave rfl) (h.tempo_given hi) hnow
  · rw [hbase]
    simp [Stance.stage, Point.stage]
  · refine (h.get?_permits hsemaphores _).trans (congrArg some ?_)
    simp only [Score.semaphore, Score.put, Score.note, waiters_put fun hmem => absurd hmem hline]
    rw [hqueue]
    rfl

/-- The first in the queue gets the permit. -/
theorem goes_back_onward (hseat : P.seat.isActive = false) (hothers : ∀ j, j ≠ i → (P.stance j).isActive = false)
    {rest : List (Fin n)} (hqueue : P.book.line = j :: rest) :
    Goes Z P w ⟨w₁.relinquish Z.permits i.val, some ((Z.walker i).fiber, ((Z.member i).spot .given).machine)⟩ := by
  have hbase := stage_rising hi
  have hline := h.rising_not_mem_line hi
  have hsemaphores : w₁.semaphores = w.semaphores := by rw [hprivate.rest]
  have hnow : w₁.now = w.now := congrArg Timers.now (show w₁.timers = w.timers by rw [hprivate.rest])
  have hj : (P.stance j).stage = .queued := (h.ledger.line j).mp (by rw [hqueue]; exact List.mem_cons_self)
  have hji : j ≠ i := fun heq => hline (by rw [hqueue, heq]; exact List.mem_cons_self)
  have hirest : i ∉ rest := fun hmem => hline (by rw [hqueue]; exact List.mem_cons_of_mem j hmem)
  have hjrest : j ∉ rest := fun hmem => by
    have hsorted := h.ledger.sorted
    rw [hqueue, List.pairwise_cons] at hsorted
    exact absurd (hsorted.1 j hmem) (lt_irrefl j)
  obtain ⟨grant, hgrant⟩ := future_of_queued hj
  have hrelinquish := relinquish_score Z.level hline ((h.ledger.holders i).mpr (by rw [hbase]; rfl))
  have hsem : w₁.semaphores.get? Z.permits = some (P.semaphore Z.level) := hsemaphores ▸ h.permits
  rw [Semaphore.handOff] at hrelinquish
  simp only [Score.semaphore, hqueue, List.map_cons, hgrant, Option.getD_some] at hrelinquish hsem
  set stance₁ : Fin n → Stance := Function.update P.stance i (.active .given (ops + 1)) with hstance₁
  have hsame : stance₁ j = P.stance j := Function.update_of_ne hji _ _
  obtain ⟨os, next, s, hpending, hcalled⟩ := calls (h.cast_given hZ hi hprivate hactive) (h.agenda_given hi hprivate)
    (w₁.semaphores.set Z.permits _) (j := j) ((congrArg Stance.future? hsame).trans hgrant)
    ((congrArg Stance.stage hsame).trans hj) ((congrArg Stance.isActive hsame).trans (hothers j hji))
  rw [← relinquish_onward hsem hrelinquish hpending] at hcalled
  refine ⟨((P.put i (.active .given (ops + 1))).put j s).note
    { P.book with
      line := rest
      holders := j :: P.book.holders.erase i }, ⟨hcalled.cast, ?_, hcalled.agenda, ?_, ?_, ?_⟩, ?_, ?_, ?_,
    Or.inl (hcalled.now.trans hnow)⟩
  · rw [hcalled.semaphores, Store.get?_set_of_some hsem]
    simp only [Score.semaphore, Score.put, Score.note, List.map_cons, waiters_put fun hmem => absurd hmem hjrest,
      waiters_put fun hmem => absurd hmem hirest]
  · show Ledger Z.level (fun l => (Function.update stance₁ j s l).stage) _
    rw [stage_update, stage_update, hcalled.stage]
    exact h.ledger.handOff hbase hqueue
  · refine (h.lockstep.leave (j := i) (s := .active .given (ops + 1)) rfl).leave ?_
    rw [Stance.base?_eq_none, hcalled.stage]
    rfl
  · show Tempo Z.level Z.span Z.start P.round (w₁.relinquish Z.permits i.val).now.nanos (Function.update stance₁ j s)
    rw [hcalled.now, hnow]
    refine (h.tempo_given hi).progress (fun _ => ?_) (fun hs => ?_) ?_
    · rw [← hstance₁, hsame, hj]
      rfl
    · rw [hcalled.stage] at hs
      cases hs
    · rw [hcalled.stage]
      simp
  · refine .member (i := i) (show Function.update stance₁ j s i = .active .given (ops + 1) from ?_) hseat fun l hl => ?_
    · rw [Function.update_of_ne hji.symm, hstance₁, Function.update_self]
    · show (Function.update stance₁ j s l).isActive = false
      rw [Function.update_apply]
      split
      · exact hcalled.idle
      · rw [hstance₁, Function.update_of_ne hl]
        exact hothers l hl
  · show _ + ∑ l, _ < _
    dsimp only
    rw [hcalled.now, hnow]
    refine Nat.add_lt_add_left (lt_trans (sum_put_lt ?_) (sum_put_lt (weight_given hi))) _
    rw [← hnow]
    exact hcalled.lighter
  · refine (follows_put fun _ _ => by rw [hcalled.stage]; rfl).of_old fun l hl => ?_
    by_cases hli : l = i
    · rw [hli, hbase]
      rfl
    · rw [← show stance₁ l = P.stance l from Function.update_of_ne hli _ _]
      exact hl

end

/-- A member gives its permit back. -/
theorem goes_back {timer : Nat} (hZ : Z.Sound) (h : Scene Z P w) (hi : P.stance i = .active (.rising timer) ops)
    (hseat : P.seat.isActive = false) (hothers : ∀ j, j ≠ i → (P.stance j).isActive = false) (hops : ops < Z.budget) :
    Goes Z P w (w.advance (Z.walker i).fiber ((Z.member i).spot (.rising timer)).machine) := by
  obtain ⟨w₁, hprivate, hadvance, hactive⟩ := Member.givesBack (hZ.member i) (h.active hi) hops
  show Goes Z P w (w.advance (Z.member i).fiber _)
  rw [hadvance]
  show Goes Z P w ⟨w₁.relinquish Z.permits i.val, some ((Z.walker i).fiber, ((Z.member i).spot .given).machine)⟩
  cases hqueue : P.book.line with
  | nil => exact h.goes_back_aside hZ hi hprivate hactive hseat hothers hqueue
  | cons j rest => exact h.goes_back_onward hZ hi hprivate hactive hseat hothers hqueue

end Scene

/-! ## Leaving the arena -/

/-- While members are left the arena is open. -/
theorem Host.In.arena {k : Host σ} {fs : List (Nat × Finalizer σ)} {seat : Seat} (h : k.In fs w seat)
    (htold : seat.isTold = false) : w.scopes.get? k.scope = some (k.nestAt (k.spot fs .asking)) := by
  cases seat with
  | active p ops =>
      have hscope := (show k.Active (k.spot fs p) ops w from h).scope
      cases p <;> first | exact hscope | cases htold
  | ready p id =>
      obtain ⟨t, -, -, -, token, r, m, -, hparked, -⟩ := h
      cases p <;> first | exact hparked.scope | cases htold
  | waiting token => exact Walker.Parked.scope h

/-- While members are left, finalizers may leave the arena. -/
theorem Host.In.lose {k : Host σ} {fs fs' : List (Nat × Finalizer σ)} {seat : Seat} (h : k.In fs w seat)
    (htold : seat.isTold = false) (hfiber : w'.fibers.get? k.fiber = w.fibers.get? k.fiber)
    (hscope : w'.scopes.get? k.scope = some (k.nestAt (k.spot fs' .asking))) (htimers : w'.timers = w.timers) :
    k.In fs' w' seat := by
  cases seat with
  | active p ops =>
      obtain ⟨token, hget⟩ := Walker.Active.fiber h
      cases p <;> first | exact ⟨⟨token, hfiber.trans hget⟩, hscope⟩ | cases htold
  | ready p id =>
      obtain ⟨t, ht, hid, hdue, token, r, m, htask, ⟨⟨next, hget⟩, -⟩, hm⟩ := h
      have hlive : t ∈ w'.timers.live := htimers ▸ ht
      have hnow : t.deadline = w'.now := hdue.trans (congrArg Timers.now htimers.symm)
      cases p <;> first
        | exact ⟨t, hlive, hid, hnow, token, r, m, htask, ⟨⟨next, hfiber.trans hget⟩, hscope⟩, hm⟩
        | cases htold
  | waiting token =>
      obtain ⟨next, hget⟩ := Walker.Parked.fiber h
      exact ⟨⟨next, hfiber.trans hget⟩, hscope⟩

/-- As long as somebody is left, some are. -/
theorem left_pos {stance : Fin n → Stance} (hi : (stance i).stage ≠ .gone) : 0 < left stance :=
  Finset.card_pos.mpr ⟨i, Finset.mem_filter.mpr ⟨Finset.mem_univ i, hi⟩⟩

theorem Seat.Fits.not_told {seat : Seat} {stance : Fin n → Stance} (h : seat.Fits (left stance))
    (hi : (stance i).stage ≠ .gone) : seat.isTold = false := by
  refine Bool.eq_false_iff.mpr fun htold => ?_
  have := left_pos hi
  have := h.told htold
  omega

namespace Scene

section

variable (hZ : Z.Sound) (h : Scene Z P w) (hi : P.stance i = .active p ops) (hseat : P.seat.isActive = false)
  (hothers : ∀ j, j ≠ i → (P.stance j).isActive = false)

include hZ h hi hseat hothers

/-- A member asks for the close of its scope, which leaves the arena. -/
theorem goes_leaves (hp : p = .close) (hops : ops < Z.budget) :
    Goes Z P w (w.advance (Z.walker i).fiber ((Z.member i).spot p).machine) := by
  subst hp
  have hbase : (P.stance i).stage = .freed := by rw [hi]; rfl
  obtain ⟨fs, hhost, hfs⟩ := h.cast.host
  have htold : P.seat.isTold = false := h.cast.fits.not_told (i := i) (by rw [hbase]; simp)
  obtain ⟨w', hadvance, hactive, hfibers, hscopes, harena, hrest⟩ :=
    Member.closes (hZ.member i) (h.active hi) hops (Z.host.nestAt (Z.host.spot fs .asking)) (hhost.arena htold)
  have htimers : w'.timers = w.timers := by rw [hrest]
  have hnow : w'.now = w.now := congrArg Timers.now htimers
  have hfiber : ∀ x, x ≠ some i → w'.fibers.get? (Z.party x).fiber = w.fibers.get? (Z.party x).fiber :=
    fun x hx => hfibers _ fun heq => hx (hZ.fibers x (some i) heq)
  have hcount : left (Function.update P.stance i (.active (.door .asked) (ops + 1))) = left P.stance := by
    refine left_congr fun j => ?_
    rw [Function.update_apply]
    split
    · rename_i hji
      rw [hji, hbase]
      rfl
    · rfl
  have hcast : Cast Z P.seat (Function.update P.stance i (.active (.door .asked) (ops + 1))) w' := by
    refine h.cast.depart rfl ⟨hactive, trivial⟩ (fun j hji => ?_) (by rw [hrest])
      (hhost.lose htold (hfiber none (by simp)) harena htimers) (fun x hx => ?_) ?_ ?_ ?_ (by rw [hrest])
    · have hj : some j ≠ some i := fun heq => hji (Option.some.inj heq)
      exact ⟨hfiber (some j) hj, hscopes _ (fun heq => hj (hZ.scopes (some j) (some i) heq))
        (fun heq => absurd (hZ.scopes (some j) none heq) (by simp)), fun t ht _ => htimers ▸ ht, hnow⟩
    · obtain ⟨hx, hxi⟩ := List.mem_filter.mp hx
      obtain ⟨j, hxj, hj⟩ := hfs x hx
      refine ⟨j, ?_, hxj, hj⟩
      rintro rfl
      rw [hxj, bne_iff_ne] at hxi
      exact hxi rfl
    · rw [hcount, show w'.tallies = w.tallies by rw [hrest]]
      exact h.cast.tally
    · rw [hcount]
      exact h.cast.fits
    · rw [World.scope, hscopes _ (hZ.outside (some i)).symm (hZ.outside none).symm]
      exact h.cast.home
  show Goes Z P w (w.advance (Z.member i).fiber _)
  rw [hadvance]
  refine @Goes.of_put _ _ _ _ _ i (.active (.door .asked) (ops + 1)) P.book _ ?_ (.advance hseat hothers) hnow ?_
    fun _ hs => by rw [hbase] at hs; cases hs
  · refine h.depart hbase (Or.inl rfl) hcast (by rw [hrest]) ?_ hnow
    rw [htimers]
    exact h.agenda_active hi _
  · rw [hi]
    simp only [Stance.weight, Point.left, Door.left]
    split <;> omega

end

end Scene

end Fibers.Rounds
