import Fibers.Proofs.Rounds.Hosting

set_option autoImplicit false

/-! # Between the turns

Between two turns the driver takes the first task. It belongs to the fiber that zips or to a member: somebody
waits for a task as long as the zip is not over (`Scene.exists_alarm`). If the task is due, a turn begins or a
member wakes up; if not, nobody has anything to do, and the clock jumps to the next round.
-/

namespace Fibers.Rounds

open World Direct

variable {σ : Type} {n : Nat} {Z : Zip σ n} {P : Score n} {w w₁ w' : World σ} {i j : Fin n} {x : Option (Fin n)}
  {t u : Timer (Task σ)} {rest : List (Timer (Task σ))}

namespace Scene

section

variable (hZ : Z.Sound) (h : Scene Z P w) (hseat : P.seat.isActive = false)
  (hidle : ∀ i, (P.stance i).isActive = false)

include h

/-! ## The tasks -/

/-- The task of a party is in the queue. -/
theorem task_of_alarm {id : Nat} (hx : alarm P.seat P.stance x = some id) : ∃ t ∈ w.timers.live, t.id = id := by
  cases x with
  | none =>
      obtain ⟨fs, hin, -⟩ := h.cast.host
      cases hs : P.seat with
      | ready p id' =>
          rw [alarm, hs] at hx
          cases hx
          rw [hs] at hin
          obtain ⟨t, ht, hid, -⟩ := hin
          exact ⟨t, ht, hid⟩
      | _ =>
          rw [alarm, hs] at hx
          cases hx
  | some i =>
      have hin := h.cast.member i
      cases hs : P.stance i with
      | ready p id' =>
          rw [alarm, hs] at hx
          cases hx
          rw [hs] at hin
          obtain ⟨⟨t, ht, hid, -⟩, -⟩ := hin
          exact ⟨t, ht, hid⟩
      | asleep callback id' due =>
          rw [alarm, hs] at hx
          cases hx
          rw [hs] at hin
          obtain ⟨⟨t, ht, hid, -⟩, -⟩ := hin
          exact ⟨t, ht, hid⟩
      | _ =>
          rw [alarm, hs] at hx
          cases hx

/-- The fiber that has its next turn from the first task. -/
theorem host_awaits {p : Post} {id : Nat} (hs : P.seat = .ready p id) (ht : t ∈ w.timers.live) (hid : t.id = id) :
    t.deadline = w.now ∧ ∃ fs, Z.host.Awaits (Z.host.spot fs p) t w ∧
      ∀ x ∈ fs, ∃ i : Fin n, x.1 = i.val ∧ (P.stance i).isWithin = true := by
  obtain ⟨fs, hin, hfs⟩ := h.cast.host
  rw [hs] at hin
  obtain ⟨t', ht', hid', hdue, hawaits⟩ := hin
  obtain rfl := h.agenda.eq_of_id ht ht' (hid.trans hid'.symm)
  exact ⟨hdue, fs, hawaits, hfs⟩

theorem member_awaits {p : Point} {id : Nat} (hs : P.stance i = .ready p id) (ht : t ∈ w.timers.live)
    (hid : t.id = id) :
    t.deadline = w.now ∧ (Z.member i).Awaits ((Z.member i).spot p) t w ∧ p.Heard w := by
  have hin := h.cast.member i
  rw [hs] at hin
  obtain ⟨⟨t', ht', hid', hdue, hawaits⟩, hheard⟩ := hin
  obtain rfl := h.agenda.eq_of_id ht ht' (hid.trans hid'.symm)
  exact ⟨hdue, hawaits, hheard⟩

theorem member_sleeps {callback : Key .future} {id due : Nat} (hs : P.stance i = .asleep callback id due)
    (ht : t ∈ w.timers.live) (hid : t.id = id) :
    t.deadline.nanos = due ∧ t.task = .ring callback ∧
      ∃ token, (Z.member i).Parked ((Z.member i).spot (.awake id)) token (Z.member i).dozing w ∧
        w.futures.get? callback = some (.pending [(0, .wake ⟨(Z.walker i).fiber, token⟩)] 1) := by
  have hin := h.cast.member i
  rw [hs] at hin
  obtain ⟨⟨t', ht', hid', hdue, htask⟩, hparked⟩ := hin
  obtain rfl := h.agenda.eq_of_id ht ht' (hid.trans hid'.symm)
  exact ⟨hdue, htask, hparked⟩

include hZ

/-- The task of a party is due by the end of the zip. -/
theorem due_of_alarm (ht : t ∈ w.timers.live) (hx : alarm P.seat P.stance x = some t.id) :
    t.deadline.nanos ≤ Z.horizon := by
  cases x with
  | none =>
      cases hs : P.seat with
      | ready p id =>
          rw [alarm, hs] at hx
          rw [(h.host_awaits hs ht (Option.some.inj hx).symm).1]
          exact h.tempo.now_le hZ.level
      | _ =>
          rw [alarm, hs] at hx
          cases hx
  | some i =>
      cases hs : P.stance i with
      | ready p id =>
          rw [alarm, hs] at hx
          rw [(h.member_awaits hs ht (Option.some.inj hx).symm).1]
          exact h.tempo.now_le hZ.level
      | asleep callback id due =>
          rw [alarm, hs] at hx
          rw [(h.member_sleeps hs ht (Option.some.inj hx).symm).1]
          exact h.tempo.asleep_le hZ.level hs
      | _ =>
          rw [alarm, hs] at hx
          cases hx

include hseat hidle

/-- Somebody waits for a task. -/
theorem exists_alarm : ∃ x id, alarm P.seat P.stance x = some id := by
  by_contra hnone
  simp only [not_exists] at hnone
  -- all that are left would queue for a permit that nobody has
  have hstill : ∀ i, (∃ grant, P.stance i = .waiting grant) ∨ P.stance i = .gone := by
    intro i
    cases hs : P.stance i with
    | waiting grant => exact Or.inl ⟨grant, rfl⟩
    | gone => exact Or.inr rfl
    | active p ops =>
        have := hidle i
        rw [hs] at this
        cases this
    | ready p id => exact absurd (by rw [alarm, hs]; rfl) (hnone (some i) id)
    | asleep callback id due => exact absurd (by rw [alarm, hs]; rfl) (hnone (some i) id)
  have hpos : 0 < left P.stance := by
    cases hs : P.seat with
    | waiting token => exact h.cast.fits.waiting token hs
    | active p ops =>
        rw [hs] at hseat
        cases hseat
    | ready p id => exact absurd (by rw [alarm, hs]; rfl) (hnone none id)
  obtain ⟨i, hi⟩ := Finset.card_pos.mp hpos
  have hgone := (Finset.mem_filter.mp hi).2
  have hqueued : (P.stance i).stage = .queued := by
    rcases hstill i with ⟨grant, hs⟩ | hs
    · rw [hs]
      rfl
    · rw [hs] at hgone
      exact absurd rfl hgone
  have hfull : P.book.available = 0 := h.ledger.idle (List.ne_nil_of_mem ((h.ledger.line i).mpr hqueued))
  have hlength : 0 < P.book.holders.length := by
    have := h.ledger.balance
    have := hZ.level
    omega
  obtain ⟨l, hl⟩ := List.exists_mem_of_length_pos hlength
  have hholding := (h.ledger.holders l).mp hl
  rcases hstill l with ⟨grant, hs⟩ | hs
  · rw [hs] at hholding
    cases hholding
  · rw [hs] at hholding
    cases hholding

/-- The first task belongs to a party, and no task of a party is due before it. -/
theorem exists_first : ∃ t rest x, w.timers.live = t :: rest ∧ alarm P.seat P.stance x = some t.id := by
  obtain ⟨y, id, hy⟩ := h.exists_alarm hZ hseat hidle
  obtain ⟨u, hu, rfl⟩ := h.task_of_alarm hy
  cases hlive : w.timers.live with
  | nil =>
      rw [hlive] at hu
      cases hu
  | cons t rest =>
      obtain ⟨-, x, hx⟩ := h.agenda.owner hlive hu (h.due_of_alarm hZ hu hy)
      exact ⟨t, rest, x, rfl, hx⟩

end

/-! ## A task that is due -/

/-- A task is taken out of the queue, which is that of another party. -/
theorem spares_pop (h : Scene Z P w) (hlive : w.timers.live = t :: rest) (hx : alarm P.seat P.stance x = some t.id) :
    Z.Spares (alarm P.seat P.stance) x w (w.withQueue rest) := by
  refine ⟨fun y hy => ⟨rfl, rfl, fun u hu hid => ?_, rfl⟩, rfl, rfl⟩
  rw [hlive] at hu
  refine (List.mem_cons.mp hu).resolve_left fun heq => hy ?_
  exact h.agenda.distinct y x t.id (heq ▸ hid) hx

theorem agenda_pop (h : Scene Z P w) (hlive : w.timers.live = t :: rest) (hx : alarm P.seat P.stance x = some t.id) :
    Agenda (w.withQueue rest).timers (Function.update (alarm P.seat P.stance) x none) Z.horizon :=
  h.agenda.pop hlive hx

section

variable (hZ : Z.Sound) (h : Scene Z P w) (hseat : P.seat.isActive = false)
  (hidle : ∀ i, (P.stance i).isActive = false) (hlive : w.timers.live = t :: rest)

include hZ h hidle hlive

/-- The fiber that zips has its next turn. -/
theorem goes_turn_host {p : Post} {id : Nat} (hs : P.seat = .ready p id) (hid : t.id = id) :
    Goes Z P w (World.begin (w.withQueue rest) t.task) := by
  have hx : alarm P.seat P.stance none = some t.id := by rw [alarm, hs, hid]; rfl
  obtain ⟨-, fs, hawaits, hfs⟩ := h.host_awaits hs (hlive ▸ List.mem_cons_self) hid
  have hawaits' : Z.host.Awaits (Z.host.spot fs p) t (w.withQueue rest) := hawaits.congr rfl rfl
  obtain ⟨w', hbegin, hactive, hprivate⟩ := hawaits'.begin
  have hprivate' : (Z.party none).Private (w.withQueue rest) w' := hprivate
  have hspares := (h.spares_pop hlive hx).trans (Zip.spares_private hZ hprivate')
  have hnow : w'.now = w.now := by
    show w'.timers.now = w.timers.now
    rw [hprivate.rest]
    rfl
  rw [hbegin, Z.host.machine_spot fs]
  refine goes_sit (h.sit (.active p 0) hactive hfs (fun j => hspares.others (some j) (by simp))
    (by rw [hprivate.rest]; rfl) ?_ ⟨fun htold => h.cast.fits.told ?_, by simp⟩ (hspares.home_open h.cast.home)
    hspares.refs (by rw [hprivate.rest]; rfl) ?_ hnow) (.host rfl hidle) hnow ?_
  · rw [show w'.tallies = w.tallies by rw [hprivate.rest]; rfl, h.cast.tally, hs]
    rfl
  · rw [hs, Seat.isTold_ready p id 0]
    exact htold
  · rw [show w'.timers = (w.withQueue rest).timers by rw [hprivate.rest], alarm_sit P.seat]
    exact h.agenda_pop hlive hx
  · rw [hs]
    simp only [Seat.weight, if_pos hZ.budget]
    omega

include hseat

/-- A member has its next turn. -/
theorem goes_turn {p : Point} {id : Nat} (hs : P.stance i = .ready p id) (hid : t.id = id) :
    Goes Z P w (World.begin (w.withQueue rest) t.task) := by
  have hx : alarm P.seat P.stance (some i) = some t.id := by rw [alarm, hs, hid]; rfl
  have hbase : (P.stance i).stage = p.stage := by rw [hs]; rfl
  obtain ⟨hdue, hawaits, hheard⟩ := h.member_awaits hs (hlive ▸ List.mem_cons_self) hid
  have hawaits' : (Z.member i).Awaits ((Z.member i).spot p) t (w.withQueue rest) := hawaits.congr rfl rfl
  obtain ⟨w', hbegin, hactive, hprivate⟩ := hawaits'.begin
  have hprivate' : (Z.party (some i)).Private (w.withQueue rest) w' := hprivate
  have hspares := (h.spares_pop hlive hx).trans (Zip.spares_private hZ hprivate')
  have hfutures : w'.futures = w.futures := by rw [hprivate.rest]; rfl
  have hnow : w'.now = w.now := by
    show w'.timers.now = w.timers.now
    rw [hprivate.rest]
    rfl
  have hordered : Timers.Ordered (t :: rest) := hlive ▸ h.agenda.ordered
  have hnext : ∀ j p' id', j ≠ i → P.stance j = .ready p' id' → id < id' := by
    intro j p' id' hj hs'
    obtain ⟨u, hu, hid'⟩ := h.task_of_alarm (show alarm P.seat P.stance (some j) = some id' by rw [alarm, hs']; rfl)
    obtain ⟨hdue', -⟩ := h.member_awaits hs' hu hid'
    have hrest : u ∈ rest := by
      rw [hlive] at hu
      refine (List.mem_cons.mp hu).resolve_left fun heq => hj ?_
      have := h.agenda.distinct (some j) (some i) t.id (by rw [alarm, hs', ← hid', heq]; rfl) hx
      exact Option.some.inj this
    have hbefore := Timer.before_iff.mp ((List.pairwise_cons.mp hordered).1 u hrest)
    rw [hdue, hdue'] at hbefore
    omega
  show Goes Z P w (World.begin (w.withQueue rest) t.task)
  rw [hbegin]
  refine .of_put (i := i) (s := .active p 0) (b := P.book) ?_ (.advance hseat fun j _ => hidle j) hnow ?_ ?_
  · refine h.put hspares ⟨hactive, hheard.congr 0 fun g _ => by rw [hfutures]⟩ (Cast.apart_of_eq hfutures)
      (fun g hg => ?_) (fun _ => ?_) ?_ ?_ (by rw [hprivate.rest]; rfl) (by rw [hprivate.rest]; rfl) ?_ ?_
      (h.lockstep.begin hs (fun j p' ops hj => ?_) hnext)
      (h.tempo.progress (fun hearly => ?_) (fun hlate => ?_) p.stage_ne_asleep) hnow
    · rw [hs, Stance.future_ready p id 0]
      exact Or.inl hg
    · rw [hs]
      exact (Stance.future_ready p id 0).symm
    · rw [hs]
      exact (Stance.isWithin_ready p id 0).symm
    · rw [hbase]
      rfl
    · rw [show w'.timers = (w.withQueue rest).timers by rw [hprivate.rest], alarm_put]
      exact h.agenda_pop hlive hx
    · have hsame : Function.update (fun j => (P.stance j).stage) i (Stance.active p 0).stage =
          fun j => (P.stance j).stage :=
        Function.update_eq_self_iff.mpr hbase.symm
      rw [hsame]
      exact h.ledger
    · have := hidle j
      rw [hj] at this
      cases this
    · rw [hbase]
      exact hearly
    · rw [hbase]
      exact hlate
  · rw [hs]
    simp only [Stance.weight, if_pos hZ.budget]
    omega
  · intro hbegun hnot
    rw [hbase] at hnot
    rw [show (Stance.active p 0).stage = p.stage from rfl, hnot] at hbegun
    cases hbegun

omit hZ in
/-- A member wakes up, and its next turn is put into the queue. -/
theorem goes_wakes {callback : Key .future} {id due : Nat} (hs : P.stance i = .asleep callback id due) (hid : t.id = id)
    (hdue : t.deadline.nanos ≤ w.now.nanos) : Goes Z P w (World.begin (w.withQueue rest) t.task) := by
  have hx : alarm P.seat P.stance (some i) = some t.id := by rw [alarm, hs, hid]; rfl
  have hbase : (P.stance i).stage = .asleep := by rw [hs]; rfl
  have hfuture : (P.stance i).future? = some callback := by rw [hs]; rfl
  obtain ⟨hdue', htask, token, hparked, hpending⟩ := h.member_sleeps hs (hlive ▸ List.mem_cons_self) hid
  set wₛ : World σ := { w.withQueue rest with futures := w.futures.set callback (.settled (.resolved .unit)) } with hwₛ
  have hbegin : World.begin (w.withQueue rest) t.task =
      ⟨wₛ.queue (.resume (Z.walker i).fiber token (.program .unit)), none⟩ := by
    have hread : (w.withQueue rest).future callback = .pending [(0, .wake ⟨(Z.walker i).fiber, token⟩)] 1 := by
      show (w.futures.get? callback).getD default = _
      rw [hpending, Option.getD_some]
    rw [htask]
    simp only [World.begin, World.resolve, World.settle, hread, Cell.settle?]
    rfl
  obtain ⟨u, hu, huid, hudue, hutask⟩ := queue_live wₛ (.resume (Z.walker i).fiber token (.program .unit))
  have hspares : Z.Spares (alarm P.seat P.stance) (some i) w
      (wₛ.queue (.resume (Z.walker i).fiber token (.program .unit))) :=
    (h.spares_pop hlive hx).trans (Zip.spares_shared Z _ _ rfl rfl (fun _ hu => mem_queue (w := wₛ) hu) rfl rfl)
  rw [hbegin]
  refine .of_put (i := i) (s := .ready (.awake id) w.timers.nextId) (b := P.book) ?_
    (.rest hseat (fun j _ => hidle j) rfl) rfl ?_ fun _ _ => rfl
  · refine h.put hspares ⟨⟨u, hu, huid, hudue, token, .program .unit, _, hutask, hparked.congr rfl rfl, rfl⟩, trivial⟩
      (h.cast.apart_set hfuture rfl) (fun g hg => by cases hg) (fun hq => ?_) ?_ ?_ rfl rfl ?_ ?_ (h.lockstep.leave rfl)
      (h.tempo.rise hs (hdue' ▸ hdue) rfl) rfl
    · rw [hbase] at hq
      cases hq
    · rw [hs]
      rfl
    · rw [hbase]
      simp [Stance.stage, Point.stage]
    · have hnone : Function.update (alarm P.seat P.stance) (some i) none (some i) = none := Function.update_self _ _ _
      have hpost := (h.agenda_pop hlive hx).post hnone 0 (.resume (Z.walker i).fiber token (.program .unit) : Task σ)
      rw [Function.update_idem] at hpost
      rw [alarm_put]
      exact hpost
    · exact h.ledger.progress (by rw [hbase]; simp) (by simp [Stance.stage, Point.stage]) (by rw [hbase]; rfl)
        (by rw [hbase]; rfl) (by rw [hbase]; rfl) (by simp [Stance.stage, Point.stage]) (by rw [hbase]; simp)
  · rw [hs]
    simp only [Stance.weight, Point.left]
    omega

end

/-! ## Waiting for the clock -/

section

variable (hZ : Z.Sound) (h : Scene Z P w) (hseat : P.seat.isActive = false)
  (hidle : ∀ i, (P.stance i).isActive = false)
  (hrest : ∀ t ∈ w.timers.live, w.now.nanos < t.deadline.nanos)

include h hidle hrest

/-- With no task due, a member waits for a permit, sleeps, or has ended. -/
theorem at_rest (i : Fin n) : (∃ grant, P.stance i = .waiting grant) ∨
    (∃ callback id due, P.stance i = .asleep callback id due ∧ w.now.nanos < due) ∨ P.stance i = .gone := by
  cases hs : P.stance i with
  | waiting grant => exact Or.inl ⟨grant, rfl⟩
  | gone => exact Or.inr (Or.inr rfl)
  | active p ops =>
      have := hidle i
      rw [hs] at this
      cases this
  | ready p id =>
      obtain ⟨t, ht, hid⟩ := h.task_of_alarm (show alarm P.seat P.stance (some i) = some id by rw [alarm, hs]; rfl)
      have hlater := hrest t ht
      rw [(h.member_awaits hs ht hid).1] at hlater
      exact absurd hlater (lt_irrefl _)
  | asleep callback id due =>
      obtain ⟨t, ht, hid⟩ := h.task_of_alarm (show alarm P.seat P.stance (some i) = some id by rw [alarm, hs]; rfl)
      have hlater := hrest t ht
      rw [(h.member_sleeps hs ht hid).1] at hlater
      exact Or.inr (Or.inl ⟨callback, id, due, rfl, hlater⟩)

/-- With no task due, nobody has anything to do. -/
theorem quiet : Tempo.Quiet w.now.nanos P.stance := by
  refine ⟨fun i => ?_, fun i callback id due hs => ?_⟩
  · rcases h.at_rest hidle hrest i with ⟨grant, hs⟩ | ⟨callback, id, due, hs, -⟩ | hs <;> rw [hs]
    · exact Or.inl rfl
    · exact Or.inr (Or.inl rfl)
    · exact Or.inr (Or.inr rfl)
  · rcases h.at_rest hidle hrest i with ⟨grant, hs'⟩ | ⟨callback', id', due', hs', hlater⟩ | hs' <;>
      cases hs.symm.trans hs'
    exact hlater

omit hidle in
include hseat in
/-- With no task due, the fiber that zips waits for the members. -/
theorem seat_waits : ∃ token, P.seat = .waiting token := by
  cases hs : P.seat with
  | waiting token => exact ⟨token, rfl⟩
  | active p ops =>
      rw [hs] at hseat
      cases hseat
  | ready p id =>
      obtain ⟨t, ht, hid⟩ := h.task_of_alarm (show alarm P.seat P.stance none = some id by rw [alarm, hs]; rfl)
      have hlater := hrest t ht
      rw [(h.host_awaits hs ht hid).1] at hlater
      exact absurd hlater (lt_irrefl _)

include hseat in
/-- Nothing happens to anybody while the clock advances. -/
theorem cast_pass (instant : Time) :
    Cast Z P.seat P.stance { w with timers := w.timers.advanceTo instant } := by
  refine ⟨?_, fun j => ?_, h.cast.apart, h.cast.tally, h.cast.fits, h.cast.home, h.cast.refs⟩
  · obtain ⟨token, hs⟩ := h.seat_waits hseat hrest
    obtain ⟨fs, hin, hfs⟩ := h.cast.host
    rw [hs] at hin ⊢
    exact ⟨fs, Walker.Parked.congr hin rfl rfl, hfs⟩
  · have hin := h.cast.member j
    rcases h.at_rest hidle hrest j with ⟨grant, hj⟩ | ⟨callback, id, due, hj, -⟩ | hj <;> rw [hj] at hin ⊢
    · obtain ⟨token, hparked, hgrant⟩ := hin
      exact ⟨token, hparked.congr rfl rfl, hgrant⟩
    · obtain ⟨htask, token, hparked, hcallback⟩ := hin
      exact ⟨htask, token, hparked.congr rfl rfl, hcallback⟩
    · exact hin

include hZ hseat

/-- The clock jumps to the next round. -/
theorem goes_pass {callback : Key .future} {id due : Nat} (hs : P.stance i = .asleep callback id due)
    (ht : t ∈ w.timers.live) (hid : t.id = id) :
    Goes Z P w ⟨{ w with timers := w.timers.advanceTo t.deadline }, none⟩ := by
  have hquiet := h.quiet hidle hrest
  obtain ⟨rfl, htask, -⟩ := h.member_sleeps hs ht hid
  have hlater := hquiet.later i _ _ _ hs
  have hnow : (w.timers.advanceTo t.deadline).now = t.deadline := by
    show Time.latest w.now t.deadline = _
    simp only [Time.latest, if_pos (le_of_lt hlater)]
  refine ⟨{ P with round := P.round + 1 }, ⟨h.cast_pass hseat hidle hrest t.deadline, h.permits, h.agenda.congr rfl rfl,
    h.ledger, h.lockstep, ?_⟩, .idle hseat hidle, ?_, .refl _, Or.inr ⟨hseat, hidle, hrest⟩⟩
  · show Tempo _ _ _ _ (w.timers.advanceTo t.deadline).now.nanos _
    rw [hnow]
    exact h.tempo.pass hZ.level h.ledger hquiet hs
  · show P.seat.weight Z.budget + ∑ j, (P.stance j).weight Z.budget (w.timers.advanceTo t.deadline).now.nanos < _
    rw [hnow]
    refine Nat.add_lt_add_left (Finset.sum_lt_sum (fun j _ => ?_) ⟨i, Finset.mem_univ i, ?_⟩) _
    · cases P.stance j with
      | asleep callback' id' due' =>
          simp only [Stance.weight]
          split <;> split <;> omega
      | _ => exact le_refl _
    · rw [hs]
      simp only [Stance.weight, if_pos hlater, lt_irrefl, if_false]
      omega

end

section

variable (hZ : Z.Sound) (h : Scene Z P w) (hseat : P.seat.isActive = false)
  (hidle : ∀ i, (P.stance i).isActive = false) (hlive : w.timers.live = t :: rest)
  (hx : alarm P.seat P.stance x = some t.id)

include hZ h hseat hidle hlive hx

/-- The first task is due, and whoever it belongs to gets it. -/
theorem goes_due (hdue : t.deadline.nanos ≤ w.now.nanos) : Goes Z P w (World.begin (w.withQueue rest) t.task) := by
  cases x with
  | none =>
      cases hs : P.seat with
      | ready p id =>
          rw [alarm, hs] at hx
          exact h.goes_turn_host hZ hidle hlive hs (Option.some.inj hx).symm
      | _ =>
          rw [alarm, hs] at hx
          cases hx
  | some i =>
      cases hs : P.stance i with
      | ready p id =>
          rw [alarm, hs] at hx
          exact h.goes_turn hZ hseat hidle hlive hs (Option.some.inj hx).symm
      | asleep callback id due =>
          rw [alarm, hs] at hx
          exact h.goes_wakes hseat hidle hlive hs (Option.some.inj hx).symm hdue
      | _ =>
          rw [alarm, hs] at hx
          cases hx

/-- The first task is due later; it is that of a member that sleeps. -/
theorem goes_later (hlater : w.now.nanos < t.deadline.nanos) :
    Goes Z P w ⟨{ w with timers := w.timers.advanceTo t.deadline }, none⟩ := by
  have hrest : ∀ u ∈ w.timers.live, w.now.nanos < u.deadline.nanos := fun u hu =>
    lt_of_lt_of_le hlater ((hlive ▸ h.agenda.ordered : Timers.Ordered (t :: rest)).deadline_le (hlive ▸ hu))
  cases x with
  | none =>
      obtain ⟨token, hs⟩ := h.seat_waits hseat hrest
      rw [alarm, hs] at hx
      cases hx
  | some i =>
      rcases h.at_rest hidle hrest i with ⟨grant, hs⟩ | ⟨callback, id, due, hs, -⟩ | hs <;> rw [alarm, hs] at hx
      · cases hx
      · exact h.goes_pass hZ hseat hidle hrest hs (hlive ▸ List.mem_cons_self) (Option.some.inj hx).symm
      · cases hx

end

/-- Between the turns every tick leads to another scene. -/
theorem goes_idle (hZ : Z.Sound) (h : Scene Z P w) (hseat : P.seat.isActive = false)
    (hidle : ∀ i, (P.stance i).isActive = false) : Goes Z P w (Moment.tick ⟨w, none⟩) := by
  obtain ⟨t, rest, x, hlive, hx⟩ := h.exists_first hZ hseat hidle
  simp only [Moment.tick, hlive]
  split
  · rename_i hdue
    exact h.goes_due hZ hseat hidle hlive hx hdue
  · rename_i hlater
    exact h.goes_later hZ hseat hidle hlive hx (not_le.mp hlater)

end Scene

end Fibers.Rounds
