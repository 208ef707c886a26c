import Fibers.Proofs.Rounds.Departures

set_option autoImplicit false

/-! # The end of the members

A member that ends counts itself out of the tally. The last one decides the zip, and if the fiber waits for
that already, it is told.
-/

namespace Fibers.Rounds

open World Direct

variable {σ : Type} {n : Nat} {Z : Zip σ n} {P : Score n} {w w₁ w' : World σ} {i j : Fin n} {p p' : Point} {ops : Nat}
  {s : Stance} {b : Book n} {t : Key .tally}

/-! ## Counting down -/

theorem countDown_more {tally : Tally} (h : w.tallies.get? t = some tally) (hmore : tally.remaining ≠ 1) :
    w.countDown t =
      { w with tallies := w.tallies.set t { tally with remaining := tally.remaining - 1 } } := by
  have hread : w.tally t = tally := by rw [World.tally, h, Option.getD_some]
  simp only [World.countDown, hread, if_neg hmore]

/-- The last one decides, and tells those who wait. -/
theorem countDown_last {os : List (Nat × Wake)} {next : Nat}
    (h : w.tallies.get? t = some { decided := .pending os next, remaining := 1 }) :
    ∃ tallies : Store .tally Tally,
      tallies.get? t = some { decided := .settled (.resolved none), remaining := 0 } ∧
      w.countDown t = World.wakeAll { w with tallies } (os.map (·.2)) (.succeed (.decided none)) := by
  have hread : w.tally t = { decided := .pending os next, remaining := 1 } := by rw [World.tally, h, Option.getD_some]
  have hset := Store.get?_set_of_some (a := { decided := .pending os next, remaining := 0 }) h
  refine ⟨_, Store.get?_set_of_some hset, ?_⟩
  have hread' : World.tally { w with
      tallies := w.tallies.set t { decided := .pending os next, remaining := 0 } } t =
        { decided := .pending os next, remaining := 0 } := by
    show (Store.get? _ t).getD default = _
    rw [hset, Option.getD_some]
  simp only [World.countDown, hread, if_true, Nat.sub_self, World.decide, hread', Cell.settle?]

/-- A member that ends counts itself out. -/
theorem Member.counts {k : Member σ} {budget : Nat} (hk : k.Sound budget) (h : k.Active (k.spot (.door .shut)) ops w) :
    ∃ w₁, k.Private w w₁ ∧ w.finishFiber k.fiber ending = w₁.countDown k.tally ∧ k.In w₁ .gone := by
  obtain ⟨token, hget⟩ := h.fiber
  have hdone : (k.record (k.spot (.door .shut)) ops token .running).done = .pending [(0, .member k.tally k.ticket)] 1 :=
    hk.watched
  refine ⟨w.modifyFiber k.fiber fun fiber =>
    { fiber with
      phase := .done ending
      done := .settled (.resolved ending) }, Walker.private_modify w _, ?_,
    ⟨⟨{ k.record (k.spot (.door .shut)) ops token .running with
      phase := .done ending
      done := .settled (.resolved ending) }, ?_, rfl, hk.scope, rfl⟩, h.scope⟩⟩
  · simp only [World.finishFiber, hget, hdone, Cell.settle?]
    rfl
  · simp only [modifyFiber, Store.get?_modify, if_pos, hget, Option.map_some]

/-! ## Who is left -/

theorem left_gone {stance : Fin n → Stance} (hi : (stance i).stage ≠ .gone) (hs : s.stage = .gone) :
    left (Function.update stance i s) + 1 = left stance := by
  have hmem : i ∈ Finset.univ.filter fun j => (stance j).stage ≠ .gone :=
    Finset.mem_filter.mpr ⟨Finset.mem_univ i, hi⟩
  have herase : (Finset.univ.filter fun j => (Function.update stance i s j).stage ≠ .gone) =
      (Finset.univ.filter fun j => (stance j).stage ≠ .gone).erase i := by
    ext j
    by_cases hji : j = i
    · subst hji
      simp [hs]
    · simp [hji]
  rw [left, left, herase, Finset.card_erase_of_mem hmem]
  have := Finset.card_pos.mpr ⟨i, hmem⟩
  omega

theorem ballot_of_fresh {seat : Seat} (h : ∀ token, seat ≠ .waiting token) (f : Key .fiber) (m : Nat) :
    seat.ballot f m = if m = 0 then .settled (.resolved none) else .fresh := by
  cases seat with
  | waiting token => exact absurd rfl (h token)
  | active p ops => rfl
  | ready p id => rfl

/-- While members are left nothing is decided. -/
theorem ballot_of_left (seat : Seat) (f : Key .fiber) :
    ∃ os next, ∀ m', m' ≠ 0 → seat.ballot f m' = .pending os next := by
  cases seat with
  | waiting token => exact ⟨_, _, fun _ _ => rfl⟩
  | active p ops => exact ⟨[], 0, fun m' hm' => if_neg hm'⟩
  | ready p id => exact ⟨[], 0, fun m' hm' => if_neg hm'⟩

/-- A fiber that waits for the members is told. -/
theorem Host.In.told {k : Host σ} {fs : List (Nat × Finalizer σ)} {token : Nat} (h : k.In fs w (.waiting token)) :
    k.In fs (w.queue (.resume k.fiber token (.program (.succeed (.decided none))))) (.ready .told w.timers.nextId) := by
  obtain ⟨t, ht, hid, hdue, htask⟩ := queue_live w (.resume k.fiber token (.program (.succeed (.decided none))))
  have hparked : k.Parked (k.spot fs .asking) token (k.spot fs .asking).machine w := h
  exact ⟨t, ht, hid, hdue, token, _, _, htask, ⟨hparked.fiber, hparked.scope⟩, rfl⟩

namespace Scene

/-- In `w₁` the member `i` has ended, but has not counted itself out. -/
structure Parts (Z : Zip σ n) (P : Score n) (i : Fin n) (w w₁ : World σ) : Prop where
  spares : Z.Spares (alarm P.seat P.stance) (some i) w w₁
  gone : (Z.member i).In w₁ .gone
  timers : w₁.timers = w.timers
  futures : w₁.futures = w.futures
  semaphores : w₁.semaphores = w.semaphores
  tallies : w₁.tallies = w.tallies

section

variable (hZ : Z.Sound) (h : Scene Z P w) (hi : P.stance i = .active (.door .shut) ops)

include h hi

include hZ in
/-- A member that ends counts itself out of the tally. -/
theorem parts (hops : ops < Z.budget) :
    ∃ w₁, w.advance (Z.walker i).fiber ((Z.member i).spot (.door .shut)).machine = ⟨w₁.countDown Z.host.tally, none⟩ ∧
      Parts Z P i w w₁ := by
  have hactive := h.active hi
  have hadvance := Member.ends (hZ.member i) hactive hops
  obtain ⟨w₁, hprivate, hfinish, hin⟩ := Member.counts (hZ.member i) hactive.count
  have hprivate' : (Z.party (some i)).Private w w₁ := (Walker.private_modify w _).trans hprivate
  refine ⟨w₁, ?_, Zip.spares_private hZ hprivate', hin, by rw [hprivate'.rest], by rw [hprivate'.rest],
    by rw [hprivate'.rest], by rw [hprivate'.rest]⟩
  show w.advance (Z.member i).fiber _ = _
  rw [hadvance, hfinish]
  rfl

omit h in
theorem stage_shut : (P.stance i).stage = .freed := by
  rw [hi]
  rfl

theorem left_shut : 0 < left P.stance ∧ P.seat.isTold = false :=
  ⟨left_pos (i := i) (by rw [stage_shut hi]; simp), h.cast.fits.not_told (i := i) (by rw [stage_shut hi]; simp)⟩

/-- When a member has counted itself out it is gone, whatever became of the fiber that zips. -/
theorem goes_out (hothers : ∀ j, j ≠ i → (P.stance j).isActive = false) (hparts : Parts Z P i w w₁)
    {tallies : Store .tally Tally} {timers : Timers (Task σ)} {seat' : Seat}
    (htasks : ∀ t ∈ w₁.timers.live, t ∈ timers.live) (hnow : timers.now = w₁.timers.now)
    (hhost : ∀ fs, Z.host.In fs { w₁ with tallies } P.seat → Z.host.In fs { w₁ with tallies, timers } seat')
    (htally : tallies.get? Z.host.tally = some
      { decided := seat'.ballot Z.host.fiber (left P.stance - 1), remaining := left P.stance - 1 })
    (hfits : seat'.Fits (left P.stance - 1)) (hseat' : seat'.isActive = false)
    (hagenda : Agenda timers (alarm seat' (Function.update P.stance i .gone)) Z.horizon)
    (hweight : seat'.weight Z.budget ≤ P.seat.weight Z.budget) : Goes Z P w ⟨{ w₁ with tallies, timers }, none⟩ := by
  have hbase := stage_shut hi
  have hnow' : timers.now = w.now := hnow.trans (congrArg Timers.now hparts.timers)
  have hcount : left (Function.update P.stance i .gone) = left P.stance - 1 := by
    have := @left_gone n i .gone P.stance (by rw [hbase]; simp) rfl
    omega
  have hspares : Z.Spares (alarm P.seat P.stance) (some i) w { w₁ with tallies, timers } :=
    hparts.spares.trans (Zip.spares_shared Z _ _ rfl rfl htasks hnow rfl)
  obtain ⟨fs, hin, hfs⟩ := h.cast.host
  have hin' : Z.host.In fs { w₁ with tallies } P.seat :=
    (hin.spared (hparts.spares.others none (by simp))).spared ⟨rfl, rfl, fun _ ht _ => ht, rfl⟩
  refine ⟨(P.put i .gone).sit seat', h.depart hbase (Or.inr rfl) ?_ hparts.semaphores hagenda hnow',
    .idle hseat' ?_, ?_,
    follows_put fun _ hs => absurd hs (by rw [hbase]; simp [Stage.isBegun]), Or.inl hnow'⟩
  · refine h.cast.depart rfl ?_ (fun j hji => hspares.others (some j) fun heq => hji (Option.some.inj heq))
      hparts.futures (hhost fs hin') (fun x hx => ?_) ?_ ?_ ?_ hspares.refs
    · obtain ⟨⟨y, hy, hrest⟩, hscope⟩ := hparts.gone
      exact ⟨⟨y, hy, hrest⟩, hscope⟩
    · obtain ⟨j, hxj, hj⟩ := hfs x hx
      refine ⟨j, ?_, hxj, hj⟩
      rintro rfl
      rw [hi] at hj
      cases hj
    · rw [hcount]
      exact htally
    · rw [hcount]
      exact hfits
    · rw [World.scope, hspares.home]
      exact h.cast.home
  · intro j
    show (Function.update P.stance i .gone j).isActive = false
    rw [Function.update_apply]
    split
    · rfl
    · rename_i hji
      exact hothers j hji
  · show seat'.weight Z.budget + ∑ l, (Function.update P.stance i .gone l).weight Z.budget timers.now.nanos < _
    rw [hnow']
    refine Nat.add_lt_add_of_le_of_lt hweight (sum_put_lt ?_)
    rw [hi]
    simp only [Stance.weight, Point.left, Door.left]
    omega

/-- A member ends. -/
theorem goes_ends (hZ : Z.Sound) (hseat : P.seat.isActive = false)
    (hothers : ∀ j, j ≠ i → (P.stance j).isActive = false) (hops : ops < Z.budget) :
    Goes Z P w (w.advance (Z.walker i).fiber ((Z.member i).spot (.door .shut)).machine) := by
  obtain ⟨hpos, htold⟩ := h.left_shut hi
  obtain ⟨w₁, hadvance, hparts⟩ := h.parts hZ hi hops
  have hagenda : Agenda w₁.timers (alarm P.seat (Function.update P.stance i .gone)) Z.horizon := by
    rw [hparts.timers]
    exact h.agenda_aside hi rfl
  obtain ⟨os, next, hballot⟩ := ballot_of_left P.seat Z.host.fiber
  have hread := h.cast.tally
  rw [← hparts.tallies, hballot _ (Nat.ne_of_gt hpos)] at hread
  rw [hadvance]
  by_cases hlast : left P.stance = 1
  · rw [hlast] at hread
    obtain ⟨tallies, htally, hcount⟩ := countDown_last hread
    rw [hcount]
    have hdecided : ∀ seat : Seat, (∀ token, seat ≠ .waiting token) → tallies.get? Z.host.tally = some
        { decided := seat.ballot Z.host.fiber (left P.stance - 1), remaining := left P.stance - 1 } := by
      intro seat hseat
      rw [ballot_of_fresh hseat, hlast]
      exact htally
    have hwaiters := hballot 1 one_ne_zero
    cases hs : P.seat with
    | active p ops =>
        rw [hs] at hseat
        cases hseat
    | ready q id =>
        -- nobody waits yet
        have hnobody : ∀ token, P.seat ≠ .waiting token := fun token => by rw [hs]; simp
        rw [ballot_of_fresh hnobody, if_neg one_ne_zero] at hwaiters
        cases hwaiters
        exact h.goes_out hi hothers hparts (fun _ ht => ht) rfl (fun _ hfs => hfs) (hdecided P.seat hnobody)
          ⟨fun _ => by omega, fun token htoken => absurd htoken (hnobody token)⟩ hseat hagenda (le_refl _)
    | waiting token =>
        -- the fiber is told
        rw [hs] at hwaiters
        cases hwaiters
        refine @goes_out _ _ _ _ _ _ _ _ h hi hothers hparts tallies _ (.ready .told w₁.timers.nextId)
          (fun _ => mem_queue) rfl (fun fs hfs => ?_) (hdecided _ fun token => by simp)
          ⟨fun _ => by omega, fun token htoken => by cases htoken⟩ rfl ?_ ?_
        · rw [hs] at hfs
          exact hfs.told
        · have hnone : alarm P.seat (Function.update P.stance i .gone) none = none := by rw [alarm, hs]; rfl
          rw [alarm_sit P.seat]
          exact hagenda.post hnone 0 _
        · rw [hs]
          simp only [Seat.weight, Post.left]
          omega
  · rw [countDown_more hread hlast]
    refine h.goes_out hi hothers hparts (fun _ ht => ht) rfl (fun _ hfs => hfs) ?_
      ⟨fun htrue => absurd htrue (by rw [htold]; simp), fun _ _ => by omega⟩ hseat hagenda (le_refl _)
    rw [hballot _ (by omega)]
    exact Store.get?_set_of_some hread

end

end Scene

end Fibers.Rounds
