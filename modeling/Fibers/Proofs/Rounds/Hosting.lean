import Fibers.Proofs.Rounds.Endings

set_option autoImplicit false

/-! # The turns of the fiber that zips

The fiber comes to wait for the decision, or finds it made; then it collects the values, closes the arena, and
hands over the list. Until then every step of it leads from a scene to a scene.
-/

namespace Fibers.Rounds

open World Direct

variable {σ : Type} {n : Nat} {Z : Zip σ n} {P : Score n} {w w₁ w' : World σ} {p p' : Post} {ops : Nat}
  {seat : Seat}

/-! ## Points of the way -/

theorem Post.left_next (h : p.next? = some p') : p'.left < p.left := by
  cases p with
  | door d => cases d <;> (cases h; decide)
  | _ => first | (cases h; decide) | cases h

theorem Post.isTold_next (h : p.next? = some p') (ops : Nat) :
    (Seat.active p' (p.spent ops)).isTold = (Seat.active p ops).isTold := by
  cases p with
  | door d => cases d <;> (cases h; rfl)
  | _ => first | (cases h; rfl) | cases h

theorem Seat.isTold_ready (p : Post) (id ops : Nat) : (Seat.ready p id).isTold = (Seat.active p ops).isTold := by
  cases p <;> rfl

/-- The finalizers of the arena do not show in the machine. -/
theorem Host.machine_spot (k : Host σ) (fs : List (Nat × Finalizer σ)) (p : Post) :
    (k.spot fs p).machine = (k.spot [] p).machine := by
  cases p <;> rfl

/-- With nobody left the arena has no finalizers. -/
theorem arena_empty {stance : Fin n → Stance} {fs : List (Nat × Finalizer σ)}
    (hfs : ∀ x ∈ fs, ∃ i : Fin n, x.1 = i.val ∧ (stance i).isWithin = true) (hleft : left stance = 0) : fs = [] := by
  refine List.eq_nil_iff_forall_not_mem.mpr fun x hx => ?_
  obtain ⟨i, -, hi⟩ := hfs x hx
  have hgone : (stance i).stage ≠ .gone := fun hgone => by
    cases hs : stance i with
    | active p ops =>
        rw [hs] at hgone
        exact p.stage_ne_gone hgone
    | ready p id =>
        rw [hs] at hgone
        exact p.stage_ne_gone hgone
    | gone =>
        rw [hs] at hi
        cases hi
    | waiting grant =>
        rw [hs] at hgone
        cases hgone
    | asleep callback id due =>
        rw [hs] at hgone
        cases hgone
  have := left_pos hgone
  omega

namespace Scene

/-- A step of the fiber that zips. -/
theorem sit (h : Scene Z P w) (seat : Seat) {fs : List (Nat × Finalizer σ)} (hin : Z.host.In fs w' seat)
    (hfs : ∀ x ∈ fs, ∃ i : Fin n, x.1 = i.val ∧ (P.stance i).isWithin = true)
    (hmembers : ∀ j, (Z.walker j).Spared (P.stance j).alarm? w w') (hfutures : w'.futures = w.futures)
    (htally : w'.tallies.get? Z.host.tally =
      some { decided := seat.ballot Z.host.fiber (left P.stance), remaining := left P.stance })
    (hfits : seat.Fits (left P.stance)) (hhome : (w'.scope Z.host.birth.scope).isOpen = true) (hrefs : w'.refs = w.refs)
    (hsemaphores : w'.semaphores = w.semaphores) (hagenda : Agenda w'.timers (alarm seat P.stance) Z.horizon)
    (hnow : w'.now = w.now) : Scene Z (P.sit seat) w' where
  cast := h.cast.sit hin hfs hmembers hfutures htally hfits hhome hrefs
  permits := hsemaphores ▸ h.permits
  agenda := hagenda
  ledger := h.ledger
  lockstep := h.lockstep
  tempo := by
    rw [hnow]
    exact h.tempo

theorem goes_sit {x : Moment σ} (hscene : Scene Z (P.sit seat) x.world) (hturn : Turn Z (P.sit seat) x.active)
    (hnow : x.world.now = w.now) (hweight : seat.weight Z.budget < P.seat.weight Z.budget) : Goes Z P w x := by
  refine ⟨_, hscene, hturn, ?_, .refl _, Or.inl hnow⟩
  rw [hnow]
  exact Nat.add_lt_add_right hweight _

section

variable (hZ : Z.Sound) (h : Scene Z P w) (hs : P.seat = .active p ops) (hidle : ∀ i, (P.stance i).isActive = false)

include h hs

theorem told (htold : (Seat.active p ops).isTold = true) : left P.stance = 0 := h.cast.fits.told (hs ▸ htold)

/-- The fiber that has its turn waits for no task. -/
theorem agenda_sit (hseat : seat.alarm? = none) : Agenda w.timers (alarm seat P.stance) Z.horizon := by
  rw [alarm_sit P.seat, hseat]
  have hnone : alarm P.seat P.stance none = none := by rw [alarm, hs]; rfl
  have hsame : Function.update (alarm P.seat P.stance) none none = alarm P.seat P.stance :=
    Function.update_eq_self_iff.mpr hnone.symm
  rw [hsame]
  exact h.agenda

/-- What the tally has while the fiber does not wait. -/
theorem tally_sit (htallies : w'.tallies = w.tallies) (hseat : ∀ token, seat ≠ .waiting token) :
    w'.tallies.get? Z.host.tally =
      some { decided := seat.ballot Z.host.fiber (left P.stance), remaining := left P.stance } := by
  rw [htallies, h.cast.tally, ballot_of_fresh hseat, ballot_of_fresh fun token => by rw [hs]; simp]

include hZ hidle

/-- A step to another point of the way that concerns the fiber and its arena alone. -/
theorem goes_on (p' : Post) (ops' : Nat)
    (hmoves : ∀ fs, Z.host.Active (Z.host.spot fs p) ops w → (left P.stance = 0 → fs = []) →
      ∃ w', w.advance Z.host.fiber (Z.host.spot fs p).machine = ⟨w', some (Z.host.fiber, (Z.host.spot fs p').machine)⟩ ∧
        Z.host.Active (Z.host.spot fs p') ops' w' ∧ Z.host.toWalker.Private w w')
    (htold : (Seat.active p' ops').isTold = true → left P.stance = 0) (hleft : p'.left < p.left) :
    Goes Z P w (w.advance Z.host.fiber (Z.host.spot [] p).machine) := by
  obtain ⟨fs, hin, hfs⟩ := h.cast.host
  rw [hs] at hin
  obtain ⟨w', hadvance, hactive, hprivate⟩ := hmoves fs hin (arena_empty hfs)
  have hprivate' : (Z.party none).Private w w' := hprivate
  have hspares : Z.Spares (alarm P.seat P.stance) none w w' := Zip.spares_private hZ hprivate'
  have htimers : w'.timers = w.timers := by rw [hprivate.rest]
  have hfutures : w'.futures = w.futures := by rw [hprivate.rest]
  have hnow : w'.now = w.now := congrArg Timers.now htimers
  rw [← Z.host.machine_spot fs, hadvance, Z.host.machine_spot fs]
  refine goes_sit (h.sit (.active p' ops') hactive hfs (fun j => hspares.others (some j) (by simp))
    (by rw [hprivate.rest]) (h.tally_sit hs (by rw [hprivate.rest]) (by simp)) ⟨htold, by simp⟩
    (hspares.home_open h.cast.home) hspares.refs (by rw [hprivate.rest]) ?_ hnow) (.host rfl hidle) hnow ?_
  · rw [htimers]
    exact h.agenda_sit hs rfl
  · rw [hs]
    simp only [Seat.weight]
    split <;> split <;> omega

/-- A step that concerns the fiber and its arena alone. -/
theorem goes_host_private (hp : p.next? = some p') (hops : ops < Z.budget) :
    Goes Z P w (w.advance Z.host.fiber (Z.host.spot [] p).machine) := by
  refine h.goes_on hZ hs hidle p' (p.spent ops) (fun fs hactive _ => Host.moves hZ.host hp w ops hactive hops) ?_
    (Post.left_next hp)
  rw [Post.isTold_next hp]
  exact h.told hs

/-- The values of the members are collected. -/
theorem goes_collects (hp : p = .settled) (hops : ops < Z.budget) :
    Goes Z P w (w.advance Z.host.fiber (Z.host.spot [] p).machine) := by
  subst hp
  have hleft : left P.stance = 0 := h.told hs rfl
  refine h.goes_on hZ hs hidle .leaving (ops + 1) (fun fs hactive _ => ?_) (fun _ => hleft) (by decide)
  have hended : ∀ c ∈ Z.host.contest.members, Host.Ended w c := by
    intro c hc
    rw [hZ.members] at hc
    obtain ⟨i, rfl⟩ := (List.mem_ofFn' _ _).mp hc
    have hgone : P.stance i = .gone := by
      by_contra hne
      have hstage : (P.stance i).stage ≠ .gone := by
        cases hi : P.stance i with
        | active p ops => exact p.stage_ne_gone
        | ready p id => exact p.stage_ne_gone
        | waiting grant => simp [Stance.stage]
        | asleep callback id due => simp [Stance.stage]
        | gone => exact absurd hi hne
      have := left_pos hstage
      omega
    have hin := h.cast.member i
    rw [hgone] at hin
    obtain ⟨⟨y, hy, hexit, -, hrefs⟩, -⟩ := hin
    refine ⟨y, hy, hexit, ?_⟩
    rw [World.refMap, hrefs, h.cast.refs]
    exact hZ.untouched i
  obtain ⟨w', hprivate, hadvance, hactive'⟩ := Host.collects hZ.host hactive hops
    (by rw [hZ.members, List.length_ofFn, hZ.size]) hended
  exact ⟨w', hadvance, hactive', hprivate⟩

/-- The fiber yields. -/
theorem goes_host_tired (hops : Z.budget ≤ ops) :
    Goes Z P w (w.advance Z.host.fiber (Z.host.spot [] p).machine) := by
  obtain ⟨fs, hin, hfs⟩ := h.cast.host
  rw [hs] at hin
  obtain ⟨w₁, task, hadvance, hprivate, hawaits⟩ :=
    Walker.Active.tired hZ.host.toSound hin (Host.stays p) (Host.works p) hops
  have hprivate' : (Z.party none).Private w w₁ := hprivate
  have hspares : Z.Spares (alarm P.seat P.stance) none w (w₁.queue task) :=
    (Zip.spares_private hZ hprivate').trans (Zip.spares_shared Z _ _ rfl rfl (fun _ => mem_queue) rfl rfl)
  have htimers : w₁.timers = w.timers := by rw [hprivate.rest]
  have hnow : (w₁.queue task).now = w.now := by
    show w₁.timers.now = w.timers.now
    rw [htimers]
  have hfutures : (w₁.queue task).futures = w.futures := by
    show w₁.futures = w.futures
    rw [hprivate.rest]
  obtain ⟨t, ht, hid, hdue, htask⟩ := queue_live w₁ task
  rw [← Z.host.machine_spot fs, hadvance]
  refine goes_sit (h.sit (.ready p w.timers.nextId) ⟨t, ht, hid.trans (by rw [htimers]), hdue, hawaits t htask⟩
    hfs (fun j => hspares.others (some j) (by simp)) hfutures (h.tally_sit hs ?_ (by simp)) ⟨?_, by simp⟩
    (hspares.home_open h.cast.home) hspares.refs ?_ ?_ hnow) (.idle rfl hidle) hnow ?_
  · show w₁.tallies = w.tallies
    rw [hprivate.rest]
  · rw [Seat.isTold_ready p _ ops]
    exact h.told hs
  · show w₁.semaphores = w.semaphores
    rw [hprivate.rest]
  · show Agenda (w₁.timers.set 0 task).1 _ _
    rw [htimers, alarm_sit P.seat]
    exact h.agenda.post (by rw [alarm, hs]; rfl) 0 task
  · rw [hs]
    simp only [Seat.weight, if_neg (not_lt.mpr hops)]
    omega

/-- The fiber comes to wait for the decision, or finds it made. -/
theorem goes_decision (hp : p = .asking) (hops : ops < Z.budget) :
    Goes Z P w (w.advance Z.host.fiber (Z.host.spot [] p).machine) := by
  subst hp
  have htally := h.cast.tally
  rw [ballot_of_fresh fun token => by rw [hs]; simp] at htally
  by_cases hleft : left P.stance = 0
  · rw [if_pos hleft] at htally
    refine h.goes_on hZ hs hidle .told 0 (fun fs hactive _ => ?_) (fun _ => hleft) (by decide)
    obtain ⟨w', hprivate, hadvance, hactive'⟩ := Host.enters hZ.host hactive hops htally rfl
    exact ⟨w', hadvance, hactive', hprivate⟩
  · rw [if_neg hleft] at htally
    obtain ⟨fs, hin, hfs⟩ := h.cast.host
    rw [hs] at hin
    obtain ⟨w₁, token, hprivate, hadvance, hparked⟩ := Host.waits hZ.host hin hops htally rfl
    have hprivate' : (Z.party none).Private w w₁ := hprivate
    have htimers : w₁.timers = w.timers := by rw [hprivate.rest]
    have hfutures : w₁.futures = w.futures := by rw [hprivate.rest]
    have hnow : w₁.now = w.now := congrArg Timers.now htimers
    have htallies : w₁.tallies = w.tallies := by rw [hprivate.rest]
    have hspares : Z.Spares (alarm P.seat P.stance) none w w₁ := Zip.spares_private hZ hprivate'
    rw [← Z.host.machine_spot fs, hadvance]
    have hspares' : Z.Spares (alarm P.seat P.stance) none w { w₁ with
        tallies := w₁.tallies.set Z.host.tally
          { decided := .pending [(0, ⟨Z.host.fiber, token⟩)] 1
            remaining := left P.stance } } :=
      hspares.trans (Zip.spares_shared Z _ _ rfl rfl (fun _ ht => ht) rfl rfl)
    refine goes_sit (h.sit (.waiting token) (hparked.congr rfl rfl) hfs
      (fun j => hspares'.others (some j) (by simp)) hfutures ?_ ⟨fun htold => (by cases htold), fun _ _ =>
      Nat.pos_of_ne_zero hleft⟩ (hspares'.home_open h.cast.home) hspares'.refs (by rw [hprivate.rest]) ?_ hnow)
      (.idle rfl hidle) hnow ?_
    · show (w₁.tallies.set Z.host.tally _).get? Z.host.tally = _
      rw [htallies, Store.get?_set_of_some htally]
      rfl
    · show Agenda w₁.timers _ _
      rw [htimers]
      exact h.agenda_sit hs rfl
    · rw [hs]
      simp only [Seat.weight, Post.left]
      split <;> omega

/-- The fiber asks for the close of its arena. -/
theorem goes_shuts (hp : p = .close) (hops : ops < Z.budget) :
    Goes Z P w (w.advance Z.host.fiber (Z.host.spot [] p).machine) := by
  subst hp
  have hleft : left P.stance = 0 := h.told hs rfl
  obtain ⟨fs, hin, hfs⟩ := h.cast.host
  obtain rfl := arena_empty hfs hleft
  rw [hs] at hin
  obtain ⟨sc, gs, hooks, next, hsc⟩ := exists_opened h.cast.home
  obtain ⟨w', gs', hadvance, hactive, hfibers, hscopes, hhome, hrest⟩ := Host.closes hZ.host hin hops hsc
  have htimers : w'.timers = w.timers := by rw [hrest]
  have hfutures : w'.futures = w.futures := by rw [hrest]
  have hnow : w'.now = w.now := congrArg Timers.now htimers
  rw [hadvance]
  refine goes_sit (h.sit (.active (.door .asked) (ops + 1)) hactive (fun x hx => absurd hx List.not_mem_nil)
    (fun j => ⟨hfibers _ fun heq => ?_, hscopes _ (fun heq => ?_) (hZ.outside (some j)), fun t ht _ => htimers ▸ ht,
      hnow⟩)
    hfutures (h.tally_sit hs (by rw [hrest]) (by simp)) ⟨fun _ => hleft, by simp⟩ ?_ (by rw [hrest]) (by rw [hrest])
    ?_ hnow) (.host rfl hidle) hnow ?_
  · exact absurd (hZ.fibers (some j) none heq) (by simp)
  · exact absurd (hZ.scopes (some j) none heq) (by simp)
  · rw [World.scope, hhome]
    rfl
  · rw [htimers]
    exact h.agenda_sit hs rfl
  · rw [hs]
    simp only [Seat.weight, Post.left, Door.left]
    split <;> omega

/-- Every step of the fiber up to the end leads to another scene. -/
theorem goes_host (hp : p ≠ .handing) : Goes Z P w (w.advance Z.host.fiber (Z.host.spot [] p).machine) := by
  by_cases hops : Z.budget ≤ ops
  · exact h.goes_host_tired hZ hs hidle hops
  have hlt : ops < Z.budget := Nat.lt_of_not_le hops
  cases hnext : p.next? with
  | some p' => exact h.goes_host_private hZ hs hidle hnext hlt
  | none =>
      cases p with
      | asking => exact h.goes_decision hZ hs hidle rfl hlt
      | settled => exact h.goes_collects hZ hs hidle rfl hlt
      | close => exact h.goes_shuts hZ hs hidle rfl hlt
      | handing => exact absurd rfl hp
      | door d => cases d <;> cases hnext
      | _ => cases hnext

end

end Scene

end Fibers.Rounds
