import Fibers.Proofs.Rounds.Between
import Mathlib.Data.Set.Card

set_option autoImplicit false

/-! # A zip is played

From a scene the driver comes to the moment where the fiber that zips hands over the list, through scenes only
(`exists_play`). So what is true of scenes is true all the way: no more members have a permit than there are
permits, the members get their permits in order, and in the first round as many sleep as can.
-/

namespace Fibers

/-- Nobody has a turn, and nothing is to be done before the clock moves on. -/
structure Moment.Rests {σ : Type} (x : Moment σ) : Prop where
  idle : x.active = none
  later : ∀ t ∈ x.world.timers.live, x.world.now.nanos < t.deadline.nanos

namespace Rounds

open World Direct

variable {σ : Type} {n : Nat} {Z : Zip σ n} {P : Score n} {w : World σ} {i j : Fin n} {p : Point} {ops : Nat}
  {x : Moment σ}

/-! ## Every tick -/

namespace Scene

/-- Every step of a member leads to another scene. -/
theorem goes_member (hZ : Z.Sound) (h : Scene Z P w) (hi : P.stance i = .active p ops) (hseat : P.seat.isActive = false)
    (hothers : ∀ j, j ≠ i → (P.stance j).isActive = false) :
    Goes Z P w (w.advance (Z.walker i).fiber ((Z.member i).spot p).machine) := by
  by_cases htired : p.isFree = false ∧ Z.budget ≤ ops
  · exact h.goes_tired hZ hi hseat hothers htired.1 htired.2
  have hcan : p.Can Z.budget ops := by
    cases hfree : p.isFree with
    | true => exact Or.inl hfree
    | false => exact Or.inr (Nat.lt_of_not_le fun hle => htired ⟨hfree, hle⟩)
  cases hnext : p.next? with
  | some p' => exact h.goes_private hZ hi hseat hothers hnext hcan
  | none =>
      have hlt : p.isFree = false → ops < Z.budget := fun hfree => hcan.resolve_left (by rw [hfree]; simp)
      cases p with
      | guarded => exact h.goes_draws hZ hi hseat hothers rfl (hlt rfl)
      | take => exact h.goes_asks hZ hi hseat hothers rfl (hlt rfl)
      | queue grant => exact h.goes_waits hZ hi hseat hothers rfl (hlt rfl)
      | called grant => exact h.goes_enters hZ hi hseat hothers rfl (hlt rfl)
      | nap => exact h.goes_naps hZ hi hseat hothers rfl (hlt rfl)
      | rising timer => exact goes_back hZ h hi hseat hothers (hlt rfl)
      | close => exact h.goes_leaves hZ hi hseat hothers rfl (hlt rfl)
      | door d =>
          cases d with
          | shut => exact h.goes_ends hi hZ hseat hothers (hlt rfl)
          | _ => cases hnext
      | _ => cases hnext

/-- As long as the list is not handed over, every tick leads to another scene with less left to do. -/
theorem goes_tick (hZ : Z.Sound) (h : Scene Z P x.world) (hturn : Turn Z P x.active)
    (hhanding : ∀ ops, P.seat ≠ .active .handing ops) : Goes Z P x.world x.tick := by
  obtain ⟨w, active⟩ := x
  cases hturn with
  | host hs hidle =>
      refine h.goes_host hZ hs hidle ?_
      rintro rfl
      exact hhanding _ hs
  | member hi hseat hothers => exact h.goes_member hZ hi hseat hothers
  | idle hseat hidle => exact h.goes_idle hZ hseat hidle

end Scene

/-! ## To the end -/

/-- From `x` on, `N` ticks lead through the scenes of a sequence of scores to the moment where the list is
handed over. -/
structure Play (Z : Zip σ n) (x : Moment σ) (N : Nat) (P : Nat → Score n) : Prop where
  scene : ∀ k ≤ N, Scene Z (P k) (Moment.tick^[k] x).world
  turn : ∀ k ≤ N, Turn Z (P k) (Moment.tick^[k] x).active
  follows : ∀ k < N, Follows (P k).stance (P (k + 1)).stance
  clock : ∀ k < N, (Moment.tick^[k + 1] x).world.now = (Moment.tick^[k] x).world.now ∨ (Moment.tick^[k] x).Rests
  finishes : ∃ ops, (P N).seat = .active .handing ops

/-- In a pause nobody has a turn. -/
theorem Turn.rests (hturn : Turn Z P x.active) (h : Pauses P x.world) : x.Rests := by
  refine ⟨?_, h.later⟩
  obtain ⟨w, active⟩ := x
  cases hturn with
  | host hs =>
      have := h.seat
      rw [hs] at this
      cases this
  | @member i p ops hi =>
      have := h.idle i
      rw [hi] at this
      cases this
  | idle => rfl

theorem exists_play (hZ : Z.Sound) {P₀ : Score n} (h : Scene Z P₀ x.world) (hturn : Turn Z P₀ x.active) :
    ∃ N P, Play Z x N P ∧ P 0 = P₀ := by
  induction hweight : P₀.weight Z.budget x.world.now.nanos using Nat.strong_induction_on generalizing P₀ x with
  | _ weight ih =>
      by_cases hover : ∃ ops, P₀.seat = .active .handing ops
      · refine ⟨0, fun _ => P₀, ⟨fun k hk => ?_, fun k hk => ?_, fun k hk => absurd hk (Nat.not_lt_zero k),
          fun k hk => absurd hk (Nat.not_lt_zero k), hover⟩, rfl⟩
        · rw [Nat.le_zero.mp hk]
          exact h
        · rw [Nat.le_zero.mp hk]
          exact hturn
      · obtain ⟨P₁, hscene, hturn', hless, hfollows, hclock⟩ := h.goes_tick hZ hturn fun ops hs => hover ⟨ops, hs⟩
        obtain ⟨N, P, hplay, rfl⟩ := ih _ (hweight ▸ hless) hscene hturn' rfl
        refine ⟨N + 1, fun k => k.casesOn P₀ P, ⟨fun k hk => ?_, fun k hk => ?_, fun k hk => ?_, fun k hk => ?_,
          hplay.finishes⟩, rfl⟩
        · cases k with
          | zero => exact h
          | succ k => exact hplay.scene k (Nat.le_of_succ_le_succ hk)
        · cases k with
          | zero => exact hturn
          | succ k => exact hplay.turn k (Nat.le_of_succ_le_succ hk)
        · cases k with
          | zero => exact hfollows
          | succ k => exact hplay.follows k (Nat.lt_of_succ_lt_succ hk)
        · cases k with
          | zero => exact hclock.imp_right hturn.rests
          | succ k => exact hplay.clock k (Nat.lt_of_succ_lt_succ hk)

/-! ## At work -/

/-- The fiber `c` is at work under the semaphore `s`: it has a permit there, which a finalizer of its scope will
give back. -/
def AtWork (s : Key .semaphore) (c : Key .fiber) (w : World σ) : Prop :=
  ∃ y sc fs hooks next key ticket, w.fibers.get? c = some y ∧ w.scopes.get? y.scope = some sc ∧
    sc.state = .opened fs hooks next ∧ (key, Finalizer.relinquish s ticket) ∈ fs ∧
    (w.semaphore s).isHeld ticket = true

/-- Whether a finalizer gives back what a ticket of the semaphore has, and the ticket has a permit. -/
def Finalizer.isRefund (s : Key .semaphore) (w : World σ) : Finalizer σ → Bool
  | .relinquish s' ticket => s' = s && (w.semaphore s).isHeld ticket
  | _ => false

/-- The test for it. -/
def isAtWork (s : Key .semaphore) (c : Key .fiber) (w : World σ) : Bool :=
  match (w.fibers.get? c).bind fun y => w.scopes.get? y.scope with
  | some sc =>
      match sc.state with
      | .opened fs _ _ => fs.any fun x => Finalizer.isRefund s w x.2
      | _ => false
  | none => false

theorem isAtWork_iff {s : Key .semaphore} {c : Key .fiber} : isAtWork s c w = true ↔ AtWork s c w := by
  constructor
  · intro h
    unfold isAtWork at h
    split at h
    · rename_i sc hsc
      obtain ⟨y, hy, hscope⟩ := Option.bind_eq_some_iff.mp hsc
      split at h
      · rename_i fs hooks next hstate
        obtain ⟨⟨key, fin⟩, hmem, hfin⟩ := List.any_eq_true.mp h
        cases fin with
        | relinquish s' ticket =>
            simp only [Finalizer.isRefund, Bool.and_eq_true, decide_eq_true_eq] at hfin
            obtain ⟨rfl, hheld⟩ := hfin
            exact ⟨y, sc, fs, hooks, next, key, ticket, hy, hscope, hstate, hmem, hheld⟩
        | _ => cases hfin
      · cases h
    · cases h
  · rintro ⟨y, sc, fs, hooks, next, key, ticket, hy, hscope, hstate, hmem, hheld⟩
    have hsc : ((w.fibers.get? c).bind fun y => w.scopes.get? y.scope) = some sc := by
      rw [hy]
      exact hscope
    simp only [isAtWork, hsc, hstate]
    refine List.any_eq_true.mpr ⟨_, hmem, ?_⟩
    simp only [Finalizer.isRefund, hheld, Bool.and_true, decide_eq_true_eq]

instance (s : Key .semaphore) (c : Key .fiber) (w : World σ) : Decidable (AtWork s c w) :=
  decidable_of_iff _ isAtWork_iff

namespace Stance

/-- The spot at which a member is. -/
def spot (k : Member σ) : Stance → Spot σ
  | .active p _ => k.spot p
  | .ready p _ => k.spot p
  | .waiting grant => k.queuing grant
  | .asleep _ id _ => k.spot (.awake id)
  | .gone => k.spot (.door .shut)

/-- At every spot the scope of a member has at most one finalizer that gives a permit back, that of its ticket. -/
theorem ticket_of_mem (k : Member σ) (s : Stance) {fs : List (Nat × Finalizer σ)} {hooks : List (Key .fiber)}
    {next : Nat} (hstate : (s.spot k).state = .opened fs hooks next) {key ticket : Nat} {permits : Key .semaphore}
    (hmem : (key, Finalizer.relinquish permits ticket) ∈ fs) : ticket = k.ticket := by
  have hpoint : ∀ p : Point, (k.spot p).state = .opened fs hooks next → ticket = k.ticket := by
    intro p hp
    cases p with
    | door d => cases d <;> cases hp
    | _ =>
        cases hp
        revert hmem
        simp +contextual [Member.refund]
  cases s with
  | active p ops => exact hpoint p hstate
  | ready p id => exact hpoint p hstate
  | waiting grant => exact hpoint (.queue grant) hstate
  | asleep callback id due => exact hpoint (.awake id) hstate
  | gone => exact hpoint (.door .shut) hstate

/-- A member that has a permit will give it back. -/
theorem refund_of_holding (k : Member σ) (s : Stance) (h : s.stage.isHolding = true) :
    ∃ fs hooks next, (s.spot k).state = .opened fs hooks next ∧ (0, k.refund) ∈ fs := by
  have hpoint : ∀ p : Point, p.stage.isHolding = true →
      ∃ fs hooks next, (k.spot p).state = .opened fs hooks next ∧ (0, k.refund) ∈ fs := by
    intro p hp
    cases p <;> first | exact ⟨_, _, _, rfl, List.mem_cons_self⟩ | cases hp
  cases s with
  | active p ops => exact hpoint p h
  | ready p id => exact hpoint p h
  | asleep callback id due => exact hpoint (.awake id) rfl
  | waiting grant => cases h
  | gone => cases h

end Stance

/-- The fiber of a member, and its scope. -/
theorem Member.In.site {k : Member σ} {s : Stance} {budget : Nat} (h : k.In w s) (hk : k.Sound budget) :
    (∃ y, w.fibers.get? k.fiber = some y ∧ y.scope = k.scope) ∧
      w.scopes.get? k.scope = some (k.nestAt (s.spot k)) := by
  cases s with
  | active p ops =>
      obtain ⟨⟨⟨token, hget⟩, hscope⟩, -⟩ := h
      exact ⟨⟨_, hget, hk.scope⟩, hscope⟩
  | ready p id =>
      obtain ⟨⟨t, -, -, -, token, r, m, -, ⟨⟨next, hget⟩, hscope⟩, -⟩, -⟩ := h
      exact ⟨⟨_, hget, hk.scope⟩, hscope⟩
  | waiting grant =>
      obtain ⟨token, ⟨⟨next, hget⟩, hscope⟩, -⟩ := h
      exact ⟨⟨_, hget, hk.scope⟩, hscope⟩
  | asleep callback id due =>
      obtain ⟨-, token, ⟨⟨next, hget⟩, hscope⟩, -⟩ := h
      exact ⟨⟨_, hget, hk.scope⟩, hscope⟩
  | gone =>
      obtain ⟨⟨y, hget, -, hy, -⟩, hscope⟩ := h
      exact ⟨⟨y, hget, hy⟩, hscope⟩

namespace Scene

/-- The members that are at work are those that have a permit. -/
theorem atWork_iff (hZ : Z.Sound) (h : Scene Z P w) (i : Fin n) :
    AtWork Z.permits (Z.walker i).fiber w ↔ (P.stance i).stage.isHolding = true := by
  obtain ⟨⟨y, hget, hy⟩, hscope⟩ := (h.cast.member i).site (hZ.member i)
  have hsem : w.semaphore Z.permits = P.semaphore Z.level := semaphore_of_get h.permits
  have hheld := isHeld_iff (P := P) (i := i) Z.level
  rw [h.ledger.holders i] at hheld
  constructor
  · rintro ⟨y', sc, fs, hooks, next, key, ticket, hget', hsc, hstate, hmem, hholds⟩
    obtain rfl : y = y' := Option.some.inj (hget.symm.trans hget')
    rw [hy, hscope] at hsc
    obtain rfl := Option.some.inj hsc
    obtain rfl := (P.stance i).ticket_of_mem (Z.member i) hstate hmem
    rw [hsem] at hholds
    exact hheld.mp hholds
  · intro hholding
    obtain ⟨fs, hooks, next, hstate, hmem⟩ := (P.stance i).refund_of_holding (Z.member i) hholding
    refine ⟨y, _, fs, hooks, next, 0, i.val, hget, by rw [hy]; exact hscope, hstate, hmem, ?_⟩
    rw [hsem]
    exact hheld.mpr hholding

/-- As many members are at work as the book has holders. -/
theorem ncard_atWork (hZ : Z.Sound) (h : Scene Z P w) :
    {i | AtWork Z.permits (Z.walker i).fiber w}.ncard = P.book.holders.length := by
  have hset : {i | AtWork Z.permits (Z.walker i).fiber w} = (P.book.holders.toFinset : Set (Fin n)) := by
    ext i
    rw [Set.mem_ofPred_eq, h.atWork_iff hZ, ← h.ledger.holders i]
    simp
  rw [hset, Set.ncard_coe_finset, List.toFinset_card_of_nodup h.ledger.nodup]

end Scene

/-! ## What is true all the way -/

/-- What comes to be true does so at some step. -/
theorem exists_switch {q : Nat → Prop} {k : Nat} (hzero : ¬ q 0) (hk : q k) : ∃ l < k, ¬ q l ∧ q (l + 1) := by
  induction k with
  | zero => exact absurd hk hzero
  | succ k ih =>
      by_cases hq : q k
      · obtain ⟨l, hl, hswitch⟩ := ih hq
        exact ⟨l, Nat.lt_succ_of_lt hl, hswitch⟩
      · exact ⟨k, Nat.lt_succ_self k, hq, hk⟩

namespace Play

variable {N k : Nat} {P : Nat → Score n}

/-- No more members are at work than there are permits. -/
theorem ncard_le (hZ : Z.Sound) (h : Play Z x N P) (hk : k ≤ N) :
    {i | AtWork Z.permits (Z.walker i).fiber (Moment.tick^[k] x).world}.ncard ≤ Z.level := by
  rw [(h.scene k hk).ncard_atWork hZ]
  exact (h.scene k hk).ledger.length_le

/-- A member that has begun by the step `k` began at some step, in which it got its permit. -/
theorem exists_begins (h : Play Z x N P) (hfresh : ∀ i, ((P 0).stance i).stage.isBegun = false) (hk : k ≤ N)
    (hi : ((P k).stance i).stage.isBegun = true) :
    ∃ l < k, ((P l).stance i).stage.isBegun = false ∧ ((P (l + 1)).stance i).stage.isBegun = true ∧
      ((P (l + 1)).stance i).stage.isHolding = true := by
  obtain ⟨l, hl, hbefore, hafter⟩ := exists_switch (q := fun k => ((P k).stance i).stage.isBegun = true)
    (by rw [hfresh i]; exact Bool.false_ne_true) hi
  have hbefore' : ((P l).stance i).stage.isBegun = false := Bool.eq_false_iff.mpr hbefore
  exact ⟨l, hl, hbefore', hafter, (h.follows l (lt_of_lt_of_le hl hk)).holding i hafter hbefore'⟩

/-- The members come to work in their order. -/
theorem starts_in_order (hZ : Z.Sound) (h : Play Z x N P) (hfresh : ∀ i, ((P 0).stance i).stage.isBegun = false)
    (hk : k ≤ N) (hij : i < j) (hj : AtWork Z.permits (Z.walker j).fiber (Moment.tick^[k] x).world) :
    ∃ l < k, AtWork Z.permits (Z.walker i).fiber (Moment.tick^[l] x).world := by
  have hbegun := Stage.isBegun_of_isHolding (((h.scene k hk).atWork_iff hZ j).mp hj)
  obtain ⟨l, hl, hbefore, hafter, -⟩ := h.exists_begins hfresh hk hbegun
  have hlN : l < N := lt_of_lt_of_le hl hk
  -- the member before has begun by then, and two do not begin at once
  have hfirst : ((P (l + 1)).stance i).stage.isBegun = true := (h.scene (l + 1) hlN).ledger.begun i j hij hafter
  have hearlier : ((P l).stance i).stage.isBegun = true := by
    by_contra hnot
    exact ne_of_lt hij ((h.follows l hlN).single i j hfirst (Bool.eq_false_iff.mpr hnot) hafter hbefore)
  obtain ⟨l', hl', -, -, hholding⟩ := h.exists_begins hfresh (le_of_lt hlN) hearlier
  exact ⟨l' + 1, lt_of_le_of_lt hl' hl, ((h.scene (l' + 1) (by omega)).atWork_iff hZ i).mpr hholding⟩

/-- In the end all members have ended. -/
theorem all_gone (h : Play Z x N P) (i : Fin n) : (P N).stance i = .gone := by
  obtain ⟨ops, hover⟩ := h.finishes
  have hleft : left (P N).stance = 0 := (h.scene N (le_refl N)).cast.fits.told (by rw [hover]; rfl)
  by_contra hne
  have hstage : ((P N).stance i).stage ≠ .gone := by
    cases hi : (P N).stance i with
    | active p ops => exact p.stage_ne_gone
    | ready p id => exact p.stage_ne_gone
    | waiting grant => simp [Stance.stage]
    | asleep callback id due => simp [Stance.stage]
    | gone => exact absurd hi hne
  have := left_pos hstage
  omega

/-- Everybody comes to work. -/
theorem everybody (hZ : Z.Sound) (h : Play Z x N P) (hfresh : ∀ i, ((P 0).stance i).stage.isBegun = false) (i : Fin n) :
    ∃ k ≤ N, AtWork Z.permits (Z.walker i).fiber (Moment.tick^[k] x).world := by
  obtain ⟨l, hl, -, -, hholding⟩ := h.exists_begins (i := i) hfresh (le_refl N) (by rw [h.all_gone i]; rfl)
  exact ⟨l + 1, hl, ((h.scene (l + 1) hl).atWork_iff hZ i).mpr hholding⟩

/-- While the first round is asleep, as many members are at work as can be. -/
theorem first_round (hZ : Z.Sound) (h : Play Z x N P) (hk : k ≤ N) (hspan : 0 < Z.span)
    (hrests : (Moment.tick^[k] x).Rests) (hnow : (Moment.tick^[k] x).world.now.nanos = Z.start) :
    {i | AtWork Z.permits (Z.walker i).fiber (Moment.tick^[k] x).world}.ncard = min Z.level n := by
  have hscene := h.scene k hk
  rw [hscene.ncard_atWork hZ]
  have hidle : ∀ i, ((P k).stance i).isActive = false := by
    have hturn := h.turn k hk
    rw [hrests.idle] at hturn
    cases hturn with
    | idle _ hidle => exact hidle
  have hround : (P k).round = 0 := by
    have htime := hscene.tempo.time
    rw [hnow] at htime
    rcases Nat.mul_eq_zero.mp (Nat.left_eq_add.mp htime) with hround | hzero
    · exact hround
    · exact absurd hzero (Nat.ne_of_gt hspan)
  exact (hround ▸ hscene.tempo).length_of_quiet hspan hscene.ledger (hscene.quiet hidle hrests.later)

/-- The list is handed over when the last round is over, and then all permits are there and nobody waits. -/
theorem finale (hZ : Z.Sound) (hn : 0 < n) (h : Play Z x N P) :
    ∃ w sem, Moment.tick^[N] x = ⟨w, some (Z.host.fiber, ⟨.value Z.host.value, Z.host.stack, false⟩)⟩ ∧
      w.now.nanos = Z.horizon ∧ w.semaphores.get? Z.permits = some sem ∧ sem.available = Z.level ∧
      sem.waiters = [] := by
  have hscene := h.scene N (le_refl N)
  have hturn := h.turn N (le_refl N)
  obtain ⟨ops, hover⟩ := h.finishes
  have hgone : ∀ i, ((P N).stance i).stage = .gone := fun i => by
    rw [h.all_gone i]
    rfl
  have hline : (P N).book.line = [] := List.eq_nil_iff_forall_not_mem.mpr fun i hi => by
    have := (hscene.ledger.line i).mp hi
    rw [hgone i] at this
    cases this
  have hholders : (P N).book.holders = [] := List.eq_nil_iff_forall_not_mem.mpr fun i hi => by
    have := (hscene.ledger.holders i).mp hi
    rw [hgone i] at this
    cases this
  refine ⟨(Moment.tick^[N] x).world, _, ?_, hscene.tempo.now_of_late hZ.level hn fun i => by rw [hgone i]; rfl,
    hscene.permits, ?_, ?_⟩
  · generalize Moment.tick^[N] x = y at hscene hturn
    obtain ⟨w, active⟩ := y
    cases hturn with
    | host hs =>
        rw [hover] at hs
        cases hs
        rfl
    | member hi hseat =>
        rw [hover] at hseat
        cases hseat
    | idle hseat =>
        rw [hover] at hseat
        cases hseat
  · have hbalance := hscene.ledger.balance
    rw [hholders] at hbalance
    exact hbalance
  · simp only [Score.semaphore, hline, List.map_nil]

/-- With something to sleep for, there is a moment at which the first round is asleep. -/
theorem exists_rest (hZ : Z.Sound) (hn : 0 < n) (hspan : 0 < Z.span) (h : Play Z x N P)
    (hstart : x.world.now.nanos = Z.start) :
    ∃ k ≤ N, (Moment.tick^[k] x).Rests ∧ (Moment.tick^[k] x).world.now = x.world.now := by
  obtain ⟨w, sem, hend, hnow, -⟩ := h.finale hZ hn
  have hmoved : (Moment.tick^[N] x).world.now ≠ x.world.now := by
    rw [hend]
    intro heq
    have hpos : 0 < Z.span * Tempo.rounds n Z.level :=
      Nat.mul_pos hspan (Tempo.lt_rounds hZ.level (by rw [Nat.zero_mul]; exact hn))
    have hsame : Z.horizon = Z.start := by rw [← hnow, heq, hstart]
    exact absurd (Nat.left_eq_add.mp hsame.symm) (Nat.ne_of_gt hpos)
  obtain ⟨k, hk, hbefore, hafter⟩ := exists_switch (q := fun k => (Moment.tick^[k] x).world.now ≠ x.world.now)
    (fun hne => hne rfl) hmoved
  have hnow' : (Moment.tick^[k] x).world.now = x.world.now := not_not.mp hbefore
  refine ⟨k, le_of_lt hk, (h.clock k hk).resolve_left fun heq => hafter (heq.trans hnow'), hnow'⟩

end Play

end Rounds

end Fibers
