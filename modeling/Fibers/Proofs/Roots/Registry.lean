import Fibers.Proofs.Run.Births
import Fibers.Proofs.Run.Stopping
import Fibers.Proofs.World.Shutdown

set_option autoImplicit false

/-! # The registry of root fibers

A root fiber is put on the list of root fibers when it is made, and the list waits for its end. Nothing takes
that watcher away before: programs can stop their own watchers only. So at every moment of a run the list has
exactly the root fibers that were started and have not ended (`Run.Registry`). Fibers are numbered in the
order they are made, roots and children alike. What is made of this is told by the calls that drive a system
until a fiber, or every root fiber, has ended.
-/

namespace Fibers

variable {σ : Type}

/-! ## Rosters that are in order -/

/-- The fibers are numbered in the order they were made, and the list of root fibers has those that have no
parent and have not ended, each once, and waits for them. -/
structure Roster.Kept (r : Roster) : Prop where
  numbered : ∀ f c, r.cards.get? f = some c → 0 < c.context.id.sequence ∧ c.context.id.sequence ≤ r.sequence
  ordered : ∀ f g c d, r.cards.get? f = some c → r.cards.get? g = some d → f.index < g.index →
    c.context.id.sequence < d.context.id.sequence
  listed : ∀ f, f ∈ r.roots ↔ ∃ c, r.cards.get? f = some c ∧ c.context.parent = none ∧ c.pending = true
  vowed : ∀ f c, r.cards.get? f = some c → (c.vowed = true ↔ c.context.parent = none ∧ c.pending = true)
  nodup : r.roots.Nodup

namespace Roster

variable {r r' : Roster} {f : Key .fiber} {c c' : Card}

theorem index_lt_of_get? (h : r.cards.get? f = some c) : f.index < r.cards.items.size := by
  obtain ⟨hlt, -⟩ := Array.getElem?_eq_some_iff.mp h
  exact hlt

/-- A new card with the next number; the list of root fibers may grow by it. -/
theorem Kept.enroll (h : r.Kept) {roots : List (Key .fiber)}
    (hsequence : c.context.id.sequence = r.sequence + 1) (hpending : c.pending = true)
    (hvowed : c.vowed = true ↔ c.context.parent = none)
    (hroots : roots = if c.vowed then r.roots ++ [(r.cards.add c).2] else r.roots) :
    Kept ⟨r.limits, r.sequence + 1, roots, (r.cards.add c).1⟩ := by
  -- the key of the new card leads nowhere before, so it is not on the list
  have hnew : (r.cards.add c).2 ∉ r.roots := fun hmem => by
    obtain ⟨d, hd, -⟩ := (h.listed _).mp hmem
    rw [Store.get?_next] at hd
    cases hd
  have hcases : ∀ {g d}, (r.cards.add c).1.get? g = some d →
      g = (r.cards.add c).2 ∧ d = c ∨ g ≠ (r.cards.add c).2 ∧ r.cards.get? g = some d := by
    intro g d hd
    rw [Store.get?_add] at hd
    split at hd
    · rename_i heq
      exact Or.inl ⟨heq, (Option.some.inj hd).symm⟩
    · rename_i hne
      exact Or.inr ⟨hne, hd⟩
  refine ⟨fun g d hd => ?_, fun g k d e hd he hlt => ?_, fun g => ?_, fun g d hd => ?_, ?_⟩
  · rcases hcases hd with ⟨-, rfl⟩ | ⟨-, hd'⟩
    · exact ⟨by omega, Nat.le_of_eq hsequence⟩
    · obtain ⟨hpos, hle⟩ := h.numbered g d hd'
      exact ⟨hpos, Nat.le_succ_of_le hle⟩
  · rcases hcases hd with ⟨rfl, rfl⟩ | ⟨-, hd'⟩
    · rcases hcases he with ⟨rfl, rfl⟩ | ⟨-, he'⟩
      · exact absurd hlt (Nat.lt_irrefl _)
      · exact absurd (index_lt_of_get? he') (Nat.not_lt.mpr (Nat.le_of_lt hlt))
    · rcases hcases he with ⟨rfl, rfl⟩ | ⟨-, he'⟩
      · rw [hsequence]
        exact Nat.lt_succ_of_le (h.numbered g d hd').2
      · exact h.ordered g k d e hd' he' hlt
  · have hget : (∃ d, (r.cards.add c).1.get? g = some d ∧ d.context.parent = none ∧ d.pending = true) ↔
        g ∈ r.roots ∨ g = (r.cards.add c).2 ∧ c.vowed = true := by
      constructor
      · rintro ⟨d, hd, hparent, hpend⟩
        rcases hcases hd with ⟨rfl, rfl⟩ | ⟨-, hd⟩
        · exact Or.inr ⟨rfl, hvowed.mpr hparent⟩
        · exact Or.inl ((h.listed g).mpr ⟨d, hd, hparent, hpend⟩)
      · rintro (hmem | ⟨rfl, hv⟩)
        · obtain ⟨d, hd, hrest⟩ := (h.listed g).mp hmem
          exact ⟨d, Store.get?_add_of_some c hd, hrest⟩
        · exact ⟨c, by rw [Store.get?_add, if_pos rfl], hvowed.mp hv, hpending⟩
    rw [hget, hroots]
    split
    · rename_i hv
      simp only [List.mem_append, List.mem_singleton, hv, and_true]
    · rename_i hv
      simp only [hv, and_false, or_false, Bool.false_eq_true]
  · rcases hcases hd with ⟨-, rfl⟩ | ⟨-, hd⟩
    · rw [hvowed, hpending]
      exact (and_iff_left rfl).symm
    · exact h.vowed g d hd
  · rw [hroots]
    split
    · exact List.nodup_append.mpr ⟨h.nodup, List.nodup_singleton _, fun a ha b hb heq =>
        hnew (List.mem_singleton.mp hb ▸ heq ▸ ha)⟩
    · exact h.nodup

theorem Kept.birth {parent : Card} (h : r.Kept) (hbirth : r.Birth parent r') : r'.Kept := by
  cases hbirth with
  | number =>
      refine ⟨fun g d hd => ?_, h.ordered, h.listed, h.vowed, h.nodup⟩
      obtain ⟨hpos, hle⟩ := h.numbered g d hd
      exact ⟨hpos, Nat.le_succ_of_le hle⟩
  | @child d hchild hsequence =>
      refine h.enroll hsequence hchild.pending ?_ (by rw [hchild.vowed]; rfl)
      rw [hchild.vowed, hchild.parent]
      exact ⟨nofun, nofun⟩

theorem Kept.bears {parent : Card} (h : r.Kept) (hbears : r.Bears parent r') : r'.Kept := by
  induction hbears with
  | refl => exact h
  | tail _ hbirth ih => exact ih.birth hbirth

/-- Piles are no concern of the list. -/
theorem Kept.piles (h : r.Kept) (hc : r.cards.get? f = some c) (halike : c.Alike c') :
    (r.modify f fun _ => c').Kept := by
  have hcases : ∀ {g d}, (r.modify f fun _ => c').cards.get? g = some d →
      ∃ e, r.cards.get? g = some e ∧ e.Alike d := by
    intro g d hd
    rw [get?_modify_of_some hc] at hd
    split at hd
    · rename_i heq
      obtain rfl := Option.some.inj hd
      exact ⟨c, heq ▸ hc, halike⟩
    · exact ⟨d, hd, .refl d⟩
  have hback : ∀ {g d}, r.cards.get? g = some d →
      ∃ e, (r.modify f fun _ => c').cards.get? g = some e ∧ d.Alike e := by
    intro g d hd
    rw [get?_modify_of_some hc]
    split
    · rename_i heq
      obtain rfl : c = d := Option.some.inj (hc.symm.trans (heq ▸ hd))
      exact ⟨c', rfl, halike⟩
    · exact ⟨d, hd, .refl d⟩
  refine ⟨fun g d hd => ?_, fun g k d e hd he hlt => ?_, fun g => ?_, fun g d hd => ?_, h.nodup⟩
  · obtain ⟨d', hd', ha⟩ := hcases hd
    rw [ha.context]
    exact h.numbered g d' hd'
  · obtain ⟨d', hd', ha⟩ := hcases hd
    obtain ⟨e', he', hb⟩ := hcases he
    rw [ha.context, hb.context]
    exact h.ordered g k d' e' hd' he' hlt
  · refine (h.listed g).trans ⟨fun ⟨d, hd, hparent, hpending⟩ => ?_, fun ⟨d, hd, hparent, hpending⟩ => ?_⟩
    · obtain ⟨e, he, ha⟩ := hback hd
      exact ⟨e, he, ha.context ▸ hparent, ha.pending.trans hpending⟩
    · obtain ⟨e, he, ha⟩ := hcases hd
      exact ⟨e, he, ha.context ▸ hparent, ha.pending.symm.trans hpending⟩
  · obtain ⟨d', hd', ha⟩ := hcases hd
    rw [ha.context, ha.pending, ha.vowed]
    exact h.vowed g d' hd'

/-- A root fiber that ends leaves the list; a child was never on it. -/
theorem Kept.finish (h : r.Kept) (f : Key .fiber) : (r.finish f).Kept := by
  cases hc : r.cards.get? f with
  | none =>
      have hsame : r.finish f = r := by
        have hmodify : r.modify f Card.ended = r := modify_eq_self fun c h => by rw [hc] at h; cases h
        simp only [Roster.finish, hmodify, hc, Option.any_none, Bool.false_eq_true, if_false]
      rwa [hsame]
  | some c =>
      have hroots : ∀ g, g ∈ (r.finish f).roots ↔ g ∈ r.roots ∧ g ≠ f := by
        intro g
        simp only [Roster.finish, hc, Option.any_some]
        split
        · simp only [List.mem_filter, bne_iff_ne, ne_eq]
        · rename_i hv
          refine ⟨fun hg => ⟨hg, ?_⟩, And.left⟩
          rintro rfl
          obtain ⟨d, hd, hroot⟩ := (h.listed g).mp hg
          obtain rfl : c = d := Option.some.inj (hc.symm.trans hd)
          exact hv ((h.vowed g c hc).mpr hroot)
      have hget : ∀ k, (r.finish f).cards.get? k = if f = k then some c.ended else r.cards.get? k :=
        get?_modify_of_some hc _
      have hcases : ∀ {g d}, (r.finish f).cards.get? g = some d →
          ∃ e, r.cards.get? g = some e ∧ d.context = e.context ∧
            (g = f ∧ d = c.ended ∨ g ≠ f ∧ d = e) := by
        intro g d hd
        rw [hget] at hd
        split at hd
        · rename_i heq
          obtain rfl := Option.some.inj hd
          exact ⟨c, heq ▸ hc, rfl, Or.inl ⟨heq.symm, rfl⟩⟩
        · rename_i hne
          exact ⟨d, hd, rfl, Or.inr ⟨fun heq => hne heq.symm, rfl⟩⟩
      refine ⟨fun g d hd => ?_, fun g k d e hd he hlt => ?_, fun g => ?_, fun g d hd => ?_, ?_⟩
      · obtain ⟨e, he, hcontext, -⟩ := hcases hd
        rw [hcontext]
        exact h.numbered g e he
      · obtain ⟨d', hd', hcontext, -⟩ := hcases hd
        obtain ⟨e', he', hcontext', -⟩ := hcases he
        rw [hcontext, hcontext']
        exact h.ordered g k d' e' hd' he' hlt
      · rw [hroots, h.listed]
        constructor
        · rintro ⟨⟨d, hd, hrest⟩, hne⟩
          exact ⟨d, by rw [hget, if_neg fun heq => hne heq.symm, hd], hrest⟩
        · rintro ⟨d, hd, hparent, hpending⟩
          obtain ⟨e, he, -, ⟨rfl, rfl⟩ | ⟨hne, rfl⟩⟩ := hcases hd
          · cases hpending
          · exact ⟨⟨d, he, hparent, hpending⟩, hne⟩
      · obtain ⟨e, he, -, ⟨rfl, rfl⟩ | ⟨hne, rfl⟩⟩ := hcases hd
        · exact ⟨fun hvow => (by cases hvow), fun hend => by cases hend.2⟩
        · exact h.vowed g d he
      · simp only [Roster.finish]
        split
        · exact h.nodup.filter _
        · exact h.nodup

end Roster

/-! ## Moves -/

/-- Every move keeps the roster in order. -/
theorem Move.kept {x x' : Moment σ} (h : Move x x') (hx : x.world.roster.Kept) : x'.world.roster.Kept := by
  cases h with
  | @advance w f m =>
      unfold World.advance
      split
      · exact hx
      · rename_i y hy
        obtain ⟨c', halike, hbears⟩ := World.bears_step (m := m) hy
        have hstep := (hx.piles (World.card_of_get hy) halike).bears hbears
        rcases World.roster_conclude_cases f (w.step f y (m.heed y)) with heq | heq
        · exact heq ▸ hstep
        · exact heq ▸ hstep.finish f
  | task ht hlive => exact (World.roster_begin _ _).symm ▸ hx
  | pass hlive => exact hx
  | errand he hothers => exact (World.roster_runErrand _ _ _).symm ▸ hx
  | @root w p hp =>
      obtain ⟨c, hparent, hsequence, -, -, -, hpending, hvowed, -, hroster⟩ := World.roster_runFiber w p
      have hkept : w.roster.Kept := hx
      refine hroster.symm ▸ hkept.enroll hsequence hpending (by simp only [hvowed, hparent]) ?_
      rw [if_pos hvowed]
      rfl
  | act ha => exact (World.roster_run _ _).symm ▸ hx

theorem Moment.kept_of_reaches {x x' : Moment σ} (h : Reaches x x') (hx : x.world.roster.Kept) :
    x'.world.roster.Kept := by
  induction h with
  | refl => exact hx
  | tail _ hmove ih => exact hmove.kept ih

/-- At every moment of a run the roster is in order. -/
theorem Run.kept (r : Run σ) (k : Nat) : (r.moment k).world.roster.Kept := by
  induction k with
  | zero =>
      rw [r.start]
      have hnone := World.get?_cards_new r.config r.services r.board
      refine ⟨fun f c hc => ?_, fun f g c d hc => ?_, fun f => ⟨nofun, fun ⟨c, hc, _⟩ => ?_⟩,
        fun f c hc => ?_, List.nodup_nil⟩ <;> exact absurd ((hnone f).symm.trans hc) nofun
  | succ k ih => exact (r.move k).kept ih

/-! ## What was started -/

/-- The fibers without a parent are those that were started as root fibers. -/
theorem Run.parentless_iff {r : Run σ} {k : Nat} {f : Key .fiber} :
    (∃ c, (r.moment k).world.roster.cards.get? f = some c ∧ c.context.parent = none) ↔
      ∃ j, j < k ∧ r.Starts j f := by
  constructor
  · rintro ⟨c, hc, hparent⟩
    obtain ⟨j, d, hjk, -, -, hborn, hcontext, -⟩ := r.born hc
    rw [hcontext] at hparent
    cases hborn with
    | @root p hquiet hnext hkey =>
        refine ⟨j, hjk, (r.moment j).world, p, ?_, hnext, hkey⟩
        rw [← hquiet]
    | fork hactive hy hbegets =>
        rw [hbegets.parent] at hparent
        cases hparent
  · rintro ⟨j, hjk, hstarts⟩
    obtain ⟨c, hc, hparent⟩ := hstarts.card
    obtain ⟨d, hd, hcontext, -⟩ := Run.card_of_le hjk hc
    exact ⟨d, hd, hcontext ▸ hparent⟩

/-! ## The registry -/

/-- The list of root fibers has those that were started and are not done, each once. Fibers are numbered in
the order they were made, which is that of their keys, so no two have the same id. -/
structure Run.Registry (r : Run σ) (k : Nat) : Prop where
  listed : ∀ f, f ∈ (r.moment k).world.roots ↔
    (∃ j, j < k ∧ r.Starts j f) ∧ (r.moment k).world.exitOf f = none
  nodup : (r.moment k).world.roots.Nodup
  numbered : ∀ f x, (r.moment k).world.fibers.get? f = some x →
    0 < x.context.id.sequence ∧ x.context.id.sequence ≤ (r.moment k).world.sequence
  ordered : ∀ f g x y, (r.moment k).world.fibers.get? f = some x →
    (r.moment k).world.fibers.get? g = some y → f.index < g.index →
    x.context.id.sequence < y.context.id.sequence
  distinct : ∀ f g x y, (r.moment k).world.fibers.get? f = some x →
    (r.moment k).world.fibers.get? g = some y → x.context.id = y.context.id → f = g

theorem World.exitOf_eq_none {w : World σ} {f : Key .fiber} {x : Fiber σ} (hx : w.fibers.get? f = some x) :
    w.exitOf f = none ↔ x.card.pending = true := by
  have hpending : x.card.pending = x.done.outcome?.isNone := rfl
  rw [World.exitOf, hx, Option.bind_some, Fiber.exit?, Option.map_eq_none_iff, hpending,
    Option.isNone_iff_eq_none]

theorem Run.registry (r : Run σ) (k : Nat) : r.Registry k where
  listed := by
    intro f
    rw [← Run.parentless_iff]
    refine ((r.kept k).listed f).trans ⟨fun ⟨c, hc, hparent, hpending⟩ => ?_, fun ⟨⟨c, hc, hparent⟩, hnone⟩ => ?_⟩
    · obtain ⟨x, hx, rfl⟩ := World.get_of_card hc
      exact ⟨⟨_, hc, hparent⟩, (World.exitOf_eq_none hx).mpr hpending⟩
    · obtain ⟨x, hx, rfl⟩ := World.get_of_card hc
      exact ⟨_, hc, hparent, (World.exitOf_eq_none hx).mp hnone⟩
  nodup := (r.kept k).nodup
  numbered := fun f _ hx => (r.kept k).numbered f _ (World.card_of_get hx)
  ordered := fun f g _ _ hx hy => (r.kept k).ordered f g _ _ (World.card_of_get hx) (World.card_of_get hy)
  distinct := by
    intro f g x y hx hy hid
    have hcards := (r.kept k).ordered
    rcases Nat.lt_trichotomy f.index g.index with hlt | heq | hlt
    · have hsequence := hcards f g _ _ (World.card_of_get hx) (World.card_of_get hy) hlt
      exact absurd (congrArg FiberId.sequence hid) (Nat.ne_of_lt hsequence)
    · exact congrArg Key.mk heq
    · have hsequence := hcards g f _ _ (World.card_of_get hy) (World.card_of_get hx) hlt
      exact absurd (congrArg FiberId.sequence hid).symm (Nat.ne_of_lt hsequence)

/-! ## Calls that drive a system -/

/-- What is reached from a moment of a run is a moment of a run that is the same up to there. -/
theorem Run.extend (r : Run σ) {k : Nat} {x : Moment σ} (h : Reaches (r.moment k) x) :
    ∃ (r' : Run σ) (n : Nat), k ≤ n ∧ (∀ j, j ≤ k → r'.moment j = r.moment j) ∧ r'.moment n = x := by
  induction h with
  | refl => exact ⟨r, k, Nat.le_refl k, fun _ _ => rfl, rfl⟩
  | @tail x x' _ hmove ih =>
      obtain ⟨r', n, hkn, hsame, hat⟩ := ih
      -- the run so far, then the move, and then what comes next in order
      refine ⟨{
        config := r'.config
        services := r'.services
        board := r'.board
        moment := fun j => if j ≤ n then r'.moment j else x'.later (j - (n + 1))
        start := by rw [if_pos (Nat.zero_le n)]; exact r'.start
        move := fun j => ?_ }, n + 1, Nat.le_succ_of_le hkn, fun j hj => ?_, ?_⟩
      · rcases Nat.lt_trichotomy j n with hlt | rfl | hlt
        · rw [if_pos (Nat.le_of_lt hlt), if_pos (Nat.succ_le_of_lt hlt)]
          exact r'.move j
        · rw [if_pos (Nat.le_refl j), if_neg (Nat.not_succ_le_self j), hat, Nat.sub_self]
          exact hmove
        · have hnext : j + 1 - (n + 1) = j - (n + 1) + 1 := by omega
          rw [if_neg (Nat.not_le.mpr hlt), if_neg (Nat.not_le.mpr (Nat.lt_succ_of_lt hlt)), hnext]
          exact Moment.move_next _
      · exact (if_pos (Nat.le_trans hj hkn)).trans (hsame j hj)
      · refine (if_neg (Nat.not_succ_le_self n)).trans ?_
        rw [Nat.sub_self]
        rfl

namespace World

variable {w w' : World σ} {fuel : Nat}

/-- Interrupting fibers from outside is a row of moves. -/
theorem reaches_interruptAll (w : World σ) (fs : List (Key .fiber)) (id : FiberId) :
    Reaches ⟨w, none⟩ ⟨w.interruptAll fs id, none⟩ := by
  induction fs generalizing w with
  | nil => exact .refl
  | cons f rest ih =>
      have hmove : Move ⟨w, none⟩ ⟨w.interruptFiber f id, none⟩ :=
        .act (a := .call (.interruptFiber f id) fun _ => .done) (.call nofun fun _ => .done)
      exact .head hmove (ih _)

/-- Where nothing is left to do on virtual time, no task is queued. -/
theorem live_of_exhausted (h : (host fuel).Exhausted w) : w.timers.live = [] :=
  List.head?_eq_none_iff.mp (Option.map_eq_none_iff.mp h.1)

/-- Running a program to its exit returns the exit that its fiber has published, if it is done, and that the
program has stalled only if it is not done and no task is left. -/
def ExitsRight (w : World σ) (p : Program σ) (w' : World σ) (e : AnyExit) : Prop :=
  (∀ e', w'.exitOf (w.runFiber p).2 = some e' → e = e') ∧
    (w'.exitOf (w.runFiber p).2 = none → e = stalled ∧ w'.timers.live = [])

/-- A shutdown returns the number of root fibers that it found, and leaves none behind, unless one that is
not done is left and no task is. -/
def ShutsRight (w w' : World σ) (n : Nat) : Prop :=
  n = w.roots.length ∧
    (w'.roots = [] ∨ w'.timers.live = [] ∧ ∃ f ∈ w'.roots, w'.exitOf f = none)

theorem exitsRight {p : Program σ} {e : AnyExit} (hp : p.Licensed .none)
    (h : runExit fuel w p = (w', .finished e)) :
    Reaches ⟨w, none⟩ ⟨w', none⟩ ∧ w.ExitsRight p w' e := by
  have hstart : Move ⟨w, none⟩ ⟨(w.runFiber p).1, none⟩ := .root hp
  rw [runExit_eq] at h
  split at h
  · rename_i w₁ hdrive
    obtain ⟨rfl, he⟩ := Prod.mk.inj h
    have hends := Host.ends_of_untilLoop hdrive
    obtain ⟨x, hx⟩ := Option.isSome_iff_exists.mp hends.shows
    rw [hx, Option.getD_some] at he
    cases he
    refine ⟨.head hstart (reaches_steps hends.steps), fun e' he' => ?_, fun hnone => ?_⟩
    · exact Option.some.inj (hx.symm.trans he')
    · rw [hx] at hnone
      cases hnone
  · rename_i w₁ hdrive
    obtain ⟨rfl, he⟩ := Prod.mk.inj h
    have hends := Host.ends_of_untilLoop hdrive
    cases he
    refine ⟨.head hstart (reaches_steps hends.steps), fun e' he' => ?_, fun _ => ⟨rfl, ?_⟩⟩
    · have hshows := hends.shows
      rw [he'] at hshows
      cases hshows
    · exact live_of_exhausted (hends.exhausted rfl)
  · cases (Prod.mk.inj h).2
  · cases (Prod.mk.inj h).2

theorem shutsRight {order : List (Key .fiber)} {n : Nat} (hw : w.roster.Kept) (horder : order.Perm w.roots)
    (h : w.shutdownIn order fuel = (w', .finished n)) :
    Reaches ⟨w, none⟩ ⟨w', none⟩ ∧ w.ShutsRight w' n := by
  have hinterrupt := reaches_interruptAll w order .nobody
  unfold shutdownIn at h
  split at h
  · rename_i w₁ answer hdrive
    obtain ⟨rfl, hn⟩ := Prod.mk.inj h
    cases hn
    have hends := Host.ends_of_untilLoop hdrive
    have hreaches := hinterrupt.trans (reaches_steps hends.steps)
    refine ⟨hreaches, horder.length_eq, ?_⟩
    cases answer with
    | true => exact Or.inl (List.isEmpty_iff.mp hends.shows)
    | false =>
        right
        refine ⟨live_of_exhausted (hends.exhausted rfl), ?_⟩
        have hne : w₁.roots ≠ [] := fun hnil => by
          have hshows := hends.shows
          rw [hnil] at hshows
          cases hshows
        obtain ⟨f, hf⟩ := List.exists_mem_of_ne_nil _ hne
        obtain ⟨c, hc, -, hpending⟩ := ((Moment.kept_of_reaches hreaches hw).listed f).mp hf
        obtain ⟨x, hx, rfl⟩ := get_of_card hc
        exact ⟨f, hf, (exitOf_eq_none hx).mpr hpending⟩
  · cases (Prod.mk.inj h).2
  · cases (Prod.mk.inj h).2

end World

/-- At every moment of a run the list of root fibers is exact. What is called at a moment when nobody has the
turn, in order to run a program to its exit or to shut the system down, and returns, comes to a moment of a
run that goes on from there, and what it returns is right. -/
theorem Run.roots_registered (r : Run σ) (k : Nat) :
    r.Registry k ∧ ∀ w, r.moment k = ⟨w, none⟩ → ∀ fuel w',
      (∀ p e, p.Licensed .none → World.runExit fuel w p = (w', .finished e) → w.ExitsRight p w' e ∧
        ∃ (r' : Run σ) (n : Nat), k ≤ n ∧ (∀ j, j ≤ k → r'.moment j = r.moment j) ∧ r'.moment n = ⟨w', none⟩) ∧
      (∀ order n, order.Perm w.roots → w.shutdownIn order fuel = (w', .finished n) → w.ShutsRight w' n ∧
        ∃ (r' : Run σ) (n : Nat), k ≤ n ∧ (∀ j, j ≤ k → r'.moment j = r.moment j) ∧
          r'.moment n = ⟨w', none⟩) := by
  refine ⟨r.registry k, fun w hw fuel w' => ⟨fun p e hp h => ?_, fun order n horder h => ?_⟩⟩
  · obtain ⟨hreaches, hright⟩ := World.exitsRight hp h
    exact ⟨hright, r.extend (hw ▸ hreaches)⟩
  · have hkept : w.roster.Kept := by
      have hall := r.kept k
      rw [hw] at hall
      exact hall
    obtain ⟨hreaches, hright⟩ := World.shutsRight hkept horder h
    exact ⟨hright, r.extend (hw ▸ hreaches)⟩

/-- A program that waits for what never happens. -/
def adrift : Program Nat := .async fun _ => .pending none

theorem licensed_adrift : adrift.Licensed .none := .async fun _ => .pending nofun

/-- A system in which it was started. -/
def drifting : World Nat := (blank.runFiber adrift).1

/-- A program that yields is run to its exit in a new system. A root fiber that waits for ever is on the list
once it is started, and a shutdown finds it. -/
theorem adrift_registered :
    let r : Run Nat := .inOrder { Config.standard with clock := .virtual } 0 adrift licensed_adrift
    (r.moment 0 = ⟨blank, none⟩ ∧ ∃ w', World.runExit 20 blank .yieldNow = (w', .finished (.success .unit)) ∧
      blank.ExitsRight .yieldNow w' (.success .unit)) ∧
    (r.moment 1 = ⟨drifting, none⟩ ∧ drifting.roots = [⟨0⟩] ∧ r.Registry 1) ∧
      ∃ w', drifting.shutdownIn [⟨0⟩] 40 = (w', .finished 1) ∧ drifting.ShutsRight w' 1 := by
  obtain ⟨w₁, hexit⟩ : ∃ w', World.runExit 20 blank .yieldNow = (w', .finished (.success .unit)) := ⟨_, rfl⟩
  obtain ⟨w₂, hshut⟩ : ∃ w', drifting.shutdownIn [⟨0⟩] 40 = (w', .finished 1) :=
    ⟨(drifting.shutdownIn [⟨0⟩] 40).1, rfl⟩
  have hroots : drifting.roots = [⟨0⟩] := rfl
  intro r
  obtain ⟨-, hfirst⟩ := Run.roots_registered r 0
  obtain ⟨hregistry, hcalls⟩ := Run.roots_registered r 1
  refine ⟨⟨rfl, w₁, hexit, ?_⟩, ⟨rfl, hroots, hregistry⟩, w₂, hshut, ?_⟩
  · exact ((hfirst blank rfl 20 w₁).1 .yieldNow _ .yieldNow hexit).1
  · exact ((hcalls drifting rfl 40 w₂).2 [⟨0⟩] 1 (hroots ▸ .refl _) hshut).1

end Fibers
