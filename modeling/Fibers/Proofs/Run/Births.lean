import Fibers.Proofs.Run.Piles

set_option autoImplicit false

/-! # The roster in a move

Between the tasks of a system nothing shows on the roster but a root fiber that is started: it has the next
number, no parent, and a place on the list of root fibers. In the turn of a fiber its piles shift, it may
fork, and at the end of the turn it may be done. So a fiber keeps what it was made with, and one that is new
after a move is a root fiber that was started or a child of the fiber whose turn it was (`Moment.Born`).
-/

namespace Fibers

variable {σ : Type}

/-- The fiber `f` is done. -/
def Roster.finish (r : Roster) (f : Key .fiber) : Roster :=
  { r.modify f Card.ended with
    roots := if (r.cards.get? f).any (·.vowed) then r.roots.filter (· != f) else r.roots }

theorem Roster.get?_modify_of_some {r : Roster} {f : Key .fiber} {c : Card} (h : r.cards.get? f = some c)
    (g : Card → Card) (k : Key .fiber) :
    (r.modify f g).cards.get? k = if f = k then some (g c) else r.cards.get? k := by
  rw [modify, Store.get?_modify]
  split
  · rename_i heq
    rw [← heq, h, Option.map_some]
  · rfl

namespace World

/-- The end of a fiber, on the roster. -/
theorem roster_finish (w : World σ) (f : Key .fiber) (e : AnyExit) :
    (w.finishFiber f e).roster = w.roster.finish f ∨ (w.finishFiber f e).roster = w.roster := by
  cases hx : w.fibers.get? f with
  | none =>
      right
      simp only [finishFiber, hx]
  | some x =>
      cases hpending : x.done.isPending with
      | true =>
          left
          rw [roster_finishFiber hx hpending e, Roster.finish, card_of_get hx, Option.any_some]
          rfl
      | false =>
          right
          have hsettle := Cell.settle?_isSome x.done (.resolved e)
          rw [hpending, Option.isSome_eq_false_iff, Option.isNone_iff_eq_none] at hsettle
          simp only [finishFiber, hx, hsettle]
          exact roster_modifyFiber fun _ _ => rfl

/-- What a step makes of the roster, up to the piles of its fiber. -/
theorem bears_step {w : World σ} {f : Key .fiber} {y : Fiber σ} {m : Machine σ}
    (hy : w.fibers.get? f = some y) : ∃ c', y.card.Alike c' ∧
      (w.roster.modify f fun _ => c').Bears y.card (w.step f y (m.heed y)).1.roster := by
  have hc := card_of_get hy
  by_cases hworks : Moment.Works ⟨w, some (f, m)⟩ f y m
  · rcases piles_step hworks with ⟨-, hbears⟩ | @⟨p, frame, -, -, hroster⟩ | ⟨gone, left, pushed, c', -, -, hbuilds, -, hroster⟩
    · exact ⟨y.card, .refl _, modify_keep hc ▸ hbears⟩
    · exact ⟨y.card.labelled frame, ⟨rfl, rfl, rfl, rfl, rfl⟩, hroster ▸ .refl⟩
    · exact ⟨c', (Card.alike_pop y.card gone).trans hbuilds.alike, hroster ▸ .refl⟩
  · rcases step_idle hy hworks with ⟨e, -, hstep⟩ | ⟨p, hstep⟩ | hstep
    · refine ⟨y.card.left, ⟨rfl, rfl, rfl, rfl, rfl⟩, ?_⟩
      rw [hstep]
      have hleave : (w.leave f y e).1.roster = w.roster.modify f fun _ => y.card.left := roster_own hy
      exact hleave ▸ .refl
    · exact ⟨y.card, .refl _, by rw [hstep, ← modify_keep hc]; exact .refl⟩
    · refine ⟨y.card, .refl _, ?_⟩
      rw [hstep, ← modify_keep hc]
      have hreset : (w.modifyFiber f fun fiber => { fiber with ops := 0 }).roster = w.roster :=
        roster_modifyFiber fun _ _ => rfl
      exact hreset ▸ .refl

/-- What the end of a step makes of it. -/
theorem roster_conclude_cases (f : Key .fiber) (stepped : World σ × Stepped σ) :
    (conclude f stepped).world.roster = stepped.1.roster ∨
      (conclude f stepped).world.roster = stepped.1.roster.finish f := by
  obtain ⟨w, m, d⟩ := stepped
  cases d with
  | done e => exact (roster_finish w f e).symm
  | proceed => exact Or.inl rfl
  | yield => exact Or.inl (roster_conclude nofun)
  | await a release => exact Or.inl (roster_conclude nofun)

/-- The list of root fibers waits for the end of a fiber. -/
theorem roster_watchRoot {w : World σ} {f : Key .fiber} {c : Card} (hc : w.roster.cards.get? f = some c)
    (hpending : c.pending = true) :
    (w.watchFiber f .root).1.roster = w.roster.modify f fun _ => { c with vowed := true } := by
  obtain ⟨x, hx, rfl⟩ := get_of_card hc
  have hpending : x.done.isPending = true := hpending
  cases hdone : x.done with
  | settled outcome =>
      rw [hdone] at hpending
      cases hpending
  | pending os n =>
      simp only [watchFiber, hx, hdone, Cell.attach?]
      refine roster_modifyFiber_of fun z hz => ?_
      obtain rfl : x = z := Option.some.inj (hx.symm.trans hz)
      simp only [Fiber.card, hdone, Cell.observers, List.any_append, List.any_cons, List.any_nil,
        DoneWatcher.isRoot, Bool.or_false, Bool.or_true]
      rfl

/-- A card that was just added. -/
theorem modify_add (cards : Store .fiber Card) (c : Card) (g : Card → Card) :
    (cards.add c).1.modify (cards.add c).2 g = (cards.add (g c)).1 := by
  have hkey : (cards.add (g c)).2 = (cards.add c).2 := rfl
  refine Store.ext_get? fun k => ?_
  rw [Store.get?_modify, Store.get?_add, Store.get?_add, hkey]
  by_cases hk : k = (cards.add c).2
  · rw [if_pos hk.symm, if_pos hk, if_pos hk, Option.map_some]
  · rw [if_neg (fun heq => hk heq.symm), if_neg hk, if_neg hk]

/-- A root fiber that is started has the next number and is put on the list, with nothing on its piles. -/
theorem roster_runFiber (w : World σ) (p : Program σ) : ∃ c : Card,
    c.context.parent = none ∧ c.context.id.sequence = w.sequence + 1 ∧ c.context.limits = w.limits ∧
      c.inherited = [] ∧ c.bare = c ∧ c.pending = true ∧ c.vowed = true ∧
      (w.runFiber p).2 = (w.roster.cards.add c).2 ∧
      (w.runFiber p).1.roster = ⟨w.limits, w.sequence + 1, w.roots ++ [(w.roster.cards.add c).2],
        (w.roster.cards.add c).1⟩ := by
  set w₁ := ((w.nextId.1.newRefs .empty).1.newScope w.nextId.2 w.limits.finalization).1 with hw₁
  set s := ((w.nextId.1.newRefs .empty).1.newScope w.nextId.2 w.limits.finalization).2 with hs
  set c := Context.root w.nextId.2 w.limits (w.nextId.1.newRefs .empty).2 w.concurrency with hc
  obtain ⟨semaphore, card, hcard, hkey, hnew⟩ := roster_newFiber w₁ c s p w.services []
  have hrun : w.runFiber p =
      ((({ (w₁.newFiber c s p w.services []).1 with
            roots := (w₁.newFiber c s p w.services []).1.roots ++ [(w₁.newFiber c s p w.services []).2] }
          ).watchFiber (w₁.newFiber c s p w.services []).2 .root).1.startFiber
            (w₁.newFiber c s p w.services []).2, (w₁.newFiber c s p w.services []).2) := rfl
  generalize w₁.newFiber c s p w.services [] = made at hkey hnew hrun
  obtain ⟨w₂, f⟩ := made
  have hnew : w₂.roster = ⟨w.limits, w.sequence + 1, w.roots, (w.roster.cards.add card).1⟩ := hnew
  have hkey : f = (w.roster.cards.add card).2 := hkey
  have hlisted : ({ w₂ with roots := w₂.roots ++ [f] } : World σ).roster =
      ⟨w.limits, w.sequence + 1, w.roots ++ [f], (w.roster.cards.add card).1⟩ := by
    rw [← show w₂.roots = w.roots from congrArg Roster.roots hnew]
    exact congrArg (fun r : Roster => { r with roots := w₂.roots ++ [f] }) hnew
  have hself : ({ w₂ with roots := w₂.roots ++ [f] } : World σ).roster.cards.get? f = some card := by
    rw [hlisted]
    exact (Store.get?_add _ _ _).trans (if_pos hkey)
  have hwatch := roster_watchRoot hself (by rw [hcard])
  refine ⟨{ card with vowed := true }, by rw [hcard]; rfl, by rw [hcard]; rfl, by rw [hcard]; rfl,
    by rw [hcard], by rw [hcard]; rfl, by rw [hcard], rfl, ?_, ?_⟩
  · rw [hrun]
    exact hkey
  · rw [hrun]
    refine (roster_startFiber _ _).trans (hwatch.trans ?_)
    rw [hlisted, Roster.modify, hkey, modify_add]
    rfl

end World

/-- A fiber is new, and has the card `c`: it was started as a root fiber, or the fiber whose turn it was forked
it. -/
inductive Moment.Born (x x' : Moment σ) (f : Key .fiber) (c : Card) : Prop
  | root {p : Program σ} : x.active = none → x' = ⟨(x.world.runFiber p).1, none⟩ →
      (x.world.runFiber p).2 = f → c.context.parent = none → c.context.limits = x.world.limits →
      c.inherited = [] → c.labels = [] → Born x x' f c
  | fork {g : Key .fiber} {m : Machine σ} {y : Fiber σ} : x.active = some (g, m) →
      x.world.fibers.get? g = some y → y.card.Begets c → Born x x' f c

/-- What becomes of the cards in a move. -/
structure Moment.Deals (x x' : Moment σ) : Prop where
  limits : x'.world.limits = x.world.limits
  kept : ∀ f c, x.world.roster.cards.get? f = some c → ∃ c', x'.world.roster.cards.get? f = some c' ∧
    c'.context = c.context ∧ c'.inherited = c.inherited ∧
    ((∀ m, x.active ≠ some (f, m)) → c' = c)
  dealt : ∀ f c, x'.world.roster.cards.get? f = some c →
    (∃ d, x.world.roster.cards.get? f = some d) ∨ x.world.roster.cards.get? f = none ∧ x.Born x' f c

theorem Moment.Deals.of_roster {x x' : Moment σ} (h : x'.world.roster = x.world.roster) : x.Deals x' :=
  ⟨congrArg Roster.limits h, fun _ c hc => ⟨c, h ▸ hc, rfl, rfl, fun _ => rfl⟩,
    fun _ c hc => Or.inl ⟨c, h ▸ hc⟩⟩

theorem Roster.Birth.limits {parent : Card} {r r' : Roster} (h : r.Birth parent r') : r'.limits = r.limits := by
  cases h <;> rfl

theorem Roster.Bears.limits {parent : Card} {r r' : Roster} (h : r.Bears parent r') : r'.limits = r.limits := by
  induction h with
  | refl => rfl
  | tail _ hbirth ih => exact hbirth.limits.trans ih

/-- The turn of a fiber. -/
theorem World.deals_advance {w : World σ} {f : Key .fiber} {m : Machine σ} :
    Moment.Deals ⟨w, some (f, m)⟩ (w.advance f m) := by
  unfold World.advance
  split
  · exact .of_roster rfl
  · rename_i y hy
    obtain ⟨c', halike, hbears⟩ := World.bears_step (m := m) hy
    have hcard := World.card_of_get hy
    have hshift := Roster.get?_modify_of_some hcard fun _ => c'
    -- the step first: the piles of the fiber shift, and children are made
    have hold : ∀ g c, w.roster.cards.get? g = some c →
        ∃ d, (w.step f y (m.heed y)).1.roster.cards.get? g = some d ∧ c.Alike d ∧ (f ≠ g → d = c) := by
      intro g c hc
      by_cases hfg : f = g
      · subst hfg
        obtain rfl : y.card = c := Option.some.inj (hcard.symm.trans hc)
        exact ⟨c', hbears.get? (by rw [hshift, if_pos rfl]), halike, fun hne => absurd rfl hne⟩
      · exact ⟨c, hbears.get? (by rw [hshift, if_neg hfg, hc]), .refl c, fun _ => rfl⟩
    have hnew : ∀ g c, (w.step f y (m.heed y)).1.roster.cards.get? g = some c →
        (∃ d, w.roster.cards.get? g = some d) ∨ w.roster.cards.get? g = none ∧ y.card.Begets c := by
      intro g c hc
      rcases hbears.old_or_child hc with hthere | ⟨hnone, hchild⟩
      · rw [hshift] at hthere
        split at hthere
        · rename_i heq
          exact Or.inl ⟨y.card, heq ▸ hcard⟩
        · exact Or.inl ⟨c, hthere⟩
      · rw [hshift] at hnone
        split at hnone
        · cases hnone
        · exact Or.inr ⟨hnone, hchild⟩
    rcases World.roster_conclude_cases f (w.step f y (m.heed y)) with heq | heq
    · refine ⟨(congrArg Roster.limits heq).trans hbears.limits, fun g c hc => ?_, fun g c hc => ?_⟩
      · obtain ⟨d, hd, ha, hsame⟩ := hold g c hc
        exact ⟨d, heq ▸ hd, ha.context, ha.inherited, fun haside => hsame fun hfg => haside m (hfg ▸ rfl)⟩
      · rcases hnew g c (heq ▸ hc) with hthere | ⟨hnone, hchild⟩
        · exact Or.inl hthere
        · exact Or.inr ⟨hnone, .fork rfl hy hchild⟩
    · -- then it is done
      obtain ⟨z, hz, -⟩ := hold f y.card hcard
      have hended := Roster.get?_modify_of_some hz Card.ended
      refine ⟨(congrArg Roster.limits heq).trans hbears.limits, fun g c hc => ?_, fun g c hc => ?_⟩
      · obtain ⟨d, hd, ha, hsame⟩ := hold g c hc
        by_cases hfg : f = g
        · subst hfg
          obtain rfl := Option.some.inj (hz.symm.trans hd)
          refine ⟨z.ended, ?_, ha.context, ha.inherited, fun haside => absurd rfl (haside m)⟩
          rw [heq]
          exact (hended f).trans (if_pos rfl)
        · refine ⟨d, ?_, ha.context, ha.inherited, fun _ => hsame hfg⟩
          rw [heq]
          exact (hended g).trans ((if_neg hfg).trans hd)
      · by_cases hfg : f = g
        · exact Or.inl ⟨y.card, hfg ▸ hcard⟩
        · rw [heq] at hc
          rcases hnew g c (((hended g).trans (if_neg hfg)).symm.trans hc) with hthere | ⟨hnone, hchild⟩
          · exact Or.inl hthere
          · exact Or.inr ⟨hnone, .fork rfl hy hchild⟩

/-- Every move keeps what fibers are made with. -/
theorem Move.deals {x x' : Moment σ} (h : Move x x') : x.Deals x' := by
  cases h with
  | advance => exact World.deals_advance
  | task ht hlive => exact .of_roster (World.roster_begin _ _)
  | pass hlive => exact .of_roster rfl
  | errand he hothers => exact .of_roster (World.roster_runErrand _ _ _)
  | act ha => exact .of_roster (World.roster_run _ _)
  | @root w p hp =>
      obtain ⟨c, hparent, -, hlimits, hinherited, hbare, -, -, hkey, hroster⟩ := World.roster_runFiber w p
      have hcards : (w.runFiber p).1.roster.cards = (w.roster.cards.add c).1 := congrArg Roster.cards hroster
      refine ⟨congrArg Roster.limits hroster, fun f d hd => ?_, fun f d hd => ?_⟩
      · refine ⟨d, ?_, rfl, rfl, fun _ => rfl⟩
        rw [hcards]
        exact Store.get?_add_of_some c hd
      · rw [hcards, Store.get?_add] at hd
        split at hd
        · rename_i heq
          obtain rfl := Option.some.inj hd
          refine Or.inr ⟨heq ▸ Store.get?_next _ c, ?_⟩
          exact .root rfl rfl (hkey.trans heq.symm) hparent hlimits hinherited (congrArg Card.labels hbare).symm
        · exact Or.inl ⟨d, hd⟩

/-! ## In a run -/

/-- A new system has no fibers. -/
theorem World.get?_cards_new (config : Config) (services : Services) (board : σ) (f : Key .fiber) :
    (World.new config services board).roster.cards.get? f = none := by
  rw [World.get?_cards]
  exact Option.map_eq_none_iff.mpr Array.getElem?_empty

/-- In the move from the moment `j` the fiber `f` is started as a root fiber. -/
def Run.Starts (r : Run σ) (j : Nat) (f : Key .fiber) : Prop :=
  ∃ w p, r.moment j = ⟨w, none⟩ ∧ r.moment (j + 1) = ⟨(w.runFiber p).1, none⟩ ∧ (w.runFiber p).2 = f

/-- A root fiber that is started is there, without a parent. -/
theorem Run.Starts.card {r : Run σ} {j : Nat} {f : Key .fiber} (h : r.Starts j f) :
    ∃ c, (r.moment (j + 1)).world.roster.cards.get? f = some c ∧ c.context.parent = none := by
  obtain ⟨w, p, -, hnext, rfl⟩ := h
  obtain ⟨c, hparent, -, -, -, -, -, -, hkey, hroster⟩ := World.roster_runFiber w p
  refine ⟨c, ?_, hparent⟩
  rw [hnext, hroster, hkey]
  exact (Store.get?_add _ _ _).trans (if_pos rfl)

/-- A fiber keeps what it was made with. -/
theorem Run.card_of_le {r : Run σ} {j k : Nat} (hjk : j ≤ k) {f : Key .fiber} {c : Card}
    (hc : (r.moment j).world.roster.cards.get? f = some c) :
    ∃ d, (r.moment k).world.roster.cards.get? f = some d ∧ d.context = c.context ∧
      d.inherited = c.inherited := by
  induction hjk with
  | refl => exact ⟨c, hc, rfl, rfl⟩
  | @step k _ ih =>
      obtain ⟨d, hd, hcontext, hinherited⟩ := ih
      obtain ⟨e, he, hcontext', hinherited', -⟩ := (r.move k).deals.kept f d hd
      exact ⟨e, he, hcontext'.trans hcontext, hinherited'.trans hinherited⟩

/-- A fiber that is there was made in an earlier move, and keeps what it was made with. -/
theorem Run.born (r : Run σ) {k : Nat} {f : Key .fiber} {c : Card}
    (hc : (r.moment k).world.roster.cards.get? f = some c) :
    ∃ j d, j < k ∧ (r.moment j).world.roster.cards.get? f = none ∧
      (r.moment (j + 1)).world.roster.cards.get? f = some d ∧ (r.moment j).Born (r.moment (j + 1)) f d ∧
      c.context = d.context ∧ c.inherited = d.inherited := by
  induction k generalizing c with
  | zero =>
      rw [r.start, World.get?_cards_new] at hc
      cases hc
  | succ k ih =>
      rcases (r.move k).deals.dealt f c hc with ⟨e, he⟩ | ⟨hnone, hborn⟩
      · obtain ⟨e', he', hcontext, hinherited, -⟩ := (r.move k).deals.kept f e he
        obtain rfl := Option.some.inj (hc.symm.trans he')
        obtain ⟨j, d, hjk, hnone, hd, hborn, hcontext', hinherited'⟩ := ih he
        exact ⟨j, d, Nat.lt_succ_of_lt hjk, hnone, hd, hborn, hcontext.trans hcontext',
          hinherited.trans hinherited'⟩
      · exact ⟨k, c, Nat.lt_succ_self k, hnone, hc, hborn, rfl, rfl⟩

/-- The bounds of a system stay as they were configured, and every fiber has them. -/
theorem Run.limits (r : Run σ) (k : Nat) : (r.moment k).world.limits = .ofConfig r.config ∧
    ∀ f c, (r.moment k).world.roster.cards.get? f = some c → c.context.limits = .ofConfig r.config := by
  induction k with
  | zero =>
      rw [r.start]
      refine ⟨rfl, fun f c hc => ?_⟩
      rw [World.get?_cards_new] at hc
      cases hc
  | succ k ih =>
      refine ⟨(r.move k).deals.limits.trans ih.1, fun f c hc => ?_⟩
      rcases (r.move k).deals.dealt f c hc with ⟨d, hd⟩ | ⟨-, hborn⟩
      · obtain ⟨e, he, hcontext, -⟩ := (r.move k).deals.kept f d hd
        obtain rfl := Option.some.inj (hc.symm.trans he)
        rw [hcontext]
        exact ih.2 f d hd
      · cases hborn with
        | root _ _ _ _ hlimits => exact hlimits.trans ih.1
        | fork _ hy hbegets => exact hbegets.limits.trans (ih.2 _ _ (World.card_of_get hy))

end Fibers
