import Fibers.Proofs.Contests.Opening

set_option autoImplicit false

/-! # How contests are decided

The members of a contest report to its tally in the order in which they end, each once, and nobody else does
(`Contest.Watched`). So a race is decided by the first of its members to end, and a zip by the first to end
with a failure, or by the last if all end with values.
-/

namespace Fibers

variable {σ : Type}

/-! ## What a report does to a verdict -/

@[simp]
theorem Tally.outcome?_decide (tally : Tally) (result : Option (Nat × AnyExit)) :
    (tally.decide result).decided.outcome? =
      some (tally.decided.outcome?.getD (.resolved result)) := by
  unfold Tally.decide
  cases hcell : tally.decided with
  | pending os next => rfl
  | settled o =>
      dsimp only
      rw [hcell]
      rfl

@[simp]
theorem Tally.remaining_decide (tally : Tally) (result : Option (Nat × AnyExit)) :
    (tally.decide result).remaining = tally.remaining := by
  unfold Tally.decide
  split <;> rfl

theorem Tally.outcome?_countDown (tally : Tally) :
    tally.countDown.decided.outcome? =
      if tally.remaining = 1 then some (tally.decided.outcome?.getD (.resolved none))
      else tally.decided.outcome? := by
  unfold Tally.countDown
  dsimp only
  split
  · exact Tally.outcome?_decide _ _
  · rfl

theorem Tally.remaining_countDown (tally : Tally) :
    tally.countDown.remaining = tally.remaining - 1 := by
  unfold Tally.countDown
  dsimp only
  split
  · exact Tally.remaining_decide _ _
  · rfl

/-! ## Members under watch -/

/-- Every member of the contest reports its place to the tally when it ends, and nobody else reports to
it. -/
structure Contest.Watched (c : Contest) (t : Key .tally) (watcher : Nat → DoneWatcher σ) (w : World σ) :
    Prop where
  tally : (w.tallies.get? t).isSome = true
  members : ∀ i m, c.members[i]? = some m →
    w.reports t m = if (w.exitOf m).isNone then [watcher i] else []
  others : ∀ g, g ∉ c.members → w.reports t g = []

/-- A member that was started has not ended, and reports its place. -/
theorem World.Poised.watched {w : World σ} {m : Key .fiber} {p : Program σ} {o : DoneWatcher σ}
    {t : Key .tally} (h : w.Poised m p (.pending [(0, o)] 1)) (ho : o.reportsTo t = true) :
    w.exitOf m = none ∧ w.reports t m = [o] := by
  obtain ⟨x, s, token, hx, hdone, -⟩ := h.fiber
  refine ⟨?_, ?_⟩
  · rw [World.exitOf, hx, Option.bind_some, Fiber.exit?, hdone]
    rfl
  · simp only [World.reports, hx, Option.map_some, Option.getD_some, Fiber.reports, hdone, Cell.observers,
      List.map_cons, List.map_nil, List.filter_cons, ho, if_true, List.filter_nil]

theorem Contest.Opens.watched {c : Contest} {t : Key .tally} {watcher : Nat → DoneWatcher σ}
    {f : Key .fiber} {ps : List (Program σ)} {w w' : World σ} (h : c.Opens t watcher f ps w w')
    (hreports : ∀ i, (watcher i).reportsTo t = true) (hbefore : ∀ g, w.reports t g = []) :
    c.Watched t watcher w' ∧ ∀ m ∈ c.members, w'.exitOf m = none := by
  have hmember : ∀ i m, c.members[i]? = some m →
      w'.exitOf m = none ∧ w'.reports t m = [watcher i] := by
    intro i m hm
    obtain ⟨hi, -⟩ := List.getElem?_eq_some_iff.mp hm
    have hps : i < ps.length := h.members.length ▸ hi
    exact (h.members.poised i m _ hm (List.getElem?_eq_getElem hps)).watched (hreports i)
  refine ⟨⟨by rw [h.tally]; rfl, fun i m hm => ?_, fun g hg => ?_⟩, fun m hm => ?_⟩
  · obtain ⟨hexit, hreport⟩ := hmember i m hm
    rw [hexit, hreport]
    rfl
  · rw [World.reports, h.others g hg]
    exact hbefore g
  · obtain ⟨i, hi⟩ := List.getElem?_of_mem hm
    exact (hmember i m hi).1

/-- What a move does to a contest under watch: no member ends and the verdict stays, or one member ends, the
others fare as before, and the tally hears of it. -/
inductive Contest.Hears (c : Contest) (t : Key .tally) (watcher : Nat → DoneWatcher σ) (w w' : World σ) :
    Prop
  | silence {tally tally' : Tally} :
      w.tallies.get? t = some tally → w'.tallies.get? t = some tally' →
      tally'.decided.outcome? = tally.decided.outcome? → tally'.remaining = tally.remaining →
      (∀ m ∈ c.members, w'.exitOf m = w.exitOf m) → Contest.Hears c t watcher w w'
  | report {tally tally' : Tally} {i : Nat} {m : Key .fiber} {e : AnyExit} :
      w.tallies.get? t = some tally → w'.tallies.get? t = some (tally'.hear e (watcher i)) →
      tally'.decided.outcome? = tally.decided.outcome? → tally'.remaining = tally.remaining →
      c.members[i]? = some m → w.exitOf m = none → w'.exitOf m = some e →
      (∀ m' ∈ c.members, m' ≠ m → w'.exitOf m' = w.exitOf m') → Contest.Hears c t watcher w w'

section

variable {r : Run σ} {k : Nat} {c : Contest} {t : Key .tally} {watcher : Nat → DoneWatcher σ}

theorem Contest.Watched.step (h : c.Watched t watcher (r.moment k).world) :
    c.Watched t watcher (r.moment (k + 1)).world ∧
      c.Hears t watcher (r.moment k).world (r.moment (k + 1)).world := by
  obtain ⟨tally, htally⟩ := Option.isSome_iff_exists.mp h.tally
  rcases (r.move k).spectates (r.lawful k) (Or.inl h.tally) with hspectates | ⟨f, e, w, hspectates, hends⟩
  · obtain ⟨tally', htally', houtcome, hremaining⟩ := hspectates.tally tally htally
    refine ⟨⟨hspectates.isSome h.tally, fun i m hm => ?_, fun g hg => ?_⟩,
      .silence htally htally' houtcome hremaining fun m _ => hspectates.exits m⟩
    · rw [hspectates.reports, hspectates.exits]
      exact h.members i m hm
    · rw [hspectates.reports]
      exact h.others g hg
  · obtain ⟨tally₁, htally₁, houtcome, hremaining⟩ := hspectates.tally tally htally
    have hbefore : (r.moment k).world.exitOf f = none := (hspectates.exits f).symm.trans hends.before
    have hafter := hends.tally (t := t)
    rw [htally₁, Option.map_some, hspectates.reports] at hafter
    have hothers : ∀ g, g ≠ f → (r.moment (k + 1)).world.exitOf g = (r.moment k).world.exitOf g ∧
        (r.moment (k + 1)).world.reports t g = (r.moment k).world.reports t g := fun g hg =>
      ⟨(hends.other (t := t) hg.symm).1.trans (hspectates.exits g),
        (hends.other hg.symm).2.trans (hspectates.reports g)⟩
    refine ⟨⟨by rw [hafter]; rfl, fun i m hm => ?_, fun g hg => ?_⟩, ?_⟩
    · by_cases hmf : m = f
      · rw [hmf, (hends.self (t := t)).1, (hends.self (t := t)).2]
        rfl
      · rw [(hothers m hmf).1, (hothers m hmf).2]
        exact h.members i m hm
    · by_cases hgf : g = f
      · rw [hgf]
        exact hends.self.2
      · rw [(hothers g hgf).2]
        exact h.others g hg
    · by_cases hf : f ∈ c.members
      · obtain ⟨i, hi⟩ := List.getElem?_of_mem hf
        rw [h.members i f hi, hbefore] at hafter
        exact .report htally hafter houtcome hremaining hi hbefore (hends.self (t := t)).1
          fun m' _ hm' => (hothers m' hm').1
      · rw [h.others f hf] at hafter
        exact .silence htally hafter houtcome hremaining fun m hm =>
          (hothers m fun heq => hf (heq ▸ hm)).1

/-! ## The verdict -/

/-- Of the fibers `ms` the first to end with an exit of the kind `P` is `m`, with the exit `x`, in the move
from `j`. -/
structure Run.FirstToEnd (r : Run σ) (P : AnyExit → Prop) (ms : List (Key .fiber)) (m : Key .fiber)
    (x : AnyExit) (j : Nat) : Prop where
  member : m ∈ ms
  kind : P x
  before : ∀ m' ∈ ms, ∀ z, (r.moment j).world.exitOf m' = some z → ¬ P z
  ends : (r.moment (j + 1)).world.exitOf m = some x
  only : ∀ m' ∈ ms, m' ≠ m → ∀ z, (r.moment (j + 1)).world.exitOf m' = some z → ¬ P z

/-- What has been decided about a contest. -/
def World.Decided (w : World σ) (t : Key .tally)
    (o : Option (Settled (Option (Nat × AnyExit)))) : Prop :=
  ∃ tally, w.tallies.get? t = some tally ∧ tally.decided.outcome? = o

theorem World.Decided.unique {w : World σ} {t : Key .tally} {o o' : Option (Settled (Option (Nat × AnyExit)))}
    (h : w.Decided t o) (h' : w.Decided t o') : o = o' := by
  obtain ⟨tally, htally, rfl⟩ := h
  obtain ⟨tally', htally', rfl⟩ := h'
  rw [Option.some.inj (htally.symm.trans htally')]

/-- A race since `s`: nobody has ended and nothing is decided, or the first to end has decided it. -/
inductive Run.RaceStands (r : Run σ) (c : Contest) (t : Key .tally) (s k : Nat) : Prop
  | undecided : (r.moment k).world.Decided t none →
      (∀ m ∈ c.members, (r.moment k).world.exitOf m = none) → r.RaceStands c t s k
  | won {i j : Nat} {m : Key .fiber} {x : AnyExit} :
      (r.moment k).world.Decided t (some (.resolved (some (i, x)))) → c.members[i]? = some m →
      s < j → j < k → r.FirstToEnd (fun _ => True) c.members m x j → r.RaceStands c t s k

/-- A race is decided by the first of its members to end. -/
theorem Run.raceStands {s : Nat} (h : c.Watched t (.racer t) (r.moment (s + 1)).world)
    (hopen : (r.moment (s + 1)).world.Decided t none)
    (hnone : ∀ m ∈ c.members, (r.moment (s + 1)).world.exitOf m = none) (hsk : s < k) :
    c.Watched t (.racer t) (r.moment k).world ∧ r.RaceStands c t s k := by
  induction k with
  | zero => omega
  | succ k ih =>
      rcases Nat.lt_or_eq_of_le (Nat.le_of_lt_succ hsk) with hlt | rfl
      · obtain ⟨hwatched, hstands⟩ := ih hlt
        obtain ⟨hwatched', hhears⟩ := hwatched.step
        refine ⟨hwatched', ?_⟩
        cases hstands with
        | undecided hdecided hnobody =>
            obtain ⟨tally₀, htally₀, ho⟩ := hdecided
            cases hhears with
            | @silence tally tally' htally htally' houtcome _ hexits =>
                obtain rfl : tally₀ = tally := Option.some.inj (htally₀.symm.trans htally)
                exact .undecided ⟨tally', htally', houtcome.trans ho⟩ fun m hm =>
                  (hexits m hm).trans (hnobody m hm)
            | @report tally tally' i m e htally htally' houtcome _ hm _ hafter hexits =>
                obtain rfl : tally₀ = tally := Option.some.inj (htally₀.symm.trans htally)
                refine .won ⟨_, htally', ?_⟩ hm hlt (Nat.lt_succ_self k)
                  ⟨List.mem_of_getElem? hm, trivial, fun m' hm' z hz => ?_, hafter, fun m' hm' hne z hz => ?_⟩
                · rw [Tally.hear, Tally.outcome?_decide, houtcome, ho]
                  rfl
                · rw [hnobody m' hm'] at hz
                  cases hz
                · rw [hexits m' hm' hne, hnobody m' hm'] at hz
                  cases hz
        | @won i j m x hdecided hm hsj hjk hfirst =>
            obtain ⟨tally₀, htally₀, ho⟩ := hdecided
            refine .won ?_ hm hsj (Nat.lt_succ_of_lt hjk) hfirst
            cases hhears with
            | @silence tally tally' htally htally' houtcome _ _ =>
                obtain rfl : tally₀ = tally := Option.some.inj (htally₀.symm.trans htally)
                exact ⟨tally', htally', houtcome.trans ho⟩
            | @report tally tally' i m e htally htally' houtcome _ _ _ _ _ =>
                obtain rfl : tally₀ = tally := Option.some.inj (htally₀.symm.trans htally)
                refine ⟨_, htally', ?_⟩
                rw [Tally.hear, Tally.outcome?_decide, houtcome, ho]
                rfl
      · exact ⟨h, .undecided hopen hnone⟩

/-- A zip since `s`: the members that have ended did so with values, and the others are counted; or all
have; or the first to end with a failure has decided it. -/
inductive Run.ZipStands (r : Run σ) (c : Contest) (t : Key .tally) (s k : Nat) : Prop
  | undecided {tally : Tally} : (r.moment k).world.tallies.get? t = some tally →
      tally.decided.outcome? = none →
      tally.remaining = c.members.countP (fun m => ((r.moment k).world.exitOf m).isNone) →
      (∀ m ∈ c.members, ∀ z, (r.moment k).world.exitOf m = some z → z.isFailure = false) →
      r.ZipStands c t s k
  | all : (r.moment k).world.Decided t (some (.resolved none)) →
      (∀ m ∈ c.members, ∃ v, (r.moment k).world.exitOf m = some (.success v)) → r.ZipStands c t s k
  | lost {i j : Nat} {m : Key .fiber} {x : AnyExit} :
      (r.moment k).world.Decided t (some (.resolved (some (i, x)))) → c.members[i]? = some m →
      s < j → j < k → r.FirstToEnd (·.isFailure = true) c.members m x j → r.ZipStands c t s k

/-- A member that ends is not counted any more. -/
theorem countP_off {α : Type} {as : List α} {a : α} {p p' : α → Bool} (hnodup : as.Nodup) (ha : a ∈ as)
    (hp : p a = true) (hp' : p' a = false) (h : ∀ b ∈ as, b ≠ a → p' b = p b) :
    as.countP p = as.countP p' + 1 := by
  induction as with
  | nil => cases ha
  | cons b rest ih =>
      obtain ⟨hnot, hnodup'⟩ := List.nodup_cons.mp hnodup
      rcases List.mem_cons.mp ha with rfl | ha
      · have hrest : rest.countP p = rest.countP p' := List.countP_congr fun b hb => by
          rw [h b (List.mem_cons_of_mem _ hb) fun heq => hnot (heq ▸ hb)]
        rw [List.countP_cons_of_pos hp, List.countP_cons_of_neg (by rw [hp']; exact Bool.false_ne_true), hrest]
      · have hne : b ≠ a := fun heq => hnot (heq ▸ ha)
        have hb := h b List.mem_cons_self hne
        have hrest := ih hnodup' ha fun b' hb' => h b' (List.mem_cons_of_mem _ hb')
        rw [List.countP_cons, List.countP_cons, hb, hrest]
        omega

/-- A zip is decided by the first of its members to end with a failure, or by the last to end. -/
theorem Run.zipStands {s : Nat} (hnodup : c.members.Nodup)
    (h : c.Watched t (.member t) (r.moment (s + 1)).world)
    (hopen : (r.moment (s + 1)).world.tallies.get? t = some { remaining := c.members.length })
    (hnone : ∀ m ∈ c.members, (r.moment (s + 1)).world.exitOf m = none) (hsk : s < k) :
    c.Watched t (.member t) (r.moment k).world ∧ r.ZipStands c t s k := by
  induction k with
  | zero => omega
  | succ k ih =>
      rcases Nat.lt_or_eq_of_le (Nat.le_of_lt_succ hsk) with hlt | rfl
      · obtain ⟨hwatched, hstands⟩ := ih hlt
        obtain ⟨hwatched', hhears⟩ := hwatched.step
        refine ⟨hwatched', ?_⟩
        cases hstands with
        | @undecided tally₀ htally₀ ho hcount hvalues =>
            cases hhears with
            | @silence tally tally' htally htally' houtcome hremaining hexits =>
                obtain rfl : tally₀ = tally := Option.some.inj (htally₀.symm.trans htally)
                refine .undecided htally' (houtcome.trans ho) ?_ fun m hm z hz =>
                  hvalues m hm z ((hexits m hm).symm.trans hz)
                rw [hremaining, hcount]
                exact List.countP_congr fun m hm => by rw [hexits m hm]
            | @report tally tally' i m e htally htally' houtcome hremaining hm hbefore hafter hexits =>
                obtain rfl : tally₀ = tally := Option.some.inj (htally₀.symm.trans htally)
                have hmem := List.mem_of_getElem? hm
                have hoff : c.members.countP (fun m => ((r.moment k).world.exitOf m).isNone) =
                    c.members.countP (fun m => ((r.moment (k + 1)).world.exitOf m).isNone) + 1 :=
                  countP_off hnodup hmem (by rw [hbefore]; rfl) (by rw [hafter]; rfl) fun m' hm' hne => by
                    rw [hexits m' hm' hne]
                cases hfails : e.isFailure with
                | true =>
                    refine .lost ⟨_, htally', ?_⟩ hm hlt (Nat.lt_succ_self k)
                      ⟨hmem, hfails, fun m' hm' z hz => ?_, hafter, fun m' hm' hne z hz => ?_⟩
                    · rw [Tally.hear, if_pos hfails, Tally.outcome?_decide, houtcome, ho]
                      rfl
                    · rw [hvalues m' hm' z hz]
                      exact Bool.false_ne_true
                    · rw [hexits m' hm' hne] at hz
                      rw [hvalues m' hm' z hz]
                      exact Bool.false_ne_true
                | false =>
                    have hvalues' : ∀ m' ∈ c.members, ∀ z,
                        (r.moment (k + 1)).world.exitOf m' = some z → z.isFailure = false := by
                      intro m' hm' z hz
                      by_cases hne : m' = m
                      · rw [hne, hafter] at hz
                        cases hz
                        exact hfails
                      · exact hvalues m' hm' z ((hexits m' hm' hne).symm.trans hz)
                    rw [Tally.hear, if_neg (by rw [hfails]; exact Bool.false_ne_true)] at htally'
                    by_cases hlast : tally'.remaining = 1
                    · refine .all ⟨_, htally', ?_⟩ fun m' hm' => ?_
                      · rw [Tally.outcome?_countDown, if_pos hlast, houtcome, ho]
                        rfl
                      · -- nobody is left to count
                        have hzero : c.members.countP
                            (fun m => ((r.moment (k + 1)).world.exitOf m).isNone) = 0 := by omega
                        have hended := List.countP_eq_zero.mp hzero m' hm'
                        cases hexit : (r.moment (k + 1)).world.exitOf m' with
                        | none =>
                            rw [hexit] at hended
                            exact absurd rfl hended
                        | some z =>
                            have hz := hvalues' m' hm' z hexit
                            cases z with
                            | success v => exact ⟨v, rfl⟩
                            | failure cause => cases hz
                    · refine .undecided htally' ?_ ?_ hvalues'
                      · rw [Tally.outcome?_countDown, if_neg hlast, houtcome, ho]
                      · rw [Tally.remaining_countDown]
                        omega
        | all hdecided hvalues =>
            obtain ⟨tally₀, htally₀, ho⟩ := hdecided
            cases hhears with
            | @silence tally tally' htally htally' houtcome _ hexits =>
                obtain rfl : tally₀ = tally := Option.some.inj (htally₀.symm.trans htally)
                refine .all ⟨tally', htally', houtcome.trans ho⟩ fun m hm => ?_
                rw [hexits m hm]
                exact hvalues m hm
            | @report tally tally' i m e htally htally' houtcome _ hm hbefore _ _ =>
                obtain ⟨v, hv⟩ := hvalues m (List.mem_of_getElem? hm)
                rw [hbefore] at hv
                cases hv
        | @lost i j m x hdecided hm hsj hjk hfirst =>
            obtain ⟨tally₀, htally₀, ho⟩ := hdecided
            refine .lost ?_ hm hsj (Nat.lt_succ_of_lt hjk) hfirst
            cases hhears with
            | @silence tally tally' htally htally' houtcome _ _ =>
                obtain rfl : tally₀ = tally := Option.some.inj (htally₀.symm.trans htally)
                exact ⟨tally', htally', houtcome.trans ho⟩
            | @report tally tally' i m e htally htally' houtcome _ _ _ _ _ =>
                obtain rfl : tally₀ = tally := Option.some.inj (htally₀.symm.trans htally)
                refine ⟨_, htally', ?_⟩
                rw [Tally.hear]
                split
                · rw [Tally.outcome?_decide, houtcome, ho]
                  rfl
                · rw [Tally.outcome?_countDown, houtcome, ho]
                  split <;> rfl
      · refine ⟨h, .undecided hopen rfl ?_ fun m hm z hz => ?_⟩
        · refine (List.countP_eq_length.mpr fun m hm => ?_).symm
          rw [hnone m hm]
          rfl
        · rw [hnone m hm] at hz
          cases hz

end

end Fibers
