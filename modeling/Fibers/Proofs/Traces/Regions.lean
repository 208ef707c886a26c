import Fibers.Proofs.Run.Births
import Fibers.Proofs.Interruption.Wearing

set_option autoImplicit false

/-! # Labelled regions

A fiber comes into a labelled region where it works on an instruction that adds a frame to its trace, and is
inside until the frame on its stack that takes the label off again is gone, however that happens: by a value,
a failure or a panic, or because the fiber leaves its program. What follows shows that the labels of a fiber
are at every moment of a run those of the regions that it is inside, in the order in which it came into them
(`Run.labels`). Each label lies under the frame that takes it off, and no label is taken off without one.
-/

namespace Fibers

variable {σ : Type} {r : Run σ} {f : Key .fiber} {j k : Nat}

/-! ## Being inside -/

/-- Until the moment `k` the fiber `f` has been above the frames `T` since it came there at `j`, with the label
of a region on top of them. -/
structure Run.Labelled (r : Run σ) (f : Key .fiber) (k j : Nat) (frame : Frame) (T : List (Waiting σ)) :
    Prop where
  lt : j < k
  enters : ∃ y m p, (r.moment j).Works f y m ∧ m.control = .instruct (.addFrame p frame) ∧ m.stack = T
  stays : ∀ i, j < i → i ≤ k →
    ∃ m, (r.moment i).machine? f = some m ∧ .restore .label :: T <:+ m.stack

/-- At the moment `k` the fiber `f` is inside the region that it came into at `j`. -/
def Run.Inside (r : Run σ) (f : Key .fiber) (k j : Nat) (frame : Frame) : Prop :=
  ∃ T, r.Labelled f k j frame T

/-- The labels of the regions that a fiber is inside, in the order in which it came into them. -/
def Run.Labels (r : Run σ) (f : Key .fiber) (k : Nat) (labels : List Frame) : Prop :=
  ∃ es : List (Nat × Frame), es.Pairwise (fun a b => a.1 < b.1) ∧
    (∀ j frame, (j, frame) ∈ es ↔ r.Inside f k j frame) ∧ labels = es.map (·.2)

/-- There is one such list. -/
theorem Run.Labels.unique {labels labels' : List Frame} (h : r.Labels f k labels) (h' : r.Labels f k labels') :
    labels = labels' := by
  obtain ⟨es, hordered, hmem, rfl⟩ := h
  obtain ⟨es', hordered', hmem', rfl⟩ := h'
  have hsame : ∀ e, e ∈ es ↔ e ∈ es' := fun e => (hmem e.1 e.2).trans (hmem' e.1 e.2).symm
  have hnodup : ∀ {es : List (Nat × Frame)}, es.Pairwise (fun a b => a.1 < b.1) → es.Nodup := fun h =>
    h.imp fun {a b} (hlt : a.1 < b.1) heq => Nat.ne_of_lt hlt (congrArg Prod.fst heq)
  have hperm : es.Perm es' := (List.perm_ext_iff_of_nodup (hnodup hordered) (hnodup hordered')).mpr hsame
  rw [hperm.eq_of_pairwise (fun a b _ _ (hab : a.1 < b.1) hba => absurd hba (Nat.not_lt_of_gt hab)) hordered hordered']

theorem Run.Labelled.mono {frame : Frame} {T : List (Waiting σ)} {m : Machine σ} (h : r.Labelled f k j frame T)
    (hm : (r.moment (k + 1)).machine? f = some m) (hT : .restore .label :: T <:+ m.stack) :
    r.Labelled f (k + 1) j frame T where
  lt := Nat.lt_succ_of_lt h.lt
  enters := h.enters
  stays := by
    intro i hji hik
    rcases Nat.lt_or_eq_of_le hik with hlt | rfl
    · exact h.stays i hji (Nat.le_of_lt_succ hlt)
    · exact ⟨m, hm, hT⟩

/-- Two regions whose labels lie on the same frames at the same time are the same. -/
theorem Run.Labelled.unique {T : List (Waiting σ)} {j' : Nat} {frame frame' : Frame}
    (h : r.Labelled f k j frame T) (h' : r.Labelled f k j' frame' T) : j = j' ∧ frame = frame' := by
  -- where the later one begins the stack is `T`, and the earlier one has more on it
  have hapart : ∀ {i i' : Nat} {g g' : Frame}, r.Labelled f k i g T → r.Labelled f k i' g' T → ¬ i < i' := by
    intro i i' g g' hi hi' hlt
    obtain ⟨y, m, p, hworks, -, rfl⟩ := hi'.enters
    obtain ⟨m', hm', hsuffix⟩ := hi.stays i' hlt (Nat.le_of_lt hi'.lt)
    obtain rfl := Option.some.inj ((Moment.machine?_of_active hworks.turn).symm.trans hm')
    have hlength := hsuffix.length_le
    simp only [List.length_cons] at hlength
    omega
  obtain rfl : j = j' := Nat.le_antisymm (Nat.not_lt.mp (hapart h' h)) (Nat.not_lt.mp (hapart h h'))
  obtain ⟨y, m, p, hworks, hcontrol, -⟩ := h.enters
  obtain ⟨y', m', p', hworks', hcontrol', -⟩ := h'.enters
  obtain ⟨⟩ : some (f, m) = some (f, m') := hworks.turn.symm.trans hworks'.turn
  rw [hcontrol] at hcontrol'
  cases hcontrol'
  exact ⟨rfl, rfl⟩

/-! ## The regions of a stack -/

/-- The regions whose labels lie on a stack, the newest first. -/
inductive Run.Marks (r : Run σ) (f : Key .fiber) (k : Nat) : List (Waiting σ) → List (Nat × Frame) → Prop
  | nil : Marks r f k [] []
  | label {T : List (Waiting σ)} {es : List (Nat × Frame)} {j : Nat} {frame : Frame} :
      r.Labelled f k j frame T → (∀ e ∈ es, e.1 < j) → Marks r f k T es →
      Marks r f k (.restore .label :: T) ((j, frame) :: es)
  | other {x : Waiting σ} {T : List (Waiting σ)} {es : List (Nat × Frame)} :
      .restore .label ≠ x → Marks r f k T es → Marks r f k (x :: T) es

namespace Run.Marks

variable {S T : List (Waiting σ)} {es : List (Nat × Frame)}

theorem ordered (h : r.Marks f k S es) : es.Pairwise fun a b => b.1 < a.1 := by
  induction h with
  | nil => exact .nil
  | label _ hbefore _ ih => exact .cons hbefore ih
  | other _ _ ih => exact ih

/-- The fiber is inside the regions of its stack. -/
theorem inside (h : r.Marks f k S es) {e : Nat × Frame} (he : e ∈ es) : r.Inside f k e.1 e.2 := by
  induction h with
  | nil => cases he
  | label hlabelled _ _ ih =>
      rcases List.mem_cons.mp he with rfl | he
      · exact ⟨_, hlabelled⟩
      · exact ih he
  | other _ _ ih => exact ih he

/-- Every label on the stack is that of a region. -/
theorem labelled (h : r.Marks f k S es) (hT : .restore .label :: T <:+ S) :
    ∃ e ∈ es, r.Labelled f k e.1 e.2 T := by
  induction h with
  | nil => exact absurd (List.suffix_nil.mp hT) (List.cons_ne_nil _ _)
  | @label T' es j frame hlabelled hbefore _ ih =>
      rcases List.suffix_cons_iff.mp hT with heq | hsuffix
      · obtain rfl := (List.cons.inj heq).2
        exact ⟨(j, frame), List.mem_cons_self, hlabelled⟩
      · obtain ⟨e, he, hlabelled'⟩ := ih hsuffix
        exact ⟨e, List.mem_cons_of_mem _ he, hlabelled'⟩
  | other hne _ ih =>
      rcases List.suffix_cons_iff.mp hT with heq | hsuffix
      · exact absurd (List.cons.inj heq).1 hne
      · exact ih hsuffix

theorem before (h : r.Marks f k S es) {e : Nat × Frame} (he : e ∈ es) : e.1 < k := by
  obtain ⟨T, hinside⟩ := h.inside he
  exact hinside.lt

theorem eq_nil (h : r.Marks f k [] es) : es = [] := by
  cases h
  rfl

/-- The regions of a stack are those that the fiber is inside. -/
theorem mem_iff {m : Machine σ} (hm : (r.moment k).machine? f = some m) (h : r.Marks f k m.stack es)
    (j : Nat) (frame : Frame) : (j, frame) ∈ es ↔ r.Inside f k j frame := by
  refine ⟨fun he => h.inside he, fun ⟨T, hinside⟩ => ?_⟩
  obtain ⟨m', hm', hsuffix⟩ := hinside.stays k hinside.lt (Nat.le_refl k)
  obtain rfl := Option.some.inj (hm.symm.trans hm')
  obtain ⟨⟨j', frame'⟩, he, hlabelled⟩ := h.labelled hsuffix
  obtain ⟨rfl, rfl⟩ := hinside.unique hlabelled
  exact he

/-- What stays on the stack keeps its labels. -/
theorem next {m : Machine σ} (h : r.Marks f k T es) (hm : (r.moment (k + 1)).machine? f = some m)
    (hT : T <:+ m.stack) : r.Marks f (k + 1) T es := by
  induction h with
  | nil => exact .nil
  | label hlabelled hbefore _ ih =>
      exact .label (hlabelled.mono hm hT) hbefore (ih ((List.suffix_cons _ _).trans hT))
  | other hne _ ih => exact .other hne (ih ((List.suffix_cons _ _).trans hT))

/-- Frames without labels come onto the stack. -/
theorem push {pushed : List (Waiting σ)} (hpushed : .restore .label ∉ pushed) (h : r.Marks f k T es) :
    r.Marks f k (pushed ++ T) es := by
  induction pushed with
  | nil => exact h
  | cons x xs ih =>
      rw [List.mem_cons, not_or] at hpushed
      exact .other hpushed.1 (ih hpushed.2)

/-- Frames leave the stack, and the labels with them. -/
theorem pop {gone : List (Waiting σ)} {c : Card} (h : r.Marks f k (gone ++ T) es)
    (hc : c.labels = es.map (·.2)) : ∃ es', r.Marks f k T es' ∧ (c.pop gone).labels = es'.map (·.2) := by
  induction gone generalizing c es with
  | nil => exact ⟨es, h, hc⟩
  | cons x gone ih =>
      cases h with
      | @label _ es j frame _ _ hbelow =>
          have htail : (c.restore .label).labels = es.map (·.2) := congrArg List.tail hc
          exact ih hbelow htail
      | other hne hbelow =>
          cases x with
          | restore s =>
              cases s with
              | label => exact absurd rfl hne
              | interruptible => exact ih (c := c.restore .interruptible) hbelow hc
              | semaphore => exact ih (c := c.restore .semaphore) hbelow hc
              | services => exact ih (c := c.restore .services) hbelow hc
          | map k => exact ih hbelow hc
          | fold h k => exact ih hbelow hc
          | finalizer h fin => exact ih hbelow hc
          | resumeWith e => exact ih hbelow hc
          | release h => exact ih hbelow hc

end Run.Marks

/-- Frames that pop no label come without one. -/
theorem Card.Builds.labels {c d : Card} {xs : List (Waiting σ)} (h : c.Builds xs d)
    (hxs : .restore .label ∉ xs) : d.labels = c.labels := by
  induction h with
  | nil => rfl
  | @cons x xs d e _ hraises ih =>
      rw [List.mem_cons, not_or] at hxs
      rw [← ih hxs.2]
      cases x with
      | restore s =>
          obtain ⟨rfl, -⟩ := hraises
          cases s with
          | label => exact absurd rfl hxs.1
          | interruptible => rfl
          | semaphore => rfl
          | services => rfl
      | map k => exact congrArg Card.labels hraises
      | fold h k => exact congrArg Card.labels hraises
      | finalizer h fin => exact congrArg Card.labels hraises
      | resumeWith e => exact congrArg Card.labels hraises
      | release h => exact congrArg Card.labels hraises

/-! ## Labels in a run -/

/-- The labels on the card of a fiber are those of the regions of its stack; a fiber without a machine has
none. -/
def Run.Tagged (r : Run σ) (f : Key .fiber) (k : Nat) (c : Card) : Prop :=
  (∃ m es, (r.moment k).machine? f = some m ∧ r.Marks f k m.stack es ∧ c.labels = es.map (·.2)) ∨
    (r.moment k).machine? f = none ∧ c.labels = []

theorem Run.Tagged.labels {c : Card} (h : r.Tagged f k c) : r.Labels f k c.labels.reverse := by
  rcases h with ⟨m, es, hm, hmarks, hlabels⟩ | ⟨hnone, hlabels⟩
  · refine ⟨es.reverse, List.pairwise_reverse.mpr hmarks.ordered, fun j frame => ?_, ?_⟩
    · rw [List.mem_reverse]
      exact hmarks.mem_iff hm j frame
    · rw [hlabels, List.map_reverse]
  · refine ⟨[], .nil, fun j frame => ⟨nofun, fun ⟨T, hinside⟩ => ?_⟩, by rw [hlabels]; rfl⟩
    obtain ⟨m, hm, -⟩ := hinside.stays k hinside.lt (Nat.le_refl k)
    rw [hnone] at hm
    cases hm

/-- A step that ends its fiber has emptied the stack. -/
theorem World.stack_of_done {w : World σ} {m : Machine σ} (hx : Moment.Lawful ⟨w, some (f, m)⟩) {y : Fiber σ}
    {e : AnyExit} (hdone : (w.step f y (m.heed y)).2.decision = .done e) :
    (w.step f y (m.heed y)).2.machine.stack = [] := by
  have hle : w.law ≤ { w.law with hold := fun _ => True } := ⟨fun _ h => h, fun _ h => h, fun _ _ => trivial, id⟩
  have hm : m.Licensed w.law := hx.licensed.active f m rfl id
  obtain ⟨exiting, hsound⟩ := World.stepSound_step ((hm.mono hle).heed y)
    (hx.licensed.world.mono hle fun _ h => h).finalizers (fun s _ _ => World.claimLicensed_law w s)
    fun _ _ _ => trivial
  exact (hsound.done e hdone).1

theorem World.machine?_done (w : World σ) (m : Machine σ) {y : Fiber σ} (hy : w.fibers.get? f = some y)
    (e : AnyExit) : (World.conclude f (w, ⟨m, .done e⟩)).machine? f = none := by
  obtain ⟨c, hc, -⟩ := World.get?_finishFiber_self hy e
  have hparked : (World.conclude f (w, ⟨m, .done e⟩)).machine? f = (w.finishFiber f e).parked? f := rfl
  rw [hparked, World.parked?, hc]
  rfl

/-- What a step leaves of the regions of its fiber: those of the frames that stay on the stack, or all of them
and the one that it comes into. -/
inductive Run.Steps (r : Run σ) (f : Key .fiber) (k : Nat) (m : Machine σ) (s : World σ × Stepped σ) : Prop
  | keeps (pushed left : List (Waiting σ)) {es : List (Nat × Frame)} {c : Card} :
      s.1.roster.cards.get? f = some c → s.2.machine.stack = pushed ++ left → .restore .label ∉ pushed →
      r.Marks f k left es → c.labels = es.map (·.2) → Steps r f k m s
  | enters {es : List (Nat × Frame)} {c : Card} {p : Program σ} {frame : Frame} {y : Fiber σ} :
      s.1.roster.cards.get? f = some c → (r.moment k).Works f y m → m.control = .instruct (.addFrame p frame) →
      s.2.machine.stack = .restore .label :: m.stack → r.Marks f k m.stack es →
      c.labels = frame :: es.map (·.2) → Steps r f k m s

theorem Run.Marks.steps {m : Machine σ} {y : Fiber σ} {es : List (Nat × Frame)}
    (hactive : (r.moment k).active = some (f, m)) (hy : (r.moment k).world.fibers.get? f = some y)
    (h : r.Marks f k m.stack es) (hlabels : y.labels = es.map (·.2)) :
    r.Steps f k m ((r.moment k).world.step f y (m.heed y)) := by
  have hcard := World.card_of_get hy
  by_cases hworks : (r.moment k).Works f y m
  · have hown := Roster.get?_modify_of_some hcard
    rcases World.piles_step hworks.here with
      ⟨hstack, hbears⟩ | @⟨p, frame, hcontrol, hstack, hroster⟩ | ⟨gone, left, pushed, c', hgone, hstack, hbuilds, hlabel, hroster⟩
    · exact .keeps [] m.stack (hbears.get? hcard) hstack List.not_mem_nil h hlabels
    · refine .enters (c := y.card.labelled frame) ?_ hworks hcontrol hstack h (congrArg (frame :: ·) hlabels)
      rw [hroster, hown, if_pos rfl]
    · obtain ⟨es', hmarks, hpopped⟩ := Run.Marks.pop (c := y.card) (hgone ▸ h) hlabels
      refine .keeps pushed left ?_ hstack hlabel hmarks ((hbuilds.labels hlabel).trans hpopped)
      rw [hroster, hown, if_pos rfl]
  · rcases World.step_idle hy (fun h => hworks ⟨hactive, hy, h.free, h.budget, h.work⟩) with
      ⟨e, -, hstep⟩ | ⟨p, hstep⟩ | hstep
    · obtain ⟨y', hy', heq⟩ := World.get?_leave hy e
      rw [hstep]
      exact .keeps [] [] (World.card_of_get hy') rfl List.not_mem_nil .nil
        (by rw [heq]; rfl)
    · rw [hstep]
      exact .keeps [] m.stack hcard rfl List.not_mem_nil h hlabels
    · rw [hstep]
      exact .keeps [] m.stack (World.card_of_get (World.get?_tired hy)) rfl List.not_mem_nil h
        hlabels

/-- After its own move the labels of a fiber are still those of its regions. -/
theorem Run.Tagged.advance {m : Machine σ} {y y' : Fiber σ} (h : r.Tagged f k y.card)
    (hactive : (r.moment k).active = some (f, m)) (hy : (r.moment k).world.fibers.get? f = some y)
    (hy' : (r.moment (k + 1)).world.fibers.get? f = some y') : r.Tagged f (k + 1) y'.card := by
  have hm := Moment.machine?_of_active hactive
  obtain ⟨es, hmarks, hlabels⟩ : ∃ es, r.Marks f k m.stack es ∧ y.labels = es.map (·.2) := by
    rcases h with ⟨m', es, hm', hmarks, hlabels⟩ | ⟨hnone, -⟩
    · obtain rfl := Option.some.inj (hm.symm.trans hm')
      exact ⟨es, hmarks, hlabels⟩
    · rw [hm] at hnone
      cases hnone
  have hnext := Run.conclude_of_turn hactive hy
  have hsteps := hmarks.steps hactive hy hlabels
  have hdone : ∀ e, ((r.moment k).world.step f y (m.heed y)).2.decision = .done e →
      ((r.moment k).world.step f y (m.heed y)).2.machine.stack = [] :=
    fun e => World.stack_of_done (Run.lawful_of_turn hactive)
  generalize (r.moment k).world.step f y (m.heed y) = s at hnext hsteps hdone
  -- the end of the step does not touch the labels
  have hsame : ∀ c, s.1.roster.cards.get? f = some c → y'.labels = c.labels := by
    intro c hc
    have hc' := World.card_of_get hy'
    rw [hnext] at hc'
    rcases World.roster_conclude_cases f s with heq | heq
    · rw [heq] at hc'
      exact congrArg Card.labels (Option.some.inj (hc'.symm.trans hc))
    · have hended := Roster.get?_modify_of_some hc Card.ended f
      rw [if_pos rfl] at hended
      rw [heq] at hc'
      exact congrArg Card.labels (Option.some.inj (hc'.symm.trans hended))
  obtain ⟨z, hz⟩ : ∃ z, s.1.fibers.get? f = some z := by
    cases hsteps with
    | keeps _ _ hc => exact (World.get_of_card hc).imp fun _ h => h.1
    | enters hc => exact (World.get_of_card hc).imp fun _ h => h.1
  by_cases hend : ∃ e, s.2.decision = .done e
  · obtain ⟨e, he⟩ := hend
    right
    have hempty := hdone e he
    refine ⟨?_, ?_⟩
    · obtain ⟨w, m', d⟩ := s
      obtain rfl : d = .done e := he
      rw [hnext]
      exact World.machine?_done w m' hz e
    · cases hsteps with
      | keeps _ _ hc hstack _ hmarks hlabels =>
          rw [hempty] at hstack
          obtain rfl := (List.append_eq_nil_iff.mp hstack.symm).2
          rw [hmarks.eq_nil] at hlabels
          exact (hsame _ hc).trans hlabels
      | enters _ _ _ hstack =>
          rw [hempty] at hstack
          cases hstack
  · left
    obtain ⟨m', hm', release, hrelease, hstack'⟩ : ∃ m', (r.moment (k + 1)).machine? f = some m' ∧
        ∃ release : List (Waiting σ), .restore .label ∉ release ∧ m'.stack = release ++ s.2.machine.stack := by
      obtain ⟨m', hm', -, heq | ⟨a, h, -, heq⟩, -⟩ := World.machine?_conclude ⟨z, hz⟩ fun e he => hend ⟨e, he⟩
      · exact ⟨m', hnext ▸ hm', [], List.not_mem_nil, heq⟩
      · exact ⟨m', hnext ▸ hm', [.release h], by simp, heq⟩
    cases hsteps with
    | @keeps pushed left es c hc hstack hpushed hmarks hlabels =>
        rw [hstack] at hstack'
        have hleft := hmarks.next hm' ⟨release ++ pushed, by rw [hstack', List.append_assoc]⟩
        refine ⟨m', es, hm', ?_, (hsame c hc).trans hlabels⟩
        rw [hstack']
        exact (hleft.push hpushed).push hrelease
    | @enters es c p frame z hc hworks hcontrol hstack hmarks hlabels =>
        rw [hstack] at hstack'
        have hbelow := hmarks.next hm' ⟨release ++ [.restore .label], by rw [hstack', List.append_assoc]; rfl⟩
        have hlabelled : r.Labelled f (k + 1) k frame m.stack := by
          refine ⟨Nat.lt_succ_self k, ⟨z, m, p, hworks, hcontrol, rfl⟩, fun i hki hik => ?_⟩
          obtain rfl : i = k + 1 := Nat.le_antisymm hik hki
          exact ⟨m', hm', release, hstack'.symm⟩
        refine ⟨m', (k, frame) :: es, hm', ?_, (hsame c hc).trans hlabels⟩
        rw [hstack']
        exact (Run.Marks.label hlabelled (fun e he => hmarks.before he) hbelow).push hrelease

/-- What others do leaves the regions of a fiber alone. -/
theorem Run.Tagged.aside {y y' : Fiber σ} (h : r.Tagged f k y.card)
    (haside : ∀ m, (r.moment k).active ≠ some (f, m)) (hy : (r.moment k).world.fibers.get? f = some y)
    (hy' : (r.moment (k + 1)).world.fibers.get? f = some y') : r.Tagged f (k + 1) y'.card := by
  obtain ⟨c, hc, -, -, hsame⟩ := (r.move k).deals.kept f y.card (World.card_of_get hy)
  have hcard : y'.card = y.card := (Option.some.inj ((World.card_of_get hy').symm.trans hc)).trans (hsame haside)
  rw [hcard]
  obtain ⟨y₁, hy₁, -, -, hmachine⟩ := (r.move k).aside (r.lawful k) haside hy
  rcases hmachine with heq | ⟨t, m, c, hphase, -, hresumed⟩
  · rcases h with ⟨m, es, hm, hmarks, hlabels⟩ | ⟨hnone, hlabels⟩
    · have hm' := heq.trans hm
      exact Or.inl ⟨m, es, hm', hmarks.next hm' (List.suffix_refl _), hlabels⟩
    · exact Or.inr ⟨heq.trans hnone, hlabels⟩
  · -- it is resumed with the stack that it was put aside with
    have hm : (r.moment k).machine? f = some m := by
      rw [Moment.machine?_aside haside hy, hphase]
      rfl
    have hm' := Moment.machine?_of_active hresumed
    rcases h with ⟨m₁, es, hm₁, hmarks, hlabels⟩ | ⟨hnone, -⟩
    · obtain rfl := Option.some.inj (hm.symm.trans hm₁)
      exact Or.inl ⟨_, es, hm', hmarks.next hm' (List.suffix_refl _), hlabels⟩
    · rw [hm] at hnone
      cases hnone

theorem Moment.Born.labels {x x' : Moment σ} {c : Card} (h : x.Born x' f c) : c.labels = [] := by
  cases h with
  | root _ _ _ _ _ _ hlabels => exact hlabels
  | fork _ _ hbegets => exact hbegets.labels

/-- In every moment of a run the labels of a fiber are those of the regions of its stack. -/
theorem Run.tagged (r : Run σ) (k : Nat) : ∀ {f : Key .fiber} {y : Fiber σ},
    (r.moment k).world.fibers.get? f = some y → r.Tagged f k y.card := by
  induction k with
  | zero =>
      intro f y hy
      rw [r.start] at hy
      cases hy
  | succ k ih =>
      intro f y' hy'
      rcases (r.move k).deals.dealt f y'.card (World.card_of_get hy') with ⟨d, hd⟩ | ⟨hnone, hborn⟩
      · obtain ⟨y, hy, -⟩ := World.get_of_card hd
        by_cases hactive : ∃ m, (r.moment k).active = some (f, m)
        · obtain ⟨m, hactive⟩ := hactive
          exact (ih hy).advance hactive hy hy'
        · exact (ih hy).aside (fun m hm => hactive ⟨m, hm⟩) hy hy'
      · -- a fiber that is new has neither frames nor labels
        rcases (r.move k).young (r.lawful k) (r.fitting k).root hy' with ⟨y, hy⟩ | ⟨hyoung, hmachine⟩
        · rw [World.card_of_get hy] at hnone
          cases hnone
        · obtain ⟨p, hp⟩ := hyoung.machine
          exact Or.inl ⟨_, [], hmachine.trans hp, .nil, hborn.labels⟩

/-- The labels of a fiber are those of the regions that it is inside. -/
theorem Run.labels (r : Run σ) {y : Fiber σ} (hy : (r.moment k).world.fibers.get? f = some y) :
    r.Labels f k y.labels.reverse := (r.tagged k hy).labels

end Fibers
