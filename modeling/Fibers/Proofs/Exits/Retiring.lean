import Fibers.Proofs.Interruption.Abandonment
import Fibers.Proofs.Scopes.Closing

set_option autoImplicit false

/-! # Retiring

A fiber retires when its program has ended or was left: it closes its scope, or sees the close of
another through, waits for the exit of the scope and ends with it. The machines on this way are
known, but for the stretch between the claim of the finalizers and the publication of what they
lead to. If the scope closes in sequence no failure comes out of that stretch, since every
finalizer is run with its exit captured; so a fiber that retires ends with the exit of its scope,
or not at all.
-/

namespace Fibers

variable {σ : Type} {r : Run σ} {s : Key .scope} {f : Key .fiber}

/-! ## The machines on the way -/

/-- The frames under the claim of the finalizers: the wait for the exit of the scope, and above it,
if the fiber has asked for the close itself, the answer to that. -/
inductive Retiring.Base (s : Key .scope) : List (Waiting σ) → Prop
  | waits : Retiring.Base s (World.departure s)
  | answers (first : Bool) :
      Retiring.Base s (.map (.next (.succeed (.flag first))) :: World.departure s)

/-- The machines of a fiber that retires, outside the stretch in which it runs finalizers, up to the
wait for the exit of its scope. -/
inductive Retiring (s : Key .scope) : Machine σ → Prop
  | starts (x : AnyExit) : Retiring s ⟨.instruct (Program.closeOrWaitScope s x), [], true⟩
  | requests (x : AnyExit) :
      Retiring s ⟨.instruct (Program.closeScope s x), World.departure s, true⟩
  | sees (first : Bool) : Retiring s
      ⟨.instruct ((Program.finishScope s).andThen (.succeed (.flag first))), World.departure s, true⟩
  | follows : Retiring s ⟨.instruct (Program.awaitScope s), [], true⟩
  | finishes {base : List (Waiting σ)} : Retiring.Base s base →
      Retiring s ⟨.instruct (Program.finishScope s), base, true⟩
  | claims {base : List (Waiting σ)} : Retiring.Base s base →
      Retiring s ⟨.instruct (.duty (.finish s)), .restore .interruptible :: base, true⟩
  | finished {base : List (Waiting σ)} : Retiring.Base s base →
      Retiring s ⟨.instruct .unit, .restore .interruptible :: base, true⟩
  | returns {base : List (Waiting σ)} (v : Value) : Retiring.Base s base →
      Retiring s ⟨.value v, .restore .interruptible :: base, true⟩
  | unmasked {base : List (Waiting σ)} (v : Value) : Retiring.Base s base →
      Retiring s ⟨.value v, base, true⟩
  | tells (first : Bool) :
      Retiring s ⟨.instruct (.succeed (.flag first)), World.departure s, true⟩
  | waits : Retiring s ⟨.instruct (Program.waitScope s), [], true⟩

theorem Retiring.exiting {m : Machine σ} (h : Retiring s m) : m.exiting = true := by
  cases h <;> rfl

/-- A value that comes down to the base leads on. -/
theorem Retiring.Base.unwind {base : List (Waiting σ)} (h : Retiring.Base s base) (v : Value) :
    ∃ m : Machine σ, Retiring s m ∧
      ∀ w, World.unwind f true (.success v) base w = (w, { machine := m }) := by
  cases h with
  | waits => exact ⟨_, .waits, fun w => rfl⟩
  | answers first => exact ⟨_, .tells first, fun w => rfl⟩

namespace Run

/-- What becomes of a fiber that has done a step with a machine on the way as its result. -/
theorem retiring_of_advance {k : Nat} {m m' : Machine σ} {w : World σ}
    (hactive : (r.moment k).active = some (f, m)) (h : Retiring s m')
    (hnext : (r.moment k).world.advance f m = World.conclude f (w, { machine := m' })) :
    ∃ m', (r.moment (k + 1)).machine? f = some m' ∧ Retiring s m' := by
  refine ⟨m', ?_, h⟩
  rw [Run.advance_of_turn hactive, hnext]
  exact Moment.machine?_active

/-- A step of the machine alone leads on. -/
theorem retiring_of_glide {k : Nat} {m m' : Machine σ} (hm : (r.moment k).machine? f = some m)
    (h : Retiring s m) (hglide : m.glide? = some m') (h' : Retiring s m') :
    ∃ m', (r.moment (k + 1)).machine? f = some m' ∧ Retiring s m' := by
  rcases rests_or_glides hm h.exiting hglide with hstays | hglides
  · exact ⟨m, hstays, h⟩
  · exact ⟨m', hglides, h'⟩

/-- A value comes down to the base, past the frame of a mask or not. -/
theorem retiring_of_value {k : Nat} {base st : List (Waiting σ)} {v : Value}
    (hm : (r.moment k).machine? f = some ⟨.value v, st, true⟩) (hbase : Retiring.Base s base)
    (hst : st = .restore .interruptible :: base ∨ st = base) :
    ∃ m', (r.moment (k + 1)).machine? f = some m' ∧ Retiring s m' := by
  have hway : Retiring s ⟨.value v, st, true⟩ := by
    rcases hst with rfl | rfl
    · exact .returns v hbase
    · exact .unmasked v hbase
  rcases works_or_rests hm rfl (Or.inr ⟨.success v, rfl⟩) trivial with ⟨y, hworks⟩ | hstays
  · obtain ⟨m', hm', hunwind⟩ := hbase.unwind (f := f) v
    have hnext := World.advance_unwind (e := .success v) hworks.here rfl
    rcases hst with rfl | rfl
    · rcases hr : ((r.moment k).world.count f).restore f .interruptible with ⟨w, left⟩
      cases left with
      | true =>
          -- the mask comes off, and the unwinding stops above the base
          refine retiring_of_advance hworks.turn (.unmasked v hbase) (w := w) ?_
          rw [hnext]
          simp only [World.unwind, World.unwindValue, hr]
      | false =>
          refine retiring_of_advance hworks.turn hm' (w := w) ?_
          rw [hnext, ← hunwind w]
          simp only [World.unwind, World.unwindValue, hr]
    · refine retiring_of_advance hworks.turn hm' (w := (r.moment k).world.count f) ?_
      rw [hnext, ← hunwind]
  · exact ⟨_, hstays, hway⟩

/-- One move of a machine on the way, but for the claim of the finalizers and the wait. -/
theorem retiring_succ {k : Nat} {m : Machine σ} (hm : (r.moment k).machine? f = some m)
    (h : Retiring s m) (hclaims : m.control ≠ .instruct (.duty (.finish s)))
    (hwaits : m.control ≠ .instruct (Program.waitScope s)) :
    ∃ m', (r.moment (k + 1)).machine? f = some m' ∧ Retiring s m' := by
  cases h with
  | starts x => exact retiring_of_glide hm (.starts x) rfl (.requests x)
  | requests x =>
      rcases works_or_rests hm rfl (Or.inl ⟨_, rfl⟩) trivial with ⟨y, hworks⟩ | hstays
      · rcases hrequest : ((r.moment k).world.count f).requestClose s x with ⟨w, first⟩
        have hattend : ((r.moment k).world.count f).attend (.close s x) =
            (w, .ok ((Program.finishScope s).andThen (.succeed (.flag first)))) := by
          rw [World.attend, hrequest]
        exact retiring_of_advance hworks.turn (.sees first)
          (World.advance_duty hworks.here rfl hattend)
      · exact ⟨_, hstays, .requests x⟩
  | sees first => exact retiring_of_glide hm (.sees first) rfl (.finishes (.answers first))
  | follows => exact retiring_of_glide hm .follows rfl (.finishes .waits)
  | finishes hbase =>
      rcases works_or_rests hm rfl (Or.inl ⟨_, rfl⟩) trivial with ⟨y, hworks⟩ | hstays
      · exact retiring_of_advance hworks.turn (.claims hbase) (World.advance_mask hworks.here rfl)
      · exact ⟨_, hstays, .finishes hbase⟩
  | claims hbase => exact absurd rfl hclaims
  | finished hbase => exact retiring_of_glide hm (.finished hbase) rfl (.returns .unit hbase)
  | returns v hbase => exact retiring_of_value hm hbase (Or.inl rfl)
  | unmasked v hbase => exact retiring_of_value hm hbase (Or.inr rfl)
  | tells first => exact retiring_of_glide hm (.tells first) rfl (.unmasked (.flag first) .waits)
  | waits => exact absurd rfl hwaits

/-! ## The whole way -/

/-- How far the fiber `f` has come at `k` with the close of its scope `s`. It is at one of the
machines on the way; or it has claimed the finalizers and runs them; or it has got the exit of the
scope; or it is done with that. -/
inductive Retires (r : Run σ) (s : Key .scope) (f : Key .fiber) (k : Nat) : Prop
  | goes {m : Machine σ} : (r.moment k).machine? f = some m → Retiring s m → Retires r s f k
  | closes {i : Nat} {y : Fiber σ} {base : List (Waiting σ)} {sc : Scope (Finalizer σ)}
      {e : AnyExit} {fins : List (Nat × Finalizer σ)} : i < k → Retiring.Base s base →
      (r.moment i).Works f y
        ⟨.instruct (.duty (.finish s)), .restore .interruptible :: base, true⟩ →
      ((r.moment i).world.scope s).claim? = some (sc, e, fins) →
      (r.moment k).world.Spent s →
      (∀ j, i < j → j ≤ k → ∃ m, (r.moment j).machine? f = some m ∧ m.exiting = true) →
      Retires r s f k
  | hears {e : AnyExit} {c : Control σ} : (r.moment k).machine? f = some ⟨c, [], true⟩ →
      c = .instruct (.succeed (.exit e)) ∨ c = .value (.exit e) →
      (∀ j, k ≤ j → ((r.moment j).world.scope s).exit? = some e) → Retires r s f k
  | ends {e : AnyExit} {i : Nat} {y : Fiber σ} : i < k →
      (r.moment i).world.fibers.get? f = some y → y.done.outcome? = none →
      r.moment (i + 1) = ⟨((r.moment i).world.count f).finishFiber f e, none⟩ →
      (∀ j, i < j → ((r.moment j).world.scope s).exit? = some e) → Retires r s f k

/-- The claim of the finalizers, or the step that finds that somebody else has claimed them. -/
theorem retires_of_claims {k : Nat} {base : List (Waiting σ)} (hbase : Retiring.Base s base)
    (hm : (r.moment k).machine? f =
      some ⟨.instruct (.duty (.finish s)), .restore .interruptible :: base, true⟩) :
    r.Retires s f (k + 1) := by
  rcases works_or_rests hm rfl (Or.inl ⟨_, rfl⟩) trivial with ⟨y, hworks⟩ | hstays
  · cases hclaim : ((r.moment k).world.scope s).claim? with
    | some claimed =>
        obtain ⟨sc, e, fins⟩ := claimed
        obtain ⟨hactive, -, hspent, -⟩ := (r.move k).claim_next hworks rfl hclaim
        refine .closes (Nat.lt_succ_self k) hbase hworks hclaim hspent fun j hkj hjk => ?_
        obtain rfl : j = k + 1 := Nat.le_antisymm hjk hkj
        exact ⟨_, Moment.machine?_of_active hactive, rfl⟩
    | none =>
        have hnone : (((r.moment k).world.count f).scope s).claim? = none := hclaim
        have hattend : ((r.moment k).world.count f).attend (.finish s) =
            ((r.moment k).world.count f, .ok .unit) := by
          rw [World.attend, hnone]
        obtain ⟨m', hm', hway⟩ := retiring_of_advance hworks.turn (.finished hbase)
          (World.advance_duty hworks.here rfl hattend)
        exact .goes hm' hway
  · exact .goes hstays (.claims hbase)

/-- While it runs the finalizers the fiber goes on to do so, or it has published what they lead to. -/
theorem retires_of_closes {i k : Nat} {y : Fiber σ} {base : List (Waiting σ)}
    {sc : Scope (Finalizer σ)} {e : AnyExit} {fins : List (Nat × Finalizer σ)} (hik : i < k)
    (hbase : Retiring.Base s base) (hworks : (r.moment i).Works f y
      ⟨.instruct (.duty (.finish s)), .restore .interruptible :: base, true⟩)
    (hclaim : ((r.moment i).world.scope s).claim? = some (sc, e, fins))
    (hseq : sc.strategy = .sequential) (hspent : (r.moment k).world.Spent s)
    (hexiting : ∀ j, i < j → j ≤ k → ∃ m, (r.moment j).machine? f = some m ∧ m.exiting = true) :
    r.Retires s f (k + 1) := by
  obtain ⟨m, hm, hout⟩ := hexiting k hik (Nat.le_refl k)
  have hnever : ∀ j, i < j → j ≤ k → ∀ z n, ¬ (r.moment j).Leaves f z n := by
    rintro j hij hjk z n ⟨hactive, -, hinside, -⟩
    obtain ⟨m₁, hm₁, hout₁⟩ := hexiting j hij hjk
    obtain rfl := Option.some.inj ((Moment.machine?_of_active hactive).symm.trans hm₁)
    rw [hout₁] at hinside
    cases hinside
  rcases Run.sequence hworks rfl hclaim hseq (Nat.lt_succ_of_lt hik) with
    ⟨hspent', hclosing⟩ | hdropped | hthrough
  · obtain ⟨m', hm', -⟩ := hclosing.machine
    refine .closes (Nat.lt_succ_of_lt hik) hbase hworks hclaim hspent' fun j hij hjk => ?_
    rcases Nat.lt_or_eq_of_le hjk with hlt | rfl
    · exact hexiting j hij (Nat.le_of_lt_succ hlt)
    · exact ⟨m', hm', exiting_succ hm hout hm'⟩
  · -- who is on the way out already does not leave
    obtain ⟨j, hij, hjk, z, n, hleaves, -⟩ := hdropped.leaves
    exact absurd hleaves (hnever j hij (Nat.le_of_lt_succ hjk) z n)
  · obtain ⟨j, xs, exiting, hjk, -, -, hm', sc', hsc', hclosed⟩ := hthrough.finished
    rcases Nat.lt_or_eq_of_le (Nat.le_of_lt_succ hjk) with hlt | rfl
    · have hisClosed := r.closed_later (show j + 1 ≤ k from hlt) hsc' hclosed
      rw [hspent.not_closed] at hisClosed
      cases hisClosed
    · obtain rfl : exiting = true := exiting_succ hm hout hm'
      exact .goes hm' (.finished hbase)

/-- A fiber that waits for the exit of the scope. -/
theorem retires_of_waits {k : Nat}
    (hm : (r.moment k).machine? f = some ⟨.instruct (Program.waitScope s), [], true⟩) :
    r.Retires s f (k + 1) := by
  obtain ⟨log, hlog⟩ := r.exists_records s
  rcases hlog.waiter hm rfl with ⟨y, hleaves⟩ | ⟨c, hm', rfl | ⟨e, rfl, hexit⟩⟩
  · cases hleaves.2.2.1
  · exact .goes hm' .waits
  · exact .hears hm' (Or.inl rfl) fun j hj => hexit j hj

/-- A fiber that has got the exit of its scope. -/
theorem retires_of_hears {k : Nat} {e : AnyExit} {c : Control σ}
    (hm : (r.moment k).machine? f = some ⟨c, [], true⟩)
    (hc : c = .instruct (.succeed (.exit e)) ∨ c = .value (.exit e))
    (hexit : ∀ j, k ≤ j → ((r.moment j).world.scope s).exit? = some e) :
    r.Retires s f (k + 1) := by
  have hlater : ∀ j, k < j → ((r.moment j).world.scope s).exit? = some e := fun j hj =>
    hexit j (Nat.le_of_lt hj)
  rcases hc with rfl | rfl
  · rcases rests_or_glides hm rfl rfl with hm' | hm'
    · exact .hears hm' (Or.inl rfl) hlater
    · exact .hears hm' (Or.inr rfl) hlater
  · rcases works_or_rests hm rfl (Or.inr ⟨.success (.exit e), rfl⟩) trivial with ⟨y, hworks⟩ | hstays
    · refine .ends (Nat.lt_succ_self k) hworks.fiber (pending_of_machine hworks.fiber hm) ?_ hlater
      rw [Run.advance_of_turn hworks.turn,
        World.advance_unwind (e := .success (.exit e)) hworks.here rfl]
      rfl
    · exact .hears hstays (Or.inr rfl) hlater

/-- The next moment on the way. -/
theorem Retires.succ {k : Nat} (h : r.Retires s f k)
    (hseq : ∀ j, ((r.moment j).world.scope s).strategy = .sequential) : r.Retires s f (k + 1) := by
  cases h with
  | @goes m hm hway =>
      by_cases hclaims : m.control = .instruct (.duty (.finish s))
      · cases hway <;> cases hclaims
        rename_i hbase
        exact retires_of_claims hbase hm
      · by_cases hwaits : m.control = .instruct (Program.waitScope s)
        · cases hway <;> cases hwaits
          exact retires_of_waits hm
        · obtain ⟨m', hm', hway'⟩ := retiring_succ hm hway hclaims hwaits
          exact .goes hm' hway'
  | @closes i y base sc e fins hik hbase hworks hclaim hspent hexiting =>
      obtain ⟨sc₀, hsc₀, -, hsc⟩ := World.claim_of_some hclaim
      have hstrategy := hseq i
      rw [World.scope_of_get hsc₀] at hstrategy
      exact retires_of_closes hik hbase hworks hclaim (by rw [hsc]; exact hstrategy) hspent hexiting
  | hears hm hc hexit => exact retires_of_hears hm hc hexit
  | ends hik hy hpending hmoment hexit =>
      exact .ends (Nat.lt_succ_of_lt hik) hy hpending hmoment hexit

/-! ## Who retires -/

/-- A fiber in the middle of its program stays there, or it sets out on the way. -/
theorem inside_or_retiring {k : Nat} {y : Fiber σ} {m : Machine σ}
    (hy : (r.moment k).world.fibers.get? f = some y) (hm : (r.moment k).machine? f = some m)
    (hinside : m.exiting = false) :
    ∃ m', (r.moment (k + 1)).machine? f = some m' ∧
      (m'.exiting = false ∨ Retiring y.scope m') := by
  rcases Moment.machine?_cases hm with hactive | ⟨haside, -⟩
  · have hx := r.lawful_of_turn hactive
    have hfits := ((r.fitting k).fits f y m hy hm).1
    have hnext := Run.conclude_of_turn hactive hy
    by_cases hworks : Moment.Works ⟨(r.moment k).world, some (f, m)⟩ f y m
    · rw [World.heed_of_free hworks.free] at hnext
      obtain ⟨hexiting, ⟨y₁, hy₁, -⟩, -⟩ := World.treads_step hx hworks hfits
      rw [hinside] at hexiting
      obtain ⟨-, -, -, ⟨m', hm', -, -, hsame⟩ | ⟨⟨e, hdone⟩, -⟩⟩ := World.get?_conclude hy₁
      · exact ⟨m', hnext ▸ hm', Or.inl (hsame.trans hexiting)⟩
      · exact absurd hdone (World.decision_of_works hx hexiting e)
    · rcases World.step_idle hy hworks with ⟨exit, -, hstep⟩ | ⟨p, hstep⟩ | hstep
      · -- the program has ended, or the fiber leaves it
        rw [hnext, hstep]
        cases exit with
        | some x => exact ⟨_, Moment.machine?_active, Or.inr (.starts x)⟩
        | none => exact ⟨_, Moment.machine?_active, Or.inr .follows⟩
      · rw [hnext, hstep]
        exact ⟨_, Moment.machine?_active, Or.inl hinside⟩
      · rw [hnext, hstep]
        obtain ⟨-, -, -, ⟨m', hm', -, -, hsame⟩ | ⟨⟨e, hdone⟩, -⟩⟩ :=
          @World.get?_conclude σ f (_, ⟨m, .yield⟩) _ (World.get?_tired hy)
        · exact ⟨m', hm', Or.inl (hsame.trans hinside)⟩
        · cases hdone
  · obtain ⟨-, -, -, -, hmachine⟩ := (r.move k).aside (r.lawful k) haside hy
    rcases hmachine with heq | ⟨t, m₀, c, hphase, -, hresumed⟩
    · exact ⟨m, heq.trans hm, Or.inl hinside⟩
    · have hm₀ : (r.moment k).machine? f = some m₀ := by
        rw [Moment.machine?_aside haside hy, hphase]
        rfl
      obtain rfl := Option.some.inj (hm₀.symm.trans hm)
      exact ⟨_, Moment.machine?_of_active hresumed, Or.inl hinside⟩

/-- Every fiber is in the middle of its program, or retires. -/
theorem inside_or_retires (hseq : ∀ j, ((r.moment j).world.scope s).strategy = .sequential) {k : Nat}
    {y : Fiber σ} (hy : (r.moment k).world.fibers.get? f = some y) (hscope : y.scope = s) :
    (∃ m, (r.moment k).machine? f = some m ∧ m.exiting = false) ∨ r.Retires s f k := by
  induction k generalizing y with
  | zero =>
      rw [r.start] at hy
      cases hy
  | succ k ih =>
      rcases (r.move k).young (r.lawful k) (r.fitting k).root hy with ⟨y₀, hy₀⟩ | ⟨hyoung, hmachine⟩
      · obtain ⟨y₁, hy₁, honward⟩ := r.onward (Nat.le_succ k) hy₀
        obtain rfl := Option.some.inj (hy₁.symm.trans hy)
        have hscope₀ : y₀.scope = s := honward.scope.symm.trans hscope
        rcases ih hy₀ hscope₀ with ⟨m, hm, hinside⟩ | hretires
        · obtain ⟨m', hm', hinside' | hway⟩ := inside_or_retiring hy₀ hm hinside
          · exact Or.inl ⟨m', hm', hinside'⟩
          · exact Or.inr (.goes hm' (hscope₀ ▸ hway))
        · exact Or.inr (hretires.succ hseq)
      · obtain ⟨p, hp⟩ := hyoung.machine
        exact Or.inl ⟨_, hmachine.trans hp, rfl⟩

/-- Nothing happens to a fiber that is done. -/
theorem done_later {k l : Nat} (hkl : k ≤ l) {y : Fiber σ} {e : AnyExit}
    (hy : (r.moment k).world.fibers.get? f = some y) (hdone : y.phase = .done e) :
    ∃ y', (r.moment l).world.fibers.get? f = some y' ∧ y'.phase = .done e := by
  induction hkl with
  | refl => exact ⟨y, hy, hdone⟩
  | @step l _ ih =>
      obtain ⟨y₁, hy₁, hdone₁⟩ := ih
      have hwaits : ∀ {y₂ : Fiber σ}, y₁.Waits y₂ → y₂.phase = .done e := by
        intro y₂ hwaits
        rcases hwaits.phase with ⟨heq, -⟩ | ⟨m, hstart, -⟩
        · exact heq.trans hdone₁
        · rw [hdone₁] at hstart
          cases hstart
      have hx := r.lawful l
      have hturned := r.turned l
      have hmove := r.move l
      rcases hmoment : r.moment l with ⟨w, active⟩
      rw [hmoment] at hx hturned hmove hy₁
      generalize r.moment (l + 1) = x' at hmove
      cases active with
      | some gm =>
          obtain ⟨g, m⟩ := gm
          have hgf : g ≠ f := by
            rintro rfl
            obtain ⟨y', hy', hrunning⟩ := hturned g m rfl
            obtain rfl := Option.some.inj (hy'.symm.trans hy₁)
            rw [hdone₁] at hrunning
            cases hrunning
          cases hmove with
          | advance =>
              obtain ⟨y₂, hy₂, -, haside⟩ := (World.advance_lawful hx).2.fibers f y₁ hy₁
              exact ⟨y₂, hy₂, hwaits (haside fun heq => hgf (Option.some.inj heq))⟩
      | none =>
          obtain ⟨timers, hlive, ⟨g, token, res, -, rfl⟩ | ⟨w', rfl, hchanges⟩⟩ :=
            World.quiet_cases hmove
          · rcases World.awaken_cases { w with timers } g token res with
              heq | ⟨z, m, c, hz, hphase, -, -, heq⟩
            · rw [heq]
              exact ⟨y₁, hy₁, hdone₁⟩
            · -- only a fiber that is suspended is resumed
              have hgf : g ≠ f := by
                rintro rfl
                obtain rfl := Option.some.inj (hz.symm.trans hy₁)
                rw [hdone₁] at hphase
                cases hphase
              refine ⟨y₁, ?_, hdone₁⟩
              rw [heq, Store.get?_set, if_neg hgf]
              exact hy₁
          · obtain ⟨y₂, hy₂, -, haside⟩ :=
              (World.quiet_of_changes hx hlive hchanges).2.fibers f y₁ hy₁
            exact ⟨y₂, hy₂, hwaits (haside nofun)⟩

/-- A fiber that is done has no machine. -/
theorem machine?_of_done {k : Nat} {y : Fiber σ} {e : AnyExit}
    (hy : (r.moment k).world.fibers.get? f = some y) (hdone : y.phase = .done e) :
    (r.moment k).machine? f = none := by
  have haside : ∀ m, (r.moment k).active ≠ some (f, m) := by
    intro m hactive
    obtain ⟨y', hy', hrunning⟩ := r.turned k f m hactive
    obtain rfl := Option.some.inj (hy'.symm.trans hy)
    rw [hdone] at hrunning
    cases hrunning
  rw [Moment.machine?_aside haside hy, hdone]
  rfl

/-- A fiber that is done has retired: it ended with the exit of its scope. -/
theorem ends_of_done (hseq : ∀ j, ((r.moment j).world.scope s).strategy = .sequential) {k : Nat}
    {y : Fiber σ} {e : AnyExit} (hy : (r.moment k).world.fibers.get? f = some y)
    (hscope : y.scope = s) (hdone : y.phase = .done e) :
    ∃ i z, i < k ∧ (r.moment i).world.fibers.get? f = some z ∧ z.done.outcome? = none ∧
      r.moment (i + 1) = ⟨((r.moment i).world.count f).finishFiber f e, none⟩ ∧
      ∀ j, i < j → ((r.moment j).world.scope s).exit? = some e := by
  have hnone := machine?_of_done hy hdone
  have hgone : ∀ {m}, (r.moment k).machine? f ≠ some m := by
    intro m hm
    rw [hnone] at hm
    cases hm
  rcases inside_or_retires hseq hy hscope with ⟨m, hm, -⟩ | hretires
  · exact absurd hm hgone
  · cases hretires with
    | goes hm => exact absurd hm hgone
    | closes hik _ _ _ _ hexiting =>
        obtain ⟨m, hm, -⟩ := hexiting k hik (Nat.le_refl k)
        exact absurd hm hgone
    | hears hm => exact absurd hm hgone
    | @ends e' i z hik hz hpending hmoment hexit =>
        obtain ⟨c, hc, -⟩ := World.get?_finishFiber_self (World.get?_count hz) e'
        have hended : (r.moment (i + 1)).world.fibers.get? f =
            some { z with ops := z.ops + 1, phase := .done e', done := c } := by
          rw [hmoment]
          exact hc
        obtain ⟨y', hy', hdone'⟩ := done_later (show i + 1 ≤ k from hik) hended rfl
        obtain rfl := Option.some.inj (hy'.symm.trans hy)
        obtain rfl : e' = e := by
          rw [hdone] at hdone'
          injection hdone' with heq
          exact heq.symm
        exact ⟨i, z, hik, hz, hpending, hmoment, hexit⟩

/-- A fiber that ends has published its exit. -/
theorem exitOf_of_ends {i : Nat} {z : Fiber σ} {e : AnyExit}
    (hz : (r.moment i).world.fibers.get? f = some z) (hpending : z.done.outcome? = none)
    (hmoment : r.moment (i + 1) = ⟨((r.moment i).world.count f).finishFiber f e, none⟩) :
    (r.moment (i + 1)).world.exitOf f = some e := by
  obtain ⟨c, hc, hc'⟩ := World.get?_finishFiber_self (World.get?_count hz) e
  rw [hmoment, World.exitOf]
  simp only [hc, Option.bind_some, Fiber.exit?, hc' hpending, Option.map_some]

section

variable {k l : Nat} {y : Fiber σ} {e : AnyExit} {sc : Scope (Finalizer σ)}

/-- A fiber that is done worked before that, if ever, and has the scope that it had then. -/
theorem works_before_done {i : Nat} {z : Fiber σ} {m : Machine σ} (hworks : (r.moment i).Works f z m)
    (hy : (r.moment k).world.fibers.get? f = some y) (hdone : y.phase = .done e) :
    i < k ∧ y.scope = z.scope := by
  have hik : i < k := by
    by_contra hnot
    obtain ⟨y', hy', hdone'⟩ := done_later (Nat.le_of_not_lt hnot) hy hdone
    cases (machine?_of_done hy' hdone').symm.trans (Moment.machine?_of_active hworks.turn)
  obtain ⟨y', hy', honward⟩ := r.onward (Nat.le_of_lt hik) hworks.fiber
  obtain rfl := Option.some.inj (hy'.symm.trans hy)
  exact ⟨hik, honward.scope⟩

/-- The exit of a fiber that is done is what it has published. -/
theorem exitOf_of_done (hy : (r.moment k).world.fibers.get? f = some y) (hdone : y.phase = .done e)
    (hsc : (r.moment k).world.scopes.get? y.scope = some sc) (hseq : sc.strategy = .sequential) (hkl : k ≤ l) :
    (r.moment l).world.exitOf f = some e := by
  obtain ⟨i, z, hik, hz, hpending, hmoment, -⟩ := ends_of_done (r.sequential_of hsc hseq) hy rfl hdone
  exact (r.exitOf_later (show i + 1 ≤ l by omega) (exitOf_of_ends hz hpending hmoment)).2

/-- The scope of a fiber that is done is closed. -/
theorem closed_of_done (hy : (r.moment k).world.fibers.get? f = some y) (hdone : y.phase = .done e)
    (hsc : (r.moment k).world.scopes.get? y.scope = some sc) (hseq : sc.strategy = .sequential) (hkl : k ≤ l) :
    ∃ sc, (r.moment l).world.scopes.get? y.scope = some sc ∧ sc.state = .closed e := by
  obtain ⟨i, z, hik, -, -, -, hexit⟩ := ends_of_done (r.sequential_of hsc hseq) hy rfl hdone
  obtain ⟨sc', hsc', -⟩ := r.scopesLater hkl y.scope sc hsc
  exact ⟨sc', hsc', World.closed_of_exit hsc' (hexit l (by omega))⟩

end

end Run

end Fibers
