import Mathlib.Tactic.Common
import Fibers.Proofs.Timers.Until

set_option autoImplicit false

/-! # Letting time pass in one go or in two

On virtual time, to let a span pass is to go from deadline to deadline up to an instant. An instant before it
may be a stop on the way: no deadline is skipped by stopping there, since only the deadlines up to there are
gone to, and those set meanwhile for that very instant are among them. What is left for the second part is
what the whole would have gone on with, but for the clock, which already shows the instant of the stop.

The whole is followed round by round, until the first deadline that lies beyond the stop.
-/

namespace Fibers

/-! ## Sums of spans -/

theorem Time.add_add (t : Time) (a b : Duration) : (t.add a).add b = t.add (a + b) := by
  apply Time.ext
  simp only [Time.add, Time.nanos_ofNanos]
  omega

theorem Time.add_le_add (t : Time) {a b : Duration} (h : a ≤ b) : (t.add a).nanos ≤ (t.add b).nanos := by
  have hsum : t.nanos + a ≤ t.nanos + b := Nat.add_le_add_left h _
  simp only [Time.add, Time.nanos_ofNanos]
  omega

theorem Time.latest_eq_right {a b : Time} (h : a.nanos ≤ b.nanos) : latest a b = b := if_pos h

theorem Time.latest_le {a b c : Time} (ha : a.nanos ≤ c.nanos) (hb : b.nanos ≤ c.nanos) :
    (latest a b).nanos ≤ c.nanos := by
  unfold latest
  split
  · exact hb
  · exact ha

/-- To an earlier instant first, then on: the clock shows the same. -/
theorem Time.latest_latest {a b c : Time} (h : b.nanos ≤ c.nanos) :
    latest (latest a b) c = latest a c := by
  by_cases hab : a.nanos ≤ b.nanos
  · rw [latest_eq_right hab, latest_eq_right h, latest_eq_right (hab.trans h)]
  · rw [show latest a b = a from if_neg hab]

theorem Timers.clock_popDue {τ : Type} {q q' : Timers τ} {task : τ} (h : q.popDue? = some (task, q')) :
    q'.clock = q.clock := by
  obtain ⟨t, rest, -, -, -, rfl⟩ := popDue?_eq_some.mp h
  rfl

theorem Timers.advanceTo_advanceTo {τ : Type} (q : Timers τ) {t u : Time} (h : t.nanos ≤ u.nanos) :
    (q.advanceTo t).advanceTo u = q.advanceTo u := by
  simp only [Timers.advanceTo, Clock.advanceTo, Time.latest_latest h]

/-- Before the first deadline no task is due. -/
theorem Timers.popDue?_eq_none_of_before {τ : Type} {q : Timers τ}
    (h : ∀ d, q.nextDeadline? = some d → q.now.nanos < d.nanos) : q.popDue? = none := by
  unfold popDue?
  cases hlive : q.live with
  | nil => rfl
  | cons t rest =>
      have hlate : q.now.nanos < t.deadline.nanos := h t.deadline (by rw [nextDeadline?, hlive]; rfl)
      exact if_neg (Nat.not_le.mpr hlate)

namespace Host

variable {S τ : Type} {host : Host S τ} {s s' t q : S}

/-! ## Systems on virtual time -/

/-- On virtual time a wait moves the clock, and tasks leave it alone. Two systems may be alike without being
equal, such as when one has taken note of more waits: then they have the same queue and go on alike, and it
makes no difference to a wait whether it was made in two parts. -/
structure Virtual (host : Host S τ) (Alike : S → S → Prop) : Prop where
  timers : ∀ {s t : S}, Alike s t → host.timers s = host.timers t
  timers_withTimers : ∀ s timers, host.timers (host.withTimers s timers) = timers
  withTimers : ∀ {s t : S} (timers : Timers τ), Alike s t →
    Alike (host.withTimers s timers) (host.withTimers t timers)
  perform : ∀ {task : τ} {s t s' : S}, Alike s t → host.perform task s = (s', .finished ()) →
    ∃ t', host.perform task t = (t', .finished ()) ∧ Alike s' t'
  clock : ∀ {task : τ} {s s' : S}, host.perform task s = (s', .finished ()) →
    (host.timers s').clock = (host.timers s).clock
  await : ∀ {s : S} (limit : Time), (host.timers s).clock.isVirtual = true →
    ∃ s', host.await (some limit) s = some s' ∧ host.timers s' = (host.timers s).advanceTo limit
  await_alike : ∀ {s t s' : S} {limit : Time}, Alike s t → host.await (some limit) s = some s' →
    ∃ t', host.await (some limit) t = some t' ∧ Alike s' t'
  await_await : ∀ {s s₁ s' : S} {stop limit : Time}, (host.timers s).clock.isVirtual = true →
    stop.nanos ≤ limit.nanos → host.await (some stop) s = some s₁ → host.await (some limit) s = some s' →
    ∃ s₂, host.await (some limit) s₁ = some s₂ ∧ Alike s' s₂

/-! ## What is counted -/

/-- Whatever was counted before, as much is counted on top. -/
theorem runReadyFrom_counts {fuel ran ran' : Nat} (h : host.runReadyFrom fuel ran s = (q, .finished ran'))
    (start : Nat) : ∃ n, ran' = ran + n ∧ host.runReadyFrom fuel start s = (q, .finished (start + n)) := by
  induction fuel generalizing ran start s with
  | zero => cases h
  | succ fuel ih =>
      unfold runReadyFrom at h
      split at h
      · rename_i hquiet
        cases h
        exact ⟨0, rfl, runReadyFrom_of_quiet hquiet fuel start⟩
      · rename_i task rest hpop
        split at h
        · rename_i s₁ hperform
          obtain ⟨n, rfl, hrest⟩ := ih h (start + 1)
          refine ⟨n + 1, by omega, ?_⟩
          rw [runReadyFrom_of_runs (.mk hpop hperform), hrest]
          congr 2
          omega
        · cases h
        · cases h

/-! ## Rounds -/

/-- How a passage of time up to an instant goes that returns: round by round, from one deadline to the next,
and from the last one on to the instant. What is run in each round is counted on top. -/
inductive Passage (host : Host S τ) (fuel : Nat) (target : Time) : Nat → Nat → S → S → Nat → Prop
  | arrive {rounds ran ran' : Nat} {s s₁ q : S}
      (hlate : ∀ d, (host.timers s).nextDeadline? = some d → target.nanos < d.nanos)
      (hawait : host.await (some target) s = some s₁)
      (hready : host.runReadyFrom fuel ran s₁ = (q, .finished ran')) :
      Passage host fuel target (rounds + 1) ran s q ran'
  | pass {rounds ran ran₁ ran' : Nat} {s s₁ s₂ q : S} {d : Time}
      (hnext : (host.timers s).nextDeadline? = some d) (hsoon : d.nanos ≤ target.nanos)
      (hawait : host.await (some d) s = some s₁)
      (hready : host.runReadyFrom fuel ran s₁ = (s₂, .finished ran₁))
      (hrest : Passage host fuel target rounds ran₁ s₂ q ran') :
      Passage host fuel target (rounds + 1) ran s q ran'

theorem Passage.of_advanceLoop {fuel rounds ran ran' : Nat} {target : Time}
    (h : host.advanceLoop fuel target rounds ran s = (q, .finished ran')) :
    host.Passage fuel target rounds ran s q ran' := by
  induction rounds generalizing ran s with
  | zero => cases h
  | succ rounds ih =>
      unfold advanceLoop at h
      split at h
      · rename_i d hnext
        obtain ⟨hd, hsoon⟩ := Option.filter_eq_some_iff.mp hnext
        split at h
        · cases h
        · rename_i s₁ hawait
          split at h
          · rename_i s₂ ran₁ hready
            exact .pass hd (of_decide_eq_true hsoon) hawait hready (ih h)
          · rename_i hstops
            exact absurd h (hstops _ _)
      · rename_i hnone
        split at h
        · cases h
        · rename_i s₁ hawait
          exact .arrive (fun d hd => by simpa [hd] using hnone) hawait h

theorem Passage.advanceLoop {fuel rounds ran ran' : Nat} {target : Time}
    (h : host.Passage fuel target rounds ran s q ran') :
    host.advanceLoop fuel target rounds ran s = (q, .finished ran') := by
  induction h with
  | arrive hlate hawait hready =>
      unfold Host.advanceLoop
      rw [Option.filter_eq_none_iff.mpr (fun d hd => by simpa using hlate d hd), hawait]
      exact hready
  | pass hnext hsoon hawait hready _ ih =>
      unfold Host.advanceLoop
      rw [hnext, Option.filter_some, if_pos (decide_eq_true hsoon)]
      simp only [hawait, hready, ih]

theorem Passage.counts {fuel rounds ran ran' : Nat} {target : Time}
    (h : host.Passage fuel target rounds ran s q ran') (start : Nat) :
    ∃ n, ran' = ran + n ∧ host.Passage fuel target rounds start s q (start + n) := by
  induction h generalizing start with
  | arrive hlate hawait hready =>
      obtain ⟨n, rfl, hready'⟩ := runReadyFrom_counts hready start
      exact ⟨n, rfl, .arrive hlate hawait hready'⟩
  | pass hnext hsoon hawait hready _ ih =>
      obtain ⟨n, rfl, hready'⟩ := runReadyFrom_counts hready start
      obtain ⟨m, rfl, hrest⟩ := ih (start + n)
      refine ⟨n + m, Nat.add_assoc _ n m, ?_⟩
      rw [← Nat.add_assoc]
      exact .pass hnext hsoon hawait hready' hrest

/-- More rounds than are needed make no difference. -/
theorem Passage.more {fuel rounds ran ran' rounds' : Nat} {target : Time}
    (h : host.Passage fuel target rounds ran s q ran') (hmore : rounds ≤ rounds') :
    host.Passage fuel target rounds' ran s q ran' := by
  induction h generalizing rounds' with
  | arrive hlate hawait hready =>
      obtain ⟨rounds', rfl⟩ := Nat.exists_eq_add_one_of_ne_zero (Nat.ne_zero_of_lt hmore)
      exact .arrive hlate hawait hready
  | pass hnext hsoon hawait hready _ ih =>
      obtain ⟨rounds', rfl⟩ := Nat.exists_eq_add_one_of_ne_zero (Nat.ne_zero_of_lt hmore)
      exact .pass hnext hsoon hawait hready (ih (Nat.le_of_succ_le_succ hmore))

theorem Passage.enough {fuel rounds ran ran' : Nat} {target : Time}
    (h : host.Passage fuel target rounds ran s q ran') : fuel ≠ 0 ∧ rounds ≠ 0 := by
  cases h with
  | arrive hlate hawait hready =>
      refine ⟨fun hzero => ?_, Nat.succ_ne_zero _⟩
      subst hzero
      cases hready
  | pass hnext hsoon hawait hready hrest =>
      refine ⟨fun hzero => ?_, Nat.succ_ne_zero _⟩
      subst hzero
      cases hready

/-! ## What looks alike goes on alike -/

/-- The second part of a passage of time that stops on the way, seen from its start: the first part ends where
the clock shows the instant of the stop and nothing is due, and the second looks like the rest. -/
structure Stopped (host : Host S τ) (Alike : S → S → Prop) (fuel : Nat) (target stop : Time) (rounds ran : Nat)
    (s s' : S) (ran' : Nat) (q t : S) (n m : Nat) : Prop where
  first : host.Passage fuel stop rounds ran s q n
  quiet : host.Quiet q
  now : (host.timers q).now = stop
  second : host.Passage fuel target rounds 0 q t m
  alike : Alike s' t
  counts : n + m = ran'

section Virtual

variable {Alike : S → S → Prop} (h : host.Virtual Alike)
include h

theorem Virtual.runReadyFrom {fuel ran ran' : Nat} (halike : Alike s t)
    (hreturns : host.runReadyFrom fuel ran s = (s', .finished ran')) :
    ∃ t', host.runReadyFrom fuel ran t = (t', .finished ran') ∧ Alike s' t' := by
  induction fuel generalizing ran s t with
  | zero => cases hreturns
  | succ fuel ih =>
      unfold Host.runReadyFrom at hreturns
      split at hreturns
      · rename_i hquiet
        cases hreturns
        rw [h.timers halike] at hquiet
        exact ⟨t, runReadyFrom_of_quiet hquiet fuel _, halike⟩
      · rename_i task rest hpop
        split at hreturns
        · rename_i s₁ hperform
          obtain ⟨t₁, hperform', halike₁⟩ := h.perform (h.withTimers rest halike) hperform
          rw [h.timers halike] at hpop
          rw [h.timers halike₁] at hreturns
          rw [runReadyFrom_of_runs (.mk hpop hperform')]
          exact ih (h.withTimers _ halike₁) hreturns
        · cases hreturns
        · cases hreturns

theorem Virtual.passage {fuel rounds ran ran' : Nat} {target : Time} (halike : Alike s t)
    (hpassage : host.Passage fuel target rounds ran s s' ran') :
    ∃ t', host.Passage fuel target rounds ran t t' ran' ∧ Alike s' t' := by
  induction hpassage generalizing t with
  | arrive hlate hawait hready =>
      obtain ⟨t₁, hawait', halike₁⟩ := h.await_alike halike hawait
      obtain ⟨t', hready', halike'⟩ := h.runReadyFrom halike₁ hready
      rw [h.timers halike] at hlate
      exact ⟨t', .arrive hlate hawait' hready', halike'⟩
  | pass hnext hsoon hawait hready _ ih =>
      obtain ⟨t₁, hawait', halike₁⟩ := h.await_alike halike hawait
      obtain ⟨t₂, hready', halike₂⟩ := h.runReadyFrom halike₁ hready
      obtain ⟨t', hrest', halike'⟩ := ih halike₂
      rw [h.timers halike] at hnext
      exact ⟨t', .pass hnext hsoon hawait' hready' hrest', halike'⟩

/-- A run of what is due leaves the clock alone. -/
theorem Virtual.clock_runReadyFrom {fuel ran ran' : Nat}
    (hreturns : host.runReadyFrom fuel ran s = (s', .finished ran')) :
    (host.timers s').clock = (host.timers s).clock := by
  induction fuel generalizing ran s with
  | zero => cases hreturns
  | succ fuel ih =>
      unfold Host.runReadyFrom at hreturns
      split at hreturns
      · cases hreturns
        rfl
      · rename_i task rest hpop
        split at hreturns
        · rename_i s₁ hperform
          calc (host.timers s').clock
            _ = (host.timers s₁).countRun.clock := by rw [ih hreturns, h.timers_withTimers]
            _ = rest.clock := by
                rw [← h.timers_withTimers s rest, ← h.clock hperform]
                rfl
            _ = (host.timers s).clock := Timers.clock_popDue hpop
        · cases hreturns
        · cases hreturns

/-! ## A stop on the way -/

/-- A wait for an instant before the first deadline changes nothing but the clock, and time passes from there
as it would have without the wait. -/
theorem Virtual.passage_from {fuel rounds ran ran' : Nat} {target stop : Time}
    (hvirtual : (host.timers s).clock.isVirtual = true) (hstop : stop.nanos ≤ target.nanos)
    (hbefore : ∀ d, (host.timers s).nextDeadline? = some d → stop.nanos < d.nanos)
    (hq : host.await (some stop) s = some q) (hqlive : (host.timers q).live = (host.timers s).live)
    (hpassage : host.Passage fuel target rounds ran s s' ran') :
    ∃ t, host.Passage fuel target rounds ran q t ran' ∧ Alike s' t := by
  have hnextq : (host.timers q).nextDeadline? = (host.timers s).nextDeadline? := by
    rw [Timers.nextDeadline?, Timers.nextDeadline?, hqlive]
  cases hpassage with
  | arrive hlate hawait hready =>
      obtain ⟨q₁, hq₁, halike₁⟩ := h.await_await hvirtual hstop hq hawait
      obtain ⟨t, hready', halike⟩ := h.runReadyFrom halike₁ hready
      exact ⟨t, .arrive (hnextq ▸ hlate) hq₁ hready', halike⟩
  | pass hnext hsoon hawait hready hrest =>
      obtain ⟨q₁, hq₁, halike₁⟩ := h.await_await hvirtual (hbefore _ hnext).le hq hawait
      obtain ⟨q₂, hready', halike₂⟩ := h.runReadyFrom halike₁ hready
      obtain ⟨t, hrest', halike⟩ := h.passage halike₂ hrest
      exact ⟨t, .pass (hnextq ▸ hnext) hsoon hq₁ hready' hrest', halike⟩

/-- If the stop comes before the first deadline, the first part is a wait. -/
theorem Virtual.stop_before {fuel rounds ran ran' : Nat} {target stop : Time}
    (hvirtual : (host.timers s).clock.isVirtual = true) (hnow : (host.timers s).now.nanos ≤ stop.nanos)
    (hstop : stop.nanos ≤ target.nanos)
    (hbefore : ∀ d, (host.timers s).nextDeadline? = some d → stop.nanos < d.nanos)
    (hpassage : host.Passage fuel target rounds ran s s' ran') :
    ∃ q t n m, host.Stopped Alike fuel target stop rounds ran s s' ran' q t n m := by
  obtain ⟨hfuel, hrounds⟩ := hpassage.enough
  obtain ⟨fuel, rfl⟩ := Nat.exists_eq_add_one_of_ne_zero hfuel
  obtain ⟨rounds, rfl⟩ := Nat.exists_eq_add_one_of_ne_zero hrounds
  obtain ⟨q, hq, hqtimers⟩ := h.await stop hvirtual
  have hqlive : (host.timers q).live = (host.timers s).live := by rw [hqtimers]; rfl
  have hqnow : (host.timers q).now = stop := by
    rw [hqtimers]
    exact Time.latest_eq_right hnow
  have hquiet : host.Quiet q := by
    refine Timers.popDue?_eq_none_of_before fun d hd => ?_
    rw [hqnow]
    refine hbefore d ?_
    rw [← hd, Timers.nextDeadline?, Timers.nextDeadline?, hqlive]
  obtain ⟨t, hrest, halike⟩ := h.passage_from hvirtual hstop hbefore hq hqlive hpassage
  obtain ⟨m, rfl, hsecond⟩ := hrest.counts 0
  rw [Nat.zero_add] at hsecond
  exact ⟨q, t, ran, m, .arrive hbefore hq (runReadyFrom_of_quiet hquiet fuel ran), hquiet, hqnow, hsecond,
    halike, rfl⟩

/-- A passage of time may stop on the way. -/
theorem Virtual.stop {fuel rounds ran ran' : Nat} {target stop : Time}
    (hvirtual : (host.timers s).clock.isVirtual = true) (hnow : (host.timers s).now.nanos ≤ stop.nanos)
    (hstop : stop.nanos ≤ target.nanos) (hpassage : host.Passage fuel target rounds ran s s' ran') :
    ∃ q t n m, host.Stopped Alike fuel target stop rounds ran s s' ran' q t n m := by
  induction hpassage with
  | arrive hlate hawait hready =>
      exact h.stop_before hvirtual hnow hstop (fun d hd => hstop.trans_lt (hlate d hd))
        (.arrive hlate hawait hready)
  | @pass rounds ran ran₁ ran' s s₁ s₂ s' d hnext hsoon hawait hready hrest ih =>
      by_cases hd : d.nanos ≤ stop.nanos
      · have hclock : (host.timers s₂).clock = (host.timers s).clock.advanceTo d := by
          obtain ⟨s₁', hawait', hmoved⟩ := h.await d hvirtual
          obtain rfl := Option.some.inj (hawait.symm.trans hawait')
          rw [h.clock_runReadyFrom hready, hmoved]
          rfl
        have hnow₂ : (host.timers s₂).now.nanos ≤ stop.nanos := by
          rw [Timers.now, hclock]
          exact Time.latest_le hnow hd
        obtain ⟨q, t, n, m, hq⟩ := ih (by rw [hclock]; exact hvirtual) hnow₂
        exact ⟨q, t, n, m, .pass hnext hd hawait hready hq.first, hq.quiet, hq.now,
          hq.second.more (Nat.le_succ rounds), hq.alike, hq.counts⟩
      · refine h.stop_before hvirtual hnow hstop (fun d' hd' => ?_) (.pass hnext hsoon hawait hready hrest)
        obtain rfl := Option.some.inj (hnext.symm.trans hd')
        exact Nat.lt_of_not_le hd

/-- A system on virtual time that lets a span pass which is a sum may as well let one part pass and then the
other: both calls return, together they count as much, and what they lead to looks alike. -/
theorem Virtual.in_two {fuel n : Nat} {a b : Duration} (hvirtual : (host.timers s).clock.isVirtual = true)
    (hreturns : host.advance fuel (a + b) s = (s', .finished n)) :
    ∃ q t n₁ n₂, host.advance fuel a s = (q, .finished n₁) ∧ host.advance fuel b q = (t, .finished n₂) ∧
      n₁ + n₂ = n ∧ Alike s' t := by
  unfold Host.advance at hreturns
  dsimp only at hreturns
  split at hreturns
  · rename_i s₀ ran hready
    have hpassage := Passage.of_advanceLoop hreturns
    have hclock : (host.timers s₀).clock = (host.timers s).clock := h.clock_runReadyFrom hready
    have hnow : (host.timers s₀).now = (host.timers s).now := congrArg Clock.now hclock
    have hbefore : (host.timers s₀).now.nanos ≤ ((host.timers s).now.add a).nanos := by
      rw [hnow]
      exact Time.le_add _ a
    obtain ⟨q, t, n₁, n₂, hq⟩ := h.stop (by rw [hclock]; exact hvirtual) hbefore
      (Time.add_le_add _ (Nat.le_add_right a b)) hpassage
    refine ⟨q, t, n₁, n₂, ?_, ?_, hq.counts, hq.alike⟩
    · simp only [Host.advance, hready, hq.first.advanceLoop]
    · obtain ⟨k, rfl⟩ := Nat.exists_eq_add_one_of_ne_zero hpassage.enough.1
      simp only [Host.advance, Host.runReady, runReadyFrom_of_quiet hq.quiet k 0, hq.now, Time.add_add,
        hq.second.advanceLoop]
  · rename_i hstops
    exact absurd hreturns (hstops _ _)

end Virtual

end Host

/-! ## Desks -/

/-- Whether an entry only says that the clock was moved. -/
def Entry.isMove : Entry → Bool
  | ⟨_, .moved⟩ => true
  | ⟨_, .set _ _⟩ => false
  | ⟨_, .cancel _ _⟩ => false
  | ⟨_, .run _ _⟩ => false

namespace Desk

variable {σ τ : Type} {d d' e : Desk σ τ} {body : τ → Time → Chore σ τ}

/-- What was done at a desk, and when: which tasks were set, cancelled and run. -/
def deeds (d : Desk σ τ) : List Entry := d.history.filter fun e => !e.isMove

/-- Two desks with the same queue, the same around it, and the same done at them. -/
structure Alike (d e : Desk σ τ) : Prop where
  timers : d.timers = e.timers
  board : d.board = e.board
  deeds : d.deeds = e.deeds

namespace Alike

theorem record (h : d.Alike e) (what : Happening) : (d.record what).Alike (e.record what) where
  timers := h.timers
  board := h.board
  deeds := by
    have hdeeds := h.deeds
    simp only [Desk.deeds] at hdeeds
    simp only [Desk.deeds, Desk.record, List.filter_append, hdeeds, h.timers]

theorem withTimers (h : d.Alike e) (timers : Timers (Job τ)) :
    ({ d with timers } : Desk σ τ).Alike { e with timers } := ⟨rfl, h.board, h.deeds⟩

theorem sight (h : d.Alike e) : d.sight = e.sight := by
  simp only [Desk.sight, h.timers, h.board]

theorem set (h : d.Alike e) (delay : Duration) (task : τ) :
    (d.set delay task).1.Alike (e.set delay task).1 ∧ (d.set delay task).2 = (e.set delay task).2 := by
  simp only [Desk.set, h.timers, and_true]
  exact (h.withTimers _).record _

theorem cancel (h : d.Alike e) (id : Nat) :
    (d.cancel id).1.Alike (e.cancel id).1 ∧ (d.cancel id).2 = (e.cancel id).2 := by
  unfold Desk.cancel
  rw [h.timers]
  cases e.timers.cancel? id with
  | some timers => exact ⟨(h.withTimers timers).record _, rfl⟩
  | none => exact ⟨h.record _, rfl⟩

/-- A task cannot tell two such desks apart. -/
theorem run (chore : Chore σ τ) (h : d.Alike e) : (chore.run d).Alike (chore.run e) := by
  induction chore generalizing d e with
  | done => exact h
  | look k ih =>
      simp only [Chore.run, h.sight]
      exact ih _ h
  | write board k ih => exact ih ⟨h.timers, rfl, h.deeds⟩
  | set delay task k ih =>
      obtain ⟨hset, hid⟩ := h.set delay task
      simp only [Chore.run, hid]
      exact ih _ hset
  | cancel id k ih =>
      obtain ⟨hcancel, hanswer⟩ := h.cancel id
      simp only [Chore.run, hanswer]
      exact ih _ hcancel

/-- That the clock was moved is no deed. -/
theorem moveTo (h : d.Alike e) (t : Time) : (d.moveTo t).Alike (e.moveTo t) := by
  unfold Desk.moveTo
  rw [h.timers]
  exact (h.withTimers _).record _

theorem moveTo_moveTo (d : Desk σ τ) {stop limit : Time} (h : stop.nanos ≤ limit.nanos) :
    (d.moveTo limit).Alike ((d.moveTo stop).moveTo limit) where
  timers := (d.timers.advanceTo_advanceTo h).symm
  board := rfl
  deeds := by simp [Desk.deeds, Desk.moveTo, Desk.record, List.filter_append, Entry.isMove]

end Alike

/-- What a task does leaves the clock alone. -/
theorem clock_run (chore : Chore σ τ) (d : Desk σ τ) : (chore.run d).timers.clock = d.timers.clock := by
  induction chore generalizing d with
  | done => rfl
  | look k ih => exact ih _ d
  | write board k ih => exact ih { d with board }
  | set delay task k ih => exact (ih _ _).trans rfl
  | cancel id k ih =>
      have hcancel : (d.cancel id).1.timers.clock = d.timers.clock := by
        unfold Desk.cancel
        cases hcancel : d.timers.cancel? id with
        | some timers =>
            obtain ⟨-, rfl⟩ := Timers.cancel?_eq_some.mp hcancel
            rfl
        | none => rfl
      exact (ih _ _).trans hcancel

theorem virtual (body : τ → Time → Chore σ τ) : (host body).Virtual Alike where
  timers h := h.timers
  timers_withTimers _ _ := rfl
  withTimers timers h := h.withTimers timers
  perform {task d e d'} h hperform := by
    cases hperform
    refine ⟨_, rfl, ?_⟩
    unfold Desk.perform
    rw [h.timers]
    exact (h.record _).run _
  clock {task d d'} hperform := by
    cases hperform
    exact clock_run _ _
  await limit _ := ⟨_, rfl, rfl⟩
  await_alike h hawait := by
    cases hawait
    exact ⟨_, rfl, h.moveTo _⟩
  await_await _ hstop hq hawait := by
    cases hq
    cases hawait
    exact ⟨_, rfl, Alike.moveTo_moveTo _ hstop⟩

/-- Whatever its tasks do, a queue on virtual time that lets `a + b` pass in one call comes by two calls, one
for `a` and one for `b`, to the same clock, the same live tasks and the same insertion number, with the same
tasks set, cancelled and run at the same times on the way. Both calls return, and together they count as many
tasks. No time is beyond the last instant, so this is said of sums that end there too. -/
theorem advance_add {fuel n : Nat} {a b : Duration} (hvirtual : d.timers.clock.isVirtual = true)
    (hreturns : (host body).advance fuel (a + b) d = (d', .finished n)) :
    ∃ d₁ d₂ n₁ n₂, (host body).advance fuel a d = (d₁, .finished n₁) ∧
      (host body).advance fuel b d₁ = (d₂, .finished n₂) ∧ n₁ + n₂ = n ∧
      d₂.timers = d'.timers ∧ d₂.board = d'.board ∧ d₂.deeds = d'.deeds := by
  obtain ⟨d₁, d₂, n₁, n₂, hfirst, hsecond, hcounts, halike⟩ := (virtual body).in_two hvirtual hreturns
  exact ⟨d₁, d₂, n₁, n₂, hfirst, hsecond, hcounts, halike.timers.symm, halike.board.symm, halike.deeds.symm⟩

/-- One task sets the other for the instant at which it runs itself and for one that no clock can show. The
other does nothing. -/
def relay (first : Bool) (_ : Time) : Chore Unit Bool :=
  if first then .set 0 false fun _ => .set 90 false fun _ => .done else .done

/-- The clock shows seven nanoseconds before the last instant, and twenty-five pass, with a stop after five:
two of the tasks run at the stop, where one of them was set, and the third at the last instant. -/
theorem relay_advance_add :
    let d := ((start (.ofNanos (Time.limit - 7)) ()).set 5 true).1
    let d' := ((host relay).advance 9 (5 + 20) d).1
    (d.timers.clock.isVirtual = true ∧ (host relay).advance 9 (5 + 20) d = (d', .finished 3)) ∧
    ∃ d₁ d₂ n₁ n₂, (host relay).advance 9 5 d = (d₁, .finished n₁) ∧
      (host relay).advance 9 20 d₁ = (d₂, .finished n₂) ∧ n₁ + n₂ = 3 ∧
      d₂.timers = d'.timers ∧ d₂.board = d'.board ∧ d₂.deeds = d'.deeds := by
  intro d d'
  have hreturns : (host relay).advance 9 (5 + 20) d = (d', .finished 3) := rfl
  exact ⟨⟨rfl, hreturns⟩, advance_add rfl hreturns⟩

end Desk

end Fibers
