import Fibers.Proofs.Timers.Desk
import Fibers.Proofs.Timers.Driving

set_option autoImplicit false

/-! # How a queue on virtual time behaves

Whatever its tasks do, a queue runs the live task that is due first, at its deadline, and each task once or
not at all. All of this is said of the history alone. It holds because at every moment the live tasks of the
queue are those that the history leaves, in order, and none of them is overdue.
-/

namespace Fibers

variable {σ τ : Type}

/-! ## Histories -/

/-- How an entry follows those before it. -/
structure Entry.Follows (past : List Entry) (e : Entry) : Prop where
  /-- The clock does not go back. -/
  forward : ∀ e' ∈ past, e'.time.nanos ≤ e.time.nanos
  /-- No live task has a deadline before now. -/
  punctual : ∀ id deadline, Live past id deadline → e.time.nanos ≤ deadline.nanos
  /-- Tasks are numbered as they are set. -/
  set : ∀ id delay, e.what = .set id delay → id = past.countP (·.due?.isSome)
  /-- Cancelling answers whether the task was live. -/
  cancel : ∀ id answer, e.what = .cancel id answer → (answer = true ↔ ∃ deadline, Live past id deadline)
  /-- The task that runs was live, is given its deadline, which is now, and comes before all other live
  tasks. -/
  run : ∀ id given, e.what = .run id given → given = e.time ∧ Live past id given ∧
    ∀ id' deadline, Live past id' deadline →
      given.nanos < deadline.nanos ∨ given.nanos = deadline.nanos ∧ id ≤ id'

/-- Each entry of a history follows those before it. -/
def Lawful (history : List Entry) : Prop :=
  ∀ past e rest, history = past ++ e :: rest → e.Follows past

theorem Lawful.concat {history : List Entry} {e : Entry} (h : Lawful history) (he : e.Follows history) :
    Lawful (history ++ [e]) := by
  intro past e' rest heq
  cases rest using List.reverseRecOn with
  | nil =>
      obtain ⟨rfl, hlast⟩ := List.append_inj' heq rfl
      cases hlast
      exact he
  | append_singleton rest last =>
      refine h past e' rest ?_
      rw [← List.cons_append, ← List.append_assoc] at heq
      exact List.append_inj_left' heq rfl

/-- What is live after a history was not ended by any of its entries. -/
theorem Live.not_ends {past : List Entry} {id : Nat} {deadline : Time} (h : Live past id deadline) {e : Entry}
    (he : e ∈ past) : ¬ e.Ends id := h.2 e he

theorem Entry.Follows.live_of_ran {past : List Entry} {e : Entry} {id : Nat} (h : e.Follows past)
    (hran : e.ran? = some id) : ∃ deadline, Live past id deadline := by
  obtain ⟨given, hwhat⟩ := Entry.ran?_eq_some.mp hran
  exact ⟨given, (h.run id given hwhat).2.1⟩

/-- No task runs twice. -/
theorem Lawful.once {history : List Entry} (h : Lawful history) : (history.filterMap Entry.ran?).Nodup := by
  induction history using List.reverseRecOn with
  | nil => exact List.nodup_nil
  | append_singleton history e ih =>
      have hbefore : Lawful history := fun past e' rest heq => h past e' (rest ++ [e]) (by simp [heq])
      cases hran : e.ran? with
      | none =>
          rw [List.filterMap_append, List.filterMap_cons_none hran, List.filterMap_nil, List.append_nil]
          exact ih hbefore
      | some id =>
          obtain ⟨deadline, hlive⟩ := (h history e [] rfl).live_of_ran hran
          rw [List.filterMap_append, List.filterMap_cons_some hran, List.filterMap_nil,
            ← List.concat_eq_append]
          refine List.Nodup.concat (fun hmem => ?_) (ih hbefore)
          obtain ⟨e', he', hran'⟩ := List.mem_filterMap.mp hmem
          exact hlive.not_ends he' (Or.inl hran')

/-- No task runs that was live when it was cancelled. -/
theorem Lawful.spared {history past rest : List Entry} {time : Time} {id : Nat} (h : Lawful history)
    (heq : history = past ++ ⟨time, .cancel id true⟩ :: rest) : ∀ e ∈ rest, e.ran? ≠ some id := by
  intro e he hran
  obtain ⟨between, after, rfl⟩ := List.append_of_mem he
  have hfollows := h (past ++ ⟨time, .cancel id true⟩ :: between) e after (by simp [heq])
  obtain ⟨deadline, hlive⟩ := hfollows.live_of_ran hran
  exact hlive.not_ends (List.mem_append_right _ List.mem_cons_self) (Or.inr rfl)

theorem live_concat {past : List Entry} {e : Entry} {id : Nat} {deadline : Time} :
    Live (past ++ [e]) id deadline ↔
      (Live past id deadline ∨ e.due? = some (id, deadline) ∧ ∀ e' ∈ past, ¬ e'.Ends id) ∧ ¬ e.Ends id := by
  simp only [Live, List.mem_append, List.mem_singleton, or_and_right, exists_or, exists_eq_left, or_imp,
    forall_and, forall_eq, and_assoc]

/-! ## What a queue has to do with its history -/

/-- What holds of a queue and its history at every moment; `running` tasks were taken out and are still to be
counted. -/
structure Accords (running : Nat) (q : Timers (Job τ)) (history : List Entry) : Prop where
  ordered : Timers.Ordered q.live
  nodup : (q.live.map (·.id)).Nodup
  stamped : ∀ t ∈ q.live, t.task.number = t.id
  fresh : ∀ t ∈ q.live, t.id < q.nextId
  due : ∀ t ∈ q.live, q.now.nanos ≤ t.deadline.nanos
  live : ∀ id deadline, Live history id deadline ↔ ∃ t ∈ q.live, t.id = id ∧ t.deadline = deadline
  ended : ∀ e ∈ history, ∀ id, e.Ends id → id < q.nextId
  past : ∀ e ∈ history, e.time.nanos ≤ q.now.nanos
  lawful : Lawful history
  numbered : history.countP (·.due?.isSome) = q.nextId
  executed : history.countP (·.ran?.isSome) = q.executed + running
  balance : q.nextId =
    history.countP (·.ran?.isSome) + history.countP (·.cancelled?.isSome) + q.live.length

namespace Accords

variable {q q' : Timers (Job τ)} {history : List Entry} {n id : Nat} {deadline : Time}

/-- No live task is overdue. -/
theorem punctual (h : Accords n q history) (hlive : Live history id deadline) :
    q.now.nanos ≤ deadline.nanos := by
  obtain ⟨t, ht, -, rfl⟩ := (h.live id deadline).mp hlive
  exact h.due t ht

/-- A task is live if and only if the queue has it. -/
theorem exists_live (h : Accords n q history) : (∃ deadline, Live history id deadline) ↔
    ∃ t ∈ q.live, t.id = id := by
  simp only [h.live]
  exact ⟨fun ⟨_, t, ht, hid, _⟩ => ⟨t, ht, hid⟩, fun ⟨t, ht, hid⟩ => ⟨_, t, ht, hid, rfl⟩⟩

theorem nextDeadline?_eq_some (h : Accords n q history) : q.nextDeadline? = some deadline ↔
    (∃ id, Live history id deadline) ∧
    ∀ id' deadline', Live history id' deadline' → deadline.nanos ≤ deadline'.nanos := by
  rw [Timers.nextDeadline?_eq_some]
  constructor
  · rintro ⟨t, rest, hlive, rfl⟩
    have hordered : Timers.Ordered (t :: rest) := hlive ▸ h.ordered
    refine ⟨⟨t.id, (h.live _ _).mpr ⟨t, hlive ▸ List.mem_cons_self, rfl, rfl⟩⟩, fun id' deadline' hother => ?_⟩
    obtain ⟨u, hu, -, rfl⟩ := (h.live _ _).mp hother
    exact hordered.deadline_le (hlive ▸ hu)
  · rintro ⟨⟨id, hid⟩, hleast⟩
    obtain ⟨u, hu, -, rfl⟩ := (h.live _ _).mp hid
    cases hlive : q.live with
    | nil =>
        rw [hlive] at hu
        cases hu
    | cons t rest =>
        have hordered : Timers.Ordered (t :: rest) := hlive ▸ h.ordered
        have ht := hleast t.id t.deadline ((h.live _ _).mpr ⟨t, hlive ▸ List.mem_cons_self, rfl, rfl⟩)
        have hu := hordered.deadline_le (hlive ▸ hu)
        exact ⟨t, rest, rfl, Time.ext (Nat.le_antisymm hu ht)⟩

theorem forward (h : Accords n q history) {t : Time} (ht : q.now.nanos ≤ t.nanos) :
    ∀ e ∈ history, e.time.nanos ≤ t.nanos := fun e he => (h.past e he).trans ht

theorem past_concat (h : Accords n q history) {t : Time} (ht : q.now.nanos ≤ t.nanos) (what : Happening) :
    ∀ e ∈ history ++ [⟨t, what⟩], e.time.nanos ≤ t.nanos := by
  intro e he
  rcases List.mem_append.mp he with he | he
  · exact h.forward ht e he
  · rw [List.mem_singleton.mp he]

theorem ended_concat (h : Accords n q history) {e : Entry} (he : ∀ id, e.Ends id → id < q.nextId) :
    ∀ e' ∈ history ++ [e], ∀ id, e'.Ends id → id < q.nextId := by
  intro e' he' id hends
  rcases List.mem_append.mp he' with he' | he'
  · exact h.ended e' he' id hends
  · rw [List.mem_singleton.mp he'] at hends
    exact he id hends

/-! ## Setting and cancelling -/

theorem set (h : Accords n q history) (delay : Duration) (task : τ) :
    Accords n (q.set delay ⟨q.nextId, task⟩).1 (history ++ [⟨q.now, .set q.nextId delay⟩]) := by
  have hnew : ∀ t ∈ q.live, q.nextId ≠ t.id := fun t ht => (h.fresh t ht).ne'
  have hperm := Timers.perm_insert ⟨q.now.add delay, q.nextId, ⟨q.nextId, task⟩⟩ q.live
  have hends : ∀ id, ¬ (⟨q.now, .set q.nextId delay⟩ : Entry).Ends id := by
    rintro id (hran | hcancelled)
    · cases hran
    · cases hcancelled
  constructor
  case ordered => exact h.ordered.insert hnew
  case nodup =>
    refine (hperm.map _).nodup_iff.mpr (List.nodup_cons.mpr ⟨fun hmem => ?_, h.nodup⟩)
    obtain ⟨t, ht, heq⟩ := List.mem_map.mp hmem
    exact hnew t ht heq.symm
  case stamped =>
    intro t ht
    rcases Timers.mem_insert.mp ht with rfl | ht
    · rfl
    · exact h.stamped t ht
  case fresh =>
    intro t ht
    rcases Timers.mem_insert.mp ht with rfl | ht
    · exact Nat.lt_succ_self _
    · exact Nat.lt_succ_of_lt (h.fresh t ht)
  case due =>
    intro t ht
    rcases Timers.mem_insert.mp ht with rfl | ht
    · exact Time.le_add _ _
    · exact h.due t ht
  case live =>
    intro id deadline
    rw [live_concat, and_iff_left (hends id), h.live]
    constructor
    · rintro (⟨t, ht, hid, hdeadline⟩ | ⟨hdue, -⟩)
      · exact ⟨t, Timers.mem_insert.mpr (Or.inr ht), hid, hdeadline⟩
      · cases hdue
        exact ⟨_, Timers.mem_insert.mpr (Or.inl rfl), rfl, rfl⟩
    · rintro ⟨t, ht, rfl, rfl⟩
      rcases Timers.mem_insert.mp ht with rfl | ht
      · exact Or.inr ⟨rfl, fun e he hend => Nat.lt_irrefl _ (h.ended e he _ hend)⟩
      · exact Or.inl ⟨t, ht, rfl, rfl⟩
  case ended =>
    intro e he id hend
    exact Nat.lt_succ_of_lt (h.ended_concat (fun id hend => absurd hend (hends id)) e he id hend)
  case past => exact h.past_concat (Nat.le_refl _) _
  case lawful =>
    refine h.lawful.concat ⟨h.forward (Nat.le_refl _), fun id deadline => h.punctual, ?_, nofun, nofun⟩
    intro id _ heq
    cases heq
    exact h.numbered.symm
  case numbered => exact List.countP_append.trans (congrArg (· + 1) h.numbered)
  case executed => exact List.countP_append.trans h.executed
  case balance =>
    simp only [List.countP_append]
    exact (congrArg (· + 1) h.balance).trans (congrArg (_ + _ + ·) hperm.length_eq.symm)

/-- A live task is taken out of the queue because it is cancelled or because it runs. -/
theorem remove (h : Accords n q history) {t : Timer (Job τ)} (ht : t ∈ q.live) {live : List (Timer (Job τ))}
    (hsub : live.Sublist q.live) (hmem : ∀ u, u ∈ live ↔ u ∈ q.live ∧ u.id ≠ t.id)
    (hlength : live.length + 1 = q.live.length) {what : Happening} {n' : Nat}
    (hwhat : what = .cancel t.id true ∧ n' = n ∨ what = .run t.id q.now ∧ n' = n + 1)
    (hfollows : (⟨q.now, what⟩ : Entry).Follows history) :
    Accords n' { q with live } (history ++ [⟨q.now, what⟩]) := by
  have hends (id : Nat) : (⟨q.now, what⟩ : Entry).Ends id ↔ t.id = id := by
    rcases hwhat with ⟨rfl, -⟩ | ⟨rfl, -⟩
    · simp [Entry.Ends, Entry.ran?, Entry.cancelled?]
    · simp [Entry.Ends, Entry.ran?, Entry.cancelled?]
  have hdue : (⟨q.now, what⟩ : Entry).due? = none := by
    rcases hwhat with ⟨rfl, -⟩ | ⟨rfl, -⟩
    · rfl
    · rfl
  constructor
  case ordered => exact h.ordered.sublist hsub
  case nodup => exact h.nodup.sublist (hsub.map _)
  case stamped => exact fun u hu => h.stamped u (hsub.subset hu)
  case fresh => exact fun u hu => h.fresh u (hsub.subset hu)
  case due => exact fun u hu => h.due u (hsub.subset hu)
  case live =>
    intro id deadline
    rw [live_concat, hends, hdue, h.live]
    simp only [reduceCtorEq, false_and, or_false, hmem]
    constructor
    · rintro ⟨⟨u, hu, rfl, rfl⟩, hne⟩
      exact ⟨u, ⟨hu, fun heq => hne heq.symm⟩, rfl, rfl⟩
    · rintro ⟨u, ⟨hu, hne⟩, rfl, rfl⟩
      exact ⟨⟨u, hu, rfl, rfl⟩, fun heq => hne heq.symm⟩
  case ended =>
    refine h.ended_concat fun id hend => ?_
    rw [← (hends id).mp hend]
    exact h.fresh t ht
  case past => exact h.past_concat (Nat.le_refl _) _
  case lawful => exact h.lawful.concat hfollows
  case numbered => simp [List.countP_append, hdue, h.numbered]
  case executed =>
    rw [List.countP_append, List.countP_singleton, h.executed]
    rcases hwhat with ⟨rfl, rfl⟩ | ⟨rfl, rfl⟩
    · rfl
    · rfl
  case balance =>
    have hone : (if (⟨q.now, what⟩ : Entry).ran?.isSome then 1 else 0) +
        (if (⟨q.now, what⟩ : Entry).cancelled?.isSome then 1 else 0) = 1 := by
      rcases hwhat with ⟨rfl, -⟩ | ⟨rfl, -⟩
      · rfl
      · rfl
    have hbalance := h.balance
    rw [List.countP_append, List.countP_singleton, List.countP_append, List.countP_singleton]
    dsimp only
    omega

theorem cancel (h : Accords n q history) (hcancel : q.cancel? id = some q') :
    Accords n q' (history ++ [⟨q.now, .cancel id true⟩]) := by
  obtain ⟨⟨t, ht, rfl⟩, rfl⟩ := Timers.cancel?_eq_some.mp hcancel
  have hfollows : (⟨q.now, .cancel t.id true⟩ : Entry).Follows history := by
    refine ⟨h.forward (Nat.le_refl _), fun _ _ => h.punctual, nofun, ?_, nofun⟩
    rintro id answer heq
    cases heq
    exact iff_of_true rfl (h.exists_live.mpr ⟨t, ht, rfl⟩)
  refine h.remove ht List.filter_sublist (fun u => ?_) (Timers.length_filter_id h.nodup ht) (Or.inl ⟨rfl, rfl⟩)
    hfollows
  rw [List.mem_filter, bne_iff_ne]

/-- The clock may move up to the next deadline. Nothing comes of it, nor of cancelling what is not live. -/
theorem note (h : Accords n q history) {t : Time} {what : Happening} (hnow : q.now.nanos ≤ t.nanos)
    (hdue : ∀ u ∈ q.live, t.nanos ≤ u.deadline.nanos)
    (hwhat : what = .moved ∨ ∃ id, what = .cancel id false ∧ ¬ ∃ u ∈ q.live, u.id = id) :
    Accords n { q with clock := { q.clock with now := t } } (history ++ [⟨t, what⟩]) := by
  have hends (id : Nat) : ¬ (⟨t, what⟩ : Entry).Ends id := by
    rcases hwhat with rfl | ⟨id', rfl, -⟩
    · simp [Entry.Ends, Entry.ran?, Entry.cancelled?]
    · simp [Entry.Ends, Entry.ran?, Entry.cancelled?]
  have hset : (⟨t, what⟩ : Entry).due? = none := by
    rcases hwhat with rfl | ⟨id, rfl, -⟩
    · rfl
    · rfl
  have hran : (⟨t, what⟩ : Entry).ran? = none :=
    Option.eq_none_iff_forall_ne_some.mpr fun id heq => hends id (Or.inl heq)
  have hcancelled : (⟨t, what⟩ : Entry).cancelled? = none :=
    Option.eq_none_iff_forall_ne_some.mpr fun id heq => hends id (Or.inr heq)
  constructor
  case ordered => exact h.ordered
  case nodup => exact h.nodup
  case stamped => exact h.stamped
  case fresh => exact h.fresh
  case due => exact hdue
  case live =>
    intro id deadline
    rw [live_concat, and_iff_left (hends id), hset, h.live]
    simp only [reduceCtorEq, false_and, or_false]
  case ended => exact h.ended_concat fun id hend => absurd hend (hends id)
  case past => exact h.past_concat hnow _
  case lawful =>
    refine h.lawful.concat ⟨h.forward hnow, fun id deadline hlive => ?_, ?_, ?_, ?_⟩
    · obtain ⟨u, hu, -, rfl⟩ := (h.live id deadline).mp hlive
      exact hdue u hu
    · rintro id delay rfl
      cases hset
    · rintro id answer rfl
      rcases hwhat with hmoved | ⟨id', heq, hnone⟩
      · cases hmoved
      · cases heq
        exact iff_of_false Bool.false_ne_true (mt h.exists_live.mp hnone)
    · rintro id given rfl
      cases hran
  case numbered => simp [List.countP_append, hset, h.numbered]
  case executed => simp [List.countP_append, hran, h.executed]
  case balance => simpa [List.countP_append, hran, hcancelled] using h.balance

/-- The next task is the one that is due first, and it is due now. -/
theorem pop (h : Accords n q history) {job : Job τ} (hpop : q.popDue? = some (job, q')) :
    Accords (n + 1) q' (history ++ [⟨q.now, .run job.number q.now⟩]) := by
  obtain ⟨t, rest, hlive, hdue, rfl, rfl⟩ := Timers.popDue?_eq_some.mp hpop
  have ht : t ∈ q.live := hlive ▸ List.mem_cons_self
  have hnow : t.deadline = q.now := Time.ext (Nat.le_antisymm hdue (h.due t ht))
  have hordered : Timers.Ordered (t :: rest) := hlive ▸ h.ordered
  have hnodup : ((t :: rest).map (·.id)).Nodup := hlive ▸ h.nodup
  have hfresh := (List.nodup_cons.mp hnodup).1
  rw [h.stamped t ht]
  refine h.remove ht (hlive ▸ List.sublist_cons_self t rest) (fun u => ?_) (by rw [hlive]; rfl)
    (Or.inr ⟨rfl, rfl⟩) ⟨h.forward (Nat.le_refl _), fun _ _ => h.punctual, nofun, nofun, ?_⟩
  · rw [hlive, List.mem_cons]
    constructor
    · exact fun hu => ⟨Or.inr hu, fun heq => hfresh (List.mem_map.mpr ⟨u, hu, heq⟩)⟩
    · exact fun ⟨hu, hne⟩ => hu.resolve_left fun heq => hne (congrArg Timer.id heq)
  · rintro id given heq
    cases heq
    refine ⟨rfl, (h.live _ _).mpr ⟨t, ht, rfl, hnow⟩, fun id' deadline hother => ?_⟩
    obtain ⟨u, hu, rfl, rfl⟩ := (h.live _ _).mp hother
    rw [hlive] at hu
    rcases List.mem_cons.mp hu with rfl | hu
    · exact Or.inr ⟨congrArg Time.nanos hnow.symm, Nat.le_refl _⟩
    · have hbefore := Timer.before_iff.mp ((List.pairwise_cons.mp hordered).1 u hu)
      rw [hnow] at hbefore
      exact hbefore.imp_right (And.imp_right Nat.le_of_lt)

theorem countRun (h : Accords (n + 1) q history) : Accords n q.countRun history :=
  { h with executed := h.executed.trans (Nat.succ_add_eq_add_succ ..).symm }

end Accords

/-! ## Desks -/

namespace Desk

variable {d d' : Desk σ τ} {n : Nat} {body : τ → Time → Chore σ τ}

/-- The queue and the history of a desk accord; `running` tasks are still to be counted. -/
def Kept (running : Nat) (d : Desk σ τ) : Prop := Accords running d.timers d.history

theorem kept_start (now : Time) (board : σ) : (start now board : Desk σ τ).Kept 0 where
  ordered := List.Pairwise.nil
  nodup := List.nodup_nil
  stamped := nofun
  fresh := nofun
  due := nofun
  live id deadline := iff_of_false (fun ⟨⟨_, he, _⟩, _⟩ => nomatch he) (fun ⟨_, ht, _⟩ => nomatch ht)
  ended := nofun
  past := nofun
  lawful past e rest h := by cases past <;> cases h
  numbered := rfl
  executed := rfl
  balance := rfl

theorem Kept.set (h : d.Kept n) (delay : Duration) (task : τ) : (d.set delay task).1.Kept n :=
  Accords.set h delay task

theorem Kept.cancel (h : d.Kept n) (id : Nat) : (d.cancel id).1.Kept n := by
  unfold Desk.cancel
  cases hcancel : d.timers.cancel? id with
  | some timers =>
      obtain ⟨-, rfl⟩ := Timers.cancel?_eq_some.mp hcancel
      exact Accords.cancel (q := d.timers) h hcancel
  | none =>
      have hnone : ¬ ∃ t ∈ d.timers.live, t.id = id :=
        fun ⟨t, ht, hid⟩ => Timers.cancel?_eq_none.mp hcancel t ht hid
      exact Accords.note h (Nat.le_refl _) h.due (Or.inr ⟨id, rfl, hnone⟩)

/-- The clock may be moved to an instant up to the next deadline. -/
theorem Kept.moveTo (h : d.Kept n) {t : Time} (ht : ∀ u ∈ d.timers.live, t.nanos ≤ u.deadline.nanos) :
    (d.moveTo t).Kept n := by
  refine Accords.note h (Time.le_latest_left _ t) (fun u hu => ?_) (Or.inl rfl)
  unfold Time.latest
  split
  · exact ht u hu
  · exact h.due u hu

/-- Whatever a task does, queue and history accord. -/
theorem Kept.run (chore : Chore σ τ) (h : d.Kept n) : (chore.run d).Kept n := by
  induction chore generalizing d with
  | done => exact h
  | look k ih => exact ih d.sight h
  | write board k ih => exact ih (d := { d with board }) h
  | set delay task k ih => exact ih _ (h.set delay task)
  | cancel id k ih => exact ih _ (h.cancel id)

/-- The next task is taken out and runs; it is still to be counted. -/
theorem Kept.perform (h : d.Kept n) {job : Job τ} {rest : Timers (Job τ)}
    (hpop : d.timers.popDue? = some (job, rest)) :
    (({ d with timers := rest } : Desk σ τ).perform body job).Kept (n + 1) := by
  have hnow : rest.now = d.timers.now := Timers.now_popDue hpop
  have haccords := Accords.pop h hpop
  rw [← hnow] at haccords
  exact Kept.run (body job.task rest.now) haccords

/-! ## Driving the queue -/

theorem keeps_kept (body : τ → Time → Chore σ τ) : (host body).Keeps (Kept 0) where
  run {d d'} job rest h hpop hperform := by
    have hrun : (({ d with timers := rest } : Desk σ τ).perform body job).Kept 1 := h.perform hpop
    cases hperform
    exact Accords.countRun hrun
  wait {d d'} limit h hlimit hawait := by
    cases limit with
    | none =>
        cases hawait
        exact h
    | some limit =>
        cases hawait
        refine h.moveTo fun u hu => ?_
        cases hlive : d.timers.live with
        | nil =>
            rw [hlive] at hu
            cases hu
        | cons t rest =>
            obtain ⟨l, hl, hle⟩ := hlimit t.deadline (Timers.nextDeadline?_eq_some.mpr ⟨t, rest, hlive, rfl⟩)
            obtain rfl := Option.some.inj hl
            have hordered : Timers.Ordered (t :: rest) := hlive ▸ h.ordered
            exact hle.trans (hordered.deadline_le (hlive ▸ hu))

/-- Queue and history accord on every desk that is reached. -/
theorem Reached.kept (h : Reached body d) : d.Kept 0 := by
  induction h with
  | start now board => exact kept_start now board
  | write _ board ih => exact ih
  | set _ delay task ih => exact ih.set delay task
  | cancel _ id ih => exact ih.cancel id
  | runReady _ hreturns ih => exact (keeps_kept body).runReadyFrom ih hreturns
  | advance _ span hreturns ih => exact (keeps_kept body).advance ih hreturns
  | runUntilIdle _ hreturns ih => exact (keeps_kept body).idleLoop ih hreturns
  | driveUntil _ done hreturns ih => exact (keeps_kept body).untilLoop ih hreturns

end Desk

end Fibers
