import Fibers.Proofs.Run.Turns
import Fibers.Proofs.Semaphores.Conserved
import Fibers.Proofs.Semaphores.Ledger

set_option autoImplicit false

/-! # A ticket that nobody acquires

A ticket is engaged while it is in the queue of its semaphore or holds a permit. Only the acquisition of
a ticket engages it: whatever else is done to the semaphores, by the other operations on them and by all
that fibers and schedulers do, engages no ticket that was issued before. And once a ticket that is engaged
no more than once is relinquished, it is not engaged any more.
-/

namespace Fibers

/-! ## One semaphore -/

namespace Semaphore

variable {γ : Type} {t : Nat}

/-- The tickets that are in the queue or hold a permit. -/
def engaged (s : Semaphore γ) : List Nat := s.queue ++ s.holders

theorem count_engaged (s : Semaphore γ) (t : Nat) :
    s.engaged.count t = s.queue.count t + s.holders.count t := List.count_append

/-- What a semaphore can turn into without an acquisition of the ticket. -/
structure Spares (t : Nat) (a b : Semaphore γ) : Prop where
  tickets : a.nextTicket ≤ b.nextTicket
  engaged : t < a.nextTicket → b.engaged.count t ≤ a.engaged.count t

theorem Spares.refl (s : Semaphore γ) : s.Spares t s := ⟨Nat.le_refl _, fun _ => Nat.le_refl _⟩

theorem Spares.trans {a b c : Semaphore γ} (h : a.Spares t b) (h' : b.Spares t c) : a.Spares t c :=
  ⟨Nat.le_trans h.tickets h'.tickets, fun ht =>
    Nat.le_trans (h'.engaged (Nat.lt_of_lt_of_le ht h.tickets)) (h.engaged ht)⟩

theorem spares_ticket (s : Semaphore γ) : s.Spares t s.ticket.1 :=
  ⟨Nat.le_succ _, fun _ => Nat.le_refl _⟩

theorem count_engaged_give (s : Semaphore γ) (t' t : Nat) :
    (s.give t').engaged.count t = s.engaged.count t + if t' = t then 1 else 0 := by
  rw [count_engaged, count_engaged]
  simp only [give, queue, List.count_cons, beq_iff_eq, Nat.add_assoc]

/-- Trying for a permit engages the ticket that it issues. -/
theorem spares_tryTake {s s' : Semaphore γ} {t' : Nat} (h : s.tryTake? = some (s', t')) :
    s.Spares t s' := by
  unfold tryTake? at h
  split at h
  · cases h
    refine ⟨Nat.le_succ _, fun ht => ?_⟩
    have hgive := count_engaged_give s.ticket.1 s.nextTicket t
    rw [if_neg (Nat.ne_of_gt ht)] at hgive
    exact Nat.le_of_eq hgive
  · cases h

/-- The acquisition of another ticket. -/
theorem spares_take {s s' : Semaphore γ} {t' : Nat} (hne : t' ≠ t) (h : s.take? t' = some s') :
    s.Spares t s' := by
  unfold take? at h
  split at h
  · cases h
    exact .refl s
  · split at h
    · cases h
      refine ⟨Nat.le_refl _, fun _ => ?_⟩
      rw [count_engaged_give, if_neg hne]
      exact Nat.le_refl _
    · cases h

/-- Acquiring a ticket that need not wait engages it once more at most. -/
theorem count_engaged_take {s s' : Semaphore γ} (h : s.take? t = some s') :
    s'.engaged.count t ≤ s.engaged.count t + 1 := by
  unfold take? at h
  split at h
  · cases h
    exact Nat.le_succ _
  · split at h
    · cases h
      rw [count_engaged_give, if_pos rfl]
    · cases h

theorem count_engaged_enqueue (s : Semaphore γ) (t' t : Nat) (grant : γ) :
    (s.enqueue t' grant).engaged.count t = s.engaged.count t + if t' = t then 1 else 0 := by
  rw [count_engaged, count_engaged]
  simp only [enqueue, queue, List.map_append, List.map_cons, List.map_nil, List.count_append,
    List.count_singleton, beq_iff_eq]
  omega

theorem spares_enqueue {t' : Nat} (hne : t' ≠ t) (s : Semaphore γ) (grant : γ) :
    s.Spares t (s.enqueue t' grant) := by
  refine ⟨Nat.le_refl _, fun _ => ?_⟩
  rw [count_engaged_enqueue, if_neg hne]
  exact Nat.le_refl _

/-- Handing a permit on moves a ticket from the queue to the holders. -/
theorem count_engaged_handOff (s : Semaphore γ) (t : Nat) :
    s.handOff.1.engaged.count t = s.engaged.count t := by
  unfold handOff
  split
  · rfl
  · rename_i t' grant rest hwaiters
    rw [count_engaged, count_engaged]
    simp only [queue, hwaiters, List.map_cons, List.count_cons]
    omega

theorem nextTicket_handOff (s : Semaphore γ) : s.handOff.1.nextTicket = s.nextTicket := by
  unfold handOff
  split <;> rfl

/-- What relinquishing a ticket leaves of the tickets that are engaged. -/
theorem count_engaged_relinquish (s : Semaphore γ) (t' t : Nat) :
    (s.relinquish t').1.engaged.count t =
      if t' ∈ s.queue then (s.queue.filter (· != t')).count t + s.holders.count t
      else s.queue.count t + (s.holders.erase t').count t := by
  unfold relinquish
  by_cases hqueue : t' ∈ s.queue
  · rw [if_pos (Ledger.isQueued_iff.mpr hqueue), if_pos hqueue, count_engaged]
    simp only [queue, List.filter_map]
    rfl
  · rw [if_neg (fun h => hqueue (Ledger.isQueued_iff.mp h)), if_neg hqueue]
    by_cases hheld : t' ∈ s.holders
    · rw [if_pos (Ledger.isHeld_iff.mpr hheld), count_engaged_handOff, count_engaged]
      rfl
    · rw [if_neg (fun h => hheld (Ledger.isHeld_iff.mp h)), List.erase_of_not_mem hheld, count_engaged]

theorem nextTicket_relinquish (s : Semaphore γ) (t' : Nat) :
    (s.relinquish t').1.nextTicket = s.nextTicket := by
  unfold relinquish
  split
  · rfl
  · split
    · exact nextTicket_handOff _
    · rfl

theorem spares_relinquish (s : Semaphore γ) (t' : Nat) : s.Spares t (s.relinquish t').1 := by
  refine ⟨Nat.le_of_eq (nextTicket_relinquish s t').symm, fun _ => ?_⟩
  rw [count_engaged_relinquish, count_engaged]
  split
  · exact Nat.add_le_add_right (List.filter_sublist.count_le t) _
  · exact Nat.add_le_add_left (List.erase_sublist.count_le t) _

/-- A ticket that is engaged once at most is not engaged after it has been relinquished. -/
theorem not_engaged_relinquish {s : Semaphore γ} (h : s.engaged.count t ≤ 1) :
    (s.relinquish t).1.engaged.count t = 0 := by
  rw [count_engaged] at h
  rw [count_engaged_relinquish]
  split
  · rename_i hqueue
    have hqueued : 0 < s.queue.count t := List.count_pos_iff.mpr hqueue
    have hfilter : (s.queue.filter (· != t)).count t = 0 := List.count_eq_zero.mpr fun hmem => by
      simpa using (List.mem_filter.mp hmem).2
    omega
  · rename_i hqueue
    have hqueued : s.queue.count t = 0 := List.count_eq_zero.mpr hqueue
    rw [List.count_erase_self]
    omega

end Semaphore

/-! ## What leaves the semaphores alone -/

namespace World

variable {σ : Type}

theorem semaphores_settle (w : World σ) (f : Key .future) (settled : Settled (Program σ)) :
    (w.settle f settled).1.semaphores = w.semaphores := by
  unfold settle
  split
  · exact foldl_keeps semaphores (notifyFuture settled) (semaphores_notifyFuture settled) _ _
  · rfl

theorem semaphores_relinquish (w : World σ) (u : Key .semaphore) (t' : Nat) :
    (w.relinquish u t').semaphores = w.semaphores.set u ((w.semaphore u).relinquish t').1 := by
  unfold relinquish
  dsimp only
  split
  · rfl
  · exact semaphores_settle _ _ _

theorem semaphores_interruptFiber (w : World σ) (f : Key .fiber) (id : FiberId) :
    (w.interruptFiber f id).semaphores = w.semaphores := by
  unfold interruptFiber
  split
  · rfl
  · split
    · rfl
    · split
      · exact semaphores_requestClose _ _ _
      · rfl

theorem semaphores_joinRefs (w : World σ) (m child : Key .refs) :
    (w.joinRefs m child).1.semaphores = w.semaphores := by
  unfold joinRefs
  split <;> rfl

theorem semaphores_forkRefs (w : World σ) (m : Key .refs) :
    (w.forkRefs m).1.semaphores = w.semaphores := by
  unfold forkRefs
  split <;> rfl

theorem semaphores_collect (refs : Key .refs) (fs : List (Key .fiber)) (values : List Value)
    (w : World σ) : (w.collect refs fs values).1.semaphores = w.semaphores := by
  induction fs generalizing values w with
  | nil => rfl
  | cons f rest ih =>
      simp only [collect]
      split
      · have hjoin := semaphores_joinRefs w refs (w.refsOf f)
        split
        · rename_i w' heq
          rw [heq] at hjoin
          exact (ih _ w').trans hjoin
        · rename_i w' d heq
          rw [heq] at hjoin
          exact hjoin
      · rfl

theorem semaphores_interruptAll (w : World σ) (fs : List (Key .fiber)) (id : FiberId) :
    (w.interruptAll fs id).semaphores = w.semaphores :=
  foldl_keeps semaphores _ (fun w f => semaphores_interruptFiber w f id) fs w

theorem semaphores_watchAll (w : World σ) (watcher : Nat → DoneWatcher σ)
    (members : List (Key .fiber)) : (w.watchAll watcher members).semaphores = w.semaphores :=
  foldl_keeps semaphores (fun w (m : Key .fiber × Nat) => (w.watchFiber m.1 (watcher m.2)).1)
    (fun w m => semaphores_watchFiber w m.1 (watcher m.2)) _ w

theorem semaphores_applyDeferred (w : World σ) (f : Key .fiber) :
    (w.applyDeferred f).semaphores = w.semaphores := by
  unfold applyDeferred
  split
  · rfl
  · split
    · split
      · rfl
      · exact semaphores_requestClose _ _ _
    · rfl

theorem semaphores_restore (w : World σ) (f : Key .fiber) (r : Restore) :
    (w.restore f r).1.semaphores = w.semaphores := by
  cases r with
  | interruptible => exact semaphores_applyDeferred _ f
  | services => rfl
  | semaphore => rfl
  | label => rfl

theorem semaphores_claimFinalizer (w : World σ) (ho : Option Handle) :
    (w.claimFinalizer ho).1.semaphores = w.semaphores := by
  cases ho with
  | none => rfl
  | some h => exact semaphores_takeFinalizer w h

theorem semaphores_descend (f : Key .fiber) (failed : Bool) (stack : List (Waiting σ)) (w : World σ) :
    (descend f failed stack w).1.semaphores = w.semaphores := by
  induction stack generalizing w with
  | nil => rfl
  | cons x rest ih =>
      cases x with
      | map k =>
          cases failed with
          | true => exact ih w
          | false => rfl
      | fold h k => rfl
      | restore r =>
          have hrestore := semaphores_restore w f r
          rcases hr : w.restore f r with ⟨w', left⟩
          rw [hr] at hrestore
          cases left with
          | true => simp only [descend, hr]
          | false =>
              simp only [descend, hr]
              exact (ih w').trans hrestore
      | release h => exact (ih _).trans (semaphores_takeFinalizer w h)
      | finalizer ho fin =>
          have hclaim := semaphores_claimFinalizer w ho
          rcases hc : w.claimFinalizer ho with ⟨w', won⟩
          rw [hc] at hclaim
          cases won with
          | true => simp only [descend, hc]
          | false =>
              simp only [descend, hc]
              exact (ih w').trans hclaim
      | resumeWith saved => rfl

/-! ## What engages no ticket -/

variable {s : Key .semaphore} {t : Nat}

/-- From one world to the other the ticket is not acquired. -/
def Spares (s : Key .semaphore) (t : Nat) (w w' : World σ) : Prop :=
  ∀ a, w.semaphores.get? s = some a → ∃ b, w'.semaphores.get? s = some b ∧ a.Spares t b

theorem Spares.refl (w : World σ) : Spares s t w w := fun a ha => ⟨a, ha, .refl a⟩

theorem Spares.of_eq {w w' : World σ} (h : w'.semaphores = w.semaphores) : Spares s t w w' :=
  fun a ha => ⟨a, h ▸ ha, .refl a⟩

theorem Spares.trans {w₁ w₂ w₃ : World σ} (h : Spares s t w₁ w₂) (h' : Spares s t w₂ w₃) :
    Spares s t w₁ w₃ := by
  intro a ha
  obtain ⟨b, hb, hab⟩ := h a ha
  obtain ⟨c, hc, hbc⟩ := h' b hb
  exact ⟨c, hc, hab.trans hbc⟩

/-- The world in which a call ends, by the equation for the call. -/
theorem Spares.of_fst {α : Type} {w w' : World σ} {called : World σ × α} {a : α}
    (h : Spares s t w called.1) (heq : called = (w', a)) : Spares s t w w' := by
  rw [heq] at h
  exact h

/-- A change of one semaphore. -/
theorem spares_set {w w' : World σ} {u : Key .semaphore} {b : Semaphore (Key .future)}
    (h : u = s → (w.semaphore u).Spares t b) (hw' : w'.semaphores = w.semaphores.set u b) :
    Spares s t w w' := by
  intro a ha
  rw [hw', Store.get?_set]
  split
  · rename_i hu
    subst hu
    exact ⟨b, by rw [ha, Option.map_some], semaphore_of_get ha ▸ h rfl⟩
  · exact ⟨a, ha, .refl a⟩

theorem spares_newSemaphore (w : World σ) (permits : Nat) :
    Spares s t w (w.newSemaphore permits).1 :=
  fun a ha => ⟨a, Store.get?_add_of_some _ ha, .refl a⟩

theorem spares_relinquish (w : World σ) (u : Key .semaphore) (t' : Nat) :
    Spares s t w (w.relinquish u t') :=
  spares_set (fun _ => Semaphore.spares_relinquish _ t') (semaphores_relinquish w u t')

/-- The ticket was issued, and it is engaged `n` times at most. -/
def Engages (s : Key .semaphore) (t n : Nat) (w : World σ) : Prop :=
  ∃ a, w.semaphores.get? s = some a ∧ t < a.nextTicket ∧ a.engaged.count t ≤ n

theorem Spares.engages {w w' : World σ} {n : Nat} (h : Spares s t w w') (hw : w.Engages s t n) :
    w'.Engages s t n := by
  obtain ⟨a, ha, hissued, hengaged⟩ := hw
  obtain ⟨b, hb, hspares⟩ := h a ha
  exact ⟨b, hb, Nat.lt_of_lt_of_le hissued hspares.tickets,
    Nat.le_trans (hspares.engaged hissued) hengaged⟩

/-- Acquiring the ticket engages it once more at most. -/
theorem Engages.take {w : World σ} {n : Nat} (hw : w.Engages s t n) :
    (w.attend (.take s t)).1.Engages s t (n + 1) := by
  obtain ⟨a, ha, hissued, hengaged⟩ := hw
  simp only [attend, semaphore_of_get ha]
  split
  · rename_i b htake
    refine ⟨b, Store.get?_set_of_some ha, ?_, ?_⟩
    · exact Nat.lt_of_lt_of_le hissued (Semaphore.later_take htake).tickets
    · exact Nat.le_trans (Semaphore.count_engaged_take htake) (Nat.succ_le_succ hengaged)
  · have hget : w.newFuture.1.semaphores.get? s = some a := ha
    refine ⟨a.enqueue t w.newFuture.2, ?_, hissued, ?_⟩
    · rw [Store.get?_modify, if_pos rfl, hget, Option.map_some]
    · rw [Semaphore.count_engaged_enqueue, if_pos rfl]
      exact Nat.succ_le_succ hengaged

/-- A ticket that is engaged once at most is not engaged after it has been relinquished. -/
theorem Engages.relinquish {w : World σ} (hw : w.Engages s t 1) : (w.relinquish s t).Engages s t 0 := by
  obtain ⟨a, ha, hissued, hengaged⟩ := hw
  refine ⟨(a.relinquish t).1, ?_, (Semaphore.nextTicket_relinquish a t).symm ▸ hissued,
    Nat.le_of_eq (Semaphore.not_engaged_relinquish hengaged)⟩
  rw [semaphores_relinquish, semaphore_of_get ha]
  exact Store.get?_set_of_some ha

/-! ## Acts -/

theorem spares_command (w : World σ) (c : Call) : Spares s t w (w.command c).1 := by
  cases c with
  | interruptFiber f id => exact .of_eq (semaphores_interruptFiber w f id)
  | unwatchFiber f key =>
      simp only [command]
      split
      · exact .refl w
      · split
        · exact .of_eq rfl
        · exact .refl w
  | newFuture => exact .of_eq rfl
  | interruptFuture f id => exact .of_eq (semaphores_settle w f _)
  | unwatchFuture f key =>
      simp only [command]
      split
      · exact .of_eq rfl
      · exact .refl w
  | newSemaphore permits => exact spares_newSemaphore w permits
  | tryAcquire u =>
      simp only [command]
      split
      · rename_i sem ticket heq
        exact spares_set (fun _ => Semaphore.spares_tryTake heq) rfl
      · exact .refl w
  | relinquish u ticket => exact spares_relinquish w u ticket
  | newScope owner strategy => exact .of_eq rfl
  | forkScope u owner => exact .of_eq (semaphores_register _ _ _)
  | cancelFinalizer h => exact .of_eq (semaphores_takeLent w h)
  | newRef initial policy => exact .of_eq rfl
  | newRefs => exact .of_eq rfl
  | forkRefs m => exact .of_eq (semaphores_forkRefs w m)
  | joinRefs m child => exact .of_eq (semaphores_joinRefs w m child)
  | writeRef m r value => exact .of_eq rfl
  | alarm delay f => exact .of_eq rfl
  | cancelTimer id =>
      simp only [command]
      split
      · exact .of_eq rfl
      · exact .refl w

/-- No act engages the ticket. -/
theorem spares_run {e : Ending} (act : Act σ e) (w : World σ) : Spares s t w (w.run act).1 :=
  match act, w with
  | .program _, w => .refl w
  | .exit _, w => .refl w
  | .done, w => .refl w
  | .ready _, w => .refl w
  | .pending _, w => .refl w
  | .panic _, w => .refl w
  | .look k, w => spares_run (k w.board) w
  | .tell b k, w =>
      have hboard : Spares s t w { w with board := b } := .of_eq rfl
      hboard.trans (spares_run k _)
  | .ask q k, w => spares_run (k (w.answer q)) w
  | .call c k, w => by
      have hcommand : Spares s t w (w.command c).1 := spares_command w c
      simp only [run]
      split
      · rename_i w' reply heq
        exact (hcommand.of_fst heq).trans (spares_run (k reply) w')
      · rename_i w' d heq
        exact hcommand.of_fst heq
  | .resolve f p k, w =>
      have hresolve : Spares s t w (w.resolve f p).1 := .of_eq (semaphores_settle w f _)
      hresolve.trans (spares_run (k _) _)
  | .register u g k, w =>
      have hregister : Spares s t w (w.register u (.lent g)).1 := .of_eq (semaphores_register w u _)
      hregister.trans (spares_run (k _) _)
  | .after delay task k, w =>
      have hset : Spares s t w { w with timers := (w.timers.set delay (.run task)).1 } := .of_eq rfl
      hset.trans (spares_run (k _) _)
  | .watchFiber f r k, w =>
      have hwatch : Spares s t w (w.watchFiber f (.react r)).1 := .of_eq (semaphores_watchFiber w f _)
      hwatch.trans (spares_run (k _) _)
  | .watchFuture f r k, w =>
      have hwatch : Spares s t w (w.watchFuture f (.react r)).1 :=
        .of_eq (semaphores_watchFuture w f _)
      hwatch.trans (spares_run (k _) _)
  | .elsewhere delay f p k, w =>
      have hsend : Spares s t w { w with errands := w.errands ++ [⟨w.now.add delay, f, p⟩] } :=
        .of_eq rfl
      hsend.trans (spares_run k _)

theorem spares_finalizeWith (fin : Finalizer σ) (e : AnyExit) (w : World σ) :
    Spares s t w (w.finalizeWith fin e).1 := by
  cases fin with
  | apply g => exact spares_run (g e) w
  | lent g => exact spares_run (g e) w
  | canceler p => exact .refl w
  | closeChild child parent => exact .refl w
  | relinquish u ticket => exact spares_relinquish w u ticket
  | relinquishOnFailure u ticket =>
      simp only [finalizeWith]
      split
      · exact spares_relinquish w u ticket
      · exact .refl w

/-- No duty engages the ticket but the one to acquire it. -/
theorem spares_attend {d : Duty σ} (hd : d ≠ .take s t) (w : World σ) :
    Spares s t w (w.attend d).1 := by
  cases d with
  | guarded u p => exact spares_set (fun _ => Semaphore.spares_ticket _) rfl
  | acquire u => exact spares_set (fun _ => Semaphore.spares_ticket _) rfl
  | take u t' =>
      have hne : u = s → t' ≠ t := by
        rintro rfl rfl
        exact hd rfl
      simp only [attend]
      split
      · rename_i sem heq
        exact spares_set (fun hu => Semaphore.spares_take (hne hu) heq) rfl
      · intro a ha
        have hget : (w.newFuture.1).semaphores.get? s = some a := ha
        rw [Store.get?_modify]
        split
        · rename_i hu
          rw [hget]
          exact ⟨_, rfl, Semaphore.spares_enqueue (hne hu) a _⟩
        · exact ⟨a, hget, .refl a⟩
  | close u e => exact .of_eq (semaphores_requestClose w u e)
  | finish u =>
      simp only [attend]
      split
      · exact .refl w
      · exact .of_eq rfl
  | release h e =>
      have hlent : Spares s t w (w.takeLent h).1 := .of_eq (semaphores_takeLent w h)
      simp only [attend]
      split
      · rename_i w' heq
        exact hlent.of_fst heq
      · rename_i w' fin heq
        have hfinal : Spares s t w (w'.finalizeWith fin e).1 :=
          (hlent.of_fst heq).trans (spares_finalizeWith fin e w')
        split
        · rename_i w'' p hcalled
          exact hfinal.of_fst hcalled
        · rename_i w'' d hcalled
          exact hfinal.of_fst hcalled
  | finalize h fin e => exact spares_finalizeWith fin e w

theorem spares_follow (q : Sequel σ) (v : Value) (w : World σ) : Spares s t w (w.follow q v).1 := by
  cases q with
  | captured => exact .refl w
  | publish u => exact .of_eq (semaphores_wakeAll _ _ _)
  | runNext p => exact .refl w
  | combine e => exact .refl w
  | combineAll e => exact .refl w
  | joined ours theirs =>
      have hjoin : Spares s t w (w.joinRefs ours theirs).1 := .of_eq (semaphores_joinRefs w _ _)
      simp only [follow]
      split
      · rename_i w' heq
        exact hjoin.of_fst heq
      · rename_i w' d heq
        exact hjoin.of_fst heq
  | raceDecided c =>
      simp only [follow]
      split
      · exact .of_eq (semaphores_interruptAll w _ _)
      · exact .refl w
  | raceDrained c winner e =>
      simp only [follow]
      split
      · exact .refl w
      · rename_i f _
        have hjoin : Spares s t w (w.joinRefs c.refs (w.refsOf f)).1 :=
          .of_eq (semaphores_joinRefs w _ _)
        split
        · rename_i w' heq
          exact hjoin.of_fst heq
        · rename_i w' d heq
          exact hjoin.of_fst heq
  | zipDecided c =>
      simp only [follow]
      split
      · have hcollect : Spares s t w (w.collect c.refs c.members []).1 :=
          .of_eq (semaphores_collect _ _ _ w)
        split
        · rename_i w' values heq
          exact hcollect.of_fst heq
        · rename_i w' message heq
          exact hcollect.of_fst heq
        · rename_i w' d heq
          exact hcollect.of_fst heq
      · exact .of_eq (semaphores_interruptAll w _ _)
      · exact .refl w
  | zipDrained c first => exact .refl w
  | awaitNext f => exact .refl w
  | awaited es => exact .refl w

theorem spares_proceedWith (k : Cont σ) (v : Value) (w : World σ) :
    Spares s t w (w.proceedWith k v).1 := by
  cases k with
  | apply g => exact spares_run (g v) w
  | next p => exact .refl w
  | sequel q => exact spares_follow q v w

theorem spares_recoverWith (h : Handler σ) (c : AnyCause) (w : World σ) :
    Spares s t w (w.recoverWith h c).1 := by
  cases h with
  | apply g => exact spares_run (g c) w
  | capture => exact .refl w

/-! ## Steps -/

theorem spares_newFiber (w : World σ) (c : Context) (u : Key .scope) (p : Program σ)
    (services : Services) (inherited : List Frame) :
    Spares s t w (w.newFiber c u p services inherited).1 :=
  (spares_newSemaphore w c.concurrency).trans (.of_eq (semaphores_hook _ u _))

theorem spares_forkChild (w : World σ) (f : Key .fiber) (p : Program σ) (params : ForkParams) :
    Spares s t w (w.forkChild f p params).1 := by
  unfold forkChild
  split
  · exact .refl w
  · rename_i parent hparent
    dsimp only
    have hscope : Spares s t w (w.nextId.1.forkScope (params.scope.getD parent.scope)
        w.nextId.2).1 := .of_eq (semaphores_register _ _ _)
    have hrefs : ∀ (w' : World σ) m given, Spares s t w' (w'.childRefs m given).1 := by
      intro w' m given
      cases given with
      | some refs => exact .refl w'
      | none => exact .of_eq (semaphores_forkRefs w' m)
    have hbefore := hscope.trans (hrefs _ parent.context.refs params.refs)
    split
    · rename_i w' d heq
      exact hbefore.of_fst heq
    · rename_i w' refs heq
      exact ((hbefore.of_fst heq).trans (spares_newFiber w' _ _ _ _ _)).trans
        (.of_eq (semaphores_startFiber _ _))

theorem spares_forkAll (f : Key .fiber) (arena : Key .scope) (ps : List (Program σ))
    (children : List (Key .fiber)) (w : World σ) :
    Spares s t w (w.forkAll f arena ps children).1 := by
  induction ps generalizing children w with
  | nil => exact .refl w
  | cons p rest ih =>
      have hfork : Spares s t w (w.forkChild f p { scope := some arena }).1 :=
        spares_forkChild w f p _
      simp only [forkAll]
      split
      · rename_i w' child heq
        exact (hfork.of_fst heq).trans (ih _ w')
      · rename_i w' d heq
        exact hfork.of_fst heq

theorem spares_contest (w : World σ) (f : Key .fiber) (ps : List (Program σ))
    (watcher : Key .tally → Nat → DoneWatcher σ) (decided : Contest → Sequel σ) :
    Spares s t w (w.contest f ps watcher decided).1 := by
  unfold contest
  split
  · exact .refl w
  · rename_i fiber _
    dsimp only
    have harena : Spares s t w (w.forkScope fiber.scope fiber.context.id).1 :=
      .of_eq (semaphores_register _ _ _)
    have hmembers := harena.trans (spares_forkAll f (w.forkScope fiber.scope fiber.context.id).2 ps []
      (w.forkScope fiber.scope fiber.context.id).1)
    split
    · rename_i w' d heq
      exact hmembers.of_fst heq
    · rename_i w' members heq
      exact (hmembers.of_fst heq).trans (.of_eq (semaphores_watchAll _ _ _))

theorem spares_enter {w : World σ} {f : Key .fiber} {m : Machine σ}
    {called : World σ × Except Defect (Program σ)} (h : Spares s t w called.1) :
    Spares s t w (enter f m called).1 := by
  obtain ⟨w', result⟩ := called
  cases result with
  | ok p => exact h
  | error d => exact h

theorem spares_enterFinalizer (w : World σ) (f : Key .fiber) (m : Machine σ) (fin : Finalizer σ)
    (e : AnyExit) : Spares s t w (w.enterFinalizer f m fin e).1 := by
  have hmask : Spares s t w (w.modifyFiber f fun fiber =>
      { fiber with masks := fiber.masks.push false }) := .of_eq rfl
  exact spares_enter (hmask.trans (spares_finalizeWith fin e _))

/-- Unwinding a stack engages no ticket. -/
theorem spares_unwind (f : Key .fiber) (exiting : Bool) (e : AnyExit) (stack : List (Waiting σ))
    (w : World σ) : Spares s t w (unwind f exiting e stack w).1 := by
  induction stack generalizing w with
  | nil => cases e <;> exact .refl w
  | cons x rest ih =>
      cases x with
      | map k =>
          cases e with
          | success v => exact spares_enter (spares_proceedWith k v w)
          | failure c => exact ih w
      | fold h k =>
          cases e with
          | success v => exact spares_enter (spares_proceedWith k v w)
          | failure c => exact spares_enter (spares_recoverWith h c w)
      | restore r =>
          have hrestore : Spares s t w (w.restore f r).1 := .of_eq (semaphores_restore w f r)
          rcases hr : w.restore f r with ⟨w', left⟩
          rw [hr] at hrestore
          cases left with
          | true => cases e <;> simp only [unwind, unwindValue, unwindFailure, hr] <;> exact hrestore
          | false =>
              cases e <;> simp only [unwind, unwindValue, unwindFailure, hr] <;>
                exact hrestore.trans (ih w')
      | release h =>
          have hcancel : Spares s t w (w.cancelFinalizer h).1 := .of_eq (semaphores_takeFinalizer w h)
          cases e <;> exact hcancel.trans (ih _)
      | finalizer ho fin =>
          have hclaim : Spares s t w (w.claimFinalizer ho).1 := .of_eq (semaphores_claimFinalizer w ho)
          rcases hc : w.claimFinalizer ho with ⟨w', won⟩
          rw [hc] at hclaim
          cases won with
          | true =>
              cases e <;> simp only [unwind, unwindValue, unwindFailure, hc] <;>
                exact hclaim.trans (spares_enterFinalizer w' f _ fin _)
          | false =>
              cases e <;> simp only [unwind, unwindValue, unwindFailure, hc] <;>
                exact hclaim.trans (ih w')
      | resumeWith saved => cases e <;> exact .refl w

/-- No instruction engages the ticket but the duty to acquire it. -/
theorem spares_instruct {p : Program σ} (hp : p ≠ .duty (.take s t)) (w : World σ) (f : Key .fiber)
    (fiber : Fiber σ) (m : Machine σ) : Spares s t w (w.instruct f fiber m p).1 := by
  cases p with
  | succeed v => exact .refl w
  | failCause c => exact .refl w
  | lazy thunk =>
      have hrun : Spares s t w (w.run thunk).1 := spares_run thunk w
      simp only [instruct]
      split
      · rename_i w' e heq
        exact hrun.of_fst heq
      · rename_i w' d heq
        exact spares_enter (hrun.of_fst heq)
  | «defer» make => exact spares_enter (spares_run make w)
  | flatMap p k => exact .refl w
  | fold p h k => exact .refl w
  | access g => exact spares_enter (spares_run _ w)
  | provide p services => exact .of_eq rfl
  | async register =>
      have hfuture : Spares s t w w.newFuture.1 := .of_eq rfl
      have hrun := hfuture.trans (spares_run (register w.newFuture.2) w.newFuture.1)
      simp only [instruct]
      split
      · rename_i w' q heq
        exact hrun.of_fst heq
      · rename_i w' heq
        exact hrun.of_fst heq
      · rename_i w' canceler heq
        exact (hrun.of_fst heq).trans (.of_eq (semaphores_register w' _ _))
      · rename_i w' d heq
        exact spares_enter (hrun.of_fst heq)
  | ensuring p fin => exact .of_eq (semaphores_register w _ _)
  | fork p params =>
      have hfork : Spares s t w (w.forkChild f p params).1 := spares_forkChild w f p params
      simp only [instruct]
      split
      · rename_i w' child heq
        exact hfork.of_fst heq
      · rename_i w' d heq
        exact spares_enter (hfork.of_fst heq)
  | fiberContext => exact .refl w
  | fiberScope => exact .refl w
  | fiberTrace => exact .refl w
  | join child => exact .refl w
  | raceAll ps =>
      cases ps with
      | nil => exact .refl w
      | cons p rest => exact spares_enter (spares_contest w f _ _ _)
  | zipAll ps =>
      cases ps with
      | nil => exact .refl w
      | cons p rest => exact spares_enter (spares_contest w f _ _ _)
  | mask p interruptible =>
      cases interruptible with
      | true => exact .of_eq (semaphores_applyDeferred _ f)
      | false => exact .of_eq rfl
  | withConcurrency p level => exact (spares_newSemaphore w level).trans (.of_eq rfl)
  | addFrame p frame => exact .of_eq rfl
  | wait a => exact .refl w
  | yieldNow => exact .refl w
  | duty d =>
      refine spares_enter (spares_attend ?_ w)
      rintro rfl
      exact hp rfl

/-- No step engages the ticket but the one to acquire it. -/
theorem spares_step {w : World σ} {f : Key .fiber} {fiber : Fiber σ} {m : Machine σ}
    (h : m.control = .instruct (.duty (.take s t)) → fiber.context.limits.maxOps ≤ fiber.ops) :
    Spares s t w (w.step f fiber m).1 := by
  have hcount : Spares s t w (w.count f) := .of_eq rfl
  obtain ⟨control, stack, exiting⟩ := m
  cases control with
  | start p => exact .refl w
  | leave e => exact .of_eq rfl
  | value v =>
      simp only [step]
      split
      · exact .of_eq rfl
      · exact hcount.trans (spares_unwind f exiting (.success v) stack _)
  | failure c =>
      simp only [step]
      split
      · exact .of_eq rfl
      · exact hcount.trans (spares_unwind f exiting (.failure c) stack _)
  | instruct p =>
      simp only [step]
      split
      · exact .of_eq rfl
      · rename_i hbudget
        refine hcount.trans (spares_instruct ?_ _ f fiber _)
        rintro rfl
        exact hbudget (h rfl)

theorem semaphores_awaken (w : World σ) (f : Key .fiber) (token : Nat) (r : Resume σ) :
    (w.awaken f token r).world.semaphores = w.semaphores := by
  rcases awaken_cases w f token r with heq | ⟨y, m, c, -, -, -, -, heq⟩ <;> rw [heq]

theorem spares_runFiber (w : World σ) (p : Program σ) : Spares s t w (w.runFiber p).1 := by
  have hbefore : Spares s t w ((w.nextId.1.newRefs .empty).1.newScope w.nextId.2
      w.limits.finalization).1 := .of_eq rfl
  have hafter : ∀ (w' : World σ) roots g,
      (({ w' with roots }.watchFiber g .root).1.startFiber g).semaphores = w'.semaphores :=
    fun w' roots g => (semaphores_startFiber _ g).trans (semaphores_watchFiber _ g _)
  exact (hbefore.trans (spares_newFiber _ _ _ p _ [])).trans (.of_eq (hafter _ _ _))

end World

/-! ## Runs -/

variable {σ : Type} {s : Key .semaphore} {t : Nat}

/-- A fiber works on the acquisition of the ticket. -/
def Moment.Takes (s : Key .semaphore) (t : Nat) (x : Moment σ) : Prop :=
  ∃ f y m, x.Works f y m ∧ m.control = .instruct (.duty (.take s t))

/-- No move engages the ticket but the work on its acquisition. -/
theorem Move.spares {x x' : Moment σ} (h : Move x x') (hx : ¬ x.Takes s t) :
    World.Spares s t x.world x'.world := by
  cases h with
  | @advance w f m =>
      unfold World.advance
      cases hget : w.fibers.get? f with
      | none => exact .refl w
      | some y =>
          have hstep : World.Spares s t w (w.step f y (m.heed y)).1 := by
            refine World.spares_step fun hcontrol => ?_
            by_contra hbudget
            unfold Machine.heed at hcontrol
            split at hcontrol
            · cases hcontrol
            · rename_i hstay
              refine hx ⟨f, y, m, ⟨rfl, hget, ?_, Nat.not_le.mp hbudget, Or.inl ⟨_, hcontrol⟩⟩, hcontrol⟩
              simpa [Classical.or_iff_not_imp_left] using hstay
          exact hstep.trans (.of_eq (World.semaphores_conclude f _))
  | @task w timer timers _ _ =>
      have hbefore : World.Spares s t w { w with timers } := .of_eq rfl
      refine hbefore.trans ?_
      cases timer.task with
      | resume f token r => exact .of_eq (World.semaphores_awaken _ f token r)
      | ring f => exact .of_eq (World.semaphores_settle _ f _)
      | run act => exact World.spares_run act _
  | pass => exact .of_eq rfl
  | @errand w e others _ _ => exact .of_eq (World.semaphores_settle _ _ _)
  | @root w p _ => exact World.spares_runFiber w p
  | @act w e a _ => exact World.spares_run a w

/-- The work on its acquisition engages the ticket once more at most. -/
theorem Move.engages_takes {x x' : Moment σ} {n : Nat} (h : Move x x') (hx : x.Takes s t)
    (hn : x.world.Engages s t n) : x'.world.Engages s t (n + 1) := by
  obtain ⟨f, y, m, hworks, hcontrol⟩ := hx
  obtain ⟨w, active⟩ := x
  obtain rfl : active = some (f, m) := hworks.turn
  have hcount : World.Spares s t w (w.count f) := .of_eq rfl
  have hafter := (hcount.engages hn).take
  cases h with
  | advance =>
      rw [World.advance_instruct hworks hcontrol]
      simp only [World.instruct]
      rcases hattend : (w.count f).attend (.take s t) with ⟨w', result⟩
      rw [hattend] at hafter
      cases result with
      | ok p => exact hafter
      | error d => exact hafter

variable {r : Run σ} {i j : Nat}

/-- In a stretch of a run without its acquisition the ticket is engaged no more than at the start. -/
theorem Run.engages_of_idle {n : Nat} (hij : i ≤ j)
    (hidle : ∀ l, i ≤ l → l < j → ¬ (r.moment l).Takes s t)
    (hn : (r.moment i).world.Engages s t n) : (r.moment j).world.Engages s t n := by
  induction hij with
  | refl => exact hn
  | @step j hij ih =>
      have hbefore := ih fun l hil hlj => hidle l hil (Nat.lt_succ_of_lt hlj)
      exact ((r.move j).spares (hidle j hij (Nat.lt_succ_self j))).engages hbefore

/-- A ticket that is acquired at one moment at most is engaged once at most. -/
theorem Run.engages_of_once {k : Nat} (hij : i ≤ j)
    (honce : ∀ l, i ≤ l → l < j → (r.moment l).Takes s t → l = k)
    (hfree : (r.moment i).world.Engages s t 0) : (r.moment j).world.Engages s t 1 := by
  have hmono : ∀ {w : World σ}, w.Engages s t 0 → w.Engages s t 1 := by
    rintro w ⟨a, ha, hissued, hengaged⟩
    exact ⟨a, ha, hissued, Nat.le_succ_of_le hengaged⟩
  by_cases htakes : i ≤ k ∧ k < j ∧ (r.moment k).Takes s t
  · obtain ⟨hik, hkj, htakes⟩ := htakes
    have hbefore := Run.engages_of_idle hik (fun l hil hlk hl =>
      Nat.ne_of_lt hlk (honce l hil (Nat.lt_trans hlk hkj) hl)) hfree
    exact Run.engages_of_idle hkj (fun l hkl hlj hl =>
      Nat.ne_of_gt hkl (honce l (Nat.le_trans hik (Nat.le_of_lt hkl)) hlj hl))
      ((r.move k).engages_takes htakes hbefore)
  · refine hmono (Run.engages_of_idle hij (fun l hil hlj hl => htakes ?_) hfree)
    obtain rfl := honce l hil hlj hl
    exact ⟨hil, hlj, hl⟩

end Fibers
