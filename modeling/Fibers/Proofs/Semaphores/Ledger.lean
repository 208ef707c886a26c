import Mathlib.Tactic.Common
import Mathlib.Data.List.Perm.Basic
import Mathlib.Data.List.Range
import Mathlib.Data.List.Nodup
import Fibers.Semaphore

set_option autoImplicit false

/-! # The ledger of a semaphore

Whoever wants a permit is issued a ticket and later runs the acquisition of that ticket, once;
meanwhile others do the same, try for a permit without waiting, or relinquish tickets, their own or
not, any number of times. A `Ledger` keeps what came of all this, for requests in any order.

At every moment each ticket that was issued is in exactly one stage: its acquisition is still to be
run, it is in the queue, it holds a permit, it has left the queue, or it has returned its permit.
What is known about permits and the queue follows from this and from the order of the queue.
-/

namespace Fibers.Semaphore

variable {γ : Type}

/-- The tickets in the queue, oldest first. -/
def queue (s : Semaphore γ) : List Nat := s.waiters.map (·.1)

/-- What a semaphore is asked for. An acquisition comes with the grant to use if the ticket has to
queue. -/
inductive Request (γ : Type) where
  | ticket
  | acquire (ticket : Nat) (grant : γ)
  | tryAcquire
  | relinquish (ticket : Nat)

/-- A semaphore, the tickets whose acquisition is still to be run, and what happened so far: which
tickets were put in the queue, which gave up there, which returned a permit, and which grants the
permits were handed to. -/
structure Ledger (γ : Type) where
  semaphore : Semaphore γ
  due : List Nat := []
  queued : List (Nat × γ) := []
  withdrawn : List Nat := []
  returned : List Nat := []
  granted : List γ := []

namespace Ledger

/-- Runs the acquisition of a ticket. -/
def acquire (L : Ledger γ) (ticket : Nat) (grant : γ) : Ledger γ :=
  match L.semaphore.take? ticket with
  | some s => { L with semaphore := s, due := L.due.erase ticket }
  | none =>
      { L with
        semaphore := L.semaphore.enqueue ticket grant
        due := L.due.erase ticket
        queued := L.queued ++ [(ticket, grant)] }

/-- Gives up what a ticket has. -/
def relinquish (L : Ledger γ) (ticket : Nat) : Ledger γ :=
  let (s, grant) := L.semaphore.relinquish ticket
  { L with
    semaphore := s
    withdrawn := if ticket ∈ L.semaphore.queue then L.withdrawn ++ [ticket] else L.withdrawn
    returned :=
      if ticket ∉ L.semaphore.queue ∧ ticket ∈ L.semaphore.holders then L.returned ++ [ticket]
      else L.returned
    granted := L.granted ++ grant.toList }

/-- Does what a semaphore is asked for. The acquisition of a ticket is run once, by the one that
the ticket was issued to. -/
def perform (L : Ledger γ) : Request γ → Ledger γ
  | .ticket =>
      let (s, ticket) := L.semaphore.ticket
      { L with semaphore := s, due := L.due ++ [ticket] }
  | .acquire ticket grant => if ticket ∈ L.due then L.acquire ticket grant else L
  | .tryAcquire =>
      match L.semaphore.tryTake? with
      | some (s, _) => { L with semaphore := s }
      | none => L
  | .relinquish ticket => L.relinquish ticket

/-- The ledger of a new semaphore after a row of requests. -/
def after (permits : Nat) (requests : List (Request γ)) : Ledger γ :=
  requests.foldl perform { semaphore := withPermits permits }

/-- The tickets by their stages: to be acquired, in the queue, holding, withdrawn and returned. -/
def stages (L : Ledger γ) : List Nat :=
  L.due ++ L.semaphore.queue ++ L.semaphore.holders ++ L.withdrawn ++ L.returned

/-- The tickets that were put in the queue and did not give up there, with their grants. -/
def patient (L : Ledger γ) : List (Nat × γ) := L.queued.filter (·.1 ∉ L.withdrawn)

/-- What holds of a ledger at every moment. The permits went to those in the queue that did not
give up, in order, and the others of them are in the queue still. -/
structure Sound (permits : Nat) (L : Ledger γ) : Prop where
  balance : L.semaphore.available + L.semaphore.holders.length = permits
  full : L.semaphore.waiters ≠ [] → L.semaphore.available = 0
  stages : L.stages.Perm (List.range L.semaphore.nextTicket)
  order : ∃ handed, L.patient = handed ++ L.semaphore.waiters ∧
    L.granted = handed.map (·.2) ∧
    ∀ q ∈ handed, q.1 ∈ L.semaphore.holders ∨ q.1 ∈ L.returned

/-! ## Every request keeps the ledger sound -/

variable {permits : Nat} {L : Ledger γ}

namespace Sound

theorem nodup (h : L.Sound permits) : L.stages.Nodup := h.stages.nodup_iff.mpr List.nodup_range

/-- No ticket is in two stages, or twice in one. -/
theorem count_le (h : L.Sound permits) (t : Nat) :
    L.due.count t + L.semaphore.queue.count t + L.semaphore.holders.count t +
      L.withdrawn.count t + L.returned.count t ≤ 1 := by
  have hcount := List.nodup_iff_count_le_one.mp h.nodup t
  simpa only [Ledger.stages, List.count_append] using hcount

end Sound

theorem sound_new (permits : Nat) :
    ({ semaphore := withPermits permits } : Ledger γ).Sound permits :=
  ⟨rfl, fun h => absurd rfl h, List.Perm.refl _, [], rfl, rfl, fun _ h => by cases h⟩

theorem Sound.ticket (h : L.Sound permits) : (L.perform .ticket).Sound permits where
  balance := h.balance
  full := h.full
  stages := by
    have hnew : (L.perform .ticket).stages.Perm (L.stages ++ [L.semaphore.nextTicket]) := by
      refine List.perm_iff_count.mpr fun a => ?_
      simp only [Ledger.stages, perform, Semaphore.ticket, queue, List.count_append]
      omega
    refine hnew.trans ((h.stages.append_right _).trans ?_)
    exact List.Perm.of_eq List.range_succ.symm
  order := h.order

/-- A free permit is given to a ticket only if nobody is in the queue. -/
theorem isFree_iff (s : Semaphore γ) : s.isFree = true ↔ s.waiters = [] ∧ 0 < s.available := by
  simp only [isFree, Bool.and_eq_true, List.isEmpty_iff, decide_eq_true_eq]

theorem isHeld_iff {s : Semaphore γ} {t : Nat} : s.isHeld t = true ↔ t ∈ s.holders :=
  List.contains_iff_mem

theorem isQueued_iff {s : Semaphore γ} {t : Nat} :
    s.waiters.any (·.1 == t) = true ↔ t ∈ s.queue := by
  simp only [List.any_eq_true, beq_iff_eq, queue, List.mem_map]

/-- A ticket that has nothing takes a permit only if nobody is in the queue. -/
theorem take?_of_not_mem {s : Semaphore γ} {t : Nat} (ht : t ∉ s.holders) :
    s.take? t = if s.isFree then some (s.give t) else none := by
  rw [take?, if_neg (mt isHeld_iff.mp ht)]

/-- A permit that is given leaves the queue, which is empty, as it is. -/
theorem Sound.order_give (h : L.Sound permits) (t : Nat) :
    ∃ handed, L.patient = handed ++ L.semaphore.waiters ∧ L.granted = handed.map (·.2) ∧
      ∀ q ∈ handed, q.1 ∈ t :: L.semaphore.holders ∨ q.1 ∈ L.returned := by
  obtain ⟨handed, hpatient, hgranted, hhanded⟩ := h.order
  exact ⟨handed, hpatient, hgranted, fun q hq => (hhanded q hq).imp_left (List.mem_cons_of_mem _)⟩

theorem Sound.tryAcquire (h : L.Sound permits) : (L.perform .tryAcquire).Sound permits := by
  simp only [perform, tryTake?]
  by_cases hfree : L.semaphore.isFree = true
  · obtain ⟨hempty, -⟩ := (isFree_iff _).mp hfree
    rw [if_pos hfree]
    refine ⟨(balance_give _ _ hfree).trans h.balance, fun hne => absurd hempty hne, ?_,
      h.order_give _⟩
    have hnew : (L.due ++ L.semaphore.queue ++ (L.semaphore.nextTicket :: L.semaphore.holders) ++
        L.withdrawn ++ L.returned).Perm (L.stages ++ [L.semaphore.nextTicket]) := by
      refine List.perm_iff_count.mpr fun a => ?_
      simp only [Ledger.stages, List.count_append, List.count_cons, List.count_nil]
      omega
    refine hnew.trans ((h.stages.append_right _).trans ?_)
    exact List.Perm.of_eq List.range_succ.symm
  · rw [if_neg hfree]
    exact h

/-- Running an acquisition moves its ticket from those to be acquired to the holders or to the end
of the queue. -/
theorem Sound.acquire (h : L.Sound permits) {t : Nat} (ht : t ∈ L.due) (grant : γ) :
    (L.acquire t grant).Sound permits := by
  have hdue : 0 < L.due.count t := List.count_pos_iff.mpr ht
  have hcount := h.count_le t
  have hheld : t ∉ L.semaphore.holders := List.count_eq_zero.mp (by omega)
  have hstays : t ∉ L.withdrawn := List.count_eq_zero.mp (by omega)
  have herase : ∀ a, (L.due.erase t).count a + [t].count a = L.due.count a := by
    intro a
    have hperm := (List.perm_cons_erase ht).count_eq a
    rw [hperm, List.count_cons, List.count_cons, List.count_nil]
    omega
  unfold Ledger.acquire
  rw [take?_of_not_mem hheld]
  by_cases hfree : L.semaphore.isFree = true
  · obtain ⟨hempty, -⟩ := (isFree_iff _).mp hfree
    rw [if_pos hfree]
    refine ⟨(balance_give _ _ hfree).trans h.balance, fun hne => absurd hempty hne, ?_,
      h.order_give _⟩
    refine List.Perm.trans (List.perm_iff_count.mpr fun a => ?_) h.stages
    have := herase a
    simp only [Ledger.stages, give, queue, List.count_append, List.count_cons, List.count_nil] at *
    omega
  · rw [if_neg hfree]
    refine ⟨h.balance, fun _ => ?_, ?_, ?_⟩
    · -- a free permit would have been taken, unless somebody was in the queue already
      by_cases hempty : L.semaphore.waiters = []
      · exact Nat.eq_zero_of_not_pos fun hpos => hfree ((isFree_iff _).mpr ⟨hempty, hpos⟩)
      · exact h.full hempty
    · refine List.Perm.trans (List.perm_iff_count.mpr fun a => ?_) h.stages
      have := herase a
      simp only [Ledger.stages, enqueue, queue, List.map_append, List.map_cons, List.map_nil,
        List.count_append, List.count_cons, List.count_nil] at *
      omega
    · obtain ⟨handed, hpatient, hgranted, hhanded⟩ := h.order
      refine ⟨handed, ?_, hgranted, hhanded⟩
      have hone : [(t, grant)].filter (·.1 ∉ L.withdrawn) = [(t, grant)] := by
        simp only [List.filter_cons, hstays, not_false_eq_true, decide_true, if_true,
          List.filter_nil]
      calc (L.queued ++ [(t, grant)]).filter (·.1 ∉ L.withdrawn)
          = L.patient ++ [(t, grant)] := by rw [List.filter_append, hone]; rfl
        _ = handed ++ (L.semaphore.waiters ++ [(t, grant)]) := by
            rw [hpatient, List.append_assoc]

/-! ## Relinquishing -/

/-- A ticket in the queue gives up its place. -/
theorem relinquish_of_queued {t : Nat} (ht : t ∈ L.semaphore.queue) : L.relinquish t =
    { L with
      semaphore := { L.semaphore with waiters := L.semaphore.waiters.filter (·.1 != t) }
      withdrawn := L.withdrawn ++ [t] } := by
  have hrelinquish : L.semaphore.relinquish t =
      ({ L.semaphore with waiters := L.semaphore.waiters.filter (·.1 != t) }, none) := by
    rw [Semaphore.relinquish, if_pos (isQueued_iff.mpr ht)]
  simp only [relinquish, hrelinquish, ht, not_true, false_and, if_true, if_false,
    Option.toList_none, List.append_nil]

/-- A holder returns its permit, and the oldest ticket in the queue gets it, if there is one. -/
theorem relinquish_of_held {t : Nat} (hq : t ∉ L.semaphore.queue) (ht : t ∈ L.semaphore.holders) :
    L.relinquish t =
      { L with
        semaphore := (handOff { L.semaphore with holders := L.semaphore.holders.erase t }).1
        returned := L.returned ++ [t]
        granted := L.granted ++
          (handOff { L.semaphore with holders := L.semaphore.holders.erase t }).2.toList } := by
  have hrelinquish : L.semaphore.relinquish t =
      handOff { L.semaphore with holders := L.semaphore.holders.erase t } := by
    rw [Semaphore.relinquish, if_neg (mt isQueued_iff.mp hq), if_pos (isHeld_iff.mpr ht)]
  simp only [relinquish, hrelinquish, hq, ht, not_false_eq_true, and_self, if_true, if_false]

/-- A ticket that has nothing is relinquished in vain. -/
theorem relinquish_of_idle {t : Nat} (hq : t ∉ L.semaphore.queue) (ht : t ∉ L.semaphore.holders) :
    L.relinquish t = L := by
  have hrelinquish : L.semaphore.relinquish t = (L.semaphore, none) := by
    rw [Semaphore.relinquish, if_neg (mt isQueued_iff.mp hq), if_neg (mt isHeld_iff.mp ht)]
  simp only [relinquish, hrelinquish, hq, ht, and_false, if_false, Option.toList_none,
    List.append_nil]

theorem queue_filter {s : Semaphore γ} (hnodup : s.queue.Nodup) (t : Nat) :
    (s.waiters.filter (·.1 != t)).map (·.1) = s.queue.erase t := by
  rw [hnodup.erase_eq_filter, queue, List.filter_map]
  rfl

/-- One who gives up is left out of those that were patient. -/
theorem patient_withdraw (L : Ledger γ) (t : Nat) :
    L.queued.filter (·.1 ∉ L.withdrawn ++ [t]) = L.patient.filter (·.1 != t) := by
  rw [patient, List.filter_filter]
  refine List.filter_congr fun q _ => ?_
  by_cases heq : q.1 = t
  · simp [heq]
  · simp [heq]

theorem Sound.withdraw (h : L.Sound permits) {t : Nat} (ht : t ∈ L.semaphore.queue) :
    (L.relinquish t).Sound permits := by
  have hcount := h.count_le t
  have hpos : 0 < L.semaphore.queue.count t := List.count_pos_iff.mpr ht
  have hheld : t ∉ L.semaphore.holders := List.count_eq_zero.mp (by omega)
  have hreturned : t ∉ L.returned := List.count_eq_zero.mp (by omega)
  have hnodup : L.semaphore.queue.Nodup := by
    refine List.nodup_iff_count_le_one.mpr fun a => ?_
    have := h.count_le a
    omega
  rw [relinquish_of_queued ht]
  refine ⟨h.balance, fun hne => h.full fun hempty => hne ?_, ?_, ?_⟩
  · simp only [hempty, List.filter_nil]
  · refine List.Perm.trans (List.perm_iff_count.mpr fun a => ?_) h.stages
    have herase := (List.perm_cons_erase ht).count_eq a
    simp only [Ledger.stages, queue, queue_filter hnodup, List.count_append, List.count_cons,
      List.count_nil] at *
    omega
  · obtain ⟨handed, hpatient, hgranted, hhanded⟩ := h.order
    refine ⟨handed, ?_, hgranted, hhanded⟩
    have hkeep : handed.filter (·.1 != t) = handed := by
      refine List.filter_eq_self.mpr fun q hq => bne_iff_ne.mpr ?_
      rintro rfl
      exact (hhanded q hq).elim hheld hreturned
    calc L.queued.filter (·.1 ∉ L.withdrawn ++ [t])
        = L.patient.filter (·.1 != t) := patient_withdraw L t
      _ = handed ++ L.semaphore.waiters.filter (·.1 != t) := by
          rw [hpatient, List.filter_append, hkeep]

/-- A permit that is returned goes to the oldest ticket in the queue, or is put aside. -/
theorem Sound.giveBack (h : L.Sound permits) {t : Nat} (hq : t ∉ L.semaphore.queue)
    (ht : t ∈ L.semaphore.holders) : (L.relinquish t).Sound permits := by
  have hpos : 0 < L.semaphore.holders.length := List.length_pos_of_mem ht
  have hlength := List.length_erase_of_mem ht
  have hbalance := h.balance
  have herase : ∀ a, L.semaphore.holders.count a = (t :: L.semaphore.holders.erase t).count a :=
    (List.perm_cons_erase ht).count_eq
  obtain ⟨handed, hpatient, hgranted, hhanded⟩ := h.order
  have hhanded' : ∀ q ∈ handed, q.1 ∈ L.semaphore.holders.erase t ∨ q.1 ∈ L.returned ++ [t] := by
    intro q hmem
    by_cases heq : q.1 = t
    · exact Or.inr (heq ▸ List.mem_append_right _ List.mem_cons_self)
    · exact (hhanded q hmem).imp (List.mem_erase_of_ne heq).mpr (List.mem_append_left _)
  rw [relinquish_of_held hq ht]
  cases hwaiters : L.semaphore.waiters with
  | nil =>
      simp only [handOff, hwaiters]
      refine ⟨?_, fun hne => absurd rfl hne, ?_, handed, ?_, ?_, hhanded'⟩
      · dsimp only
        omega
      · refine List.Perm.trans (List.perm_iff_count.mpr fun a => ?_) h.stages
        have := herase a
        simp only [Ledger.stages, queue, hwaiters, List.count_append, List.count_cons, List.count_nil] at *
        omega
      · exact hpatient.trans (by rw [hwaiters])
      · rw [Option.toList_none, List.append_nil, hgranted]
  | cons next rest =>
      obtain ⟨t', grant⟩ := next
      simp only [handOff, hwaiters]
      have hempty : L.semaphore.available = 0 := h.full (by rw [hwaiters]; exact List.cons_ne_nil _ _)
      refine ⟨?_, fun _ => hempty, ?_, handed ++ [(t', grant)], ?_, ?_, ?_⟩
      · dsimp only
        rw [List.length_cons]
        omega
      · refine List.Perm.trans (List.perm_iff_count.mpr fun a => ?_) h.stages
        have := herase a
        simp only [Ledger.stages, queue, hwaiters, List.map_cons, List.count_append,
          List.count_cons, List.count_nil] at *
        omega
      · calc L.patient = handed ++ (t', grant) :: rest := by rw [hpatient, hwaiters]
          _ = (handed ++ [(t', grant)]) ++ rest := by simp only [List.append_assoc,
              List.singleton_append]
      · rw [hgranted, List.map_append]
        rfl
      · intro q hmem
        rcases List.mem_append.mp hmem with hmem | hmem
        · exact (hhanded' q hmem).imp_left (List.mem_cons_of_mem _)
        · obtain rfl := List.mem_singleton.mp hmem
          exact Or.inl List.mem_cons_self

theorem Sound.relinquish (h : L.Sound permits) (t : Nat) : (L.relinquish t).Sound permits := by
  by_cases hq : t ∈ L.semaphore.queue
  · exact h.withdraw hq
  · by_cases ht : t ∈ L.semaphore.holders
    · exact h.giveBack hq ht
    · rw [relinquish_of_idle hq ht]
      exact h

/-! ## Rows of requests -/

theorem Sound.perform (h : L.Sound permits) (q : Request γ) : (L.perform q).Sound permits := by
  cases q with
  | ticket => exact h.ticket
  | acquire t grant =>
      by_cases hdue : t ∈ L.due
      · rw [Ledger.perform, if_pos hdue]
        exact h.acquire hdue grant
      · rw [Ledger.perform, if_neg hdue]
        exact h
  | tryAcquire => exact h.tryAcquire
  | relinquish t => exact h.relinquish t

theorem sound_after (permits : Nat) (requests : List (Request γ)) :
    (after permits requests).Sound permits := by
  induction requests using List.reverseRecOn with
  | nil => exact sound_new permits
  | append_singleton requests q ih =>
      rw [after, List.foldl_append]
      exact ih.perform q

end Ledger

end Fibers.Semaphore
