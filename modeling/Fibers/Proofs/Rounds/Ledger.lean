import Mathlib.Data.List.Nodup
import Mathlib.Data.List.Perm.Subperm
import Mathlib.Logic.Function.Basic
import Mathlib.Order.Fin.Basic

set_option autoImplicit false

/-! # The book of the permits

The members of a bounded zip draw a ticket each, get a permit or queue for one, sleep, and give the permit
back. `Book` is what the semaphore knows of them, and `Ledger` says that it agrees with how far each has come:
tickets are drawn, permits asked for and permits given in the order of the members, and while somebody queues
no permit is free.
-/

namespace Fibers.Rounds

/-- How far a member has come. -/
inductive Stage where
  | fresh
  | drawn
  | queued
  | held
  | asleep
  | risen
  | freed
  | gone
  deriving DecidableEq

namespace Stage

/-- Whether the member has asked for a permit. -/
def isAsked : Stage → Bool
  | .fresh => false
  | .drawn => false
  | _ => true

/-- Whether the member has got a permit. -/
def isBegun : Stage → Bool
  | .fresh => false
  | .drawn => false
  | .queued => false
  | _ => true

/-- Whether the member has a permit. -/
def isHolding : Stage → Bool
  | .held => true
  | .asleep => true
  | .risen => true
  | _ => false

theorem isBegun_of_isHolding {a : Stage} (h : a.isHolding = true) : a.isBegun = true := by
  cases a <;> first | rfl | cases h

theorem eq_queued {a : Stage} (hasked : a.isAsked = true) (hbegun : ¬ a.isBegun = true) : a = .queued := by
  cases a <;> first | rfl | exact absurd rfl hbegun | cases hasked

end Stage

/-- What the semaphore knows of `n` members: how many have drawn a ticket, who queues, oldest first, who
has a permit, and how many permits are free. -/
structure Book (n : Nat) where
  drawn : Nat
  line : List (Fin n)
  holders : List (Fin n)
  available : Nat

/-- The book of a semaphore with `level` permits agrees with how far the members have come. -/
structure Ledger {n : Nat} (level : Nat) (stage : Fin n → Stage) (b : Book n) : Prop where
  drawn : ∀ i, stage i ≠ .fresh ↔ i.val < b.drawn
  asked : ∀ i j, i < j → (stage j).isAsked = true → (stage i).isAsked = true
  begun : ∀ i j, i < j → (stage j).isBegun = true → (stage i).isBegun = true
  line : ∀ i, i ∈ b.line ↔ stage i = .queued
  sorted : b.line.Pairwise (· < ·)
  holders : ∀ i, i ∈ b.holders ↔ (stage i).isHolding = true
  nodup : b.holders.Nodup
  balance : b.available + b.holders.length = level
  idle : b.line ≠ [] → b.available = 0

namespace Ledger

variable {n level : Nat} {stage : Fin n → Stage} {b : Book n} {i j : Fin n}

/-- Before anybody has come. -/
theorem start (n level : Nat) : Ledger level (fun _ : Fin n => .fresh) ⟨0, [], [], level⟩ where
  drawn := fun i => by simp
  asked := fun _ _ _ h => by cases h
  begun := fun _ _ _ h => by cases h
  line := fun i => by simp
  sorted := .nil
  holders := fun i => by simp [Stage.isHolding]
  nodup := List.nodup_nil
  balance := rfl
  idle := fun h => absurd rfl h

/-- A change of one member that does not matter for `f`. -/
theorem apply_update {α : Type} (f : Stage → α) {a : Stage} (h : f a = f (stage j)) (i : Fin n) :
    f (Function.update stage j a i) = f (stage i) := by
  rw [Function.update_apply]
  split
  · rename_i hij
    rw [hij, h]
  · rfl

theorem length_le (h : Ledger level stage b) : b.holders.length ≤ level := by
  have := h.balance
  omega

/-- The first in the queue is the first that has not begun. -/
theorem begun_of_lt_head (h : Ledger level stage b) {rest : List (Fin n)} (hline : b.line = j :: rest)
    (hij : i < j) : (stage i).isBegun = true := by
  have hj : stage j = .queued := (h.line j).mp (by rw [hline]; exact List.mem_cons_self)
  have hasked : (stage i).isAsked = true := h.asked i j hij (by rw [hj]; rfl)
  by_contra hnot
  have hqueued : stage i = .queued := Stage.eq_queued hasked hnot
  have hmem : i ∈ j :: rest := hline ▸ (h.line i).mpr hqueued
  have hsorted := h.sorted
  rw [hline, List.pairwise_cons] at hsorted
  rcases List.mem_cons.mp hmem with rfl | hrest
  · exact absurd hij (lt_irrefl i)
  · exact absurd hij (not_lt.mpr (le_of_lt (hsorted.1 i hrest)))

/-! ## What members do -/

/-- A member that neither asks for a permit nor gets one nor gives one back changes nothing. -/
theorem progress (h : Ledger level stage b) {a : Stage} (hdrawn : stage j ≠ .fresh) (hdrawn' : a ≠ .fresh)
    (hasked : a.isAsked = (stage j).isAsked) (hbegun : a.isBegun = (stage j).isBegun)
    (hholding : a.isHolding = (stage j).isHolding) (hqueued : a ≠ .queued) (hqueued' : stage j ≠ .queued) :
    Ledger level (Function.update stage j a) b := by
  refine ⟨fun i => ?_, fun i l hil => ?_, fun i l hil => ?_, fun i => ?_, h.sorted, fun i => ?_, h.nodup,
    h.balance, h.idle⟩
  · rw [← h.drawn i, ne_eq, ne_eq, not_iff_not, Function.update_apply]
    split
    · rename_i heq
      subst heq
      exact iff_of_false hdrawn' hdrawn
    · rfl
  · rw [apply_update _ hasked, apply_update _ hasked]
    exact h.asked i l hil
  · rw [apply_update _ hbegun, apply_update _ hbegun]
    exact h.begun i l hil
  · rw [h.line i, Function.update_apply]
    split
    · rename_i heq
      subst heq
      exact iff_of_false hqueued' hqueued
    · rfl
  · rw [h.holders i, apply_update _ hholding]

/-- A member draws a ticket; it is the one whose turn it is. -/
theorem draw (h : Ledger level stage b) (hj : stage j = .fresh) (hbefore : ∀ i, i < j → stage i ≠ .fresh) :
    b.drawn = j.val ∧ Ledger level (Function.update stage j .drawn) { b with drawn := b.drawn + 1 } := by
  have hle : b.drawn ≤ j.val := by
    by_contra hlt
    exact (h.drawn j).mpr (not_le.mp hlt) hj
  have hge : j.val ≤ b.drawn := by
    by_contra hlt
    have hb : b.drawn < n := lt_trans (not_le.mp hlt) j.isLt
    have := (h.drawn ⟨b.drawn, hb⟩).mp (hbefore ⟨b.drawn, hb⟩ (not_le.mp hlt))
    exact absurd this (lt_irrefl _)
  have heq : b.drawn = j.val := le_antisymm hle hge
  refine ⟨heq, fun i => ?_, fun i l hil => ?_, fun i l hil => ?_, fun i => ?_, h.sorted, fun i => ?_, h.nodup,
    h.balance, h.idle⟩
  · rw [Function.update_apply]
    split
    · rename_i hij
      subst hij
      exact iff_of_true (by simp) (by simp [heq])
    · rename_i hij
      rw [h.drawn i]
      have : i.val ≠ j.val := fun hv => hij (Fin.ext hv)
      dsimp only
      omega
  · rw [apply_update Stage.isAsked (by rw [hj]; rfl), apply_update Stage.isAsked (by rw [hj]; rfl)]
    exact h.asked i l hil
  · rw [apply_update Stage.isBegun (by rw [hj]; rfl), apply_update Stage.isBegun (by rw [hj]; rfl)]
    exact h.begun i l hil
  · rw [h.line i, apply_update (· = .queued) (by rw [hj]; simp)]
  · rw [h.holders i, apply_update Stage.isHolding (by rw [hj]; rfl)]

/-- A member comes to have what all before it have. -/
theorem closed_update {f : Stage → Bool} {a : Stage}
    (h : ∀ i l, i < l → f (stage l) = true → f (stage i) = true) (hbefore : ∀ i, i < j → f (stage i) = true)
    (ha : f a = true) (i l : Fin n) (hil : i < l) (hl : f (Function.update stage j a l) = true) :
    f (Function.update stage j a i) = true := by
  rw [Function.update_apply] at hl ⊢
  split
  · exact ha
  · split at hl
    · rename_i hlj
      exact hbefore i (hlj ▸ hil)
    · exact h i l hil hl

/-- A member gets a free permit. -/
theorem take (h : Ledger level stage b) (hj : stage j = .drawn) (hbefore : ∀ i, i < j → (stage i).isAsked = true)
    (hline : b.line = []) (hfree : 0 < b.available) :
    Ledger level (Function.update stage j .held)
      { b with
        holders := j :: b.holders
        available := b.available - 1 } := by
  have hbegun : ∀ i, i < j → (stage i).isBegun = true := fun i hi => by
    by_contra hnot
    have hmem := (h.line i).mpr (Stage.eq_queued (hbefore i hi) hnot)
    rw [hline] at hmem
    cases hmem
  have hnot : j ∉ b.holders := fun hmem => by
    have := (h.holders j).mp hmem
    rw [hj] at this
    cases this
  refine ⟨fun i => ?_, closed_update h.asked hbefore rfl, closed_update h.begun hbegun rfl, fun i => ?_, h.sorted,
    fun i => ?_, List.nodup_cons.mpr ⟨hnot, h.nodup⟩, ?_, fun hne => absurd hline hne⟩
  · rw [← h.drawn i, apply_update (· ≠ .fresh) (by rw [hj]; simp)]
  · rw [h.line i, apply_update (· = .queued) (by rw [hj]; simp)]
  · rw [List.mem_cons, h.holders i, Function.update_apply]
    split
    · rename_i hij
      exact iff_of_true (Or.inl hij) rfl
    · rename_i hij
      simp [hij]
  · have := h.balance
    simp only [List.length_cons]
    omega

/-- A member queues for a permit. -/
theorem enqueue (h : Ledger level stage b) (hj : stage j = .drawn)
    (hbefore : ∀ i, i < j → (stage i).isAsked = true) (hfull : ¬ (b.line = [] ∧ 0 < b.available)) :
    Ledger level (Function.update stage j .queued) { b with line := b.line ++ [j] } := by
  refine ⟨fun i => ?_, closed_update h.asked hbefore rfl, fun i l hil => ?_, fun i => ?_, ?_, fun i => ?_, h.nodup,
    h.balance, fun _ => ?_⟩
  · rw [← h.drawn i, apply_update (· ≠ .fresh) (by rw [hj]; simp)]
  · rw [apply_update Stage.isBegun (by rw [hj]; rfl), apply_update Stage.isBegun (by rw [hj]; rfl)]
    exact h.begun i l hil
  · rw [List.mem_append, h.line i, List.mem_singleton, Function.update_apply]
    split
    · rename_i hij
      exact iff_of_true (Or.inr hij) rfl
    · rename_i hij
      simp [hij]
  · refine List.pairwise_append.mpr ⟨h.sorted, List.pairwise_singleton _ _, fun i hi l hl => ?_⟩
    rw [List.mem_singleton.mp hl]
    have hqueued := (h.line i).mp hi
    rcases lt_trichotomy i j with hlt | rfl | hlt
    · exact hlt
    · rw [hj] at hqueued
      cases hqueued
    · have hasked := h.asked j i hlt (by rw [hqueued]; rfl)
      rw [hj] at hasked
      cases hasked
  · rw [h.holders i, apply_update Stage.isHolding (by rw [hj]; rfl)]
  · by_cases hline : b.line = []
    · by_contra hne
      exact hfull ⟨hline, Nat.pos_of_ne_zero hne⟩
    · exact h.idle hline

theorem mem_erase (h : Ledger level stage b) : i ∈ b.holders.erase j ↔ i ≠ j ∧ (stage i).isHolding = true := by
  rw [h.nodup.mem_erase_iff, h.holders i]

/-- A member gives its permit back, and nobody waits for it. -/
theorem putBack (h : Ledger level stage b) (hj : stage j = .risen) (hline : b.line = []) :
    Ledger level (Function.update stage j .freed)
      { b with
        holders := b.holders.erase j
        available := b.available + 1 } := by
  have hmem : j ∈ b.holders := (h.holders j).mpr (by rw [hj]; rfl)
  refine ⟨fun i => ?_, fun i l hil => ?_, fun i l hil => ?_, fun i => ?_, h.sorted, fun i => ?_,
    h.nodup.erase j, ?_, fun hne => absurd hline hne⟩
  · rw [← h.drawn i, apply_update (· ≠ .fresh) (by rw [hj]; simp)]
  · rw [apply_update Stage.isAsked (by rw [hj]; rfl), apply_update Stage.isAsked (by rw [hj]; rfl)]
    exact h.asked i l hil
  · rw [apply_update Stage.isBegun (by rw [hj]; rfl), apply_update Stage.isBegun (by rw [hj]; rfl)]
    exact h.begun i l hil
  · rw [h.line i, apply_update (· = .queued) (by rw [hj]; simp)]
  · rw [h.mem_erase, Function.update_apply]
    split
    · rename_i hij
      exact iff_of_false (fun hne => hne.1 hij) (by simp [Stage.isHolding])
    · rename_i hij
      simp [hij]
  · have := h.balance
    have := List.length_pos_of_mem hmem
    simp only [List.length_erase_of_mem hmem]
    omega

/-- A member gives its permit back, and the first in the queue gets it. -/
theorem handOff (h : Ledger level stage b) (hj : stage j = .risen) {rest : List (Fin n)}
    (hline : b.line = i :: rest) :
    Ledger level (Function.update (Function.update stage j .freed) i .held)
      { b with
        line := rest
        holders := i :: b.holders.erase j } := by
  have hi : stage i = .queued := (h.line i).mp (by rw [hline]; exact List.mem_cons_self)
  have hne : i ≠ j := fun heq => by
    rw [heq, hj] at hi
    cases hi
  have hi' : Function.update stage j .freed i = .queued := by rw [Function.update_of_ne hne, hi]
  have hmem : j ∈ b.holders := (h.holders j).mpr (by rw [hj]; rfl)
  have hnot : i ∉ b.holders.erase j := fun hmem => by
    have := (h.mem_erase.mp hmem).2
    rw [hi] at this
    cases this
  have hsorted := h.sorted
  rw [hline, List.pairwise_cons] at hsorted
  -- the member that gives its permit back stays one that has asked and begun
  have hasked : ∀ l, (Function.update stage j .freed l).isAsked = (stage l).isAsked :=
    apply_update Stage.isAsked (by rw [hj]; rfl)
  have hbegun : ∀ l, (Function.update stage j .freed l).isBegun = (stage l).isBegun :=
    apply_update Stage.isBegun (by rw [hj]; rfl)
  refine ⟨fun l => ?_, closed_update (fun l l' hl => ?_) (fun l hl => ?_) rfl,
    closed_update (fun l l' hl => ?_) (fun l hl => ?_) rfl, fun l => ?_, hsorted.2, fun l => ?_,
    List.nodup_cons.mpr ⟨hnot, h.nodup.erase j⟩, ?_, fun _ => h.idle (by rw [hline]; exact List.cons_ne_nil _ _)⟩
  · rw [← h.drawn l, apply_update (· ≠ .fresh) (by rw [hi']; simp), apply_update (· ≠ .fresh) (by rw [hj]; simp)]
  · rw [hasked, hasked]
    exact h.asked l l' hl
  · rw [hasked]
    exact h.asked l i hl (by rw [hi]; rfl)
  · rw [hbegun, hbegun]
    exact h.begun l l' hl
  · rw [hbegun]
    exact h.begun_of_lt_head hline hl
  · rw [Function.update_apply]
    split
    · rename_i heq
      exact iff_of_false (fun hrest => absurd (hsorted.1 l hrest) (heq ▸ lt_irrefl l)) (by simp)
    · rename_i hli
      rw [apply_update (· = .queued) (by rw [hj]; simp), ← h.line l, hline, List.mem_cons]
      simp [hli]
  · rw [List.mem_cons, h.mem_erase, Function.update_apply]
    split
    · rename_i heq
      exact iff_of_true (Or.inl heq) rfl
    · rename_i hli
      rw [Function.update_apply]
      split
      · rename_i heq
        exact iff_of_false (fun hor => hor.elim hli fun hne => hne.1 heq) (by simp [Stage.isHolding])
      · rename_i hlj
        simp [hli, hlj]
  · have := h.balance
    have := List.length_pos_of_mem hmem
    simp only [List.length_cons, List.length_erase_of_mem hmem]
    omega

end Ledger

end Fibers.Rounds
