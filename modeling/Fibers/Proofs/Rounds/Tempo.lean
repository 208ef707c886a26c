import Fibers.Proofs.Rounds.Lockstep
import Mathlib.Data.Finset.Card
import Mathlib.Data.Fintype.Basic
import Mathlib.Order.Interval.Finset.Fin
import Mathlib.Tactic.Ring

set_option autoImplicit false

/-! # The rounds

Time passes in rounds: whenever nobody has anything left to do, all who have a permit sleep until one and the
same instant, and the clock jumps to it. `Tempo` says which members belong to which round: in the round `r`
those with a number below `r * level` have slept or are due, the others that have begun sleep until the next
round. So the zip takes as many rounds as it must (`Tempo.now_of_late`).
-/

namespace Fibers.Rounds

namespace Stage

/-- Whether the member has yet to go to sleep. -/
def isEarly : Stage → Bool
  | .fresh => true
  | .drawn => true
  | .queued => true
  | .held => true
  | _ => false

/-- Whether the member has slept. -/
def isLate : Stage → Bool
  | .risen => true
  | .freed => true
  | .gone => true
  | _ => false

end Stage

variable {n level span t₀ round now : Nat} {stance : Fin n → Stance} {stage : Fin n → Stage} {b : Book n}
  {i j : Fin n} {s : Stance}

/-- In the round `round`, which began at `now`, every member is where it has to be. A round that takes no time
is never over, so nothing is said of who belongs to it. -/
structure Tempo (level span t₀ round now : Nat) (stance : Fin n → Stance) : Prop where
  time : now = t₀ + round * span
  needed : round = 0 ∨ (round - 1) * level < n
  early : ∀ i, (stance i).stage.isEarly = true → 0 < span → round * level ≤ i.val
  late : ∀ i, (stance i).stage.isLate = true → 0 < span → i.val < round * level
  asleep : ∀ i callback id due, stance i = .asleep callback id due →
    (due = now ∧ (0 < span → i.val < round * level)) ∨ (due = now + span ∧ (0 < span → round * level ≤ i.val))

namespace Tempo

theorem start {n : Nat} (level span t₀ : Nat) {stance : Fin n → Stance} (hearly : ∀ i, (stance i).stage = .fresh) :
    Tempo level span t₀ 0 t₀ stance where
  time := by omega
  needed := Or.inl rfl
  early := fun _ _ _ => by omega
  late := fun i h => by rw [hearly i] at h; cases h
  asleep := fun i callback id due h => by
    have := hearly i
    rw [h] at this
    cases this

/-- A change of one member. -/
theorem update (h : Tempo level span t₀ round now stance)
    (hearly : s.stage.isEarly = true → 0 < span → round * level ≤ j.val)
    (hlate : s.stage.isLate = true → 0 < span → j.val < round * level)
    (hasleep : ∀ callback id due, s = .asleep callback id due →
      (due = now ∧ (0 < span → j.val < round * level)) ∨
        (due = now + span ∧ (0 < span → round * level ≤ j.val))) :
    Tempo level span t₀ round now (Function.update stance j s) := by
  refine ⟨h.time, h.needed, fun i => ?_, fun i => ?_, fun i => ?_⟩
  · rw [Function.update_apply]
    split
    · rename_i hij
      exact hij ▸ hearly
    · exact h.early i
  · rw [Function.update_apply]
    split
    · rename_i hij
      exact hij ▸ hlate
    · exact h.late i
  · rw [Function.update_apply]
    split
    · rename_i hij
      exact hij ▸ hasleep
    · exact h.asleep i

/-- A member goes on, neither to sleep nor out of it. -/
theorem progress (h : Tempo level span t₀ round now stance)
    (hearly : s.stage.isEarly = true → (stance j).stage.isEarly = true)
    (hlate : s.stage.isLate = true → (stance j).stage.isLate = true)
    (hawake : s.stage ≠ .asleep) : Tempo level span t₀ round now (Function.update stance j s) :=
  h.update (fun hs => h.early j (hearly hs)) (fun hs => h.late j (hlate hs)) fun callback id due hs => by
    rw [hs] at hawake
    exact absurd rfl hawake

/-- A member goes to sleep. -/
theorem nap (h : Tempo level span t₀ round now stance) (hj : (stance j).stage = .held) (callback : Key .future)
    (id : Nat) : Tempo level span t₀ round now (Function.update stance j (.asleep callback id (now + span))) := by
  refine h.update (fun hs => by cases hs) (fun hs => by cases hs) fun _ _ due hs => ?_
  cases hs
  exact Or.inr ⟨rfl, h.early j (by rw [hj]; rfl)⟩

/-- A member wakes up. -/
theorem rise (h : Tempo level span t₀ round now stance) {callback : Key .future} {id due : Nat}
    (hj : stance j = .asleep callback id due) (hdue : due ≤ now) (hs : s.stage = .risen) :
    Tempo level span t₀ round now (Function.update stance j s) := by
  refine h.update (fun hearly => ?_) (fun _ hspan => ?_) fun callback id due heq => ?_
  · rw [hs] at hearly
    cases hearly
  · rcases h.asleep j callback id due hj with ⟨-, hlt⟩ | ⟨rfl, -⟩
    · exact hlt hspan
    · omega
  · rw [heq] at hs
    cases hs

/-! ## When nobody has anything to do -/

/-- Nobody has anything to do before the time has passed. -/
structure Quiet (now : Nat) (stance : Fin n → Stance) : Prop where
  still : ∀ i, (stance i).stage = .queued ∨ (stance i).stage = .asleep ∨ (stance i).stage = .gone
  later : ∀ i callback id due, stance i = .asleep callback id due → now < due

/-- All who sleep then are to wake up together. -/
theorem due_of_quiet (h : Tempo level span t₀ round now stance) (hquiet : Quiet now stance) {callback : Key .future}
    {id due : Nat} (hi : stance i = .asleep callback id due) :
    due = now + span ∧ (0 < span → round * level ≤ i.val) := by
  refine (h.asleep i callback id due hi).resolve_left fun hnow => ?_
  have := hquiet.later i callback id due hi
  omega

theorem asleep_of_stage {s : Stance} (h : s.stage = .asleep) : ∃ callback id due, s = .asleep callback id due := by
  cases s with
  | asleep callback id due => exact ⟨callback, id, due, rfl⟩
  | active p ops => cases p <;> cases h
  | ready p id => cases p <;> cases h
  | waiting grant => cases h
  | gone => cases h

theorem asleep_of_holding (hquiet : Quiet now stance) (hi : (stance i).stage.isHolding = true) :
    (stance i).stage = .asleep := by
  rcases hquiet.still i with hs | hs | hs
  · rw [hs] at hi
    cases hi
  · exact hs
  · rw [hs] at hi
    cases hi

/-- Members with numbers in a row, all of them with a permit, are no more than there are permits. -/
theorem lt_of_holding (hledger : Ledger level stage b) {first : Nat}
    (hholding : ∀ j : Fin n, first ≤ j.val → j ≤ i → (stage j).isHolding = true) (hi : first ≤ i.val) :
    i.val < first + level := by
  have hsub : (Finset.univ.filter fun j : Fin n => first ≤ j.val ∧ j ≤ i) ⊆ b.holders.toFinset := by
    intro j hj
    rw [Finset.mem_filter] at hj
    exact List.mem_toFinset.mpr ((hledger.holders j).mpr (hholding j hj.2.1 hj.2.2))
  have hcard : (Finset.univ.filter fun j : Fin n => first ≤ j.val ∧ j ≤ i) =
      Finset.Icc ⟨first, lt_of_le_of_lt hi i.isLt⟩ i := by
    ext j
    simp only [Finset.mem_filter, Finset.mem_univ, true_and, Finset.mem_Icc, Fin.le_def]
  have hle := Finset.card_le_card hsub
  rw [hcard, Fin.card_Icc, List.toFinset_card_of_nodup hledger.nodup] at hle
  have := hledger.length_le
  dsimp only at hle
  omega

/-- A member that waits for a permit has enough members before it that have one. -/
theorem le_of_queued (hlevel : 0 < level) (hledger : Ledger level stage b) {first : Nat}
    (hholding : ∀ j, (stage j).isHolding = true → first ≤ j.val) (hi : stage i = .queued) :
    first + level ≤ i.val := by
  have hfull : b.available = 0 :=
    hledger.idle (List.ne_nil_of_mem ((hledger.line i).mpr hi))
  have hlength : b.holders.length = level := by
    have := hledger.balance
    omega
  have hbefore : ∀ j, (stage j).isHolding = true → j < i := by
    intro j hj
    by_contra hnot
    have hne : j ≠ i := fun heq => by
      rw [heq, hi] at hj
      cases hj
    have hbegun := hledger.begun i j (lt_of_le_of_ne (not_lt.mp hnot) hne.symm) (Stage.isBegun_of_isHolding hj)
    rw [hi] at hbegun
    cases hbegun
  have hsub : b.holders.toFinset.map Fin.valEmbedding ⊆ Finset.Ico first i.val := by
    intro v hv
    obtain ⟨j, hj, rfl⟩ := Finset.mem_map.mp hv
    have hholds := (hledger.holders j).mp (List.mem_toFinset.mp hj)
    exact Finset.mem_Ico.mpr ⟨hholding j hholds, hbefore j hholds⟩
  have hle := Finset.card_le_card hsub
  rw [Finset.card_map, List.toFinset_card_of_nodup hledger.nodup, Nat.card_Ico, hlength] at hle
  omega

/-- The clock jumps to the next round. -/
theorem pass (h : Tempo level span t₀ round now stance) (hlevel : 0 < level)
    (hledger : Ledger level (fun i => (stance i).stage) b) (hquiet : Quiet now stance) {callback : Key .future}
    {id due : Nat} (hi : stance i = .asleep callback id due) :
    Tempo level span t₀ (round + 1) due stance := by
  obtain ⟨rfl, hfirst⟩ := h.due_of_quiet hquiet hi
  have hspan : 0 < span := by
    have := hquiet.later i callback id _ hi
    omega
  have hnext : (round + 1) * level = round * level + level := Nat.succ_mul round level
  have hholding : ∀ j, (stance j).stage.isHolding = true → round * level ≤ j.val := by
    intro j hj
    obtain ⟨callback, id, due, hs⟩ := asleep_of_stage (asleep_of_holding hquiet hj)
    exact (h.due_of_quiet hquiet hs).2 hspan
  have hrow : ∀ j, (stance j).stage.isBegun = true → ∀ l : Fin n, round * level ≤ l.val → l ≤ j →
      (stance l).stage.isHolding = true := by
    intro j hj l hl hlj
    have hbegun : (stance l).stage.isBegun = true := by
      rcases lt_or_eq_of_le hlj with hlt | rfl
      · exact hledger.begun l j hlt hj
      · exact hj
    rcases hquiet.still l with hs | hs | hs
    · rw [hs] at hbegun
      cases hbegun
    · rw [hs]
      rfl
    · have := h.late l (by rw [hs]; rfl) hspan
      omega
  refine ⟨?_, Or.inr ?_, fun j hj _ => ?_, fun j hj _ => ?_, fun j callback id due hj => ?_⟩
  · rw [h.time, Nat.succ_mul]
    omega
  · have := hfirst hspan
    have := i.isLt
    simp only [Nat.add_sub_cancel]
    omega
  · rw [hnext]
    rcases hquiet.still j with hs | hs | hs
    · exact le_of_queued hlevel hledger hholding hs
    · rw [hs] at hj
      cases hj
    · rw [hs] at hj
      cases hj
  · have := h.late j hj hspan
    omega
  · obtain ⟨rfl, hle⟩ := h.due_of_quiet hquiet hj
    refine Or.inl ⟨rfl, fun _ => ?_⟩
    rw [hnext]
    exact lt_of_holding hledger (hrow j (by rw [hj]; rfl)) (hle hspan)

/-! ## What comes out -/

/-- The number of rounds that `n` members take. -/
def rounds (n level : Nat) : Nat := (n + level - 1) / level

theorem lt_rounds (hlevel : 0 < level) (h : round * level < n) : round < rounds n level := by
  unfold rounds
  rw [Nat.lt_div_iff_mul_lt hlevel]
  omega

theorem rounds_le (hlevel : 0 < level) (h : n ≤ round * level) : rounds n level ≤ round := by
  unfold rounds
  rw [Nat.div_le_iff_le_mul_add_pred hlevel, Nat.mul_comm]
  omega

/-- No round is one too many. -/
theorem now_le (h : Tempo level span t₀ round now stance) (hlevel : 0 < level) : now ≤ t₀ + span * rounds n level := by
  have hround : round ≤ rounds n level := by
    rcases h.needed with rfl | hneeded
    · exact Nat.zero_le _
    · have := lt_rounds hlevel hneeded
      omega
  rw [h.time, Nat.mul_comm]
  exact Nat.add_le_add_left (Nat.mul_le_mul_left span hround) t₀

/-- A member that is left for the next round wakes up by the end of the last. -/
theorem next_le (h : Tempo level span t₀ round now stance) (hlevel : 0 < level)
    (hi : 0 < span → round * level ≤ i.val) : now + span ≤ t₀ + span * rounds n level := by
  rcases Nat.eq_zero_or_pos span with rfl | hspan
  · have := h.time
    omega
  · have hlt : round < rounds n level := lt_rounds hlevel (lt_of_le_of_lt (hi hspan) i.isLt)
    calc now + span = t₀ + span * (round + 1) := by rw [h.time]; ring
      _ ≤ t₀ + span * rounds n level := Nat.add_le_add_left (Nat.mul_le_mul_left span hlt) t₀

/-- A member that goes to sleep does so before the last round is over. -/
theorem due_le (h : Tempo level span t₀ round now stance) (hlevel : 0 < level)
    (hi : (stance i).stage.isEarly = true) : now + span ≤ t₀ + span * rounds n level :=
  h.next_le hlevel (h.early i hi)

/-- Everybody wakes up before the last round is over. -/
theorem asleep_le (h : Tempo level span t₀ round now stance) (hlevel : 0 < level) {callback : Key .future}
    {id due : Nat} (hi : stance i = .asleep callback id due) : due ≤ t₀ + span * rounds n level := by
  rcases h.asleep i callback id due hi with ⟨rfl, -⟩ | ⟨rfl, hle⟩
  · exact h.now_le hlevel
  · exact h.next_le hlevel hle

/-- When all have slept, as many rounds have passed as `n` members need. -/
theorem now_of_late (h : Tempo level span t₀ round now stance) (hlevel : 0 < level) (hn : 0 < n)
    (hall : ∀ i, (stance i).stage.isLate = true) : now = t₀ + span * rounds n level := by
  rcases Nat.eq_zero_or_pos span with rfl | hspan
  · have := h.time
    omega
  · have hlast : n - 1 < round * level := h.late ⟨n - 1, by omega⟩ (hall _) hspan
    have hle : rounds n level ≤ round := rounds_le hlevel (by omega)
    have hge : round ≤ rounds n level := by
      rcases h.needed with rfl | hneeded
      · exact Nat.zero_le _
      · have := lt_rounds hlevel hneeded
        omega
    rw [h.time, le_antisymm hge hle, Nat.mul_comm]

/-- When all are quiet in the first round, as many sleep as can. -/
theorem length_of_quiet (h : Tempo level span t₀ 0 now stance) (hspan : 0 < span)
    (hledger : Ledger level (fun i => (stance i).stage) b) (hquiet : Quiet now stance) :
    b.holders.length = min level n := by
  have hgone : ∀ i, (stance i).stage ≠ .gone := fun i hi => by
    have := h.late i (by rw [hi]; rfl) hspan
    omega
  have hle : b.holders.length ≤ n := by
    have := hledger.nodup.length_le_card
    rwa [Fintype.card_fin] at this
  refine le_antisymm (le_min hledger.length_le hle) ?_
  by_cases hline : b.line = []
  · -- nobody waits, so all sleep
    have hall : ∀ i, i ∈ b.holders := fun i => by
      refine (hledger.holders i).mpr ?_
      rcases hquiet.still i with hs | hs | hs
      · have := (hledger.line i).mpr hs
        rw [hline] at this
        cases this
      · show (stance i).stage.isHolding = true
        rw [hs]
        rfl
      · exact absurd hs (hgone i)
    have hcard : Finset.univ.card ≤ b.holders.toFinset.card :=
      Finset.card_le_card fun i _ => List.mem_toFinset.mpr (hall i)
    rw [Finset.card_univ, Fintype.card_fin, List.toFinset_card_of_nodup hledger.nodup] at hcard
    exact le_trans (min_le_right level n) hcard
  · have := hledger.balance
    have := hledger.idle hline
    exact le_trans (min_le_left level n) (by omega)

end Tempo

end Fibers.Rounds
