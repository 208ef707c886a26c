import Fibers.World

set_option autoImplicit false

/-! # Permits are neither made nor lost

Whatever is done to a semaphore, its permits stay as many as they were: a permit is free or some
ticket holds it. And tickets are given out in order, so that no two attempts share one. `Later` is
what a semaphore can turn into, and `Permits` says the same of all semaphores of a world.
-/

namespace Fibers

/-! ## One semaphore -/

namespace Semaphore

variable {γ : Type}

/-- The permits of a semaphore, free or held. -/
def permits (s : Semaphore γ) : Nat := s.available + s.holders.length

/-- What a semaphore can turn into. -/
structure Later (a b : Semaphore γ) : Prop where
  capacity : b.capacity = a.capacity
  permits : b.permits = a.permits
  tickets : a.nextTicket ≤ b.nextTicket

theorem Later.refl (s : Semaphore γ) : s.Later s := ⟨rfl, rfl, Nat.le_refl _⟩

theorem Later.trans {a b c : Semaphore γ} (h : a.Later b) (h' : b.Later c) : a.Later c :=
  ⟨h'.capacity.trans h.capacity, h'.permits.trans h.permits, Nat.le_trans h.tickets h'.tickets⟩

theorem later_ticket (s : Semaphore γ) : s.Later s.ticket.1 := ⟨rfl, rfl, Nat.le_succ _⟩

theorem later_give {s : Semaphore γ} (ticket : Nat) (h : s.isFree = true) :
    s.Later (s.give ticket) := ⟨rfl, balance_give s ticket h, Nat.le_refl _⟩

theorem later_take {s s' : Semaphore γ} {ticket : Nat} (h : s.take? ticket = some s') :
    s.Later s' := by
  unfold take? at h
  split at h
  · cases h
    exact .refl s
  · split at h
    · rename_i hfree
      cases h
      exact later_give ticket hfree
    · cases h

theorem later_enqueue (s : Semaphore γ) (ticket : Nat) (grant : γ) :
    s.Later (s.enqueue ticket grant) := ⟨rfl, rfl, Nat.le_refl _⟩

theorem later_tryTake {s s' : Semaphore γ} {ticket : Nat} (h : s.tryTake? = some (s', ticket)) :
    s.Later s' := by
  unfold tryTake? at h
  split at h
  · rename_i hfree
    cases h
    exact s.later_ticket.trans (later_give (s := s.ticket.1) s.nextTicket hfree)
  · cases h

theorem later_relinquish (s : Semaphore γ) (ticket : Nat) : s.Later (s.relinquish ticket).1 := by
  unfold relinquish
  split
  · exact ⟨rfl, rfl, Nat.le_refl _⟩
  · split
    · rename_i hheld
      -- the permit that is taken back is the one that is handed on
      have hmem : ticket ∈ s.holders := List.contains_iff_mem.mp hheld
      have hpos : 0 < s.holders.length := List.length_pos_of_mem hmem
      have herase : (s.holders.erase ticket).length = s.holders.length - 1 :=
        List.length_erase_of_mem hmem
      have hbalance := balance_handOff { s with holders := s.holders.erase ticket }
      refine ⟨?_, ?_, ?_⟩
      · unfold handOff
        split <;> rfl
      · unfold permits
        dsimp only at hbalance
        omega
      · unfold handOff
        split <;> exact Nat.le_refl _
    · exact .refl s

end Semaphore

/-! ## The semaphores of a world -/

namespace World

variable {σ : Type}

/-- What becomes of the semaphores of a world. A new one has all its permits. -/
structure Permits (w w' : World σ) : Prop where
  later : ∀ s a, w.semaphores.get? s = some a → ∃ b, w'.semaphores.get? s = some b ∧ a.Later b
  fresh : ∀ s b, w'.semaphores.get? s = some b →
    (∃ a, w.semaphores.get? s = some a) ∨ b.permits = b.capacity

theorem Permits.refl (w : World σ) : Permits w w :=
  ⟨fun _ a h => ⟨a, h, .refl a⟩, fun _ b h => Or.inl ⟨b, h⟩⟩

theorem Permits.of_eq {w w' : World σ} (h : w'.semaphores = w.semaphores) : Permits w w' :=
  ⟨fun _ a ha => ⟨a, by rw [h]; exact ha, .refl a⟩, fun _ b hb => Or.inl ⟨b, by rw [← h]; exact hb⟩⟩

theorem Permits.trans {w₁ w₂ w₃ : World σ} (h : Permits w₁ w₂) (h' : Permits w₂ w₃) :
    Permits w₁ w₃ := by
  refine ⟨fun s a ha => ?_, fun s c hc => ?_⟩
  · obtain ⟨b, hb, hab⟩ := h.later s a ha
    obtain ⟨c, hc, hbc⟩ := h'.later s b hb
    exact ⟨c, hc, hab.trans hbc⟩
  · rcases h'.fresh s c hc with ⟨b, hb⟩ | hfresh
    · rcases h.fresh s b hb with hold | hfresh
      · exact Or.inl hold
      · obtain ⟨c', hc', hlater⟩ := h'.later s b hb
        obtain rfl : c = c' := Option.some.inj (hc.symm.trans hc')
        exact Or.inr (hlater.permits.trans (hfresh.trans hlater.capacity.symm))
    · exact Or.inr hfresh

/-- Reading a semaphore that is there. -/
theorem semaphore_of_get {w : World σ} {s : Key .semaphore} {a : Semaphore (Key .future)}
    (h : w.semaphores.get? s = some a) : w.semaphore s = a := by
  rw [World.semaphore, h, Option.getD_some]

/-- A change of one semaphore. -/
theorem permits_set {w w' : World σ} {s : Key .semaphore} {b : Semaphore (Key .future)}
    (h : (w.semaphore s).Later b) (hw' : w'.semaphores = w.semaphores.set s b) : Permits w w' := by
  refine ⟨fun t a ha => ?_, fun t c hc => ?_⟩
  · rw [hw', Store.get?_set]
    split
    · rename_i hst
      subst hst
      exact ⟨b, by rw [ha, Option.map_some], semaphore_of_get ha ▸ h⟩
    · exact ⟨a, ha, .refl a⟩
  · rw [hw', Store.get?_set] at hc
    split at hc
    · obtain ⟨a, ha, -⟩ := Option.map_eq_some_iff.mp hc
      exact Or.inl ⟨a, ha⟩
    · exact Or.inl ⟨c, hc⟩

theorem permits_modify {w w' : World σ} {s : Key .semaphore}
    {g : Semaphore (Key .future) → Semaphore (Key .future)}
    (h : ∀ a : Semaphore (Key .future), a.Later (g a))
    (hw' : w'.semaphores = w.semaphores.modify s g) : Permits w w' := by
  refine ⟨fun t a ha => ?_, fun t c hc => ?_⟩
  · rw [hw', Store.get?_modify]
    split
    · exact ⟨g a, by rw [ha, Option.map_some], h a⟩
    · exact ⟨a, ha, .refl a⟩
  · rw [hw', Store.get?_modify] at hc
    split at hc
    · obtain ⟨a, ha, -⟩ := Option.map_eq_some_iff.mp hc
      exact Or.inl ⟨a, ha⟩
    · exact Or.inl ⟨c, hc⟩

theorem permits_newSemaphore (w : World σ) (permits : Nat) :
    Permits w (w.newSemaphore permits).1 := by
  refine ⟨fun t a ha => ⟨a, Store.get?_add_of_some _ ha, .refl a⟩, fun t c hc => ?_⟩
  simp only [newSemaphore, Store.get?_add] at hc
  split at hc
  · cases hc
    exact Or.inr rfl
  · exact Or.inl ⟨c, hc⟩

end World

end Fibers
