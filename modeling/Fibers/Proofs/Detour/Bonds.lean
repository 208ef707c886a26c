import Fibers.Proofs.Detour.Twins
import Fibers.Proofs.References.Maps

set_option autoImplicit false

/-! # The references of a child that is joined

A child starts with a fork of its parent's map of references, and what it wrote is merged back when it is
joined. For references under the policy that copies on a fork and lets the child win on a join, this comes
to the same as if the parent had written its own map: `Bond` says how the map of the child stands to the
map that the parent would have, from the fork (`bond_fork`) over each write (`Bond.write`) to the merge
(`Bond.join`).
-/

namespace Fibers.Detour

variable {refs : FiberRef → Prop} {m₀ m c : FiberRefs}

/-- References under the default policy, which the entries of the map agree with. -/
structure ByDefault (refs : FiberRef → Prop) (m : FiberRefs) : Prop where
  policy : ∀ r, refs r → r.policy = .childWins
  entries : ∀ e ∈ m.entries, ∀ r, refs r → e.ref.id = r.id → e.ref = r
  distinct : m.Distinct

/-- The map `c` of a child of a fiber whose map is `m₀`, and the map `m` that the fiber would have, had it
written the same itself. -/
structure Bond (refs : FiberRef → Prop) (m₀ m c : FiberRefs) : Prop where
  distinct : c.Distinct
  reads : ∀ r, refs r → m.read r = c.read r
  written : ∀ e ∈ c.entries, e.touched = true → refs e.ref
  unwritten : ∀ r, refs r → (∀ e, c.entry? r = some e → e.touched = false) → m.read r = m₀.read r

theorem read_of_entry {m m' : FiberRefs} {r : FiberRef} (h : m.entry? r = m'.entry? r) :
    m.read r = m'.read r := by
  simp only [FiberRefs.read, h]

theorem read_write (m : FiberRefs) (r q : FiberRef) (d : Datum) :
    (m.write r d).read q = if r.id = q.id then d else m.read q := by
  simp only [FiberRefs.read, FiberRefs.entry?_write]
  split <;> rfl

/-- Right after the fork. -/
theorem bond_fork (h : ByDefault refs m) (hfork : m.fork = .ok c) : Bond refs m m c := by
  refine ⟨h.distinct.fork hfork, fun r hr => ?_, fun e he htouched => ?_, fun _ _ _ => rfl⟩
  · rcases FiberRefs.entry?_fork hfork r with ⟨hnone, hnone'⟩ | ⟨e, e', he, hforks, he'⟩
    · exact read_of_entry (hnone.trans hnone'.symm)
    · obtain ⟨value, hvalue, rfl⟩ := FiberRefs.forkEntry_eq_ok.mp hforks
      obtain ⟨hmem, hid⟩ := (FiberRefs.entry?_eq_some h.distinct).mp he
      rw [h.entries e hmem r hr hid, h.policy r hr] at hvalue
      simp only [FiberRefs.read, he, he', Option.map_some, Option.getD_some]
      exact Except.ok.inj hvalue
  · rw [FiberRefs.untouched_fork hfork he] at htouched
    cases htouched

/-- Both write the same. -/
theorem Bond.write {r : FiberRef} (d : Datum) (h : Bond refs m₀ m c) (hr : refs r) :
    Bond refs m₀ (m.write r d) (c.write r d) := by
  have hdistinct := h.distinct.write r d
  refine ⟨hdistinct, fun q hq => ?_, fun e he htouched => ?_, fun q hq huntouched => ?_⟩
  · rw [read_write, read_write, h.reads q hq]
  · have hentry := (FiberRefs.entry?_eq_some hdistinct).mpr ⟨he, rfl⟩
    rw [FiberRefs.entry?_write] at hentry
    split at hentry
    · cases hentry
      exact hr
    · exact h.written e ((FiberRefs.entry?_eq_some h.distinct).mp hentry).1 htouched
  · -- what was just written counts as written
    have hne : r.id ≠ q.id := fun heq => by
      have := huntouched ⟨r, d, true⟩ (by rw [FiberRefs.entry?_write, if_pos heq])
      cases this
    rw [read_write, if_neg hne]
    exact h.unwritten q hq fun e he => huntouched e (by rw [FiberRefs.entry?_write, if_neg hne, he])

/-- A value that the child wrote is what the merge makes of it. -/
theorem merge_of_default {theirs : RefEntry} (h : ByDefault refs m) (htheirs : refs theirs.ref) :
    ∃ e, FiberRefs.mergeEntry (m.entry? theirs.ref) theirs = .ok e ∧ e.value = theirs.value := by
  cases hours : m.entry? theirs.ref with
  | none => exact ⟨theirs, rfl, rfl⟩
  | some ours =>
      obtain ⟨hmem, hid⟩ := (FiberRefs.entry?_eq_some h.distinct).mp hours
      have hpolicy : ours.ref.policy = .childWins := by
        rw [h.entries ours hmem theirs.ref htheirs hid]
        exact h.policy theirs.ref htheirs
      refine ⟨{ ours with value := theirs.value, touched := true }, ?_, rfl⟩
      simp only [FiberRefs.mergeEntry, hpolicy, RefPolicy.childWins, Except.map]

/-- The merge returns, and afterwards the fiber reads what it would have read. -/
theorem Bond.join (hm₀ : ByDefault refs m₀) (h : Bond refs m₀ m c) :
    (m₀.join c).2 = .ok () ∧ ∀ r, refs r → (m₀.join c).1.read r = m.read r := by
  have hreturns : (m₀.join c).2 = .ok () := by
    refine (FiberRefs.joinEntries_returns h.distinct.written).mpr fun theirs htheirs => ?_
    obtain ⟨hmem, htouched⟩ := FiberRefs.mem_written.mp htheirs
    obtain ⟨e, he, -⟩ := merge_of_default hm₀ (h.written theirs hmem htouched)
    exact ⟨e, he⟩
  refine ⟨hreturns, fun r hr => ?_⟩
  obtain ⟨hgets, hkeeps⟩ := FiberRefs.entry?_join h.distinct hreturns r
  by_cases hex : ∃ theirs, c.entry? r = some theirs ∧ theirs.touched = true
  · obtain ⟨theirs, htheirs, htouched⟩ := hex
    obtain ⟨e, hmerge, he⟩ := hgets theirs htheirs htouched
    obtain ⟨hmem, hid⟩ := (FiberRefs.entry?_eq_some h.distinct).mp htheirs
    obtain ⟨e', hmerge', hvalue⟩ := merge_of_default hm₀ (h.written theirs hmem htouched)
    rw [FiberRefs.entry?_congr hid] at hmerge'
    obtain rfl : e = e' := Except.ok.inj (hmerge.symm.trans hmerge')
    rw [h.reads r hr]
    simp only [FiberRefs.read, he, htheirs, Option.map_some, Option.getD_some, hvalue]
  · have huntouched : ∀ e, c.entry? r = some e → e.touched = false := fun e he =>
      Bool.eq_false_iff.mpr fun htouched => hex ⟨e, he, htouched⟩
    rw [h.unwritten r hr huntouched]
    exact read_of_entry (hkeeps huntouched)

/-- Fibers that are bound this way are given the same by their references. -/
theorem binds_bond (refs : FiberRef → Prop) (m₀ : FiberRefs) : Binds refs (Bond refs m₀) :=
  ⟨fun h hr => h.reads _ hr, fun d h hr => h.write d hr⟩

end Fibers.Detour
