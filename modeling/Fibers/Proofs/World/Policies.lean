import Fibers.Proofs.Run.Moment

set_option autoImplicit false

/-! # References whose functions do not panic

The functions of a fiber reference are the user's and may panic. Where they do not, a map can be forked and
two maps can be merged, and the merged map is of the same kind.
-/

namespace Fibers

variable {σ : Type}

/-! ## Maps -/

/-- A policy whose functions do not panic. -/
structure RefPolicy.Total (p : RefPolicy) : Prop where
  fork : ∀ d, ∃ d', p.fork d = .ok d'
  join : ∀ d theirs, ∃ d', p.join d theirs = .ok d'

theorem RefPolicy.total_childWins : RefPolicy.childWins.Total :=
  ⟨fun d => ⟨d, rfl⟩, fun _ theirs => ⟨theirs, rfl⟩⟩

namespace FiberRefs

/-- A map in which no function of a reference panics. -/
def Total (m : FiberRefs) : Prop := ∀ e ∈ m.entries, e.ref.policy.Total

theorem fork_of_total {m : FiberRefs} (h : m.Total) : ∃ copy, m.fork = .ok copy ∧ copy.Total := by
  suffices hall : ∀ es : List RefEntry, (∀ e ∈ es, e.ref.policy.Total) →
      ∃ copies, es.mapM forkEntry = .ok copies ∧ ∀ e ∈ copies, e.ref.policy.Total by
    obtain ⟨copies, hcopies, htotal⟩ := hall m.entries h
    exact ⟨⟨copies⟩, by rw [fork, hcopies]; rfl, htotal⟩
  intro es hes
  induction es with
  | nil => exact ⟨[], rfl, fun e he => absurd he List.not_mem_nil⟩
  | cons e rest ih =>
      obtain ⟨d, hd⟩ := (hes e List.mem_cons_self).fork e.value
      obtain ⟨copies, hcopies, htotal⟩ := ih fun e he => hes e (List.mem_cons_of_mem _ he)
      refine ⟨{ e with value := d, touched := false } :: copies, ?_, fun f hf => ?_⟩
      · rw [List.mapM_cons, forkEntry, hd, hcopies]
        rfl
      · rcases List.mem_cons.mp hf with rfl | hf
        · exact hes e List.mem_cons_self
        · exact htotal f hf

theorem mem_put {e f : RefEntry} {es : List RefEntry} (h : f ∈ put e es) : f = e ∨ f ∈ es := by
  induction es with
  | nil => exact Or.inl (List.mem_singleton.mp h)
  | cons g rest ih =>
      unfold put at h
      split at h
      · exact (List.mem_cons.mp h).imp_right (List.mem_cons_of_mem _)
      · rcases List.mem_cons.mp h with rfl | h
        · exact Or.inr List.mem_cons_self
        · exact (ih h).imp_right (List.mem_cons_of_mem _)

theorem joinEntry_of_total {m : FiberRefs} {theirs : RefEntry} (h : m.Total)
    (htheirs : theirs.ref.policy.Total) : ∃ merged, m.joinEntry theirs = .ok merged ∧ merged.Total := by
  unfold joinEntry
  cases hours : m.entry? theirs.ref with
  | none =>
      refine ⟨_, rfl, fun e he => ?_⟩
      rcases List.mem_append.mp he with he | he
      · exact h e he
      · rw [List.mem_singleton.mp he]
        exact htheirs
  | some ours =>
      have hmem : ours ∈ m.entries := List.mem_of_find?_eq_some hours
      obtain ⟨d, hd⟩ := (h ours hmem).join ours.value theirs.value
      refine ⟨⟨put { ours with value := d, touched := true } m.entries⟩, by simp only [hd]; rfl,
        fun e he => ?_⟩
      rcases mem_put he with rfl | he
      · exact h ours hmem
      · exact h e he

theorem join_of_total {m child : FiberRefs} (h : m.Total) (hchild : child.Total) :
    ∃ merged, m.join child = (merged, .ok ()) ∧ merged.Total := by
  suffices hall : ∀ (es : List RefEntry) (m : FiberRefs), m.Total → (∀ e ∈ es, e.ref.policy.Total) →
      ∃ merged, m.joinEntries es = (merged, .ok ()) ∧ merged.Total from
    hall _ m h fun e he => hchild e (List.mem_filter.mp he).1
  intro es
  induction es with
  | nil => exact fun m hm _ => ⟨m, rfl, hm⟩
  | cons e rest ih =>
      intro m hm hes
      obtain ⟨merged, hmerged, htotal⟩ := joinEntry_of_total hm (hes e List.mem_cons_self)
      obtain ⟨final, hfinal, hfinalTotal⟩ := ih merged htotal fun e he => hes e (List.mem_cons_of_mem _ he)
      exact ⟨final, by simp only [joinEntries, hmerged, hfinal], hfinalTotal⟩

end FiberRefs

/-! ## Worlds -/

namespace World

/-- A world in which no function of a reference panics. -/
def RefsTotal (w : World σ) : Prop := ∀ m map, w.refs.get? m = some map → map.Total

theorem RefsTotal.of_refs {w w' : World σ} (h : w.RefsTotal) (heq : w'.refs = w.refs) : w'.RefsTotal :=
  fun m map hmap => h m map (heq ▸ hmap)

/-- A world in which no reference has a value. -/
theorem refsTotal_of_empty {w : World σ} (h : w.refs.toList.all (·.entries.isEmpty) = true) :
    w.RefsTotal := by
  intro m map hmap e he
  have hempty := List.isEmpty_iff.mp (Store.of_all h hmap)
  rw [hempty] at he
  cases he

theorem RefsTotal.refMap {w : World σ} (h : w.RefsTotal) (m : Key .refs) : (w.refMap m).Total := by
  unfold World.refMap
  cases hget : w.refs.get? m with
  | none => exact fun e he => absurd he List.not_mem_nil
  | some map => exact h m map hget

theorem forkRefs_of_total {w : World σ} (h : w.RefsTotal) (m : Key .refs) :
    ∃ w' copy, w.forkRefs m = (w', .ok copy) ∧ w'.RefsTotal := by
  obtain ⟨copy, hcopy, htotal⟩ := FiberRefs.fork_of_total (h.refMap m)
  refine ⟨(w.newRefs copy).1, (w.newRefs copy).2, by rw [forkRefs, hcopy], fun m' map hmap => ?_⟩
  simp only [newRefs, Store.get?_add] at hmap
  split at hmap
  · cases hmap
    exact htotal
  · exact h m' map hmap

theorem joinRefs_of_total {w : World σ} (h : w.RefsTotal) (m child : Key .refs) :
    ∃ w', w.joinRefs m child = (w', .ok ()) ∧ w'.RefsTotal := by
  unfold joinRefs
  split
  · exact ⟨w, rfl, h⟩
  · obtain ⟨merged, hmerged, htotal⟩ := FiberRefs.join_of_total (h.refMap m) (h.refMap child)
    refine ⟨{ w with refs := w.refs.set m merged }, by rw [hmerged], fun m' map hmap => ?_⟩
    rw [Store.get?_set] at hmap
    split at hmap
    · obtain ⟨_, -, rfl⟩ := Option.map_eq_some_iff.mp hmap
      exact htotal
    · exact h m' map hmap

end World

end Fibers
