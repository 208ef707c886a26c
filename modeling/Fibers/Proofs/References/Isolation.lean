import Fibers.Proofs.References.Chronicle

set_option autoImplicit false

/-! # Maps of references are apart until they are merged

A write is seen in the map that is written and in no other. A merge carries what was written in the child
since it was made, the writes that earlier merges brought there among them, and nothing else; what it
carries counts as written in turn, so the next merge carries it on. All this holds after every history, in
whatever order a map keeps its entries.
-/

namespace Fibers

variable {σ : Type}

/-- A fork of the map comes to these entries, in some order. -/
def FiberRefs.ForksTo (m : FiberRefs) (es : List RefEntry) : Prop :=
  ∃ copy, m.fork = .ok copy ∧ copy.entries.Perm es

/-- A merge of what a child wrote comes to these entries, in some order. -/
def FiberRefs.JoinsTo (m child : FiberRefs) (es : List RefEntry) : Prop :=
  ∃ merged, m.join child = (merged, .ok ()) ∧ merged.entries.Perm es

namespace FiberRefs

variable {m m' child child' : FiberRefs}

theorem ForksTo.perm {es : List RefEntry} (h : m.ForksTo es) (hm : m.Distinct)
    (hperm : m.entries.Perm m'.entries) : m'.ForksTo es := by
  obtain ⟨copy, hfork, hes⟩ := h
  obtain ⟨copy', hfork', hcopy⟩ := fork_perm hm hperm hfork
  exact ⟨copy', hfork', hcopy.symm.trans hes⟩

theorem JoinsTo.perm {es : List RefEntry} (h : m.JoinsTo child es) (hm : m.Distinct)
    (hchild : child.Distinct) (hperm : m.entries.Perm m'.entries)
    (hpermChild : child.entries.Perm child'.entries) : m'.JoinsTo child' es := by
  obtain ⟨merged, hjoin, hes⟩ := h
  obtain ⟨merged', hjoin', hmerged⟩ := join_perm hm hchild hperm hpermChild hjoin
  exact ⟨merged', hjoin', hmerged.symm.trans hes⟩

end FiberRefs

namespace Chronicle

variable {c : Catalogue} {H : Chronicle σ}

/-- How the maps of a system are apart, and how they come together. -/
structure Isolates (c : Catalogue) (H : Chronicle σ) : Prop where
  /-- A write or a merge changes no map but its own, and a fork changes none. -/
  elsewhere : ∀ op k, H.world.HasRefs k → op.target? ≠ some k →
    (H.perform c op).world.refMap k = H.world.refMap k
  /-- A write is read back and counts as written; the other references of the map are left alone. -/
  write : ∀ m i value, H.world.HasRefs m →
    (H.perform c (.write m i value)).read c m i = value ∧
    (H.perform c (.write m i value)).written m i ∧
    ∀ j, j ≠ i → (H.perform c (.write m i value)).value? c m j = H.value? c m j
  /-- A fork is a new map. It has the references that have a value, each as its function says, and none
  of them counts as written there. -/
  fork : ∀ m k w', H.world.HasRefs m → H.world.forkRefs m = (w', .ok k) →
    ¬ H.world.HasRefs k ∧ (∀ i, ¬ (H.perform c (.fork m)).written k i) ∧
    ∀ i, (H.value? c m i).map (c.policy i).fork =
      ((H.perform c (.fork m)).value? c k i).map .ok
  /-- A merge that returns merges the references written in the child, which then count as written in the
  parent too, and leaves the value and the standing of every other reference of the parent alone. -/
  join : ∀ m child, m ≠ child → H.world.HasRefs m → (H.world.joinRefs m child).2 = .ok () → ∀ i,
    (H.written child i →
      c.merge i (H.value? c m i) (H.read c child i) = .ok ((H.perform c (.join m child)).read c m i) ∧
      (H.perform c (.join m child)).written m i) ∧
    (¬ H.written child i →
      (H.perform c (.join m child)).value? c m i = H.value? c m i ∧
      ((H.perform c (.join m child)).written m i ↔ H.written m i))
  /-- A merge that panics has done the same for some of the references written in the child, and left the
  others as they were. -/
  stop : ∀ m child d, H.world.HasRefs m → (H.world.joinRefs m child).2 = .error d → ∀ i,
    (H.written child i ∧
      c.merge i (H.value? c m i) (H.read c child i) = .ok ((H.perform c (.join m child)).read c m i) ∧
      (H.perform c (.join m child)).written m i) ∨
    ((H.perform c (.join m child)).value? c m i = H.value? c m i ∧
      ((H.perform c (.join m child)).written m i ↔ H.written m i))
  /-- A map merged with itself stays as it is, and so does the system. -/
  itself : ∀ m, H.world.joinRefs m m = (H.world, .ok ())
  /-- What counts as written goes on to count, whatever is done, so that a later merge carries it. -/
  lasts : ∀ ops m i, H.written m i → (H.after c ops).written m i
  /-- The order in which maps keep their entries makes no difference: to what references read as, to what a
  fork comes to, or to what a merge comes to. -/
  order : ∀ (m child : Key .refs) (m' child' : FiberRefs), (H.world.refMap m).entries.Perm m'.entries →
    (H.world.refMap child).entries.Perm child'.entries →
    (∀ r, (H.world.refMap m).read r = m'.read r) ∧
    (∀ es, (H.world.refMap m).ForksTo es ↔ m'.ForksTo es) ∧
    (∀ es, (H.world.refMap m).JoinsTo (H.world.refMap child) es ↔ m'.JoinsTo child' es)

theorem written_perform (op : RefsOp) {k : Key .refs} {i : Nat} (h : H.written k i) :
    (H.perform c op).written k i := by
  cases op with
  | make => exact h
  | fork m =>
      simp only [perform]
      split
      · exact h
      · exact h
  | join m child => exact Or.inl h
  | write m j value => exact Or.inl h

theorem written_after (ops : List RefsOp) {k : Key .refs} {i : Nat} (h : H.written k i) :
    (H.after c ops).written k i := by
  induction ops generalizing H with
  | nil => exact h
  | cons op rest ih => exact ih (H := H.perform c op) (written_perform op h)

theorem Sound.forks (h : H.Sound c) {m k : Key .refs} (hm : H.world.HasRefs m) {w' : World σ}
    (hfork : H.world.forkRefs m = (w', .ok k)) :
    ¬ H.world.HasRefs k ∧ (∀ i, ¬ (H.perform c (.fork m)).written k i) ∧
    ∀ i, (H.value? c m i).map (c.policy i).fork =
      ((H.perform c (.fork m)).value? c k i).map .ok := by
  obtain ⟨copy, -, -, hk⟩ := World.forkRefs_eq_ok hfork
  have hnew : ¬ H.world.HasRefs k := hk ▸ World.not_has_newRefs H.world copy
  refine ⟨hnew, fun i hwritten => ?_, fun i => ?_⟩
  · rw [perform_fork c hm] at hwritten
    -- what counts as written has an entry, and there is no map yet
    obtain ⟨e, he, -⟩ := (h.marks k i).mp hwritten
    rw [World.refMap_of_not_has hnew] at he
    cases he
  · rcases h.value?_fork hm hfork i with ⟨hnone, hnone'⟩ | ⟨value, value', hvalue, hpolicy, hvalue'⟩
    · rw [hnone, hnone']
      rfl
    · rw [hvalue, hvalue', Option.map_some, Option.map_some, hpolicy]

theorem Sound.ordered (h : H.Sound c) {m child : Key .refs} {m' child' : FiberRefs}
    (hperm : (H.world.refMap m).entries.Perm m'.entries)
    (hpermChild : (H.world.refMap child).entries.Perm child'.entries) :
    (∀ r, (H.world.refMap m).read r = m'.read r) ∧
    (∀ es, (H.world.refMap m).ForksTo es ↔ m'.ForksTo es) ∧
    (∀ es, (H.world.refMap m).JoinsTo (H.world.refMap child) es ↔ m'.JoinsTo child' es) := by
  have hm := (h.maps m).distinct
  have hchild := (h.maps child).distinct
  refine ⟨fun r => ?_, fun es => ?_, fun es => ?_⟩
  · rw [FiberRefs.read, FiberRefs.read, FiberRefs.entry?_perm hm hperm]
  · exact ⟨fun hforks => hforks.perm hm hperm, fun hforks => hforks.perm (hm.perm hperm) hperm.symm⟩
  · exact ⟨fun hjoins => hjoins.perm hm hchild hperm hpermChild,
      fun hjoins => hjoins.perm (hm.perm hperm) (hchild.perm hpermChild) hperm.symm hpermChild.symm⟩

/-- After every history of forks, merges and writes, the maps of a system are apart from one another until
a merge carries to one of them what was written in another. -/
theorem isolates_after (c : Catalogue) (config : Config) (services : Services) (board : σ)
    (ops : List RefsOp) : ((start config services board).after c ops).Isolates c := by
  have h := sound_after c config services board ops
  generalize (start config services board).after c ops = H at h
  constructor
  case elsewhere => exact fun op k hk htarget => refMap_perform op hk htarget
  case write =>
    intro m i value hm
    refine ⟨?_, Or.inr ⟨rfl, rfl, hm⟩, fun j hji => ?_⟩
    · rw [read_eq, value?_write hm, if_pos rfl, Option.getD_some]
    · rw [value?_write hm, if_neg hji]
  case fork => exact fun m k w' hm hfork => h.forks hm hfork
  case join =>
    intro m child hne hm hreturns i
    have hcarries : H.Carries m child i ↔ H.written child i := carries_of_returns hm hne hreturns
    obtain ⟨hgets, hkeeps⟩ := h.joins hm hne i
    exact ⟨fun hwritten => hgets (hcarries.mpr hwritten), fun hnot => hkeeps (mt hcarries.mp hnot)⟩
  case stop =>
    intro m child d hm hpanics i
    have hne : m ≠ child := by
      rintro rfl
      rw [World.joinRefs, if_pos rfl] at hpanics
      cases hpanics
    obtain ⟨hgets, hkeeps⟩ := h.joins hm hne i
    by_cases hcarries : H.Carries m child i
    · exact Or.inl ⟨hcarries.2.2.1, hgets hcarries⟩
    · exact Or.inr (hkeeps hcarries)
  case itself =>
    intro m
    rw [World.joinRefs, if_pos rfl]
  case lasts => exact fun ops m i hwritten => written_after ops hwritten
  case order => exact fun m child m' child' hperm hpermChild => h.ordered hperm hpermChild

end Chronicle

end Fibers
