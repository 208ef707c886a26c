import Mathlib.Data.List.Induction
import Fibers.Proofs.References.Maps
import Fibers.World.Act

set_option autoImplicit false

/-! # What forks, merges and writes do to the maps of a system

Maps of references are made empty or as forks of others, are written, and are merged into one another, in
any order. A `Chronicle` is a system after such a history, with the references that were written in each
map since it was made: those that were written there, and those that a merge brought there.

What each operation does is said in terms of the history alone. It holds because a map marks exactly those
references as touched that were written in it.
-/

namespace Fibers

variable {σ : Type}

/-- The references there are: what each reads as where it has no value, and its policy. -/
structure Catalogue where
  initial : Nat → Datum
  policy : Nat → RefPolicy

/-- A reference of the catalogue. -/
def Catalogue.ref (c : Catalogue) (i : Nat) : FiberRef := ⟨i, c.initial i, c.policy i⟩

/-- What a merge makes of the value of a reference, if it has one, and the value that the child wrote. -/
def Catalogue.merge (c : Catalogue) (i : Nat) (ours : Option Datum) (theirs : Datum) :
    Except Defect Datum :=
  match ours with
  | none => .ok theirs
  | some ours => (c.policy i).join ours theirs

/-- What is done to maps of references. -/
inductive RefsOp where
  | make
  | fork (m : Key .refs)
  | join (m child : Key .refs)
  | write (m : Key .refs) (i : Nat) (value : Datum)

/-- The map that an operation may change. -/
def RefsOp.target? : RefsOp → Option (Key .refs)
  | .make => none
  | .fork _ => none
  | .join m _ => some m
  | .write m _ _ => some m

/-! ## The maps of a system after a command -/

namespace World

variable {w : World σ} {m child k : Key .refs}

/-- There is a map under a key. -/
def HasRefs (w : World σ) (k : Key .refs) : Prop := ∃ map, w.refs.get? k = some map

theorem refMap_of_get {map : FiberRefs} (h : w.refs.get? k = some map) : w.refMap k = map := by
  rw [refMap, h, Option.getD_some]

theorem get?_of_not_has (h : ¬ w.HasRefs k) : w.refs.get? k = none := by
  cases hget : w.refs.get? k with
  | none => rfl
  | some map => exact absurd ⟨map, hget⟩ h

theorem refMap_of_not_has (h : ¬ w.HasRefs k) : w.refMap k = .empty := by
  rw [refMap, get?_of_not_has h, Option.getD_none]
  rfl

theorem refMap_newRefs (w : World σ) (map : FiberRefs) (k : Key .refs) :
    (w.newRefs map).1.refMap k = if k = (w.newRefs map).2 then map else w.refMap k := by
  by_cases hk : k = (w.newRefs map).2
  · have hnext : k = (w.refs.add map).2 := hk
    rw [if_pos hk, refMap, newRefs, Store.get?_add, if_pos hnext, Option.getD_some]
  · have hnext : k ≠ (w.refs.add map).2 := hk
    rw [if_neg hk, refMap, newRefs, Store.get?_add, if_neg hnext, refMap]

theorem not_has_newRefs (w : World σ) (map : FiberRefs) : ¬ w.HasRefs (w.newRefs map).2 :=
  fun ⟨old, h⟩ => by cases (Store.get?_next w.refs map).symm.trans h

theorem has_newRefs (w : World σ) (map : FiberRefs) : (w.newRefs map).1.HasRefs (w.newRefs map).2 :=
  ⟨map, by simp only [newRefs, Store.get?_add, if_true]⟩

theorem HasRefs.ne_newRefs (h : w.HasRefs k) (map : FiberRefs) : k ≠ (w.newRefs map).2 := by
  rintro rfl
  exact not_has_newRefs w map h

theorem forkRefs_eq_ok {w' : World σ} (h : w.forkRefs m = (w', .ok k)) :
    ∃ copy, (w.refMap m).fork = .ok copy ∧ w' = (w.newRefs copy).1 ∧ k = (w.newRefs copy).2 := by
  unfold forkRefs at h
  cases hfork : (w.refMap m).fork with
  | error d =>
      rw [hfork] at h
      cases (Prod.mk.inj h).2
  | ok copy =>
      rw [hfork] at h
      obtain ⟨hw, hk⟩ := Prod.mk.inj h
      exact ⟨copy, rfl, hw.symm, (Except.ok.inj hk).symm⟩

/-- A fork leaves the maps there are alone. -/
theorem refMap_forkRefs (hk : w.HasRefs k) : (w.forkRefs m).1.refMap k = w.refMap k := by
  unfold forkRefs
  cases (w.refMap m).fork with
  | error d => rfl
  | ok copy => exact (refMap_newRefs w copy k).trans (if_neg (hk.ne_newRefs copy))

theorem refMap_set (hm : w.HasRefs m) (map : FiberRefs) (k : Key .refs) :
    ({ w with refs := w.refs.set m map } : World σ).refMap k = if m = k then map else w.refMap k := by
  obtain ⟨old, hold⟩ := hm
  simp only [refMap, Store.get?_set]
  split
  · rename_i hmk
    subst hmk
    rw [hold]
    rfl
  · rfl

theorem refs_set_of_not_has (hm : ¬ w.HasRefs m) (map : FiberRefs) : w.refs.set m map = w.refs := by
  refine Store.ext_get? fun k => ?_
  rw [Store.get?_set]
  split
  · rename_i hmk
    subst hmk
    rw [get?_of_not_has hm]
    rfl
  · rfl

/-- A merge changes the map that is merged into, if there is one. -/
theorem refMap_joinRefs (hne : m ≠ child) (hm : w.HasRefs m) (k : Key .refs) :
    (w.joinRefs m child).1.refMap k =
      if m = k then ((w.refMap m).join (w.refMap child)).1 else w.refMap k := by
  rw [joinRefs, if_neg hne]
  exact refMap_set hm _ k

theorem joinRefs_of_not_has (hm : ¬ w.HasRefs m) : (w.joinRefs m child).1 = w := by
  unfold joinRefs
  split
  · rfl
  · dsimp only
    rw [refs_set_of_not_has hm]

theorem joinRefs_snd (hne : m ≠ child) :
    (w.joinRefs m child).2 = ((w.refMap m).join (w.refMap child)).2 := by
  rw [joinRefs, if_neg hne]

theorem refMap_writeRef (hm : w.HasRefs m) (r : FiberRef) (value : Datum) (k : Key .refs) :
    (w.command (.writeRef m r value)).1.refMap k =
      if m = k then (w.refMap m).write r value else w.refMap k := by
  obtain ⟨old, hold⟩ := hm
  simp only [command, refMap, Store.get?_modify]
  split
  · rename_i hmk
    subst hmk
    rw [hold]
    rfl
  · rfl

theorem writeRef_of_not_has (hm : ¬ w.HasRefs m) (r : FiberRef) (value : Datum) :
    (w.command (.writeRef m r value)).1 = w := by
  simp only [command]
  rw [Store.modify_eq_self _ (get?_of_not_has hm)]

/-- The keys of the maps are the numbers below their count. -/
theorem hasRefs_iff : w.HasRefs k ↔ k.index < w.refs.items.size := by
  rw [HasRefs, Store.get?]
  constructor
  · rintro ⟨map, h⟩
    exact (Array.getElem?_eq_some_iff.mp h).1
  · exact fun h => ⟨_, Array.getElem?_eq_getElem h⟩

theorem size_newRefs (w : World σ) (map : FiberRefs) :
    (w.newRefs map).1.refs.items.size = w.refs.items.size + 1 :=
  Array.size_push _

theorem size_joinRefs (w : World σ) (m child : Key .refs) :
    (w.joinRefs m child).1.refs.items.size = w.refs.items.size := by
  unfold joinRefs
  split
  · rfl
  · exact Array.size_setIfInBounds

theorem size_writeRef (w : World σ) (m : Key .refs) (r : FiberRef) (value : Datum) :
    (w.command (.writeRef m r value)).1.refs.items.size = w.refs.items.size :=
  Array.size_modify

end World

/-! ## Chronicles -/

/-- A system, and the references written in each of its maps since the map was made. -/
structure Chronicle (σ : Type) where
  world : World σ
  written : Key .refs → Nat → Prop := fun _ _ => False

namespace Chronicle

variable {c : Catalogue} {H : Chronicle σ} {m child k : Key .refs} {i j : Nat}

/-- A system in which nothing has happened. -/
def start (config : Config) (services : Services) (board : σ) : Chronicle σ :=
  { world := .new config services board }

/-- The value of a reference in a map, if it has one. -/
def value? (c : Catalogue) (H : Chronicle σ) (k : Key .refs) (i : Nat) : Option Datum :=
  (FiberRefs.entry? (H.world.refMap k) (c.ref i)).map (·.value)

/-- What a reference reads as in a map. -/
def read (c : Catalogue) (H : Chronicle σ) (k : Key .refs) (i : Nat) : Datum :=
  (H.world.refMap k).read (c.ref i)

/-- A merge brings a reference from one map to another: it was written in the child, and the merge got
that far. -/
def Carries (H : Chronicle σ) (m child : Key .refs) (i : Nat) : Prop :=
  H.world.HasRefs m ∧ m ≠ child ∧ H.written child i ∧
    ((H.world.joinRefs m child).2 = .ok () ∨
      i ∈ ((H.world.refMap m).carried (H.world.refMap child).written).map (·.ref.id))

/-- The system after an operation. What is forked is a map there is. -/
def perform (c : Catalogue) (H : Chronicle σ) : RefsOp → Chronicle σ
  | .make => { H with world := (H.world.command .newRefs).1 }
  | .fork m =>
      match H.world.refs.get? m with
      | none => H
      | some _ => { H with world := (H.world.command (.forkRefs m)).1 }
  | .join m child =>
      { world := (H.world.command (.joinRefs m child)).1
        written := fun k i => H.written k i ∨ k = m ∧ H.Carries m child i }
  | .write m i value =>
      { world := (H.world.command (.writeRef m (c.ref i) value)).1
        written := fun k j => H.written k j ∨ k = m ∧ j = i ∧ H.world.HasRefs m }

/-- The system after a row of operations. -/
def after (c : Catalogue) (H : Chronicle σ) (ops : List RefsOp) : Chronicle σ := ops.foldl (perform c) H

theorem perform_fork (c : Catalogue) (hm : H.world.HasRefs m) :
    H.perform c (.fork m) = { H with world := (H.world.forkRefs m).1 } := by
  obtain ⟨map, hmap⟩ := hm
  simp only [perform, hmap]
  rfl

theorem perform_fork_of_not_has (c : Catalogue) (hm : ¬ H.world.HasRefs m) :
    H.perform c (.fork m) = H := by
  simp only [perform, World.get?_of_not_has hm]

theorem after_concat (c : Catalogue) (H : Chronicle σ) (ops : List RefsOp) (op : RefsOp) :
    H.after c (ops ++ [op]) = (H.after c ops).perform c op := by
  rw [after, List.foldl_append]
  rfl

theorem read_eq (c : Catalogue) (H : Chronicle σ) (k : Key .refs) (i : Nat) :
    H.read c k i = (H.value? c k i).getD (c.initial i) := rfl

/-! ## What holds of the maps at every moment -/

/-- What holds of one map of a catalogue. -/
structure MapSound (c : Catalogue) (map : FiberRefs) : Prop where
  distinct : map.Distinct
  refs : ∀ e ∈ map.entries, e.ref = c.ref e.ref.id

/-- What holds of a system at every moment. -/
structure Sound (c : Catalogue) (H : Chronicle σ) : Prop where
  maps : ∀ k, MapSound c (H.world.refMap k)
  marks : ∀ k i, H.written k i ↔
    ∃ e, FiberRefs.entry? (H.world.refMap k) (c.ref i) = some e ∧ e.touched = true

theorem mapSound_empty (c : Catalogue) : MapSound c .empty := ⟨List.nodup_nil, nofun⟩

theorem MapSound.ref_of_entry {map : FiberRefs} (h : MapSound c map) {e : RefEntry}
    (he : map.entry? (c.ref i) = some e) : e.ref = c.ref i := by
  obtain ⟨hmem, hid⟩ := (FiberRefs.entry?_eq_some h.distinct).mp he
  have href := h.refs e hmem
  rw [hid] at href
  exact href

theorem MapSound.of_entries {map : FiberRefs} (hdistinct : map.Distinct)
    (h : ∀ i e, map.entry? (c.ref i) = some e → e.ref = c.ref i) : MapSound c map where
  distinct := hdistinct
  refs e he := h e.ref.id e ((FiberRefs.entry?_eq_some hdistinct).mpr ⟨he, rfl⟩)

theorem MapSound.write {map : FiberRefs} (h : MapSound c map) (i : Nat) (value : Datum) :
    MapSound c (map.write (c.ref i) value) := by
  refine .of_entries (h.distinct.write _ _) fun j e he => ?_
  rw [FiberRefs.entry?_write] at he
  split at he
  · rename_i hij
    have hij : i = j := hij
    rw [← Option.some.inj he, hij]
  · exact h.ref_of_entry he

theorem MapSound.fork {map copy : FiberRefs} (h : MapSound c map) (hfork : map.fork = .ok copy) :
    MapSound c copy := by
  refine .of_entries (h.distinct.fork hfork) fun i f hf => ?_
  rcases FiberRefs.entry?_fork hfork (c.ref i) with ⟨-, hnone⟩ | ⟨e, f', he, hef, hf'⟩
  · cases hnone.symm.trans hf
  · obtain rfl := Option.some.inj (hf'.symm.trans hf)
    exact (FiberRefs.id_of_forkEntry hef).trans (h.ref_of_entry he)

/-- Merging two entries of one reference gives an entry of it that counts as written. -/
theorem mergeEntry_eq_ok {ours : Option RefEntry} {theirs e : RefEntry}
    (hours : ∀ o, ours = some o → o.ref = c.ref i) (htheirs : theirs.ref = c.ref i)
    (hwritten : theirs.touched = true) (h : FiberRefs.mergeEntry ours theirs = .ok e) :
    c.merge i (ours.map (·.value)) theirs.value = .ok e.value ∧ e.ref = c.ref i ∧ e.touched = true := by
  cases ours with
  | none =>
      obtain rfl := Except.ok.inj h
      exact ⟨rfl, htheirs, hwritten⟩
  | some o =>
      have href := hours o rfl
      have hpolicy : o.ref.policy = c.policy i := by rw [href]; rfl
      simp only [FiberRefs.mergeEntry, hpolicy] at h
      cases hjoin : (c.policy i).join o.value theirs.value with
      | error d =>
          rw [hjoin] at h
          cases h
      | ok value =>
          rw [hjoin] at h
          rw [← Except.ok.inj h]
          exact ⟨hjoin, href, rfl⟩

/-- An entry that a child wrote, by the number of its reference. -/
theorem mem_written_iff {map : FiberRefs} (h : MapSound c map) {e : RefEntry} :
    e ∈ map.written ∧ e.ref.id = i ↔ map.entry? (c.ref i) = some e ∧ e.touched = true := by
  rw [FiberRefs.mem_written, FiberRefs.entry?_eq_some h.distinct]
  exact ⟨fun ⟨⟨he, ht⟩, hid⟩ => ⟨⟨he, hid⟩, ht⟩, fun ⟨⟨he, hid⟩, ht⟩ => ⟨⟨he, ht⟩, hid⟩⟩

/-- What a merge makes of the entry of each reference. -/
theorem entry?_carried {map child : FiberRefs} (h : MapSound c map) (hchild : MapSound c child) (i : Nat) :
    (i ∉ (map.carried child.written).map (·.ref.id) →
      FiberRefs.entry? (map.join child).1 (c.ref i) = map.entry? (c.ref i)) ∧
    (i ∈ (map.carried child.written).map (·.ref.id) →
      ∃ theirs e, child.entry? (c.ref i) = some theirs ∧ theirs.touched = true ∧
        FiberRefs.entry? (map.join child).1 (c.ref i) = some e ∧ e.ref = c.ref i ∧ e.touched = true ∧
        c.merge i ((map.entry? (c.ref i)).map (·.value)) theirs.value = .ok e.value) := by
  obtain ⟨hgets, hkeeps⟩ := FiberRefs.entry?_joinEntries (m := map) hchild.distinct.written (c.ref i)
  refine ⟨fun hnot => hkeeps fun theirs hmem hid => hnot (List.mem_map.mpr ⟨theirs, hmem, hid⟩),
    fun hcarried => ?_⟩
  obtain ⟨theirs, hmem, hid⟩ := List.mem_map.mp hcarried
  obtain ⟨htheirs, htouched⟩ :=
    (mem_written_iff hchild).mp ⟨FiberRefs.carried_sublist.subset hmem, hid⟩
  obtain ⟨e, hmerge, he⟩ := hgets theirs hmem hid
  obtain ⟨hvalue, href, hmark⟩ := mergeEntry_eq_ok (fun o ho => h.ref_of_entry ho)
    (hchild.ref_of_entry htheirs) htouched hmerge
  exact ⟨theirs, e, htheirs, htouched, he, href, hmark, hvalue⟩

theorem MapSound.join {map child : FiberRefs} (h : MapSound c map) (hchild : MapSound c child) :
    MapSound c (map.join child).1 := by
  refine .of_entries (h.distinct.join child) fun i e he => ?_
  obtain ⟨hkeeps, hgets⟩ := entry?_carried h hchild i
  by_cases hcarried : i ∈ (map.carried child.written).map (·.ref.id)
  · obtain ⟨-, e', -, -, he', href, -⟩ := hgets hcarried
    obtain rfl := Option.some.inj (he'.symm.trans he)
    exact href
  · rw [hkeeps hcarried] at he
    exact h.ref_of_entry he

/-! ## Every operation keeps it -/

theorem refMap_start (config : Config) (services : Services) (board : σ) (k : Key .refs) :
    (start config services board).world.refMap k = .empty := by
  refine World.refMap_of_not_has fun ⟨map, h⟩ => ?_
  simp [start, World.new, Store.get?, Store.empty] at h

theorem sound_start (c : Catalogue) (config : Config) (services : Services) (board : σ) :
    (start config services board).Sound c where
  maps k := refMap_start config services board k ▸ mapSound_empty c
  marks k i := by
    rw [refMap_start]
    exact iff_of_false id fun ⟨e, he, _⟩ => nomatch he

/-- A map that is added brings no marks. -/
theorem Sound.newRefs (h : H.Sound c) {map : FiberRefs} (hmap : MapSound c map)
    (hunmarked : ∀ e ∈ map.entries, e.touched = false) :
    ({ H with world := (H.world.newRefs map).1 } : Chronicle σ).Sound c where
  maps k := by
    dsimp only
    rw [World.refMap_newRefs]
    split
    · exact hmap
    · exact h.maps k
  marks k i := by
    dsimp only
    rw [World.refMap_newRefs, h.marks]
    split
    · rename_i hk
      have hnew : H.world.refMap k = .empty :=
        World.refMap_of_not_has (hk ▸ World.not_has_newRefs H.world map)
      rw [hnew]
      refine iff_of_false (fun ⟨e, he, _⟩ => nomatch he) fun ⟨e, he, htouched⟩ => ?_
      have hmem : e ∈ map.entries := List.mem_of_find?_eq_some he
      rw [hunmarked e hmem] at htouched
      cases htouched
    · rfl

theorem Sound.fork (h : H.Sound c) (m : Key .refs) : (H.perform c (.fork m)).Sound c := by
  by_cases hm : H.world.HasRefs m
  · rw [perform_fork c hm, World.forkRefs]
    cases hfork : (H.world.refMap m).fork with
    | error d => exact h
    | ok copy => exact h.newRefs ((h.maps m).fork hfork) fun f => FiberRefs.untouched_fork hfork
  · rw [perform_fork_of_not_has c hm]
    exact h

theorem Sound.write (h : H.Sound c) (m : Key .refs) (i : Nat) (value : Datum) :
    (H.perform c (.write m i value)).Sound c := by
  by_cases hm : H.world.HasRefs m
  · constructor
    · intro k
      simp only [perform]
      rw [World.refMap_writeRef hm]
      split
      · exact (h.maps m).write i value
      · exact h.maps k
    · intro k j
      simp only [perform]
      rw [World.refMap_writeRef hm, h.marks]
      by_cases hmk : m = k
      · subst hmk
        rw [if_pos rfl, FiberRefs.entry?_write]
        by_cases hij : i = j
        · subst hij
          simp [hm]
        · have hid : ¬ (c.ref i).id = (c.ref j).id := hij
          rw [if_neg hid]
          simp [Ne.symm hij]
      · rw [if_neg hmk]
        simp [Ne.symm hmk]
  · simp only [perform, World.writeRef_of_not_has hm, hm, and_false, or_false]
    exact h

/-- A reference is carried if and only if the merge gets to an entry of it. -/
theorem Sound.carries_iff (h : H.Sound c) (hm : H.world.HasRefs m) (hne : m ≠ child) (i : Nat) :
    H.Carries m child i ↔
      i ∈ ((H.world.refMap m).carried (H.world.refMap child).written).map (·.ref.id) := by
  constructor
  · rintro ⟨-, -, hwritten, hreturns | hgot⟩
    · obtain ⟨e, he, htouched⟩ := (h.marks child i).mp hwritten
      obtain ⟨hmem, hid⟩ := (mem_written_iff (h.maps child)).mpr ⟨he, htouched⟩
      rw [World.joinRefs_snd hne] at hreturns
      rw [FiberRefs.carried_written hreturns]
      exact List.mem_map.mpr ⟨e, hmem, hid⟩
    · exact hgot
  · intro hgot
    obtain ⟨e, hmem, hid⟩ := List.mem_map.mp hgot
    have hwritten := (mem_written_iff (h.maps child)).mp ⟨FiberRefs.carried_sublist.subset hmem, hid⟩
    exact ⟨hm, hne, (h.marks child i).mpr ⟨e, hwritten⟩, Or.inr hgot⟩

theorem Sound.join (h : H.Sound c) (m child : Key .refs) : (H.perform c (.join m child)).Sound c := by
  by_cases hm : H.world.HasRefs m
  · by_cases hne : m = child
    · simp only [perform, World.command, World.joinRefs, hne, if_true, Carries, ne_eq, not_true,
        false_and, and_false, or_false]
      exact h
    · constructor
      · intro k
        simp only [perform, World.command]
        rw [World.refMap_joinRefs hne hm]
        split
        · exact (h.maps m).join (h.maps child)
        · exact h.maps k
      · intro k i
        simp only [perform, World.command]
        rw [World.refMap_joinRefs hne hm, h.marks]
        by_cases hmk : m = k
        · subst hmk
          rw [if_pos rfl, h.carries_iff hm hne]
          obtain ⟨hkeeps, hgets⟩ := entry?_carried (h.maps m) (h.maps child) i
          by_cases hcarried : i ∈ ((H.world.refMap m).carried (H.world.refMap child).written).map (·.ref.id)
          · obtain ⟨-, e, -, -, he, -, htouched, -⟩ := hgets hcarried
            exact iff_of_true (Or.inr ⟨rfl, hcarried⟩) ⟨e, he, htouched⟩
          · rw [hkeeps hcarried]
            simp only [hcarried, and_false, or_false]
        · rw [if_neg hmk]
          simp only [Ne.symm hmk, false_and, or_false]
  · simp only [perform, World.command, World.joinRefs_of_not_has hm, Carries, hm, false_and, and_false,
      or_false]
    exact h

theorem Sound.perform (h : H.Sound c) (op : RefsOp) : (H.perform c op).Sound c := by
  cases op with
  | make => exact h.newRefs (mapSound_empty c) nofun
  | fork m => exact h.fork m
  | join m child => exact h.join m child
  | write m i value => exact h.write m i value

theorem Sound.after (h : H.Sound c) (ops : List RefsOp) : (H.after c ops).Sound c := by
  induction ops generalizing H with
  | nil => exact h
  | cons op rest ih => exact ih (h.perform op)

theorem sound_after (c : Catalogue) (config : Config) (services : Services) (board : σ)
    (ops : List RefsOp) : ((start config services board).after c ops).Sound c :=
  (sound_start c config services board).after ops

/-! ## What each operation does -/

/-- A value that a map holds is what the reference reads as. -/
theorem read_of_entry {e : RefEntry} (h : FiberRefs.entry? (H.world.refMap k) (c.ref i) = some e) :
    H.read c k i = e.value := by
  rw [read_eq, value?, h]
  rfl

theorem value?_of_entry {e : RefEntry} (h : FiberRefs.entry? (H.world.refMap k) (c.ref i) = some e) :
    H.value? c k i = some e.value := by
  rw [value?, h]
  rfl

/-- What is done to one map leaves the others as they are. -/
theorem refMap_perform (op : RefsOp) (hk : H.world.HasRefs k) (htarget : op.target? ≠ some k) :
    (H.perform c op).world.refMap k = H.world.refMap k := by
  cases op with
  | make => exact (World.refMap_newRefs _ _ k).trans (if_neg (hk.ne_newRefs _))
  | fork m =>
      by_cases hm : H.world.HasRefs m
      · rw [perform_fork c hm]
        exact World.refMap_forkRefs hk
      · rw [perform_fork_of_not_has c hm]
  | join m child =>
      have hmk : m ≠ k := fun heq => htarget (congrArg some heq)
      simp only [perform, World.command]
      by_cases hne : m = child
      · rw [World.joinRefs, if_pos hne]
      · by_cases hm : H.world.HasRefs m
        · rw [World.refMap_joinRefs hne hm, if_neg hmk]
        · rw [World.joinRefs_of_not_has hm]
  | write m i value =>
      have hmk : m ≠ k := fun heq => htarget (congrArg some heq)
      simp only [perform]
      by_cases hm : H.world.HasRefs m
      · rw [World.refMap_writeRef hm, if_neg hmk]
      · rw [World.writeRef_of_not_has hm]

theorem refMap_write (hm : H.world.HasRefs m) (i : Nat) (value : Datum) (k : Key .refs) :
    (H.perform c (.write m i value)).world.refMap k =
      if m = k then (H.world.refMap m).write (c.ref i) value else H.world.refMap k :=
  World.refMap_writeRef hm (c.ref i) value k

theorem value?_write (hm : H.world.HasRefs m) (i : Nat) (value : Datum) (j : Nat) :
    (H.perform c (.write m i value)).value? c m j = if j = i then some value else H.value? c m j := by
  simp only [value?, refMap_write hm, if_true, FiberRefs.entry?_write]
  by_cases hji : j = i
  · rw [if_pos hji, if_pos (by rw [hji])]
    rfl
  · have hid : ¬ (c.ref i).id = (c.ref j).id := fun heq => hji heq.symm
    rw [if_neg hji, if_neg hid]

/-- What a child starts with: what its references' functions make of the values there are. -/
theorem Sound.value?_fork (h : H.Sound c) (hm : H.world.HasRefs m) {w' : World σ}
    (hfork : H.world.forkRefs m = (w', .ok k)) (i : Nat) :
    H.value? c m i = none ∧ (H.perform c (.fork m)).value? c k i = none ∨
      ∃ value value', H.value? c m i = some value ∧ (c.policy i).fork value = .ok value' ∧
        (H.perform c (.fork m)).value? c k i = some value' := by
  obtain ⟨copy, hcopy, rfl, rfl⟩ := World.forkRefs_eq_ok hfork
  simp only [value?, perform_fork c hm, hfork, World.refMap_newRefs, if_true]
  rcases FiberRefs.entry?_fork hcopy (c.ref i) with ⟨hnone, hnone'⟩ | ⟨e, f, he, hef, hf⟩
  · exact Or.inl ⟨by rw [hnone]; rfl, by rw [hnone']; rfl⟩
  · obtain ⟨value', hvalue, rfl⟩ := FiberRefs.forkEntry_eq_ok.mp hef
    have href := (h.maps m).ref_of_entry he
    refine Or.inr ⟨e.value, value', by rw [he]; rfl, ?_, by rw [hf]; rfl⟩
    rw [href] at hvalue
    exact hvalue

/-- What a merge makes of a reference: it is merged if the merge carries it, and is left alone if not. -/
theorem Sound.value?_join (h : H.Sound c) (hm : H.world.HasRefs m) (hne : m ≠ child) (i : Nat) :
    (H.Carries m child i ∧ ∃ value, c.merge i (H.value? c m i) (H.read c child i) = .ok value ∧
      (H.perform c (.join m child)).value? c m i = some value) ∨
    (¬ H.Carries m child i ∧ (H.perform c (.join m child)).value? c m i = H.value? c m i) := by
  obtain ⟨hkeeps, hgets⟩ := entry?_carried (h.maps m) (h.maps child) i
  have hmap : (H.perform c (.join m child)).world.refMap m =
      ((H.world.refMap m).join (H.world.refMap child)).1 := by
    simp only [Chronicle.perform, World.command, World.refMap_joinRefs hne hm, if_true]
  by_cases hcarries : H.Carries m child i
  · obtain ⟨theirs, e, htheirs, -, he, -, -, hmerge⟩ := hgets ((h.carries_iff hm hne i).mp hcarries)
    refine Or.inl ⟨hcarries, e.value, ?_, ?_⟩
    · rw [read_of_entry htheirs]
      exact hmerge
    · exact value?_of_entry (by rw [hmap]; exact he)
  · refine Or.inr ⟨hcarries, ?_⟩
    rw [value?, value?, hmap, hkeeps (mt (h.carries_iff hm hne i).mpr hcarries)]

/-- A merge does for a reference what it should if it carries it, and nothing if not. -/
theorem Sound.joins (h : H.Sound c) {m child : Key .refs} (hm : H.world.HasRefs m) (hne : m ≠ child)
    (i : Nat) :
    (H.Carries m child i →
      c.merge i (H.value? c m i) (H.read c child i) = .ok ((H.perform c (.join m child)).read c m i) ∧
      (H.perform c (.join m child)).written m i) ∧
    (¬ H.Carries m child i →
      (H.perform c (.join m child)).value? c m i = H.value? c m i ∧
      ((H.perform c (.join m child)).written m i ↔ H.written m i)) := by
  rcases h.value?_join hm hne i with ⟨hcarries, value, hmerge, hvalue⟩ | ⟨hnot, hvalue⟩
  · refine ⟨fun _ => ⟨?_, Or.inr ⟨rfl, hcarries⟩⟩, fun hnot => absurd hcarries hnot⟩
    rw [hmerge, read_eq, hvalue, Option.getD_some]
  · refine ⟨fun hcarries => absurd hcarries hnot, fun _ => ⟨hvalue, ?_⟩⟩
    exact ⟨fun hw => hw.resolve_right fun hc => hnot hc.2, Or.inl⟩

/-- A merge that returns carries all that was written in the child. -/
theorem carries_of_returns (hm : H.world.HasRefs m) (hne : m ≠ child)
    (hreturns : (H.world.joinRefs m child).2 = .ok ()) : H.Carries m child i ↔ H.written child i :=
  ⟨fun h => h.2.2.1, fun h => ⟨hm, hne, h, Or.inl hreturns⟩⟩

end Chronicle

end Fibers
