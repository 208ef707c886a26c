import Mathlib.Tactic.Common
import Mathlib.Data.List.Nodup
import Mathlib.Data.List.Forall2
import Mathlib.Data.List.Perm.Basic
import Fibers.FiberRefs

set_option autoImplicit false

/-! # What a map of references holds after each operation

A map holds one entry for every reference that has a value in it. For a write, a fork and a merge this
module says what entry each reference has afterwards. None of it depends on the order in which the entries
are kept, except for what a merge that panics has done before.
-/

namespace Fibers.FiberRefs

variable {m m' copy child : FiberRefs} {e f : RefEntry} {es fs : List RefEntry} {r q : FiberRef} {i : Nat}

/-! ## Entries -/

/-- No reference has two entries. -/
def Distinct (m : FiberRefs) : Prop := (m.entries.map (·.ref.id)).Nodup

theorem find?_eq_some (h : (es.map (·.ref.id)).Nodup) :
    es.find? (·.ref.id == i) = some e ↔ e ∈ es ∧ e.ref.id = i := by
  induction es with
  | nil => simp only [List.find?_nil, List.not_mem_nil, false_and, reduceCtorEq]
  | cons g rest ih =>
      obtain ⟨hfresh, hrest⟩ := List.nodup_cons.mp h
      rw [List.find?_cons, List.mem_cons]
      by_cases hg : g.ref.id = i
      · simp only [hg, beq_self_eq_true, Option.some.injEq]
        constructor
        · rintro rfl
          exact ⟨Or.inl rfl, hg⟩
        · rintro ⟨rfl | he, hid⟩
          · rfl
          · exact absurd (List.mem_map.mpr ⟨e, he, hid.trans hg.symm⟩) hfresh
      · simp only [beq_eq_false_iff_ne.mpr hg]
        rw [ih hrest]
        refine ⟨fun ⟨he, hid⟩ => ⟨Or.inr he, hid⟩, ?_⟩
        rintro ⟨rfl | he, hid⟩
        · exact absurd hid hg
        · exact ⟨he, hid⟩

theorem entry?_eq_some (h : m.Distinct) : m.entry? r = some e ↔ e ∈ m.entries ∧ e.ref.id = r.id :=
  find?_eq_some h

theorem entry?_eq_none : m.entry? r = none ↔ ∀ e ∈ m.entries, e.ref.id ≠ r.id := by
  unfold entry?
  simp only [List.find?_eq_none, beq_iff_eq, ne_eq]

theorem id_of_entry? (h : m.entry? r = some e) : e.ref.id = r.id := by
  have hfound := List.find?_some h
  exact beq_iff_eq.mp hfound

/-- An entry is found by the number of its reference alone. -/
theorem entry?_congr (h : r.id = q.id) : m.entry? r = m.entry? q := by
  unfold entry?
  rw [h]

/-- Maps that hold the same entries in another order give every reference the same entry. -/
theorem entry?_perm (h : m.Distinct) (hperm : m.entries.Perm m'.entries) (r : FiberRef) :
    m'.entry? r = m.entry? r := by
  have h' : m'.Distinct := (hperm.map _).nodup_iff.mp h
  refine Option.ext fun e => ?_
  rw [entry?_eq_some h', entry?_eq_some h, hperm.mem_iff]

theorem Distinct.perm (h : m.Distinct) (hperm : m.entries.Perm m'.entries) : m'.Distinct :=
  (hperm.map _).nodup_iff.mp h

/-- Two maps with the same entries hold them in some order each. -/
theorem perm_of_entry? (h : m.Distinct) (h' : m'.Distinct) (heq : ∀ r, m.entry? r = m'.entry? r) :
    m.entries.Perm m'.entries := by
  refine (List.perm_ext_iff_of_nodup (List.Nodup.of_map _ h) (List.Nodup.of_map _ h')).mpr fun e => ?_
  have hmem := (entry?_eq_some (r := e.ref) (e := e) h).symm
  rw [heq, entry?_eq_some h'] at hmem
  simpa only [and_true] using hmem

/-! ## Putting an entry in -/

theorem find?_put (e : RefEntry) (es : List RefEntry) (i : Nat) :
    (put e es).find? (·.ref.id == i) =
      if e.ref.id = i then some e else es.find? (·.ref.id == i) := by
  induction es with
  | nil =>
      by_cases he : e.ref.id = i
      · simp [put, he]
      · simp [put, he]
  | cons g rest ih =>
      unfold put
      by_cases hg : g.ref.id = e.ref.id
      · rw [if_pos (beq_iff_eq.mpr hg), List.find?_cons, List.find?_cons, hg]
        by_cases he : e.ref.id = i
        · simp only [he, beq_self_eq_true, if_true]
        · simp only [beq_eq_false_iff_ne.mpr he, he, if_false]
      · rw [if_neg (mt beq_iff_eq.mp hg), List.find?_cons, List.find?_cons, ih]
        by_cases hgi : g.ref.id = i
        · have he : e.ref.id ≠ i := fun he => hg (hgi.trans he.symm)
          simp only [hgi, beq_self_eq_true, he, if_false]
        · simp only [beq_eq_false_iff_ne.mpr hgi]

theorem entry?_put : FiberRefs.entry? (⟨put e m.entries⟩ : FiberRefs) r =
    if e.ref.id = r.id then some e else m.entry? r :=
  find?_put e m.entries r.id

theorem put_of_fresh (h : ∀ f ∈ es, f.ref.id ≠ e.ref.id) : put e es = es ++ [e] := by
  induction es with
  | nil => rfl
  | cons g rest ih =>
      unfold put
      rw [if_neg (mt beq_iff_eq.mp (h g List.mem_cons_self)),
        ih fun f hf => h f (List.mem_cons_of_mem _ hf)]
      rfl

theorem id_mem_put {i : Nat} : i ∈ (put e es).map (·.ref.id) ↔ i = e.ref.id ∨ i ∈ es.map (·.ref.id) := by
  induction es with
  | nil => simp [put]
  | cons g rest ih =>
      unfold put
      split
      · rename_i hg
        have hg : g.ref.id = e.ref.id := beq_iff_eq.mp hg
        simp only [List.map_cons, List.mem_cons, hg]
        tauto
      · rw [List.map_cons, List.mem_cons, ih, List.map_cons, List.mem_cons]
        tauto

theorem Distinct.put (h : m.Distinct) (e : RefEntry) :
    (⟨FiberRefs.put e m.entries⟩ : FiberRefs).Distinct := by
  unfold Distinct at h ⊢
  dsimp only
  generalize m.entries = es at h
  induction es with
  | nil => exact List.nodup_singleton _
  | cons g rest ih =>
      obtain ⟨hfresh, hrest⟩ := List.nodup_cons.mp h
      unfold FiberRefs.put
      split
      · rename_i hg
        dsimp only at hfresh
        rw [beq_iff_eq.mp hg] at hfresh
        exact List.nodup_cons.mpr ⟨hfresh, hrest⟩
      · rename_i hg
        refine List.nodup_cons.mpr ⟨fun hmem => ?_, ih hrest⟩
        rcases id_mem_put.mp hmem with heq | hmem
        · exact hg (beq_iff_eq.mpr heq)
        · exact hfresh hmem

/-! ## Writing -/

theorem entry?_write (m : FiberRefs) (r q : FiberRef) (value : Datum) :
    FiberRefs.entry? (m.write r value) q = if r.id = q.id then some ⟨r, value, true⟩ else m.entry? q :=
  entry?_put

theorem Distinct.write (h : m.Distinct) (r : FiberRef) (value : Datum) : (m.write r value).Distinct :=
  h.put _

/-! ## Forking -/

theorem forkEntry_eq_ok : forkEntry e = .ok f ↔
    ∃ value, e.ref.policy.fork e.value = .ok value ∧ f = { e with value, touched := false } := by
  unfold forkEntry
  cases e.ref.policy.fork e.value with
  | error d => simp [Except.map]
  | ok value => simp [Except.map, eq_comm]

/-- A map is forked entry by entry. -/
theorem mapM_forkEntry : es.mapM forkEntry = .ok fs ↔
    List.Forall₂ (fun e f => forkEntry e = .ok f) es fs := by
  induction es generalizing fs with
  | nil =>
      rw [List.mapM_nil, List.forall₂_nil_left_iff]
      exact ⟨fun h => (Except.ok.inj h).symm, fun h => h ▸ rfl⟩
  | cons e rest ih =>
      rw [List.mapM_cons, List.forall₂_cons_left_iff]
      cases he : forkEntry e with
      | error d => exact ⟨nofun, fun ⟨f, _, hf, _⟩ => nomatch hf⟩
      | ok f =>
          cases hrest : rest.mapM forkEntry with
          | error d =>
              refine ⟨nofun, fun ⟨f', fs', _, hfs, _⟩ => ?_⟩
              rw [ih.mpr hfs] at hrest
              cases hrest
          | ok fs' =>
              constructor
              · intro h
                obtain rfl := Except.ok.inj h
                exact ⟨f, fs', rfl, ih.mp hrest, rfl⟩
              · rintro ⟨f', fs'', hf, hfs, rfl⟩
                obtain rfl := Except.ok.inj hf
                obtain rfl := Except.ok.inj (hrest.symm.trans (ih.mpr hfs))
                rfl

theorem fork_eq_ok : m.fork = .ok copy ↔
    List.Forall₂ (fun e f => forkEntry e = .ok f) m.entries copy.entries := by
  rw [← mapM_forkEntry, fork]
  cases m.entries.mapM forkEntry with
  | error d => simp [Except.map]
  | ok fs =>
      cases copy with
      | mk entries => simp [Except.map]

theorem id_of_forkEntry (h : forkEntry e = .ok f) : f.ref = e.ref := by
  obtain ⟨value, -, rfl⟩ := forkEntry_eq_ok.mp h
  rfl

theorem ids_fork (h : List.Forall₂ (fun e f => forkEntry e = .ok f) es fs) :
    fs.map (·.ref.id) = es.map (·.ref.id) := by
  induction h with
  | nil => rfl
  | cons hef _ ih => rw [List.map_cons, List.map_cons, ih, id_of_forkEntry hef]

theorem Distinct.fork (h : m.Distinct) (hfork : m.fork = .ok copy) : copy.Distinct := by
  rw [Distinct, ids_fork (fork_eq_ok.mp hfork)]
  exact h

/-- A reference without an entry has none in the fork, and the entry of any other is forked. -/
theorem entry?_fork (hfork : m.fork = .ok copy) (r : FiberRef) :
    m.entry? r = none ∧ copy.entry? r = none ∨
      ∃ e f, m.entry? r = some e ∧ forkEntry e = .ok f ∧ copy.entry? r = some f := by
  have hall := fork_eq_ok.mp hfork
  unfold entry?
  generalize m.entries = es at hall
  generalize copy.entries = fs at hall
  induction hall with
  | nil => exact Or.inl ⟨rfl, rfl⟩
  | @cons e f es fs hef _ ih =>
      rw [List.find?_cons, List.find?_cons, id_of_forkEntry hef]
      by_cases he : e.ref.id = r.id
      · simp only [he, beq_self_eq_true]
        exact Or.inr ⟨e, f, rfl, hef, rfl⟩
      · simp only [beq_eq_false_iff_ne.mpr he]
        exact ih

/-- The entries of a fork are those of the map, each forked. -/
theorem map_forkEntry (hfork : m.fork = .ok copy) (r : FiberRef) :
    (m.entry? r).map forkEntry = (copy.entry? r).map .ok := by
  rcases entry?_fork hfork r with ⟨hnone, hnone'⟩ | ⟨e, f, he, hef, hf⟩
  · rw [hnone, hnone']
    rfl
  · rw [he, hf, Option.map_some, Option.map_some, hef]

/-- Nothing counts as written in a fork. -/
theorem untouched_fork (hfork : m.fork = .ok copy) (hf : f ∈ copy.entries) : f.touched = false := by
  have hall := fork_eq_ok.mp hfork
  generalize m.entries = es at hall
  generalize copy.entries = fs at hall hf
  induction hall with
  | nil => cases hf
  | @cons e g es fs heg _ ih =>
      rcases List.mem_cons.mp hf with rfl | hf
      · obtain ⟨value, -, rfl⟩ := forkEntry_eq_ok.mp heg
        rfl
      · exact ih hf

/-- A map can be forked if and only if each of its entries can. -/
theorem exists_fork : (∃ copy, m.fork = .ok copy) ↔ ∀ e ∈ m.entries, ∃ f, forkEntry e = .ok f := by
  simp only [fork_eq_ok]
  generalize m.entries = es
  induction es with
  | nil => exact ⟨fun _ e he => absurd he List.not_mem_nil, fun _ => ⟨empty, .nil⟩⟩
  | cons e rest ih =>
      simp only [List.forall_mem_cons, ← ih]
      constructor
      · rintro ⟨⟨fs⟩, hall⟩
        obtain ⟨f, fs', hf, hfs, -⟩ := List.forall₂_cons_left_iff.mp hall
        exact ⟨⟨f, hf⟩, ⟨fs'⟩, hfs⟩
      · rintro ⟨⟨f, hf⟩, ⟨fs⟩, hfs⟩
        exact ⟨⟨f :: fs⟩, .cons hf hfs⟩

/-- The order of the entries makes no difference to a fork. -/
theorem fork_perm (h : m.Distinct) (hperm : m.entries.Perm m'.entries) (hfork : m.fork = .ok copy) :
    ∃ copy', m'.fork = .ok copy' ∧ copy.entries.Perm copy'.entries := by
  obtain ⟨copy', hfork'⟩ : ∃ copy', m'.fork = .ok copy' :=
    exists_fork.mpr fun e he => exists_fork.mp ⟨copy, hfork⟩ e (hperm.mem_iff.mpr he)
  refine ⟨copy', hfork', perm_of_entry? (h.fork hfork) ((h.perm hperm).fork hfork') fun r => ?_⟩
  have hsame := entry?_perm h hperm r
  rcases entry?_fork hfork r with ⟨hnone, hcopy⟩ | ⟨e, f, he, hf, hcopy⟩
  · rcases entry?_fork hfork' r with ⟨-, hcopy'⟩ | ⟨e', -, he', -⟩
    · rw [hcopy, hcopy']
    · rw [hsame, hnone] at he'
      cases he'
  · rcases entry?_fork hfork' r with ⟨hnone', -⟩ | ⟨e', f', he', hf', hcopy'⟩
    · rw [hsame, he] at hnone'
      cases hnone'
    · obtain rfl := Option.some.inj ((he.symm.trans hsame.symm).trans he')
      obtain rfl := Except.ok.inj (hf.symm.trans hf')
      rw [hcopy, hcopy']

/-! ## Merging -/

/-- What becomes of the entry of a reference when an entry that a child wrote is merged into it. -/
def mergeEntry (ours : Option RefEntry) (theirs : RefEntry) : Except Defect RefEntry :=
  match ours with
  | none => .ok theirs
  | some ours =>
      (ours.ref.policy.join ours.value theirs.value).map fun value =>
        { ours with value, touched := true }

theorem joinEntry_eq (m : FiberRefs) (theirs : RefEntry) : m.joinEntry theirs =
    (mergeEntry (m.entry? theirs.ref) theirs).map fun e => ⟨put e m.entries⟩ := by
  unfold joinEntry mergeEntry
  cases hours : m.entry? theirs.ref with
  | none =>
      rw [← put_of_fresh (entry?_eq_none.mp hours)]
      rfl
  | some ours =>
      dsimp only
      cases ours.ref.policy.join ours.value theirs.value with
      | error d => rfl
      | ok value => rfl

theorem id_of_mergeEntry {theirs : RefEntry} (h : mergeEntry (m.entry? theirs.ref) theirs = .ok e) :
    e.ref.id = theirs.ref.id := by
  unfold mergeEntry at h
  cases hours : m.entry? theirs.ref with
  | none =>
      rw [hours] at h
      exact congrArg (·.ref.id) (Except.ok.inj h).symm
  | some ours =>
      rw [hours] at h
      dsimp only at h
      cases hjoin : ours.ref.policy.join ours.value theirs.value with
      | error d =>
          rw [hjoin] at h
          cases h
      | ok value =>
          rw [hjoin] at h
          have hid : ours.ref.id = theirs.ref.id := id_of_entry? hours
          rw [← Except.ok.inj h]
          exact hid

/-- Merging one entry changes the entry of its reference and no other. -/
theorem joinEntry_eq_ok {theirs : RefEntry} (h : m.joinEntry theirs = .ok m') :
    ∃ e, mergeEntry (m.entry? theirs.ref) theirs = .ok e ∧ m' = ⟨put e m.entries⟩ ∧
      e.ref.id = theirs.ref.id := by
  rw [joinEntry_eq] at h
  cases hmerge : mergeEntry (m.entry? theirs.ref) theirs with
  | error d =>
      rw [hmerge] at h
      cases h
  | ok e =>
      rw [hmerge] at h
      exact ⟨e, rfl, (Except.ok.inj h).symm, id_of_mergeEntry hmerge⟩

/-- The entries of a child that a merge gets through before one of the functions panics. -/
def carried (m : FiberRefs) : List RefEntry → List RefEntry
  | [] => []
  | theirs :: rest =>
      match m.joinEntry theirs with
      | .ok m => theirs :: m.carried rest
      | .error _ => []

/-- A merge that returns got through all entries. -/
theorem carried_of_ok (h : (m.joinEntries es).2 = .ok ()) : m.carried es = es := by
  induction es generalizing m with
  | nil => rfl
  | cons theirs rest ih =>
      unfold joinEntries at h
      unfold carried
      cases hjoin : m.joinEntry theirs with
      | error d =>
          rw [hjoin] at h
          cases h
      | ok m₁ =>
          rw [hjoin] at h
          dsimp only at h ⊢
          rw [ih h]

theorem carried_sublist : (m.carried es).Sublist es := by
  induction es generalizing m with
  | nil => exact List.Sublist.slnil
  | cons theirs rest ih =>
      unfold carried
      split
      · exact ih.cons_cons _
      · exact List.nil_sublist _

/-- A merge changes the entries of the references it got through, each as its function says, and leaves
the others alone. -/
theorem entry?_joinEntries (hdistinct : (es.map (·.ref.id)).Nodup) (r : FiberRef) :
    (∀ theirs ∈ m.carried es, theirs.ref.id = r.id →
      ∃ e, mergeEntry (m.entry? r) theirs = .ok e ∧ FiberRefs.entry? (m.joinEntries es).1 r = some e) ∧
    ((∀ theirs ∈ m.carried es, theirs.ref.id ≠ r.id) →
      FiberRefs.entry? (m.joinEntries es).1 r = m.entry? r) := by
  induction es generalizing m with
  | nil => exact ⟨fun _ h => absurd h List.not_mem_nil, fun _ => rfl⟩
  | cons theirs rest ih =>
      obtain ⟨hfresh, hrest⟩ := List.nodup_cons.mp hdistinct
      unfold carried joinEntries
      cases hjoin : m.joinEntry theirs with
      | error d => exact ⟨fun _ h => absurd h List.not_mem_nil, fun _ => rfl⟩
      | ok m₁ =>
          dsimp only
          obtain ⟨e, hmerge, hm₁, hid⟩ := joinEntry_eq_ok hjoin
          have hentry : m₁.entry? r = if theirs.ref.id = r.id then some e else m.entry? r := by
            rw [hm₁, entry?_put, hid]
          -- the entries after it are of other references
          have hothers (g : RefEntry) (hg : g ∈ m₁.carried rest) : g.ref.id ≠ theirs.ref.id := by
            intro heq
            exact hfresh (List.mem_map.mpr ⟨g, carried_sublist.subset hg, heq⟩)
          obtain ⟨hmerged, hkept⟩ := ih (m := m₁) hrest
          refine ⟨fun g hg hgid => ?_, fun hnone => ?_⟩
          · rcases List.mem_cons.mp hg with rfl | hg
            · refine ⟨e, by rw [← entry?_congr hgid]; exact hmerge, ?_⟩
              rw [hkept fun g hg => hgid ▸ hothers g hg, hentry, if_pos hgid]
            · have hne : theirs.ref.id ≠ r.id := fun heq => hothers g hg (hgid.trans heq.symm)
              rw [if_neg hne] at hentry
              rw [← hentry]
              exact hmerged g hg hgid
          · obtain ⟨hne, hnone⟩ := List.forall_mem_cons.mp hnone
            rw [hkept hnone, hentry, if_neg hne]

theorem Distinct.joinEntries (h : m.Distinct) : (m.joinEntries es).1.Distinct := by
  induction es generalizing m with
  | nil => exact h
  | cons theirs rest ih =>
      unfold FiberRefs.joinEntries
      cases hjoin : m.joinEntry theirs with
      | error d => exact h
      | ok m₁ =>
          obtain ⟨e, -, rfl, -⟩ := joinEntry_eq_ok hjoin
          exact ih (h.put e)

/-- A merge returns if and only if each entry can be merged. -/
theorem joinEntries_returns (hdistinct : (es.map (·.ref.id)).Nodup) :
    (m.joinEntries es).2 = .ok () ↔ ∀ theirs ∈ es, ∃ e, mergeEntry (m.entry? theirs.ref) theirs = .ok e := by
  induction es generalizing m with
  | nil => exact ⟨fun _ _ h => absurd h List.not_mem_nil, fun _ => rfl⟩
  | cons theirs rest ih =>
      obtain ⟨hfresh, hrest⟩ := List.nodup_cons.mp hdistinct
      rw [List.forall_mem_cons]
      unfold joinEntries
      rw [joinEntry_eq]
      cases hmerge : mergeEntry (m.entry? theirs.ref) theirs with
      | error d =>
          exact ⟨nofun, fun ⟨⟨e, he⟩, _⟩ => nomatch he⟩
      | ok e =>
          -- merging the first leaves the entries of the references that follow alone
          have hkept (g : RefEntry) (hg : g ∈ rest) :
              FiberRefs.entry? (⟨put e m.entries⟩ : FiberRefs) g.ref = m.entry? g.ref := by
            rw [entry?_put, if_neg]
            rw [id_of_mergeEntry hmerge]
            exact fun heq => hfresh (List.mem_map.mpr ⟨g, hg, heq.symm⟩)
          refine (ih (m := ⟨put e m.entries⟩) hrest).trans ?_
          constructor
          · exact fun h => ⟨⟨e, rfl⟩, fun g hg => hkept g hg ▸ h g hg⟩
          · exact fun h g hg => (hkept g hg).symm ▸ h.2 g hg

/-! ## Merging what a child wrote -/

/-- What a child wrote, in the order of its map. -/
def written (child : FiberRefs) : List RefEntry := child.entries.filter (·.touched)

theorem Distinct.written (h : child.Distinct) : (child.written.map (·.ref.id)).Nodup :=
  h.sublist (List.filter_sublist.map _)

theorem mem_written : e ∈ child.written ↔ e ∈ child.entries ∧ e.touched = true := List.mem_filter

/-- A merge that returns got through all that the child wrote. -/
theorem carried_written (h : (m.join child).2 = .ok ()) : m.carried child.written = child.written :=
  carried_of_ok h

theorem Distinct.join (h : m.Distinct) (child : FiberRefs) : (m.join child).1.Distinct := h.joinEntries

/-- After a merge that returns, the entry of a reference is merged if the child wrote it, and is as before
if not. -/
theorem entry?_join (hchild : child.Distinct) (hreturns : (m.join child).2 = .ok ()) (r : FiberRef) :
    (∀ theirs, child.entry? r = some theirs → theirs.touched = true →
      ∃ e, mergeEntry (m.entry? r) theirs = .ok e ∧ FiberRefs.entry? (m.join child).1 r = some e) ∧
    ((∀ theirs, child.entry? r = some theirs → theirs.touched = false) →
      FiberRefs.entry? (m.join child).1 r = m.entry? r) := by
  obtain ⟨hgets, hkeeps⟩ := entry?_joinEntries (m := m) hchild.written r
  rw [carried_written hreturns] at hgets hkeeps
  refine ⟨fun theirs htheirs htouched => ?_, fun huntouched => hkeeps fun theirs hmem hid => ?_⟩
  · obtain ⟨hmem, hid⟩ := (entry?_eq_some hchild).mp htheirs
    exact hgets theirs (mem_written.mpr ⟨hmem, htouched⟩) hid
  · obtain ⟨hmem, htouched⟩ := mem_written.mp hmem
    rw [huntouched theirs ((entry?_eq_some hchild).mpr ⟨hmem, hid⟩)] at htouched
    cases htouched

/-- The order of the entries, of either map, makes no difference to a merge that returns. -/
theorem join_perm {child' merged : FiberRefs} (h : m.Distinct) (hchild : child.Distinct)
    (hperm : m.entries.Perm m'.entries) (hpermChild : child.entries.Perm child'.entries)
    (hjoin : m.join child = (merged, .ok ())) :
    ∃ merged', m'.join child' = (merged', .ok ()) ∧ merged.entries.Perm merged'.entries := by
  have h' := h.perm hperm
  have hchild' := hchild.perm hpermChild
  have hwritten (e : RefEntry) : e ∈ child'.written ↔ e ∈ child.written := by
    rw [mem_written, mem_written, hpermChild.mem_iff]
  have hreturns : (m.join child).2 = .ok () := congrArg Prod.snd hjoin
  have hreturns' : (m'.join child').2 = .ok () := by
    refine (joinEntries_returns hchild'.written).mpr fun e he => ?_
    rw [entry?_perm h hperm]
    exact (joinEntries_returns hchild.written).mp hreturns e ((hwritten e).mp he)
  refine ⟨(m'.join child').1, by rw [← hreturns'], ?_⟩
  rw [show merged = (m.join child).1 from (congrArg Prod.fst hjoin).symm]
  refine perm_of_entry? (h.join child) (h'.join child') fun r => ?_
  obtain ⟨hgets, hkeeps⟩ := entry?_join hchild hreturns r
  obtain ⟨hgets', hkeeps'⟩ := entry?_join hchild' hreturns' r
  rw [entry?_perm h hperm, entry?_perm hchild hpermChild] at hgets' hkeeps'
  by_cases hex : ∃ theirs, child.entry? r = some theirs ∧ theirs.touched = true
  · obtain ⟨theirs, htheirs, htouched⟩ := hex
    obtain ⟨e, he, hentry⟩ := hgets theirs htheirs htouched
    obtain ⟨e', he', hentry'⟩ := hgets' theirs htheirs htouched
    obtain rfl := Except.ok.inj (he.symm.trans he')
    exact hentry.trans hentry'.symm
  · have huntouched : ∀ theirs, child.entry? r = some theirs → theirs.touched = false :=
      fun theirs htheirs => Bool.eq_false_iff.mpr fun htouched => hex ⟨theirs, htheirs, htouched⟩
    exact (hkeeps huntouched).trans (hkeeps' huntouched).symm

end Fibers.FiberRefs
