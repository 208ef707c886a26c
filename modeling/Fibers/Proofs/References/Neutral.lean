import Mathlib.Data.List.TFAE
import Mathlib.Tactic.TFAE
import Fibers.Proofs.References.Chronicle
import Fibers.Script.Syntax

set_option autoImplicit false

/-! # References that were never written

A map has no entry for a reference that was never written, and then the functions of the reference are not
called: a child reads the initial value where its fork function would have given another one, and a merge
takes over the value of the child where its join function would have combined the two. So the policy of a
reference applies to whatever a fiber reads if the reference was set at the start, and otherwise if and only
if the functions of the policy are neutral at the initial value. The same condition decides whether any
history can tell a reference that was never set from one that was set to its initial value at the start.
-/

namespace Fibers

variable {σ : Type}

/-- The functions of a reference make no difference to its initial value: a child starts with it, and a
value merged into it wins. -/
structure Catalogue.Neutral (c : Catalogue) (i : Nat) : Prop where
  fork : (c.policy i).fork (c.initial i) = .ok (c.initial i)
  join : ∀ value, (c.policy i).join (c.initial i) value = .ok value

namespace Chronicle

variable {c : Catalogue} {H A B : Chronicle σ} {m child k : Key .refs} {i j : Nat}

/-- The policy of a reference applies to what is read: a child reads what the fork function makes of the
parent's value, and after a merge the parent reads what the join function makes of both values if the
reference was written in the child, and what it did otherwise. -/
structure Applies (c : Catalogue) (i : Nat) (H : Chronicle σ) : Prop where
  fork : ∀ m k w', H.world.HasRefs m → H.world.forkRefs m = (w', .ok k) →
    (c.policy i).fork (H.read c m i) = .ok ((H.perform c (.fork m)).read c k i)
  join : ∀ m child, m ≠ child → H.world.HasRefs m → (H.world.joinRefs m child).2 = .ok () →
    (H.written child i →
      (c.policy i).join (H.read c m i) (H.read c child i) =
        .ok ((H.perform c (.join m child)).read c m i)) ∧
    (¬ H.written child i → (H.perform c (.join m child)).read c m i = H.read c m i)

/-- An operation does not panic. -/
def Succeeds (H : Chronicle σ) : RefsOp → Prop
  | .make => True
  | .fork m => ∃ k, (H.world.forkRefs m).2 = .ok k
  | .join m child => (H.world.joinRefs m child).2 = .ok ()
  | .write _ _ _ => True

/-- No operation of a row panics. -/
def Returns (c : Catalogue) (H : Chronicle σ) : List RefsOp → Prop
  | [] => True
  | op :: rest => H.Succeeds op ∧ (H.perform c op).Returns c rest

/-- No history of forks, writes and merges of children tells whether a reference was set to its initial
value in the first map at the start: either way its operations return alike, and all references read
alike. -/
def Alike (c : Catalogue) (i : Nat) (H : Chronicle σ) : Prop :=
  ∀ ops, (∀ m, .join m ⟨0⟩ ∉ ops) →
    let unset := H.perform c .make
    let set := unset.perform c (.write ⟨0⟩ i (c.initial i))
    (unset.Returns c ops ↔ set.Returns c ops) ∧
    (unset.Returns c ops → ∀ k j, (unset.after c ops).read c k j = (set.after c ops).read c k j)

/-! ## Where the policy applies -/

/-- The policy applies to a reference if it has a value in every map or if its functions are neutral. -/
theorem Sound.applies (h : H.Sound c)
    (hset : ∀ k, H.world.HasRefs k → H.value? c k i = none → c.Neutral i) : Applies c i H where
  fork m k w' hm hfork := by
    rcases h.value?_fork hm hfork i with ⟨hnone, hnone'⟩ | ⟨value, value', hvalue, hpolicy, hvalue'⟩
    · rw [read_eq, hnone, read_eq, hnone']
      exact (hset m hm hnone).fork
    · rw [read_eq, hvalue, read_eq, hvalue']
      exact hpolicy
  join m child hne hm hreturns := by
    have hcarries : H.Carries m child i ↔ H.written child i := carries_of_returns hm hne hreturns
    obtain ⟨hgets, hkeeps⟩ := h.joins hm hne i
    refine ⟨fun hwritten => ?_, fun hnot => ?_⟩
    · have hmerge := (hgets (hcarries.mpr hwritten)).1
      rw [read_eq]
      cases hvalue : H.value? c m i with
      | none =>
          rw [hvalue] at hmerge
          rw [Option.getD_none, (hset m hm hvalue).join]
          exact hmerge
      | some value =>
          rw [hvalue] at hmerge
          exact hmerge
    · rw [read_eq, read_eq, (hkeeps (mt hcarries.mp hnot)).1]

/-- The maps there are after an operation: those there were, and one that was made. -/
theorem has_perform {op : RefsOp} (hop : op ≠ .make) (hk : (H.perform c op).world.HasRefs k) :
    H.world.HasRefs k ∨
      ∃ m w', op = .fork m ∧ H.world.HasRefs m ∧ H.world.forkRefs m = (w', .ok k) := by
  cases op with
  | make => exact absurd rfl hop
  | fork m =>
      by_cases hm : H.world.HasRefs m
      · rw [perform_fork c hm, World.forkRefs] at hk
        cases hcopy : (H.world.refMap m).fork with
        | error d =>
            rw [hcopy] at hk
            exact Or.inl hk
        | ok copy =>
            rw [hcopy] at hk
            have hlt := World.hasRefs_iff.mp hk
            rw [World.size_newRefs] at hlt
            rcases Nat.lt_succ_iff_lt_or_eq.mp hlt with hlt | heq
            · exact Or.inl (World.hasRefs_iff.mpr hlt)
            · refine Or.inr ⟨m, (H.world.newRefs copy).1, rfl, hm, ?_⟩
              rw [World.forkRefs, hcopy, show k = (H.world.newRefs copy).2 from congrArg Key.mk heq]
      · rw [perform_fork_of_not_has c hm] at hk
        exact Or.inl hk
  | join m child =>
      rw [World.hasRefs_iff] at hk ⊢
      rw [← World.size_joinRefs H.world m child]
      exact Or.inl hk
  | write m j value =>
      rw [World.hasRefs_iff] at hk ⊢
      rw [← World.size_writeRef H.world m (c.ref j) value]
      exact Or.inl hk

/-- A reference that has a value in every map keeps one in every map, unless an empty map is made. -/
theorem Sound.set_perform (h : H.Sound c)
    (hset : ∀ k, H.world.HasRefs k → H.value? c k i ≠ none) {op : RefsOp} (hop : op ≠ .make)
    (hk : (H.perform c op).world.HasRefs k) : (H.perform c op).value? c k i ≠ none := by
  rcases has_perform hop hk with hold | ⟨m, w', rfl, hm, hfork⟩
  · have hkept (htarget : op.target? ≠ some k) : (H.perform c op).value? c k i ≠ none := by
      rw [value?, refMap_perform op hold htarget]
      exact hset k hold
    cases op with
    | make => exact absurd rfl hop
    | fork m => exact hkept fun heq => by cases heq
    | join m child =>
        by_cases hmk : m = k
        · subst hmk
          by_cases hne : m = child
          · rw [value?, Chronicle.perform, World.command, World.joinRefs, if_pos hne]
            exact hset m hold
          · rcases h.value?_join hold hne i with ⟨-, value, -, hvalue⟩ | ⟨-, hvalue⟩
            · rw [hvalue]
              exact Option.some_ne_none value
            · rw [hvalue]
              exact hset m hold
        · exact hkept fun heq => hmk (Option.some.inj heq)
    | write m j value =>
        by_cases hmk : m = k
        · subst hmk
          rw [value?_write hold]
          split
          · exact Option.some_ne_none value
          · exact hset m hold
        · exact hkept fun heq => hmk (Option.some.inj heq)
  · rcases h.value?_fork hm hfork i with ⟨hnone, -⟩ | ⟨value, value', -, -, hvalue'⟩
    · exact absurd hnone (hset m hm)
    · rw [hvalue']
      exact Option.some_ne_none value'

/-! ## The first map -/

theorem has_first (c : Catalogue) (config : Config) (services : Services) (board : σ) :
    ((start config services board).perform c .make).world.HasRefs ⟨0⟩ := ⟨.empty, rfl⟩

/-- The first map that is made is the only one. -/
theorem has_make {config : Config} {services : Services} {board : σ}
    (hk : ((start config services board).perform c .make).world.HasRefs k) : k = ⟨0⟩ := by
  have hlt : k.index < 1 := World.hasRefs_iff.mp hk
  exact congrArg Key.mk (Nat.lt_one_iff.mp hlt)

/-- Nothing was written in it. -/
theorem value?_make (c : Catalogue) (config : Config) (services : Services) (board : σ) (i : Nat) :
    ((start config services board).perform c .make).value? c ⟨0⟩ i = none := rfl

theorem has_write {value : Datum} : (H.perform c (.write m i value)).world.HasRefs k ↔ H.world.HasRefs k := by
  rw [World.hasRefs_iff, World.hasRefs_iff, ← World.size_writeRef H.world m (c.ref i) value]
  rfl

/-- The policy applies to a reference that was set in the first map at the start, whatever the policy. -/
theorem applies_of_written (c : Catalogue) (i : Nat) (config : Config) (services : Services) (board : σ)
    (value : Datum) {ops : List RefsOp} (hops : .make ∉ ops) :
    Applies c i ((start config services board).after c (.make :: .write ⟨0⟩ i value :: ops)) := by
  suffices hset : ∀ k, ((start config services board).after c
      (.make :: .write ⟨0⟩ i value :: ops)).world.HasRefs k →
      ((start config services board).after c (.make :: .write ⟨0⟩ i value :: ops)).value? c k i ≠ none from
    (sound_after c config services board _).applies fun k hk hnone => absurd hnone (hset k hk)
  induction ops using List.reverseRecOn with
  | nil =>
      intro k hk
      obtain rfl : k = ⟨0⟩ := has_make (has_write.mp hk)
      refine ne_of_eq_of_ne (value?_write (has_first c config services board) i value i) ?_
      rw [if_pos rfl]
      exact nofun
  | append_singleton ops op ih =>
      have hmem : .make ∉ ops := fun hmem => hops (List.mem_append_left _ hmem)
      have hop : op ≠ .make := fun heq => hops (heq ▸ List.mem_append_right _ List.mem_cons_self)
      rw [← List.cons_append, ← List.cons_append, after_concat]
      exact fun k hk => (sound_after c config services board _).set_perform (ih hmem) hop hk

/-! ## Two histories side by side -/

/-- How the entries of the reference `j` in a map of two systems compare: they are the same, or it is the
reference `i`, which has no entry in the one and its initial value in the other. -/
def Twin (c : Catalogue) (i j : Nat) (k : Key .refs) (a b : Option RefEntry) : Prop :=
  a = b ∨ j = i ∧ a = none ∧
    ∃ touched, b = some ⟨c.ref i, c.initial i, touched⟩ ∧ (touched = true → k = ⟨0⟩)

/-- Two systems that differ in whether the reference `i` was set in the first map. -/
structure Twins (c : Catalogue) (i : Nat) (A B : Chronicle σ) : Prop where
  left : A.Sound c
  right : B.Sound c
  size : A.world.refs.items.size = B.world.refs.items.size
  entries : ∀ k j, Twin c i j k (FiberRefs.entry? (A.world.refMap k) (c.ref j)) (FiberRefs.entry? (B.world.refMap k) (c.ref j))

theorem Twins.has_iff (h : Twins c i A B) : A.world.HasRefs k ↔ B.world.HasRefs k := by
  rw [World.hasRefs_iff, World.hasRefs_iff, h.size]

/-- The two systems read alike. -/
theorem Twins.read (h : Twins c i A B) (k : Key .refs) (j : Nat) : A.read c k j = B.read c k j := by
  rw [read_eq, read_eq, value?, value?]
  rcases h.entries k j with heq | ⟨rfl, hnone, touched, hset, -⟩
  · rw [heq]
  · rw [hnone, hset]
    rfl

theorem forkRefs_returns : (∃ k, (H.world.forkRefs m).2 = .ok k) ↔
    ∃ copy, (H.world.refMap m).fork = .ok copy := by
  rw [World.forkRefs]
  cases (H.world.refMap m).fork with
  | error d =>
      constructor
      · rintro ⟨k, hk⟩
        cases hk
      · rintro ⟨copy, hcopy⟩
        cases hcopy
  | ok copy => exact ⟨fun _ => ⟨copy, rfl⟩, fun _ => ⟨_, rfl⟩⟩

/-- A map can be forked if and only if the entry of each reference can. -/
theorem MapSound.forks_iff {map : FiberRefs} (h : MapSound c map) : (∃ copy, map.fork = .ok copy) ↔
    ∀ j e, map.entry? (c.ref j) = some e → ∃ f, FiberRefs.forkEntry e = .ok f := by
  rw [FiberRefs.exists_fork]
  constructor
  · exact fun hall j e he => hall e ((FiberRefs.entry?_eq_some h.distinct).mp he).1
  · exact fun hall e he => hall e.ref.id e ((FiberRefs.entry?_eq_some h.distinct).mpr ⟨he, rfl⟩)

/-- A merge returns if and only if the entry of each reference that the child wrote can be merged. -/
theorem MapSound.joins_iff {map child : FiberRefs} (hchild : MapSound c child) :
    (map.join child).2 = .ok () ↔
    ∀ j theirs, child.entry? (c.ref j) = some theirs → theirs.touched = true →
      ∃ e, FiberRefs.mergeEntry (map.entry? (c.ref j)) theirs = .ok e := by
  refine (FiberRefs.joinEntries_returns hchild.distinct.written).trans ?_
  constructor
  · intro hall j theirs htheirs htouched
    obtain ⟨hmem, hid⟩ := (mem_written_iff hchild).mpr ⟨htheirs, htouched⟩
    obtain ⟨e, he⟩ := hall theirs hmem
    exact ⟨e, FiberRefs.entry?_congr (m := map) (r := theirs.ref) (q := c.ref j) hid ▸ he⟩
  · intro hall theirs hmem
    obtain ⟨htheirs, htouched⟩ := (mem_written_iff hchild).mp ⟨hmem, rfl⟩
    obtain ⟨e, he⟩ := hall theirs.ref.id theirs htheirs htouched
    exact ⟨e, FiberRefs.entry?_congr (m := map) (r := theirs.ref) (q := c.ref theirs.ref.id) rfl ▸ he⟩

/-- A merge between the two systems goes the same way in both, if the functions of the reference are
neutral. -/
theorem mergeEntry_unset (hn : c.Neutral i) {theirs : RefEntry} (href : theirs.ref = c.ref i)
    (htouched : theirs.touched = true) (touched : Bool) :
    FiberRefs.mergeEntry (some ⟨c.ref i, c.initial i, touched⟩) theirs = .ok theirs := by
  have hjoin : (c.ref i).policy.join (c.initial i) theirs.value = .ok theirs.value := hn.join theirs.value
  cases theirs with
  | mk ref value mark =>
      subst href htouched
      simp only [FiberRefs.mergeEntry, hjoin]
      rfl

theorem forkEntry_initial (hn : c.Neutral i) (touched : Bool) :
    FiberRefs.forkEntry ⟨c.ref i, c.initial i, touched⟩ = .ok ⟨c.ref i, c.initial i, false⟩ :=
  FiberRefs.forkEntry_eq_ok.mpr ⟨c.initial i, hn.fork, rfl⟩

/-- What a child other than the first map wrote is the same in both systems. -/
theorem Twins.wrote (h : Twins c i A B) (hchild : child ≠ ⟨0⟩) {theirs : RefEntry} (j : Nat) :
    FiberRefs.entry? (A.world.refMap child) (c.ref j) = some theirs ∧ theirs.touched = true ↔
      FiberRefs.entry? (B.world.refMap child) (c.ref j) = some theirs ∧ theirs.touched = true := by
  rcases h.entries child j with heq | ⟨-, hnone, touched, hset, hfirst⟩
  · rw [heq]
  · rw [hnone, hset]
    refine iff_of_false (fun hc => nomatch hc.1) fun hc => hchild (hfirst ?_)
    obtain rfl := Option.some.inj hc.1
    exact hc.2

/-- If the functions of the reference are neutral, an operation panics in both systems or in neither. -/
theorem Twins.succeeds_iff (h : Twins c i A B) (hn : c.Neutral i) (op : RefsOp)
    (hop : ∀ m, op ≠ .join m ⟨0⟩) : A.Succeeds op ↔ B.Succeeds op := by
  cases op with
  | make => exact Iff.rfl
  | write m j value => exact Iff.rfl
  | fork m =>
      rw [Succeeds, Succeeds, forkRefs_returns, forkRefs_returns, (h.left.maps m).forks_iff,
        (h.right.maps m).forks_iff]
      refine forall_congr' fun j => ?_
      rcases h.entries m j with heq | ⟨rfl, hnone, touched, hset, -⟩
      · rw [heq]
      · rw [hnone, hset]
        refine iff_of_true (fun e he => by cases he) fun e he => ?_
        obtain rfl := Option.some.inj he
        exact ⟨_, forkEntry_initial hn touched⟩
  | join m child =>
      by_cases hne : m = child
      · rw [Succeeds, Succeeds, World.joinRefs, World.joinRefs, if_pos hne, if_pos hne]
      · have hchild : child ≠ ⟨0⟩ := fun heq => hop m (heq ▸ rfl)
        rw [Succeeds, Succeeds, World.joinRefs_snd hne, World.joinRefs_snd hne,
          MapSound.joins_iff (h.left.maps child), MapSound.joins_iff (h.right.maps child)]
        refine forall_congr' fun j => forall_congr' fun theirs => ?_
        rw [← and_imp, ← and_imp, h.wrote hchild]
        refine imp_congr_right fun hwritten => ?_
        obtain ⟨htheirs, htouched⟩ := hwritten
        rcases h.entries m j with heq | ⟨rfl, hnone, touched, hset, -⟩
        · rw [heq]
        · rw [hnone, hset]
          have href := (h.right.maps child).ref_of_entry htheirs
          exact iff_of_true ⟨theirs, rfl⟩ ⟨theirs, mergeEntry_unset hn href htouched touched⟩

theorem Twins.newRefs (h : Twins c i A B) {a b : FiberRefs} {A' B' : Chronicle σ}
    (hA : A'.world = (A.world.newRefs a).1) (hB : B'.world = (B.world.newRefs b).1)
    (hA' : A'.Sound c) (hB' : B'.Sound c)
    (hab : ∀ j, Twin c i j ⟨A.world.refs.items.size⟩ (a.entry? (c.ref j)) (b.entry? (c.ref j))) :
    Twins c i A' B' where
  left := hA'
  right := hB'
  size := by rw [hA, hB, World.size_newRefs, World.size_newRefs, h.size]
  entries k j := by
    have hkey : (B.world.newRefs b).2 = (A.world.newRefs a).2 := congrArg Key.mk h.size.symm
    rw [hA, hB, World.refMap_newRefs, World.refMap_newRefs, hkey]
    split
    · rename_i hk
      subst hk
      exact hab j
    · exact h.entries k j

/-- If the functions of the reference are neutral, a fork keeps the two systems together. -/
theorem Twins.fork (h : Twins c i A B) (hn : c.Neutral i) (hreturns : A.Succeeds (.fork m)) :
    Twins c i (A.perform c (.fork m)) (B.perform c (.fork m)) := by
  have hreturns' := (h.succeeds_iff hn (.fork m) fun _ heq => by cases heq).mp hreturns
  by_cases hm : A.world.HasRefs m
  · obtain ⟨copyA, hcopyA⟩ := forkRefs_returns.mp hreturns
    obtain ⟨copyB, hcopyB⟩ := forkRefs_returns.mp hreturns'
    refine h.newRefs (a := copyA) (b := copyB) ?_ ?_ (h.left.perform _) (h.right.perform _) fun j => ?_
    · rw [perform_fork c hm, World.forkRefs, hcopyA]
    · rw [perform_fork c (h.has_iff.mp hm), World.forkRefs, hcopyB]
    · have hA := FiberRefs.map_forkEntry hcopyA (c.ref j)
      have hB := FiberRefs.map_forkEntry hcopyB (c.ref j)
      rcases h.entries m j with heq | ⟨rfl, hnone, touched, hset, -⟩
      · rw [heq, hB] at hA
        exact Or.inl (Option.map_injective (fun _ _ => Except.ok.inj) hA.symm)
      · rw [hnone] at hA
        rw [hset, Option.map_some, forkEntry_initial hn] at hB
        obtain ⟨f, hf, hok⟩ := Option.map_eq_some_iff.mp hB.symm
        refine Or.inr ⟨rfl, Option.map_eq_none_iff.mp hA.symm, false, ?_, fun h => by cases h⟩
        rw [hf, Except.ok.inj hok]
  · rw [perform_fork_of_not_has c hm, perform_fork_of_not_has c (mt h.has_iff.mpr hm)]
    exact h

/-- If the functions of the reference are neutral, a merge of a map other than the first keeps the two
systems together. -/
theorem Twins.join (h : Twins c i A B) (hn : c.Neutral i) (hchild : child ≠ ⟨0⟩)
    (hreturns : A.Succeeds (.join m child)) :
    Twins c i (A.perform c (.join m child)) (B.perform c (.join m child)) := by
  have hop : ∀ m', RefsOp.join m child ≠ .join m' ⟨0⟩ := fun m' heq => hchild (RefsOp.join.inj heq).2
  have hreturns' := (h.succeeds_iff hn _ hop).mp hreturns
  refine ⟨h.left.perform _, h.right.perform _, ?_, fun k j => ?_⟩
  · exact (World.size_joinRefs ..).trans (h.size.trans (World.size_joinRefs ..).symm)
  simp only [Chronicle.perform, World.command]
  by_cases hne : m = child
  · rw [World.joinRefs, World.joinRefs, if_pos hne, if_pos hne]
    exact h.entries k j
  by_cases hm : A.world.HasRefs m
  · rw [World.refMap_joinRefs hne hm, World.refMap_joinRefs hne (h.has_iff.mp hm)]
    rw [Succeeds, World.joinRefs_snd hne] at hreturns hreturns'
    split
    · rename_i hmk
      subst hmk
      obtain ⟨hgetsA, hkeepsA⟩ := FiberRefs.entry?_join (h.left.maps child).distinct hreturns (c.ref j)
      obtain ⟨hgetsB, hkeepsB⟩ := FiberRefs.entry?_join (h.right.maps child).distinct hreturns' (c.ref j)
      by_cases hex : ∃ theirs, FiberRefs.entry? (A.world.refMap child) (c.ref j) = some theirs ∧
          theirs.touched = true
      · obtain ⟨theirs, htheirs, htouched⟩ := hex
        have htheirs' := ((h.wrote hchild j).mp ⟨htheirs, htouched⟩).1
        obtain ⟨a, hmergeA, ha⟩ := hgetsA theirs htheirs htouched
        obtain ⟨b, hmergeB, hb⟩ := hgetsB theirs htheirs' htouched
        refine Or.inl ?_
        rw [ha, hb]
        rcases h.entries m j with heq | ⟨rfl, hnone, touched, hset, -⟩
        · rw [heq] at hmergeA
          rw [Except.ok.inj (hmergeA.symm.trans hmergeB)]
        · have href := (h.left.maps child).ref_of_entry htheirs
          rw [hset, mergeEntry_unset hn href htouched touched] at hmergeB
          rw [hnone] at hmergeA
          rw [← Except.ok.inj hmergeA, ← Except.ok.inj hmergeB]
      · have huntouched {e : RefEntry} (he : FiberRefs.entry? (A.world.refMap child) (c.ref j) = some e) :
            e.touched = false := Bool.eq_false_iff.mpr fun htouched => hex ⟨e, he, htouched⟩
        have huntouched' {e : RefEntry} (he : FiberRefs.entry? (B.world.refMap child) (c.ref j) = some e) :
            e.touched = false :=
          Bool.eq_false_iff.mpr fun htouched => hex ⟨e, (h.wrote hchild j).mpr ⟨he, htouched⟩⟩
        rw [hkeepsA fun e he => huntouched he, hkeepsB fun e he => huntouched' he]
        exact h.entries m j
    · exact h.entries k j
  · rw [World.joinRefs_of_not_has hm, World.joinRefs_of_not_has (mt h.has_iff.mpr hm)]
    exact h.entries k j

theorem Twins.write (h : Twins c i A B) (m : Key .refs) (j : Nat) (value : Datum) :
    Twins c i (A.perform c (.write m j value)) (B.perform c (.write m j value)) := by
  refine ⟨h.left.perform _, h.right.perform _, ?_, fun k j' => ?_⟩
  · exact (World.size_writeRef ..).trans (h.size.trans (World.size_writeRef ..).symm)
  by_cases hm : A.world.HasRefs m
  · rw [refMap_write hm, refMap_write (h.has_iff.mp hm)]
    split
    · rename_i hmk
      subst hmk
      rw [FiberRefs.entry?_write, FiberRefs.entry?_write]
      split
      · exact Or.inl rfl
      · exact h.entries m j'
    · exact h.entries k j'
  · simp only [Chronicle.perform, World.writeRef_of_not_has hm,
      World.writeRef_of_not_has (mt h.has_iff.mpr hm)]
    exact h.entries k j'

/-- If the functions of the reference are neutral, what does not panic keeps the two systems together. -/
theorem Twins.perform (h : Twins c i A B) (hn : c.Neutral i) {op : RefsOp}
    (hop : ∀ m, op ≠ .join m ⟨0⟩) (hreturns : A.Succeeds op) :
    Twins c i (A.perform c op) (B.perform c op) := by
  cases op with
  | make => exact h.newRefs rfl rfl (h.left.perform .make) (h.right.perform .make) fun j => Or.inl rfl
  | fork m => exact h.fork hn hreturns
  | join m child => exact h.join hn (fun heq => hop m (heq ▸ rfl)) hreturns
  | write m j value => exact h.write m j value

/-- If the functions of the reference are neutral, nothing tells the two systems apart. -/
theorem Twins.after (h : Twins c i A B) (hn : c.Neutral i) {ops : List RefsOp}
    (hops : ∀ m, .join m ⟨0⟩ ∉ ops) :
    (A.Returns c ops ↔ B.Returns c ops) ∧
    (A.Returns c ops → ∀ k j, (A.after c ops).read c k j = (B.after c ops).read c k j) := by
  induction ops generalizing A B with
  | nil => exact ⟨Iff.rfl, fun _ => h.read⟩
  | cons op rest ih =>
      have hop (m : Key .refs) : op ≠ .join m ⟨0⟩ := fun heq => hops m (heq ▸ List.mem_cons_self)
      have hrest (m : Key .refs) : .join m ⟨0⟩ ∉ rest := fun hmem => hops m (List.mem_cons_of_mem _ hmem)
      have hiff := h.succeeds_iff hn op hop
      refine ⟨?_, fun ⟨hreturns, hgoes⟩ => (ih (h.perform hn hop hreturns) hrest).2 hgoes⟩
      constructor
      · exact fun ⟨hreturns, hgoes⟩ =>
          ⟨hiff.mp hreturns, (ih (h.perform hn hop hreturns) hrest).1.mp hgoes⟩
      · exact fun ⟨hreturns, hgoes⟩ =>
          ⟨hiff.mpr hreturns, (ih (h.perform hn hop (hiff.mpr hreturns)) hrest).1.mpr hgoes⟩

/-! ## Why the functions have to be neutral -/

/-- What there is after a fork and a write in the child: the parent is as before, and the child reads what
was written, which counts as written. -/
theorem after_fork_write (hm : H.world.HasRefs m) {w' : World σ} (hfork : H.world.forkRefs m = (w', .ok k))
    (i : Nat) (value : Datum) :
    let there := H.after c [.fork m, .write k i value]
    m ≠ k ∧ there.world.HasRefs m ∧ there.value? c m i = H.value? c m i ∧
      there.read c k i = value ∧ there.written k i := by
  obtain ⟨copy, -, hw, hk⟩ := World.forkRefs_eq_ok hfork
  have hne : m ≠ k := hk ▸ hm.ne_newRefs copy
  have hworld : (H.perform c (.fork m)).world = (H.world.newRefs copy).1 := by
    rw [perform_fork c hm, hfork]
    exact hw
  have hm' : (H.perform c (.fork m)).world.HasRefs m := by
    rw [hworld, World.hasRefs_iff, World.size_newRefs]
    exact Nat.lt_succ_of_lt (World.hasRefs_iff.mp hm)
  have hk' : (H.perform c (.fork m)).world.HasRefs k := by
    rw [hworld, hk]
    exact World.has_newRefs H.world copy
  refine ⟨hne, has_write.mpr hm', ?_, ?_, Or.inr ⟨rfl, rfl, hk'⟩⟩
  · have hother : (RefsOp.write k i value).target? ≠ some m := fun heq => hne (Option.some.inj heq).symm
    have hwrite := refMap_perform (c := c) (.write k i value) hm' hother
    have hforked := refMap_perform (c := c) (H := H) (.fork m) hm nofun
    exact congrArg (fun map : FiberRefs => (map.entry? (c.ref i)).map (·.value)) (hwrite.trans hforked)
  · refine (read_eq ..).trans ?_
    rw [after, List.foldl_cons, List.foldl_cons, List.foldl_nil, value?_write hk', if_pos rfl]
    rfl

/-- What a fork, a write in the child and a merge make of a reference. -/
theorem Sound.merge_back (h : H.Sound c) (hm : H.world.HasRefs m) {w' : World σ}
    (hfork : H.world.forkRefs m = (w', .ok k)) (i : Nat) (value : Datum)
    (hreturns : (H.after c [.fork m, .write k i value]).Succeeds (.join m k)) :
    c.merge i (H.value? c m i) value =
      .ok ((H.after c [.fork m, .write k i value, .join m k]).read c m i) := by
  obtain ⟨hne, hm', hvalue, hread, hwritten⟩ := after_fork_write (c := c) hm hfork i value
  have hmerge := (((h.after _).joins hm' hne i).1 ⟨hm', hne, hwritten, Or.inl hreturns⟩).1
  rw [hvalue, hread] at hmerge
  exact hmerge

section First

variable (c : Catalogue) (i : Nat) (config : Config) (services : Services) (board : σ)

theorem sound_make : ((start config services board).perform c .make).Sound c :=
  (sound_start c config services board).perform .make

/-- The first map can be forked, and the key of its fork. -/
theorem forkRefs_make : ∃ w', ((start config services board).perform c .make).world.forkRefs ⟨0⟩ =
    (w', .ok ⟨1⟩) := ⟨_, rfl⟩

/-- The child of a map in which a reference was never written reads its initial value. -/
theorem read_fork_make :
    ((start config services board).after c [.make, .fork ⟨0⟩]).read c ⟨1⟩ i = c.initial i := by
  obtain ⟨w', hfork⟩ := forkRefs_make c config services board
  have hm := has_first c config services board
  rcases (sound_make c config services board).value?_fork hm hfork i with ⟨-, hnone⟩ | ⟨_, _, hsome, -⟩
  · exact (read_eq ..).trans (congrArg (·.getD (c.initial i)) hnone)
  · cases (value?_make c config services board i).symm.trans hsome

/-- A merge into it takes over what the child wrote. -/
theorem read_join_make (value : Datum) :
    ((start config services board).after c
      [.make, .fork ⟨0⟩, .write ⟨1⟩ i value, .join ⟨0⟩ ⟨1⟩]).read c ⟨0⟩ i = value := by
  obtain ⟨w', hfork⟩ := forkRefs_make c config services board
  have hmerge := (sound_make c config services board).merge_back (has_first c config services board) hfork
    i value rfl
  rw [value?_make] at hmerge
  exact (Except.ok.inj hmerge).symm

/-- The policy of a reference applies everywhere only if its functions are neutral. -/
theorem neutral_of_applies (h : ∀ ops, Applies c i ((start config services board).after c ops)) :
    c.Neutral i where
  fork := by
    obtain ⟨w', hfork⟩ := forkRefs_make c config services board
    have happlies := (h [.make]).fork ⟨0⟩ ⟨1⟩ w' (has_first c config services board) hfork
    have hchild := read_fork_make c i config services board
    exact happlies.trans (congrArg Except.ok hchild)
  join value := by
    obtain ⟨w', hfork⟩ := forkRefs_make c config services board
    obtain ⟨hne, hm, hvalue, hread, hwritten⟩ :=
      after_fork_write (c := c) (has_first c config services board) hfork i value
    have happlies := ((h [.make, .fork ⟨0⟩, .write ⟨1⟩ i value]).join ⟨0⟩ ⟨1⟩ hne hm rfl).1 hwritten
    have hmerged := read_join_make c i config services board value
    rw [value?_make] at hvalue
    have hours : ((start config services board).after c
        [.make, .fork ⟨0⟩, .write ⟨1⟩ i value]).read c ⟨0⟩ i = c.initial i :=
      (read_eq ..).trans (congrArg (·.getD (c.initial i)) hvalue)
    have htheirs : ((start config services board).after c
        [.make, .fork ⟨0⟩, .write ⟨1⟩ i value]).read c ⟨1⟩ i = value := hread
    rw [hours, htheirs] at happlies
    exact happlies.trans (congrArg Except.ok hmerged)

/-- No history tells whether a reference was set only if its functions are neutral. -/
theorem neutral_of_alike (h : Alike c i (start config services board)) : c.Neutral i := by
  let set := ((start config services board).perform c .make).perform c (.write ⟨0⟩ i (c.initial i))
  have hset : set.Sound c := (sound_make c config services board).perform _
  have hm : set.world.HasRefs ⟨0⟩ := has_write.mpr (has_first c config services board)
  have hinitial : set.value? c ⟨0⟩ i = some (c.initial i) := by
    rw [value?_write (has_first c config services board), if_pos rfl]
  have hforks : set.Returns c [.fork ⟨0⟩] :=
    (h [.fork ⟨0⟩] (by simp)).1.mp ⟨⟨⟨1⟩, rfl⟩, trivial⟩
  obtain ⟨⟨k, hk⟩, -⟩ := hforks
  obtain ⟨w', hw'⟩ : ∃ w', set.world.forkRefs ⟨0⟩ = (w', .ok k) := ⟨_, Prod.ext rfl hk⟩
  have hkey : k = ⟨1⟩ := by
    obtain ⟨copy, -, -, hk⟩ := World.forkRefs_eq_ok hw'
    exact hk
  subst hkey
  constructor
  case fork =>
    have hreads := (h [.fork ⟨0⟩] (by simp)).2 ⟨⟨⟨1⟩, rfl⟩, trivial⟩ ⟨1⟩ i
    rcases hset.value?_fork hm hw' i with ⟨hnone, -⟩ | ⟨value, value', hvalue, hpolicy, hvalue'⟩
    · cases hinitial.symm.trans hnone
    · obtain rfl := Option.some.inj (hinitial.symm.trans hvalue)
      have hchild : (set.after c [.fork ⟨0⟩]).read c ⟨1⟩ i = value' :=
        (read_eq ..).trans (congrArg (·.getD (c.initial i)) hvalue')
      have hunset := read_fork_make c i config services board
      rw [hpolicy, ← hchild]
      exact congrArg Except.ok (hreads.symm.trans hunset)
  case join =>
    intro value
    have hfirst : ∀ m, RefsOp.join m ⟨0⟩ ∉ [.fork ⟨0⟩, .write ⟨1⟩ i value, .join ⟨0⟩ ⟨1⟩] := by simp
    have hunset : ((start config services board).perform c .make).Returns c
        [.fork ⟨0⟩, .write ⟨1⟩ i value, .join ⟨0⟩ ⟨1⟩] := ⟨⟨⟨1⟩, rfl⟩, trivial, rfl, trivial⟩
    obtain ⟨-, -, hreturns, -⟩ := (h _ hfirst).1.mp hunset
    have hmerge := hset.merge_back hm hw' i value hreturns
    rw [hinitial] at hmerge
    have hreads := (h _ hfirst).2 hunset ⟨0⟩ i
    have hmerged := read_join_make c i config services board value
    exact hmerge.trans (congrArg Except.ok (hreads.symm.trans hmerged))

/-- At the start, the two systems differ in one entry. -/
theorem twins_start :
    Twins c i ((start config services board).perform c .make)
      (((start config services board).perform c .make).perform c (.write ⟨0⟩ i (c.initial i))) where
  left := sound_make c config services board
  right := (sound_make c config services board).perform _
  size := (World.size_writeRef ..).symm
  entries k j := by
    have hnone : FiberRefs.entry? (((start config services board).perform c .make).world.refMap k) (c.ref j) = none := by
      by_cases hk : k = ⟨0⟩
      · rw [hk]
        rfl
      · rw [World.refMap_of_not_has (mt has_make hk)]
        rfl
    simp only [refMap_write (has_first c config services board), hnone]
    split
    · rename_i hk
      subst hk
      rw [FiberRefs.entry?_write, hnone]
      split
      · rename_i hij
        have hij : i = j := hij
        exact Or.inr ⟨hij.symm, rfl, true, rfl, fun _ => rfl⟩
      · exact Or.inl rfl
    · rw [hnone]
      exact Or.inl rfl

/-- The policy of a reference applies in every history in which the reference was set at the start. It
applies in all histories if and only if no history tells whether the reference was set, and if and only if
its functions are neutral. -/
theorem applies_iff :
    (∀ value ops, .make ∉ ops →
      Applies c i ((start config services board).after c (.make :: .write ⟨0⟩ i value :: ops))) ∧
    List.TFAE [∀ ops, Applies c i ((start config services board).after c ops),
      Alike c i (start config services board), c.Neutral i] := by
  refine ⟨fun value ops hops => applies_of_written c i config services board value hops, ?_⟩
  tfae_have 1 → 3 := neutral_of_applies c i config services board
  tfae_have 2 → 3 := neutral_of_alike c i config services board
  tfae_have 3 → 1 := fun hn ops => (sound_after c config services board ops).applies fun _ _ _ => hn
  tfae_have 3 → 2 := fun hn ops hops => (twins_start c i config services board).after hn hops
  tfae_finish

end First

/-! ## A reference that counts -/

/-- References that read 10 where they have no value, start at zero in a child and are added in a merge. -/
def tally : Catalogue where
  initial _ := .int 10
  policy _ := Script.PolicyName.sum.policy

/-- A child of a map in which the first of them was never written reads 10 where the fork function gives
zero, and after the child wrote 1 and was merged the parent reads 1 where the join function gives 11. Where
the reference was set to 10 at the start, the child reads zero and the parent 11. -/
theorem tally_unset :
    let unset := (start .standard .empty ()).perform tally .make
    let set := unset.perform tally (.write ⟨0⟩ 0 (.int 10))
    unset.read tally ⟨0⟩ 0 = .int 10 ∧ set.read tally ⟨0⟩ 0 = .int 10 ∧
    (tally.policy 0).fork (.int 10) = .ok (.int 0) ∧
    (unset.perform tally (.fork ⟨0⟩)).read tally ⟨1⟩ 0 = .int 10 ∧
    (set.perform tally (.fork ⟨0⟩)).read tally ⟨1⟩ 0 = .int 0 ∧
    (tally.policy 0).join (.int 10) (.int 1) = .ok (.int 11) ∧
    (unset.after tally [.fork ⟨0⟩, .write ⟨1⟩ 0 (.int 1), .join ⟨0⟩ ⟨1⟩]).read tally ⟨0⟩ 0 = .int 1 ∧
    (set.after tally [.fork ⟨0⟩, .write ⟨1⟩ 0 (.int 1), .join ⟨0⟩ ⟨1⟩]).read tally ⟨0⟩ 0 = .int 11 := by
  refine ⟨rfl, rfl, rfl, rfl, rfl, rfl, rfl, rfl⟩

/-- Its policy applies after it was set, and histories tell whether it was. -/
theorem tally_applies :
    Applies tally 0 ((start .standard .empty ()).after tally
      [.make, .write ⟨0⟩ 0 (.int 10), .fork ⟨0⟩, .write ⟨1⟩ 0 (.int 1)]) ∧
    ¬ Alike tally 0 (start .standard .empty ()) := by
  obtain ⟨hset, hiff⟩ := applies_iff tally 0 .standard .empty ()
  refine ⟨hset (.int 10) [.fork ⟨0⟩, .write ⟨1⟩ 0 (.int 1)] (by simp), fun halike => ?_⟩
  have hneutral : tally.Neutral 0 := (hiff.out 1 2).mp halike
  -- the fork function gives zero
  cases hneutral.fork

end Chronicle

end Fibers
