import Fibers.Proofs.Rounds.Muster
import Fibers.Proofs.Rounds.Scene

set_option autoImplicit false

/-! # The zip is assembled

Once its members are mustered, the fiber that zips puts a watcher on each of them and has its program that
waits for the decision. This is the first scene of the zip (`contest_zip`).
-/

namespace Fibers.Rounds

open World Direct

variable {σ : Type} {n : Nat} {w w₁ w₂ : World σ} {f : Key .fiber}

/-! ## Watchers -/

theorem watchFiber_fresh {y : Fiber σ} (hget : w.fibers.get? f = some y) (hdone : y.done = .fresh) (o : DoneWatcher σ) :
    (w.watchFiber f o).1 = { w with fibers := w.fibers.set f { y with done := .pending [(0, o)] 1 } } := by
  simp only [watchFiber, hget, hdone, Cell.fresh, Cell.attach?, List.nil_append, modifyFiber,
    Store.modify_eq_set _ hget]

/-- Everybody gets the watcher for its place. -/
theorem watchAll_fresh (watcher : Nat → DoneWatcher σ) (ms : List (Key .fiber)) (hnodup : ms.Nodup)
    (hfresh : ∀ c ∈ ms, ∃ y, w.fibers.get? c = some y ∧ y.done = .fresh) :
    ∃ fibers, w.watchAll watcher ms = { w with fibers } ∧ (∀ g, g ∉ ms → fibers.get? g = w.fibers.get? g) ∧
      ∀ i c y, ms[i]? = some c → w.fibers.get? c = some y →
        fibers.get? c = some { y with done := .pending [(0, watcher i)] 1 } := by
  suffices hfrom : ∀ first, ∃ fibers,
      (ms.zipIdx first).foldl (fun w m => (w.watchFiber m.1 (watcher m.2)).1) w = { w with fibers } ∧
      (∀ g, g ∉ ms → fibers.get? g = w.fibers.get? g) ∧
      ∀ i c y, ms[i]? = some c → w.fibers.get? c = some y →
        fibers.get? c = some { y with done := .pending [(0, watcher (first + i))] 1 } by
    obtain ⟨fibers, hwatch, hothers, hmembers⟩ := hfrom 0
    refine ⟨fibers, hwatch, hothers, fun i c y hi hy => ?_⟩
    rw [hmembers i c y hi hy, Nat.zero_add]
  induction ms generalizing w with
  | nil => exact fun first => ⟨w.fibers, rfl, fun _ _ => rfl, fun i c y hi => by cases hi⟩
  | cons m ms ih =>
      intro first
      obtain ⟨hnot, hnodup'⟩ := List.nodup_cons.mp hnodup
      obtain ⟨y, hy, hdone⟩ := hfresh m List.mem_cons_self
      set w₁ : World σ := { w with
        fibers := w.fibers.set m { y with done := .pending [(0, watcher first)] 1 } } with hw₁
      have hkeeps : ∀ g, g ≠ m → w₁.fibers.get? g = w.fibers.get? g := fun g hg => by
        rw [hw₁, Store.get?_set, if_neg hg.symm]
      have hne : ∀ c ∈ ms, c ≠ m := fun c hc heq => hnot (heq ▸ hc)
      obtain ⟨fibers, hwatch, hothers, hmembers⟩ := ih (w := w₁) hnodup' (fun c hc => by
        rw [hkeeps c (hne c hc)]
        exact hfresh c (List.mem_cons_of_mem m hc)) (first + 1)
      refine ⟨fibers, ?_, fun g hg => ?_, fun i c y' hi hy' => ?_⟩
      · rw [List.zipIdx_cons, List.foldl_cons, watchFiber_fresh hy hdone]
        exact hwatch
      · exact (hothers g fun hmem => hg (List.mem_cons_of_mem m hmem)).trans
          (hkeeps g fun heq => hg (heq ▸ List.mem_cons_self))
      · cases i with
        | zero =>
            cases hi
            obtain rfl := Option.some.inj (hy.symm.trans hy')
            rw [hothers m hnot, hw₁, Store.get?_set_of_some hy]
            rfl
        | succ i =>
            have hc : c ∈ ms := List.mem_of_getElem? hi
            rw [hmembers i c y' hi ((hkeeps c (hne c hc)).trans hy'), Nat.add_right_comm, Nat.add_assoc]

/-! ## What the zip is -/

/-- A recruit with the watcher of the zip on it. -/
def Recruit.watched (k : Recruit σ) (t : Key .tally) (place : Nat) : Walker σ :=
  { k.toWalker with birth := { k.birth with done := .pending [(0, .member t place)] 1 } }

/-- How a fiber zips: who it is and what it musters, the tally, what waits on its stack, and the bound. -/
structure Plan (σ : Type) extends Recruiter σ where
  fiber : Key .fiber
  tally : Key .tally
  stack : List (Waiting σ)
  level : Nat
  span : Duration
  start : Nat

namespace Plan

variable (K : Plan σ)

/-- The contest that the fiber has opened. -/
def contest (k : Fin n → Recruit σ) : Contest where
  owner := K.parent.context.id
  members := List.ofFn fun i => (k i).fiber
  refs := K.parent.context.refs
  arena := K.arena

/-- The zip of the recruits, with the references that there are. -/
def zip (k : Fin n → Recruit σ) (refs : Store .refs FiberRefs) : Zip σ n where
  host := ⟨⟨K.fiber, K.arena, K.parent, K.nest⟩, K.contest k, K.tally, K.stack, n⟩
  walker i := (k i).watched K.tally i.val
  permits := K.parent.semaphores.top
  level := K.level
  span := K.span
  budget := K.parent.context.limits.maxOps
  start := K.start
  refs := refs

/-- The program that the fiber goes on with. -/
def posed (k : Fin n → Recruit σ) : Program σ :=
  .flatMap (.wait (.decided K.tally)) (.sequel (.zipDecided (K.contest k)))

/-- The first score of the zip. -/
def score (k : Fin n → Recruit σ) : Score n where
  seat := .active .posed K.parent.ops
  stance i := .ready .start (k i).id
  book := ⟨0, [], [], K.level⟩
  round := 0

/-- What the fiber has to have before it starts its members. -/
structure Sound (w : World σ) : Prop where
  calm : Calm K.parent
  found : w.fibers.get? K.fiber = some K.parent
  home : ∃ sc, w.scopes.get? K.parent.scope = some sc ∧ sc.isOpen = true
  arena : w.scopes.get? K.arena = some { K.nest with state := .opened [] [] 0 }
  parent : ∃ key, K.nest.parent = some ⟨K.parent.scope, key⟩
  apart : K.parent.scope ≠ K.arena
  fresh : K.nest.closed = .fresh
  refs : ∃ m, w.refs.get? K.parent.context.refs = some m ∧ m.fork = .ok K.copy
  permits : w.semaphores.get? K.parent.semaphores.top = some (.withPermits K.level)
  level : 0 < K.level
  program : K.program = .sleep K.span
  now : w.now.nanos = K.start

variable {K : Plan σ} {k : Fin n → Recruit σ}

/-- The horizon of the recruiter is the end of the zip, and the clock can show it. -/
structure Ends (K : Plan σ) (n : Nat) : Prop where
  horizon : K.horizon = K.start + K.span * Tempo.rounds n K.level
  fits : K.horizon ≤ Time.limit

theorem getElem?_ofFn (k : Fin n → Recruit σ) (i : Fin n) : (List.ofFn k)[i.val]? = some (k i) := by
  rw [List.getElem?_ofFn, dif_pos i.isLt]

theorem nodup_of_muster (h : K.Muster w₁ (List.ofFn k) w₂) :
    (∀ i j, (k i).fiber = (k j).fiber → i = j) ∧ ∀ i j, (k i).scope = (k j).scope → i = j := by
  have hfibers := h.fibersApart
  have hscopes := h.scopesApart
  rw [List.map_ofFn, List.nodup_ofFn] at hfibers hscopes
  exact ⟨fun i j heq => hfibers heq, fun i j heq => hscopes heq⟩

theorem sound_zip (hK : K.Sound w₁) (hends : K.Ends n) (h : K.Muster w₁ (List.ofFn k) w₂) :
    (K.zip k w₂.refs).Sound := by
  have hmem : ∀ i, k i ∈ List.ofFn k := fun i => (List.mem_ofFn' _ _).mpr ⟨i, rfl⟩
  have hnewcomer : ∀ i, (k i).Newcomer K.parent.context.limits.maxOps K.arena i.val :=
    fun i => h.newcomer i.val (k i) (getElem?_ofFn k i)
  obtain ⟨hfibers, hscopes⟩ := nodup_of_muster h
  obtain ⟨home, hhome, -⟩ := hK.home
  have hhost : ∀ i, K.fiber ≠ (k i).fiber := fun i heq => by
    have := h.fiber (k i) (hmem i)
    rw [← heq, hK.found] at this
    cases this
  have houtside : ∀ i, (k i).scope ≠ K.parent.scope := fun i heq => by
    have := h.scope (k i) (hmem i)
    rw [heq, hhome] at this
    cases this
  obtain ⟨m, hm, hfork⟩ := hK.refs
  refine
    { host := ⟨⟨rfl, hK.calm.deferred⟩, hK.calm.terminating, rfl, hK.parent, hK.apart⟩
      member := fun i => ?_
      level := hK.level
      budget := hK.calm.budget
      fits := by
        have := hends.fits
        rw [hends.horizon] at this
        exact this
      members := rfl
      size := rfl
      fibers := fun x y heq => ?_
      scopes := fun x y heq => ?_
      outside := fun x => ?_
      untouched := fun i e he => ?_ }
  · have hi := hnewcomer i
    exact ⟨⟨hi.budget, hi.deferred⟩, hi.scope, hi.semaphores, hi.services, hi.masks, hi.labels, hi.parent, hi.apart,
      rfl⟩
  · cases x with
    | none =>
        cases y with
        | none => rfl
        | some j => exact absurd heq (hhost j)
    | some i =>
        cases y with
        | none => exact absurd heq.symm (hhost i)
        | some j => rw [hfibers i j heq]
  · cases x with
    | none =>
        cases y with
        | none => rfl
        | some j => exact absurd heq (hnewcomer j).apart
    | some i =>
        cases y with
        | none => exact absurd heq.symm (hnewcomer i).apart
        | some j => rw [hscopes i j heq]
  · cases x with
    | none => exact hK.apart.symm
    | some i => exact houtside i
  · have hcopy := h.copies (k i) (hmem i)
    change e ∈ ((w₂.refs.get? (k i).birth.context.refs).getD default).entries at he
    rw [hcopy, Option.getD_some] at he
    exact FiberRefs.untouched_fork hfork he

/-- The watchers change the records of the members only, which wait for their first turns. -/
theorem watch_zip (hK : K.Sound w₁) (h : K.Muster w₁ (List.ofFn k) w₂) (tallies : Store .tally Tally) :
    ∃ fibers, World.watchAll { w₂ with tallies } (.member K.tally) (List.ofFn fun i => (k i).fiber) =
        { w₂ with
          tallies
          fibers } ∧
      fibers.get? K.fiber = some K.parent ∧
      ∀ i, ((K.zip k w₂.refs).member i).In
        { w₂ with
          tallies
          fibers } (.ready .start (k i).id) := by
  have hmem : ∀ i, k i ∈ List.ofFn k := fun i => (List.mem_ofFn' _ _).mpr ⟨i, rfl⟩
  obtain ⟨hfibers, -⟩ := nodup_of_muster h
  obtain ⟨fibers, hwatch, hothers, hmembers⟩ := watchAll_fresh (w := { w₂ with tallies }) (.member K.tally)
    (List.ofFn fun i => (k i).fiber) (List.nodup_ofFn.mpr fun i j heq => hfibers i j heq) fun c hc => by
      obtain ⟨i, rfl⟩ := (List.mem_ofFn' _ _).mp hc
      obtain ⟨t, -, -, -, token, r, m, -, ⟨⟨next, hy⟩, -⟩, -⟩ := h.waits (k i) (hmem i)
      exact ⟨_, hy, (h.newcomer i.val (k i) (getElem?_ofFn k i)).unwatched⟩
  refine ⟨fibers, hwatch, ?_, fun i => ?_⟩
  · rw [hothers K.fiber ?_]
    · exact h.fibers _ _ hK.found
    · intro hmem'
      obtain ⟨i, hi⟩ : ∃ i, (k i).fiber = K.fiber := (List.mem_ofFn' _ _).mp hmem'
      have hnone := h.fiber (k i) (hmem i)
      rw [hi, hK.found] at hnone
      cases hnone
  · obtain ⟨t, ht, hid, hdue, token, r, m, htask, ⟨⟨next, hy⟩, hscope⟩, hm⟩ := h.waits (k i) (hmem i)
    have hget := hmembers i.val _ _ (by rw [List.getElem?_ofFn, dif_pos i.isLt]) hy
    refine ⟨⟨t, ht, hid, hdue, token, r, m, htask, ⟨⟨next, hget⟩, hscope⟩, ?_⟩, trivial⟩
    rw [hm, hK.program]
    rfl

/-- The tasks that belong to somebody are the first turns of the members. -/
theorem agenda_zip (h : K.Muster w₁ (List.ofFn k) w₂) :
    Agenda w₂.timers (alarm (K.score k).seat (K.score k).stance) K.horizon := by
  have halarm : ∀ x id, alarm (K.score k).seat (K.score k).stance x = some id →
      ∃ i : Fin n, x = some i ∧ id = (k i).id := by
    intro x id hx
    cases x with
    | none => cases hx
    | some i => exact ⟨i, rfl, (Option.some.inj hx).symm⟩
  have hat : ∀ i : Fin n, (List.ofFn k)[i.val]?.map Recruit.id = some (k i).id := fun i => by
    rw [getElem?_ofFn, Option.map_some]
  refine ⟨h.agenda.ordered, h.agenda.numbered, fun t ht => ?_, fun x id hx => ?_, fun x y id hx hy => ?_⟩
  · refine (h.agenda.owned t ht).imp_left fun ⟨i, hi⟩ => ?_
    obtain ⟨l, hl, hlt⟩ := Option.map_eq_some_iff.mp hi
    obtain ⟨hi, -⟩ := List.getElem?_eq_some_iff.mp hl
    rw [List.length_ofFn] at hi
    rw [getElem?_ofFn k ⟨i, hi⟩] at hl
    refine ⟨some ⟨i, hi⟩, ?_⟩
    rw [← hlt, ← Option.some.inj hl]
    rfl
  · obtain ⟨i, rfl, rfl⟩ := halarm x id hx
    exact h.agenda.below i.val _ (hat i)
  · obtain ⟨i, rfl, rfl⟩ := halarm x id hx
    obtain ⟨j, rfl, hj⟩ := halarm y _ hy
    rw [Fin.ext (h.agenda.distinct i.val j.val _ (hat i) (hj ▸ hat j))]

/-- With the watchers on the members the zip is at its first scene. -/
theorem scene_zip (hK : K.Sound w₁) (hends : K.Ends n) (hn : 0 < n) (h : K.Muster w₁ (List.ofFn k) w₂)
    (htally : K.tally = (w₂.tallies.add { remaining := n }).2) :
    Scene (K.zip k w₂.refs) (K.score k) (World.watchAll { w₂ with tallies := (w₂.tallies.add { remaining := n }).1 }
      (.member K.tally) (List.ofFn fun i => (k i).fiber)) := by
  obtain ⟨fibers, hwatch, hhost, hmembers⟩ := watch_zip hK h (w₂.tallies.add { remaining := n }).1
  obtain ⟨home, hhome, hopen⟩ := hK.home
  obtain ⟨fs, harena, hkeys⟩ := h.arena
  rw [List.length_ofFn] at harena hkeys
  have hleft : left (K.score k).stance = n := by
    have hall : (Finset.univ.filter fun i => ((K.score k).stance i).stage ≠ .gone) = Finset.univ :=
      Finset.filter_true_of_mem fun i _ => by simp [score, Stance.stage, Point.stage]
    rw [left, hall, Finset.card_univ, Fintype.card_fin]
  have hid : ∀ i j, i < j → (k i).id < (k j).id := by
    have hsorted := h.sorted
    rw [List.pairwise_ofFn] at hsorted
    exact fun i j hij => hsorted hij
  have hagenda := agenda_zip h
  rw [hwatch]
  refine
    { cast :=
      { host := ⟨fs, ⟨⟨K.parent.nextToken, ?_⟩, ?_⟩, fun x hx => ⟨⟨x.1, hkeys x hx⟩, rfl, rfl⟩⟩
        member := hmembers
        apart := fun i j g hi => (by cases hi)
        tally := ?_
        fits := ⟨fun htold => (by cases htold), fun token htoken => (by cases htoken)⟩
        home := ?_
        refs := rfl }
      permits := ?_
      agenda := ?_
      ledger := Ledger.start n K.level
      lockstep := Lockstep.start hid
      tempo := ?_ }
  · have hsame : K.parent = { K.parent with
        phase := .running
        terminating := false } := by
      rw [← hK.calm.running, ← hK.calm.terminating]
    exact hhost.trans (congrArg some hsame)
  · have hsame : ({ K.nest with state := .opened fs [] n } : Scope (Finalizer σ)) =
        { K.nest with
          state := .opened fs [] n
          closed := .fresh } := by
      rw [← hK.fresh]
    exact harena.trans (congrArg some hsame)
  · rw [hleft]
    show (w₂.tallies.add { remaining := n }).1.get? K.tally =
      some { decided := if n = 0 then _ else .fresh, remaining := n }
    rw [if_neg (Nat.ne_of_gt hn), Store.get?_add, if_pos htally]
  · have hhome' := h.scopes _ home hK.apart hhome
    show ((w₂.scopes.get? K.parent.scope).getD default).isOpen = true
    rw [hhome', Option.getD_some]
    exact hopen
  · exact h.semaphores _ _ hK.permits
  · rw [show (K.zip k w₂.refs).horizon = K.horizon from hends.horizon.symm]
    exact hagenda
  · have hstart : w₂.now.nanos = K.start := by rw [h.now, hK.now]
    show Tempo K.level K.span K.start 0 w₂.now.nanos _
    rw [hstart]
    exact Tempo.start K.level K.span K.start fun i => rfl

/-- The plan of a fiber that zips `n` programs that sleep for `span`, with `level` permits, from `start` on. -/
def of (n : Nat) (parent : Fiber σ) (f : Key .fiber) (stack : List (Waiting σ)) (level : Nat) (span : Duration)
    (start : Nat) (copy : FiberRefs) (arena : Key .scope) (nest : Scope (Finalizer σ)) (t : Key .tally) : Plan σ where
  parent := parent
  arena := arena
  nest := nest
  copy := copy
  program := .sleep span
  horizon := start + span * Tempo.rounds n level
  fiber := f
  tally := t
  stack := stack
  level := level
  span := span
  start := start

end Plan

theorem exists_ofFn {α : Type} {l : List α} (h : l.length = n) : ∃ k : Fin n → α, List.ofFn k = l := by
  subst h
  exact ⟨l.get, List.ofFn_get l⟩

/-- A fiber that opens a zip of sleeps comes to the first scene of it. -/
theorem contest_zip {parent : Fiber σ} {sc : Scope (Finalizer σ)} {m copy : FiberRefs} {level : Nat} (span : Duration)
    (hcalm : Calm parent) (hget : w.fibers.get? f = some parent) (hsc : w.scopes.get? parent.scope = some sc)
    (hopen : sc.isOpen = true) (hrefs : w.refs.get? parent.context.refs = some m) (hfork : m.fork = .ok copy)
    (hpermits : w.semaphores.get? parent.semaphores.top = some (.withPermits level)) (hlevel : 0 < level) (hn : 0 < n)
    (hclear : Clear w.timers (w.now.nanos + span * Tempo.rounds n level))
    (hfits : w.now.nanos + span * Tempo.rounds n level ≤ Time.limit) (stack : List (Waiting σ)) :
    ∃ (K : Plan σ) (k : Fin n → Recruit σ) (w' : World σ) (refs : Store .refs FiberRefs),
      (∃ arena nest t, K = .of n parent f stack level span w.now.nanos copy arena nest t) ∧
      w.contest f (List.replicate n (.sleep span)) .member .zipDecided = (w', .ok (K.posed k)) ∧
      (K.zip k refs).Sound ∧ Scene (K.zip k refs) (K.score k) w' ∧ (∀ i, w.fibers.get? (k i).fiber = none) ∧
      w'.fibers.get? f = some parent := by
  obtain ⟨fs, hooks, next, hstate⟩ := opened_of_isOpen hopen
  obtain ⟨scopes, arena, hscope, hnone, hnew, hheld, hothers⟩ :=
    forkScope_within (w := w) parent.context.id (hsc.trans (congrArg some hstate))
  have hapart : parent.scope ≠ arena := by
    rintro heq
    rw [← heq, hsc] at hnone
    cases hnone
  set nest : Scope (Finalizer σ) :=
    { Scope.new parent.context.id sc.strategy with parent := some ⟨parent.scope, next⟩ } with hnest
  set w₁ : World σ := { w with scopes } with hw₁
  -- the children are started, before the tally is there
  set M : Recruiter σ := ⟨parent, arena, nest, copy, .sleep span, w.now.nanos + span * Tempo.rounds n level⟩ with hM
  have hstart : M.Muster w₁ [] w₁ := .start hnew hclear
  obtain ⟨w₂, ks, hforkAll, hlength, hmuster⟩ := hstart.forkAll (f := f) hget hrefs hfork n
  rw [List.length_nil, Nat.zero_add] at hlength
  obtain ⟨k, rfl⟩ := exists_ofFn hlength
  set t : Key .tally := (w₂.tallies.add { remaining := n }).2 with ht
  set K : Plan σ := .of n parent f stack level span w.now.nanos copy arena nest t with hK
  have hmembers : (List.ofFn k).map (·.fiber) = List.ofFn fun i => (k i).fiber := List.map_ofFn
  have hsound : K.Sound w₁ :=
    { calm := hcalm
      found := hget
      home := ⟨_, hheld, rfl⟩
      arena := hnew
      parent := ⟨next, rfl⟩
      apart := hapart
      fresh := rfl
      refs := ⟨m, hrefs, hfork⟩
      permits := hpermits
      level := hlevel
      program := rfl
      now := rfl }
  have hends : K.Ends n := ⟨rfl, hfits⟩
  obtain ⟨fibers, hwatch, hhost, -⟩ := K.watch_zip hsound hmuster (w₂.tallies.add { remaining := n }).1
  refine ⟨K, k, _, w₂.refs, ⟨arena, nest, t, rfl⟩, ?_, K.sound_zip hsound hends hmuster,
    K.scene_zip hsound hends hn hmuster rfl, fun i => ?_, ?_⟩
  · have hforkAll' : w₁.forkAll f arena (List.replicate n (.sleep span)) [] =
        (w₂, .ok (List.ofFn fun i => (k i).fiber)) := by
      rw [← hmembers]
      exact hforkAll
    simp only [World.contest, hget, hscope, hforkAll', List.length_ofFn]
    rfl
  · exact hmuster.fiber (k i) ((List.mem_ofFn' _ _).mpr ⟨i, rfl⟩)
  · rw [hwatch]
    exact hhost

end Fibers.Rounds
