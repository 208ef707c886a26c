import Fibers.Proofs.Detour.Transparency
import Fibers.Proofs.Rounds.Overture

set_option autoImplicit false

/-! # A bounded zip takes its rounds

A fiber that is alone on its clock zips `n` programs that sleep for `span`, with `level` permits. Whatever its
budget is, it hands over the list when `n / level` rounds, rounded up, have passed; at every moment at most
`level` members are at work, all that can be while the first round is asleep; they come to work in their order;
and in the end all permits are back (`bounded_zip`).
-/

namespace Fibers.Rounds

open World Direct

variable {σ : Type} {n level : Nat} {span : Duration} {w w' : World σ} {f : Key .fiber} {fiber : Fiber σ}
  {m copy : FiberRefs} {stack : List (Waiting σ)}

/-- In the middle of its turn the fiber `f` is alone on its clock up to `horizon`: nothing that is in the queue is
due before then. Nobody has interrupted it, its scope is open, and it has the references `m`. -/
structure Alone (f : Key .fiber) (w : World σ) (fiber : Fiber σ) (m : FiberRefs) (horizon : Nat) : Prop where
  found : w.fibers.get? f = some fiber
  calm : Calm fiber
  scope : ∃ sc, w.scopes.get? fiber.scope = some sc ∧ sc.isOpen = true
  refs : w.refs.get? fiber.context.refs = some m
  clear : Clear w.timers horizon

/-- What is to come of a zip of `n` sleeps from `x` on, within `N` ticks: `member` has its members in their order,
and `permits` is the semaphore that bounds them, a new one. -/
structure Timely (f : Key .fiber) (stack : List (Waiting σ)) (level : Nat) (span : Duration) (permits : Key .semaphore)
    (member : Fin n → Key .fiber) (x : Moment σ) (N : Nat) : Prop where
  fresh : x.world.semaphores.get? permits = none
  opens : 0 < n → ∃ k ≤ N, ∃ w y c t, Moment.tick^[k] x = ⟨w, some (f,
      ⟨.instruct (.flatMap (.wait (.decided t)) (.sequel (.zipDecided c))), stack, false⟩)⟩ ∧
    w.fibers.get? f = some y ∧ y.semaphores.top = permits ∧ c.members = List.ofFn member
  bounded : ∀ k ≤ N, {i | AtWork permits (member i) (Moment.tick^[k] x).world}.ncard ≤ level
  inOrder : ∀ k ≤ N, ∀ i j, i < j → AtWork permits (member j) (Moment.tick^[k] x).world →
    ∃ l < k, AtWork permits (member i) (Moment.tick^[l] x).world
  everybody : ∀ i, ∃ k ≤ N, AtWork permits (member i) (Moment.tick^[k] x).world
  full : 0 < span → ∀ k ≤ N, (Moment.tick^[k] x).Rests → (Moment.tick^[k] x).world.now = x.world.now →
    {i | AtWork permits (member i) (Moment.tick^[k] x).world}.ncard = min level n
  asleep : 0 < span → 0 < n → ∃ k ≤ N, (Moment.tick^[k] x).Rests ∧ (Moment.tick^[k] x).world.now = x.world.now
  ends : ∃ w sem, Moment.tick^[N] x = ⟨w, some (f, ⟨.value (.list (List.replicate n .unit)), stack, false⟩)⟩ ∧
    w.now.nanos = x.world.now.nanos + span * Tempo.rounds n level ∧
    w.semaphores.get? permits = some sem ∧ sem.available = level ∧ sem.waiters = []

namespace Timely

variable {permits : Key .semaphore} {member : Fin n → Key .fiber} {x y z : Moment σ} {M N : Nat}

theorem not_atWork (h : w.fibers.get? f = none) : ¬ AtWork permits f w := by
  rintro ⟨y, sc, fs, hooks, next, key, ticket, hget, -⟩
  rw [h] at hget
  cases hget

/-- With a play after an approach, all comes as it is to. -/
theorem of_play {Z : Zip σ n} {P : Nat → Score n} (hZ : Z.Sound) (hn : 0 < n) (happroach : Approaches x y M)
    (hactive : ¬ y.Rests) (htick : y.tick = z) (hnobody : ∀ i, x.world.fibers.get? (Z.walker i).fiber = none)
    (hnone : x.world.semaphores.get? Z.permits = none) (hnow : z.world.now = x.world.now)
    (hstart : Z.start = x.world.now.nanos) (hplay : Play Z z N P)
    (hfresh : ∀ i, ((P 0).stance i).stage.isBegun = false)
    (hopens : ∃ w y c t, z = ⟨w, some (Z.host.fiber,
        ⟨.instruct (.flatMap (.wait (.decided t)) (.sequel (.zipDecided c))), Z.host.stack, false⟩)⟩ ∧
      w.fibers.get? Z.host.fiber = some y ∧ y.semaphores.top = Z.permits ∧
      c.members = List.ofFn fun i => (Z.walker i).fiber) :
    Timely Z.host.fiber Z.host.stack Z.level Z.span Z.permits (fun i => (Z.walker i).fiber) x (M + 1 + N) := by
  have hlater : ∀ k, Moment.tick^[M + 1 + k] x = Moment.tick^[k] z := fun k => by
    rw [Nat.add_comm, Function.iterate_add_apply, Nat.add_comm M, Function.iterate_add_apply, happroach.ends]
    exact congrArg _ htick
  have hidle : ∀ k ≤ M, ∀ i, ¬ AtWork Z.permits (Z.walker i).fiber (Moment.tick^[k] x).world :=
    fun k hk i => not_atWork (happroach.nobody k hk _ (hnobody i))
  have hbusy : ∀ k ≤ M, ¬ (Moment.tick^[k] x).Rests := fun k hk => by
    rcases Nat.lt_or_eq_of_le hk with hlt | rfl
    · exact happroach.busy k hlt
    · rw [happroach.ends]
      exact hactive
  have hcases : ∀ k, k ≤ M ∨ ∃ l, k = M + 1 + l := fun k => by
    rcases Nat.lt_or_ge M k with hlt | hle
    · exact Or.inr (Nat.exists_eq_add_of_le hlt)
    · exact Or.inl hle
  have hzero : z.world.now.nanos = Z.start := by rw [hnow, hstart]
  refine
    { fresh := hnone
      opens := fun _ => ?_
      bounded := fun k hk => ?_
      inOrder := fun k hk i j hij hj => ?_
      everybody := fun i => ?_
      full := fun hspan k hk hrests hsame => ?_
      asleep := fun hspan _ => ?_
      ends := ?_ }
  · obtain ⟨w, y, c, t, hz, hopens⟩ := hopens
    exact ⟨M + 1 + 0, by omega, w, y, c, t, (hlater 0).trans hz, hopens⟩
  · rcases hcases k with hle | ⟨l, rfl⟩
    · have hempty : {i | AtWork Z.permits (Z.walker i).fiber (Moment.tick^[k] x).world} = ∅ :=
        Set.eq_empty_of_forall_notMem fun i hi => hidle k hle i hi
      rw [hempty, Set.ncard_empty]
      exact Nat.zero_le _
    · rw [hlater]
      exact hplay.ncard_le hZ (by omega)
  · rcases hcases k with hle | ⟨l, rfl⟩
    · exact absurd hj (hidle k hle j)
    · rw [hlater] at hj
      obtain ⟨l', hl', hi⟩ := hplay.starts_in_order hZ hfresh (by omega) hij hj
      exact ⟨M + 1 + l', by omega, by rw [hlater]; exact hi⟩
  · obtain ⟨k, hk, hi⟩ := hplay.everybody hZ hfresh i
    exact ⟨M + 1 + k, by omega, by rw [hlater]; exact hi⟩
  · rcases hcases k with hle | ⟨l, rfl⟩
    · exact absurd hrests (hbusy k hle)
    · rw [hlater] at hrests hsame ⊢
      exact hplay.first_round hZ (by omega) hspan hrests (by rw [hsame, hstart])
  · obtain ⟨k, hk, hrests, hsame⟩ := hplay.exists_rest hZ hn hspan hzero
    exact ⟨M + 1 + k, by omega, by rw [hlater]; exact hrests, by rw [hlater, hsame, hnow]⟩
  · obtain ⟨w, sem, hend, htime, hsem⟩ := hplay.finale hZ hn
    refine ⟨w, sem, (hlater N).trans ?_, ?_, hsem⟩
    · rw [hend, Host.value, hZ.size]
    · rw [htime, Zip.horizon, hstart]

end Timely

/-! ## The zip -/

theorem instruct_zipAll {y : Fiber σ} {m : Machine σ} {ps : List (Program σ)} (hps : ps ≠ []) :
    w.instruct f y m (.zipAll ps) = enter f m (w.contest f ps .member .zipDecided) := by
  cases ps with
  | nil => exact absurd rfl hps
  | cons p rest => rfl

/-- Within the region the fiber comes to work on the zip, alone as before, with a fresh semaphore. -/
theorem Alone.approaches {horizon : Nat} (h : Alone f w fiber m horizon) (hlater : w.now.nanos ≤ horizon) (level : Nat)
    (p : Program σ) (stack : List (Waiting σ)) :
    ∃ N w' ops permits, ∃ k : Walker σ, k.fiber = f ∧
      Approaches ⟨w, some (f, ⟨.instruct (.withConcurrency p level), stack, false⟩)⟩
        ⟨w', some (f, ⟨.instruct p, .restore .semaphore :: stack, false⟩)⟩ N ∧
      k.Sound fiber.context.limits.maxOps ∧ ops < fiber.context.limits.maxOps ∧
      k.Active (k.before p (.restore .semaphore :: stack)) ops w' ∧ k.birth.semaphores.top = permits ∧
      k.nest.isOpen = true ∧ k.scope = k.birth.scope ∧ k.birth.context = fiber.context ∧
      w'.refs = w.refs ∧ w.semaphores.get? permits = none ∧ w'.semaphores.get? permits = some (.withPermits level) ∧
      w'.now = w.now ∧
      Clear w'.timers horizon ∧ ∀ g, g ≠ f → w'.fibers.get? g = w.fibers.get? g := by
  obtain ⟨sc, hsc, hopen⟩ := h.scope
  set k : Walker σ := Walker.ofFiber f fiber sc with hk
  have hbudget := h.calm.budget
  have hsound : k.Sound fiber.context.limits.maxOps := ⟨rfl, h.calm.deferred⟩
  have hactive := Walker.active_ofFiber h.calm h.found hsc (.withConcurrency p level) stack
  have hdue : ∀ t ∈ w.timers.live, w.now.nanos < t.deadline.nanos := fun t ht =>
    lt_of_le_of_lt hlater (h.clear.later t ht)
  obtain ⟨N₁, w₁, ops₁, happroach₁, hops₁, hactive₁, hlull₁⟩ :=
    hactive.refreshes hsound hbudget (Or.inr rfl) rfl hdue
  set s : Key .semaphore := (w₁.semaphores.add (.withPermits level)).2 with hs
  obtain ⟨w₂, hadvance, hactive₂, hfibers₂, hrest₂⟩ := hactive₁.enters_region hsound hops₁ hs
  have htimers₂ : w₂.timers = w₁.timers := by rw [hrest₂]
  have hclear₂ : Clear w₂.timers horizon := htimers₂ ▸ hlull₁.clear h.clear
  have hnow₂ : w₂.now = w.now := (congrArg Timers.now htimers₂).trans hlull₁.now
  have hsound₂ : (k.under s).Sound fiber.context.limits.maxOps := ⟨hsound.budget, hsound.deferred⟩
  obtain ⟨N₃, w₃, ops₃, happroach₃, hops₃, hactive₃, hlull₃⟩ :=
    hactive₂.refreshes hsound₂ hbudget (Or.inr rfl) rfl fun t ht => by
      rw [hnow₂]
      exact lt_of_le_of_lt hlater (hclear₂.later t ht)
  have hnobody : ∀ c, w₁.fibers.get? c = none → w₂.fibers.get? c = none := fun c hc =>
    (hfibers₂ c (hactive₁.ne hc)).trans hc
  refine ⟨N₁ + 1 + N₃, w₃, ops₃, s, k.under s, rfl,
    (happroach₁.trans (.step hadvance hnobody)).trans happroach₃, hsound₂, hops₃, hactive₃, rfl, hopen,
    rfl, rfl, ?_, ?_, ?_, hlull₃.now.trans hnow₂, hlull₃.clear hclear₂, fun g hg => ?_⟩
  · rw [hlull₃.rest]
    show w₂.refs = _
    rw [hrest₂]
    show w₁.refs = _
    rw [hlull₁.rest]
  · rw [show w.semaphores = w₁.semaphores by rw [hlull₁.rest], hs]
    exact Store.get?_next _ _
  · rw [hlull₃.rest]
    show w₂.semaphores.get? s = _
    rw [hrest₂]
    show (w₁.semaphores.add (.withPermits level)).1.get? s = _
    rw [Store.get?_add, if_pos hs]
  · exact ((hlull₃.fibers g hg).trans (hfibers₂ g hg)).trans (hlull₁.fibers g hg)

/-- The zip of no programs is over at once. -/
theorem Alone.empty_zip (h : Alone f w fiber m w.now.nanos) (hlevel : 0 < level) (span : Duration)
    (stack : List (Waiting σ)) :
    ∃ permits N, Timely f (.restore .semaphore :: stack) level span permits (fun i : Fin 0 => i.elim0)
      ⟨w, some (f, ⟨.instruct (.withConcurrency (.zipAll []) level), stack, false⟩)⟩ N := by
  obtain ⟨N₁, w₁, ops₁, permits, k, rfl, happroach₁, hsound, hops₁, hactive₁, -, -, -, -, -, hnone, hpermits, hnow,
    hclear, -⟩ :=
    h.approaches (le_refl _) level (.zipAll []) stack
  have hbudget := h.calm.budget
  -- the fiber gets the empty list, and comes to hand it over
  have hmoves : Walker.Moves k (· < fiber.context.limits.maxOps) (· + 1)
      (k.before (.zipAll []) (.restore .semaphore :: stack))
      (k.before (.succeed (.list [])) (.restore .semaphore :: stack)) :=
    Walker.moves_instruct hsound rfl (Or.inr rfl) rfl fun _ _ _ => rfl
  obtain ⟨w₂, hadvance₂, hactive₂, hprivate₂⟩ := hmoves w₁ ops₁ hactive₁ hops₁
  have htimers₂ : w₂.timers = w₁.timers := by rw [hprivate₂.rest]
  have hnow₂ : w₂.now = w.now := (congrArg Timers.now htimers₂).trans hnow
  obtain ⟨N₃, w₃, ops₃, happroach₃, hops₃, hactive₃, hlull₃⟩ :=
    hactive₂.refreshes hsound hbudget (Or.inr rfl) rfl fun t ht => by
      rw [hnow₂]
      exact hclear.later t (htimers₂ ▸ ht)
  have hmoves' : Walker.Moves k (· < fiber.context.limits.maxOps) (· + 1)
      (k.before (.succeed (.list [])) (.restore .semaphore :: stack))
      { k.before (.succeed (.list [])) (.restore .semaphore :: stack) with
        machine := ⟨.value (.list []), .restore .semaphore :: stack, false⟩ } :=
    Walker.moves_instruct hsound rfl (Or.inr rfl) rfl fun _ _ _ => rfl
  obtain ⟨w₄, hadvance₄, hactive₄, hprivate₄⟩ := hmoves' w₃ ops₃ hactive₃ hops₃
  have hstep₂ := Approaches.step hadvance₂ fun c hc => (hprivate₂.fibers c (hactive₁.ne hc)).trans hc
  have hstep₄ := Approaches.step hadvance₄ fun c hc => (hprivate₄.fibers c (hactive₃.ne hc)).trans hc
  have happroach := ((happroach₁.trans hstep₂).trans happroach₃).trans hstep₄
  have htimers₄ : w₄.timers = w₃.timers := by rw [hprivate₄.rest]
  refine ⟨permits, N₁ + 1 + N₃ + 1, ?_⟩
  refine
    { fresh := hnone
      opens := fun hn => absurd hn (Nat.lt_irrefl 0)
      bounded := fun k _ => ?_
      inOrder := fun _ _ i => i.elim0
      everybody := fun i => i.elim0
      full := fun _ k _ _ _ => ?_
      asleep := fun _ hn => absurd hn (Nat.lt_irrefl 0)
      ends := ⟨w₄, .withPermits level, happroach.ends, ?_, ?_, rfl, rfl⟩ }
  · rw [Set.eq_empty_of_isEmpty {i : Fin 0 | _}, Set.ncard_empty]
    exact Nat.zero_le _
  · rw [Set.eq_empty_of_isEmpty {i : Fin 0 | _}, Set.ncard_empty, Nat.min_zero]
  · have hrounds : Tempo.rounds 0 level = 0 := Nat.div_eq_of_lt (by omega)
    have hnow₄ : w₄.now = w.now := ((congrArg Timers.now htimers₄).trans hlull₃.now).trans hnow₂
    rw [hrounds, hnow₄]
    rfl
  · have hsemaphores : w₄.semaphores = w₁.semaphores := by
      rw [hprivate₄.rest]
      show w₃.semaphores = _
      rw [hlull₃.rest]
      show w₂.semaphores = _
      rw [hprivate₂.rest]
    rw [hsemaphores]
    exact hpermits

/-- A zip of sleeps under a bound comes as it is to. -/
theorem Alone.zip (h : Alone f w fiber m (w.now.nanos + span * Tempo.rounds n level)) (hfork : m.fork = .ok copy)
    (hlevel : 0 < level) (hn : 0 < n) (hfits : w.now.nanos + span * Tempo.rounds n level ≤ Time.limit)
    (stack : List (Waiting σ)) :
    ∃ permits member N, Timely f (.restore .semaphore :: stack) level span permits (n := n) member
      ⟨w, some (f, ⟨.instruct (.withConcurrency (.zipAll (List.replicate n (.sleep span))) level), stack, false⟩)⟩
      N := by
  obtain ⟨N₁, w₁, ops₁, permits, k, rfl, happroach, hsound, hops₁, hactive, hpermits, hopen, hscope, hcontext, hrefs,
    hnone, hsem, hnow, hclear, hothers⟩ :=
    h.approaches (Nat.le_add_right _ _) level (.zipAll (List.replicate n (.sleep span))) stack
  -- the fiber opens the contest in the world in which the step is counted
  obtain ⟨y, token, hy, hget, hbudget, hadvance⟩ := hactive.advance hsound (Or.inr rfl)
  obtain ⟨parent, hparent, hcalm, -, hplace, hcontext', hsemaphores⟩ := hactive.count.calm hsound h.calm.budget
  have hps : List.replicate n (Program.sleep span : Program σ) ≠ [] := by
    intro heq
    have := congrArg List.length heq
    simp only [List.length_replicate, List.length_nil] at this
    omega
  have hnow' : (w₁.count k.fiber).now = w.now := hnow
  have hsc : (w₁.count k.fiber).scopes.get? parent.scope =
      some (k.nestAt (k.before (.zipAll (List.replicate n (.sleep span))) (.restore .semaphore :: stack))) := by
    rw [hplace, ← hscope]
    exact hactive.scope
  have hrefs' : (w₁.count k.fiber).refs.get? parent.context.refs = some m := by
    rw [hcontext', hcontext]
    show w₁.refs.get? _ = _
    rw [hrefs]
    exact h.refs
  have hsem' : (w₁.count k.fiber).semaphores.get? parent.semaphores.top = some (.withPermits level) := by
    rw [hsemaphores, hpermits]
    exact hsem
  obtain ⟨K, r, w₂, refs, ⟨arena, nest, t, rfl⟩, hcontest, hZ, hscene, hfresh, hhost⟩ :=
    contest_zip (n := n) span hcalm hparent hsc hopen hrefs' hfork hsem' hlevel hn (by rw [hnow']; exact hclear)
      (by rw [hnow']; exact hfits) (.restore .semaphore :: stack)
  set K : Plan σ := .of n parent k.fiber (.restore .semaphore :: stack) level span (w₁.count k.fiber).now.nanos copy
    arena nest t with hK
  have htick : Moment.tick ⟨w₁, some (k.fiber,
      ⟨.instruct (.zipAll (List.replicate n (.sleep span))), .restore .semaphore :: stack, false⟩)⟩ =
      ⟨w₂, some (k.fiber, ⟨.instruct (K.posed r), .restore .semaphore :: stack, false⟩)⟩ := by
    refine hadvance.trans ?_
    rw [step_instruct (p := .zipAll (List.replicate n (.sleep span))) rfl (by rw [hbudget, hy]; exact hops₁),
      instruct_zipAll hps, hcontest]
    rfl
  have hturn : Turn (K.zip r refs) (K.score r)
      (some (k.fiber, ⟨.instruct (K.posed r), .restore .semaphore :: stack, false⟩)) := by
    show Turn (K.zip r refs) (K.score r)
      (some ((K.zip r refs).host.fiber, ((K.zip r refs).host.spot [] .posed).machine))
    exact .host rfl fun i => rfl
  obtain ⟨N, P, hplay, hzero⟩ := exists_play (x := ⟨w₂, some (k.fiber,
    ⟨.instruct (K.posed r), .restore .semaphore :: stack, false⟩)⟩) hZ hscene hturn
  have hnow₂ : w₂.now = w.now := by
    refine Time.ext ?_
    have htime := hscene.tempo.time
    rw [show (K.score r).round = 0 from rfl, Nat.zero_mul] at htime
    rw [htime, ← hnow']
    rfl
  refine ⟨permits, fun i => (r i).fiber, N₁ + 1 + N, ?_⟩
  have hpermits' : (K.zip r refs).permits = permits := by
    show parent.semaphores.top = permits
    rw [hsemaphores, hpermits]
  have htimely := Timely.of_play hZ hn happroach not_rests_of_active htick (fun i => ?_) (hpermits'.symm ▸ hnone) hnow₂
    (by rw [← hnow']; rfl) hplay (fun i => by rw [hzero]; rfl)
    ⟨w₂, parent, K.contest r, t, rfl, hhost, rfl, rfl⟩
  · rw [hpermits'] at htimely
    exact htimely
  · have hne : (r i).fiber ≠ k.fiber := hactive.count.ne (hfresh i)
    exact ((hothers _ hne).symm.trans ((Walker.private_modify w₁ _).fibers _ hne).symm).trans (hfresh i)

/-- Whatever its budget is, a fiber that zips sleeps under a bound, and is alone on its clock meanwhile, hands over
the list when the rounds have passed. Until then at most `level` members are at work at every moment, just as many
as can be while the first round is asleep, and they come to work in their order; in the end all permits are back. -/
theorem bounded_zip (h : Alone f w fiber m (w.now.nanos + span * Tempo.rounds n level)) (hfork : m.fork = .ok copy)
    (hlevel : 0 < level) (hfits : w.now.nanos + span * Tempo.rounds n level ≤ Time.limit) (stack : List (Waiting σ)) :
    ∃ permits member N, Timely f (.restore .semaphore :: stack) level span permits (n := n) member
      ⟨w, some (f, ⟨.instruct ((Program.zipAll (List.replicate n (.sleep span))).bounded level), stack, false⟩)⟩ N := by
  have hmax : max 1 level = level := max_eq_right hlevel
  simp only [Program.bounded, hmax]
  rcases Nat.eq_zero_or_pos n with rfl | hn
  · have hrounds : Tempo.rounds 0 level = 0 := Nat.div_eq_of_lt (by omega)
    rw [hrounds] at h
    obtain ⟨permits, N, hzip⟩ := Alone.empty_zip h hlevel span stack
    exact ⟨permits, _, N, hzip⟩
  · exact h.zip hfork hlevel hn hfits stack

/-! ## In a new system -/

open Detour

/-- A fiber that has the clock to itself is alone for as long as one likes. -/
theorem alone_of_solo {s : Semaphore (Key .future)} (h : Solo f w fiber m s) (horizon : Nat) :
    Alone f w fiber m horizon := by
  obtain ⟨sc, fs, hooks, next, hsc, hstate, -⟩ := h.scope
  refine ⟨h.found, h.calm, ⟨sc, hsc, by simp only [Scope.isOpen, hstate]⟩, h.refs, ?_, ⟨?_, fun t ht => ?_⟩,
    fun t ht => ?_⟩
  · rw [h.alone]
    exact .nil
  · rw [h.alone]
    exact List.nodup_nil
  · rw [h.alone] at ht
    cases ht
  · rw [h.alone] at ht
    cases ht

/-- The first fiber of a system is about to zip `n` sleeps under a bound. -/
def zipping (w : World Nat) (n level : Nat) : Moment Nat :=
  ⟨w, some (⟨0⟩, ⟨.instruct ((Program.zipAll (List.replicate n (.sleep 10))).bounded level), [], false⟩)⟩

/-- Three sleeps under two permits take two rounds. -/
theorem three_sleeps_bounded : ∃ fiber, Alone ⟨0⟩ solitary fiber .empty (solitary.now.nanos + 10 * Tempo.rounds 3 2) ∧
    FiberRefs.fork .empty = .ok .empty ∧ 0 < 2 ∧ solitary.now.nanos + 10 * Tempo.rounds 3 2 ≤ Time.limit ∧
    Tempo.rounds 3 2 = 2 ∧ ∃ permits member N,
      Timely ⟨0⟩ [.restore .semaphore] 2 10 permits (n := 3) member (zipping solitary 3 2) N := by
  obtain ⟨fiber, s, hsolo⟩ := solo_solitary
  have halone := alone_of_solo hsolo (solitary.now.nanos + 10 * Tempo.rounds 3 2)
  have hfits : solitary.now.nanos + 10 * Tempo.rounds 3 2 ≤ Time.limit := by decide
  exact ⟨fiber, halone, rfl, by decide, hfits, rfl, bounded_zip halone rfl (by decide) hfits []⟩

/-! ## Where it does not hold -/

/-- In the next `k` ticks the clock does not get beyond `t`, and after them nothing is left to do. -/
def overBy (t : Nat) : Nat → Moment σ → Bool
  | 0, x => x.active.isNone && x.world.timers.live.isEmpty && decide (x.world.now.nanos ≤ t)
  | k + 1, x => decide (x.world.now.nanos ≤ t) && overBy t k x.tick

theorem now_le_of_overBy {t k : Nat} {x : Moment σ} (h : overBy t k x = true) (N : Nat) :
    (Moment.tick^[N] x).world.now.nanos ≤ t := by
  induction k generalizing x N with
  | zero =>
      simp only [overBy, Bool.and_eq_true, decide_eq_true_eq, Option.isNone_iff_eq_none, List.isEmpty_iff] at h
      obtain ⟨⟨hactive, hlive⟩, hnow⟩ := h
      have hfix : x.tick = x := by
        obtain ⟨w, active⟩ := x
        obtain rfl : active = none := hactive
        simp only [Moment.tick]
        rw [show w.timers.live = [] from hlive]
      rw [Function.iterate_fixed hfix]
      exact hnow
  | succ k ih =>
      simp only [overBy, Bool.and_eq_true, decide_eq_true_eq] at h
      cases N with
      | zero => exact h.1
      | succ N => exact ih h.2 N

/-- Where all is over before the rounds have passed, the zip does not come as it is to. -/
theorem not_timely_of_overBy {t k : Nat} {x : Moment σ} (h : overBy t k x = true)
    (hlt : t < x.world.now.nanos + span * Tempo.rounds n level) (f : Key .fiber) (stack : List (Waiting σ)) :
    ¬ ∃ permits member N, Timely f stack level span permits (n := n) member x N := by
  rintro ⟨permits, member, N, htimely⟩
  obtain ⟨w, sem, hend, hnow, -⟩ := htimely.ends
  have hle := now_le_of_overBy h N
  rw [hend, hnow] at hle
  exact absurd hle (Nat.not_le.mpr hlt)

/-- The new system, in which another fiber is about to close the scope of the first after a while. -/
def crowded : World Nat :=
  (solitary.runFiber ((Program.sleep 5).andThen (Program.closeScope ⟨0⟩ (.success .unit)))).1

/-- Nobody has interrupted the first fiber. -/
theorem calm_crowded : ∃ fiber sc, crowded.fibers.get? ⟨0⟩ = some fiber ∧ Calm fiber ∧
    crowded.scopes.get? fiber.scope = some sc ∧ sc.isOpen = true ∧ crowded.refs.get? fiber.context.refs = some .empty :=
  ⟨_, _, rfl, ⟨⟨by decide, rfl⟩, rfl, rfl⟩, rfl, rfl, rfl⟩

/-- A zip is over early where a reference of the fiber cannot be forked, and where another fiber closes the scope of
the fiber that zips. And when a member has given its permit back and has yet to end, the next may be at work. -/
theorem not_timely :
    (∃ fiber, Alone ⟨0⟩ burdened fiber fragile (burdened.now.nanos + 10 * Tempo.rounds 1 2) ∧
      ¬ ∃ permits member N, Timely ⟨0⟩ [.restore .semaphore] 2 10 permits (n := 1) member (zipping burdened 1 2) N) ∧
    ((∃ fiber sc, crowded.fibers.get? ⟨0⟩ = some fiber ∧ Calm fiber ∧ crowded.scopes.get? fiber.scope = some sc ∧
        sc.isOpen = true ∧ crowded.refs.get? fiber.context.refs = some .empty) ∧
      ¬ ∃ permits member N, Timely ⟨0⟩ [.restore .semaphore] 1 10 permits (n := 2) member (zipping crowded 2 1) N) ∧
    (AtWork ⟨1⟩ ⟨1⟩ (Moment.tick^[27] (zipping solitary 2 1)).world ∧
      AtWork ⟨1⟩ ⟨2⟩ (Moment.tick^[28] (zipping solitary 2 1)).world ∧
      ((Moment.tick^[28] (zipping solitary 2 1)).world.fibers.get? ⟨1⟩).any (·.exit?.isNone) = true) := by
  refine ⟨?_, ⟨calm_crowded, ?_⟩, by decide +kernel, by decide +kernel, by decide +kernel⟩
  · obtain ⟨fiber, s, hsolo⟩ := solo_burdened
    exact ⟨fiber, alone_of_solo hsolo _, not_timely_of_overBy (t := 0) (k := 73) (by decide +kernel) (by decide) _ _⟩
  · exact not_timely_of_overBy (t := 5) (k := 205) (by decide +kernel) (by decide) _ _

end Fibers.Rounds
