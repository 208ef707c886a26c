import Fibers.Proofs.Exits.Retiring
import Fibers.Proofs.Scopes.Finished

set_option autoImplicit false

/-! # One exit for all

The exit of a fiber is read in many places: in the fiber, in its scope, by whoever waits for the one
or the other, and by the observers of the fiber. If the scope closes in sequence all of them read the
same. It is the exit of the first request to close the scope, followed by the failures of the
finalizers that stood when that request came.
-/

namespace Fibers

variable {σ : Type} {r : Run σ} {s : Key .scope} {f : Key .fiber}

open ScopeEvent

/-! ## What stood when the scope was asked to close -/

namespace Life

/-- The first request in a log. -/
theorem split_of_requests {log : List (ScopeEvent σ)} {e : AnyExit} {rest : List (AnyExit × Bool)}
    (h : requests log = (e, true) :: rest) : ∃ before told later,
      log = before ++ .requested e told :: later ∧ requests before = [] := by
  induction log with
  | nil => cases h
  | cons ev log ih =>
      have hskip : requests (ev :: log) = requests log → requests [ev] = [] →
          ∃ before told later, ev :: log = before ++ .requested e told :: later ∧
            requests before = [] := by
        intro htail hev
        obtain ⟨before, told, later, rfl, hbefore⟩ := ih (htail.symm.trans h)
        refine ⟨ev :: before, told, later, rfl, ?_⟩
        rw [requests, List.flatMap_cons, ← requests, hbefore, List.append_nil]
        simpa [requests] using hev
      cases ev with
      | requested x told =>
          cases h
          exact ⟨[], told, log, rfl, rfl⟩
      | refused x => cases h
      | registered key fin => exact hskip rfl rfl
      | taken key fin => exact hskip rfl rfl
      | hooked g => exact hskip rfl rfl
      | late g => exact hskip rfl rfl
      | claimed fins => exact hskip rfl rfl
      | published x => exact hskip rfl rfl

/-- A log that goes on was a life before. -/
theorem before {log more : List (ScopeEvent σ)} {st : ScopeState (Finalizer σ)}
    (h : Life (log ++ more) st) : ∃ st', Life log st' := by
  induction more using List.reverseRecOn generalizing st with
  | nil => exact ⟨st, by rwa [List.append_nil] at h⟩
  | append_singleton more ev ih =>
      rw [← List.append_assoc] at h
      obtain ⟨st', hbefore, -⟩ := h.init
      exact ih hbefore

/-- What stood at the first request is what was registered and not taken out in the whole life. -/
theorem standing_of_requested {before later : List (ScopeEvent σ)} {e : AnyExit}
    {told : List (Key .fiber)} {st : ScopeState (Finalizer σ)}
    (h : Life (before ++ .requested e told :: later) st) :
    (registrations (before ++ .requested e told :: later)).filter
        (fun fin => fin.1 ∉ takings (before ++ .requested e told :: later)) = standing before := by
  have hsplit : before ++ .requested e told :: later = (before ++ [.requested e told]) ++ later := by
    rw [List.append_assoc, List.singleton_append]
  rw [hsplit] at h ⊢
  obtain ⟨st₁, hasked⟩ := h.before
  obtain ⟨st₀, hbefore⟩ := hasked.before
  obtain ⟨hregistrations, htakings⟩ := h.frozen (by simp [requests])
  rw [hregistrations, htakings, registrations_append, takings_append]
  simpa [registrations, takings] using hbefore.standing_eq.symm

end Life

/-! ## What those who wait go on with -/

/-- Who waits for `a` goes on waiting, or goes on with the exit `e`, or leaves its program. -/
def Run.Delivers (r : Run σ) (a : Awaited) (e : AnyExit) : Prop :=
  ∀ j g m, (r.moment j).machine? g = some m → m.control = .instruct (.wait a) →
    (∃ z, (r.moment j).Leaves g z m) ∨ (r.moment (j + 1)).machine? g = some m ∨
      (r.moment (j + 1)).machine? g = some { m with control := .instruct (.succeed (.exit e)) }

/-- A scope delivers the exit that it was closed with. -/
theorem Run.delivers_closed {k : Nat} {e : AnyExit}
    (hexit : ∀ j, k ≤ j → ((r.moment j).world.scope s).exit? = some e) :
    r.Delivers (.closed s) e := by
  intro j g m hm hwait
  obtain ⟨log, hlog⟩ := r.exists_records s
  rcases hlog.waiter hm hwait with hleaves | ⟨c, hm', rfl | ⟨e', rfl, hexit'⟩⟩
  · exact Or.inl hleaves
  · exact Or.inr (Or.inl hm')
  · have hthen := hexit' (max (j + 1) k) (Nat.le_max_left _ _)
    rw [hexit _ (Nat.le_max_right _ _)] at hthen
    cases hthen
    exact Or.inr (Or.inr hm')

/-- A fiber delivers the exit that it ended with. -/
theorem Run.delivers_done {k : Nat} {e : AnyExit} (hexit : (r.moment k).world.exitOf f = some e) :
    r.Delivers (.done f) e := by
  intro j g m hm hwait
  have hminds : m.control.Minds (· = .done f) := by
    rw [hwait]
    rfl
  rcases Run.waits_or_goes hm hwait hminds with hleaves | hstays | ⟨p, hp, hgoes⟩
  · exact Or.inl hleaves
  · exact Or.inr (Or.inl hstays)
  · obtain ⟨e', hexit', rfl⟩ := Option.map_eq_some_iff.mp hp
    have hthen := (r.exitOf_later (Nat.le_max_left j k) hexit').2
    rw [(r.exitOf_later (Nat.le_max_right j k) hexit).2] at hthen
    cases hthen
    exact Or.inr (Or.inr hgoes)

/-! ## Agreement -/

/-- Everybody reads the exit `e` of the fiber `f`, which is done at `k` as `y`. -/
structure Run.Agreement (r : Run σ) (f : Key .fiber) (k : Nat) (y : Fiber σ) (e : AnyExit) :
    Prop where
  /-- The fiber has published it, -/
  exit : ∀ l, k ≤ l → (r.moment l).world.exitOf f = some e
  /-- and its scope is closed with it. -/
  closed : ∀ l, k ≤ l →
    ∃ sc, (r.moment l).world.scopes.get? y.scope = some sc ∧ sc.state = .closed e
  /-- It is the exit of the first request to close the scope, followed by the failures of the finalizers
  that stood then, each of them run with the exit of that request, the last registered first. -/
  composed : ∀ log, r.Records y.scope log → ∃ g i j x xs before told later,
    j < k ∧ r.Finishes y.scope (log k) e g i j x xs ∧
    log k = before ++ .requested x told :: later ∧ requests before = [] ∧
    r.InTurn g x i ((standing before).map
      fun fin => ((⟨y.scope, fin.1⟩ : Handle), fin.2)).reverse xs j ∧ e = total x xs
  /-- Who watched the fiber when it ended was served with it, -/
  served : ∃ i z cell watchers, i < k ∧ (r.moment i).world.fibers.get? f = some z ∧
    z.done.settle? (.resolved e) = some (cell, watchers) ∧
    r.moment (i + 1) = ⟨watchers.foldl (World.notifyDone f e) (((r.moment i).world.count f).modifyFiber f
      fun fiber => { fiber with phase := .done e, done := cell }), none⟩
  /-- and so is who watches it later; who watches it before is kept until then. -/
  watched : ∀ (w : World σ) (o : DoneWatcher σ) (z : Fiber σ), w.fibers.get? f = some z →
    z.Onward y ∨ y.Onward z →
    z.done.outcome? = none ∧ (w.watchFiber f o).2.isSome = true ∨
      w.watchFiber f o = (World.notifyDone f e w o, none)
  /-- Who waits for the fiber goes on with it, -/
  joined : r.Delivers (.done f) e
  /-- and so does who waits for the close of the scope. -/
  waited : r.Delivers (.closed y.scope) e

/-- A watcher is kept by a fiber that is not done, and served by one that is. -/
theorem World.watchFiber_cases {w : World σ} {z : Fiber σ} (hz : w.fibers.get? f = some z)
    (o : DoneWatcher σ) : z.done.outcome? = none ∧ (w.watchFiber f o).2.isSome = true ∨
      ∃ e, z.exit? = some e ∧ w.watchFiber f o = (notifyDone f e w o, none) := by
  unfold watchFiber
  simp only [hz]
  cases hcell : z.done with
  | pending os next => exact Or.inl ⟨rfl, rfl⟩
  | settled o' =>
      right
      rw [Fiber.exit?, hcell]
      exact ⟨_, rfl, rfl⟩

/-- A fiber that ends with an exit serves its watchers with it. -/
theorem World.finishFiber_of_pending {w : World σ} {z : Fiber σ} (hz : w.fibers.get? f = some z)
    (hpending : z.done.outcome? = none) (e : AnyExit) : ∃ cell watchers,
      z.done.settle? (.resolved e) = some (cell, watchers) ∧
      w.finishFiber f e = watchers.foldl (notifyDone f e)
        (w.modifyFiber f fun fiber => { fiber with phase := .done e, done := cell }) := by
  have hsome : (z.done.settle? (.resolved e)).isSome = true := by
    rw [Cell.settle?_isSome, Cell.isPending, hpending]
    rfl
  obtain ⟨⟨cell, watchers⟩, hsettle⟩ := Option.isSome_iff_exists.mp hsome
  refine ⟨cell, watchers, hsettle, ?_⟩
  unfold finishFiber
  simp only [hz, hsettle]

/-- A fiber that went on has the exit that it had. -/
theorem Fiber.Onward.exit {z z' : Fiber σ} (h : z.Onward z') {e : AnyExit} (he : z.exit? = some e) :
    z'.exit? = some e := by
  obtain ⟨o, ho, heq⟩ := Option.map_eq_some_iff.mp he
  rw [Fiber.exit?, h.outcome o ho, Option.map_some, heq]

/-- Of a fiber that is done, and whose scope closes in sequence, everybody reads the same exit. -/
theorem Run.agreement (r : Run σ) {k : Nat} {y : Fiber σ} {e : AnyExit} {sc : Scope (Finalizer σ)}
    (hy : (r.moment k).world.fibers.get? f = some y) (hdone : y.phase = .done e)
    (hsc : (r.moment k).world.scopes.get? y.scope = some sc) (hseq : sc.strategy = .sequential) :
    r.Agreement f k y e := by
  obtain ⟨i, z, hik, hz, hpending, hmoment, hexit⟩ := ends_of_done (r.sequential_of hsc hseq) hy rfl hdone
  have hfirst := Run.exitOf_of_ends hz hpending hmoment
  have hlater := fun l hkl => Run.exitOf_of_done hy hdone hsc hseq (l := l) hkl
  have hclosed := fun l hkl => Run.closed_of_done hy hdone hsc hseq (l := l) hkl
  refine ⟨hlater, hclosed, fun log hlog => ?_, ?_, fun w o z' hz' honward => ?_, r.delivers_done hfirst,
    r.delivers_closed fun j hj => hexit j (show i + 1 ≤ j from hj)⟩
  · obtain ⟨sc', hsc', hstate⟩ := hclosed k (Nat.le_refl k)
    obtain rfl := Option.some.inj (hsc'.symm.trans hsc)
    obtain ⟨g, a, b, x, xs, hbk, hfinishes⟩ := Run.finished_of_closed hlog hsc' hstate hseq
    obtain ⟨late, hrequests⟩ := hfinishes.requested
    obtain ⟨before, told, later, hsplit, hbefore⟩ := Life.split_of_requests hrequests
    have hlife := (hlog.life hsc').1
    have hperformed := hfinishes.performed
    rw [hsplit] at hlife hperformed
    rw [hlife.standing_of_requested] at hperformed
    exact ⟨g, a, b, x, xs, before, told, later, hbk, hfinishes, hsplit, hbefore, hperformed,
      hfinishes.exit⟩
  · obtain ⟨cell, watchers, hsettle, hfinish⟩ :=
      World.finishFiber_of_pending (World.get?_count hz) hpending e
    exact ⟨i, z, cell, watchers, hik, hz, hsettle, by rw [hmoment, hfinish]⟩
  · rcases World.watchFiber_cases hz' o with hkept | ⟨e', he', hserved⟩
    · exact Or.inl hkept
    · right
      have hexit' : y.exit? = some e := by
        have hk := hlater k (Nat.le_refl k)
        rw [World.exitOf, hy] at hk
        exact hk
      have hsame : e' = e := by
        rcases honward with hbefore | hafter
        · exact Option.some.inj ((hbefore.exit he').symm.trans hexit')
        · exact Option.some.inj (he'.symm.trans (hafter.exit hexit'))
      rw [hserved, hsame]

/-- A program that was interrupted while it was masked ends with the interruption, and so does its
scope. -/
theorem shy_agreement : ∃ y, (shyRun.moment 19).world.fibers.get? ⟨0⟩ = some y ∧
    y.phase = .done (.failure (.interrupt .nobody)) ∧
    shyRun.Agreement ⟨0⟩ 19 y (.failure (.interrupt .nobody)) := by
  have hdone : ∃ y sc, (shyRun.moment 19).world.fibers.get? ⟨0⟩ = some y ∧
      y.phase = .done (.failure (.interrupt .nobody)) ∧
      (shyRun.moment 19).world.scopes.get? y.scope = some sc ∧ sc.strategy = .sequential :=
    ⟨_, _, rfl, rfl, rfl, rfl⟩
  obtain ⟨y, sc, hy, hphase, hsc, hseq⟩ := hdone
  exact ⟨y, hy, hphase, shyRun.agreement hy hphase hsc hseq⟩

end Fibers
