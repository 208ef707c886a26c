import Fibers.Proofs.Scopes.Closing

set_option autoImplicit false

/-! # Closed means finished

A scope that closes in sequence and is closed has had every finalizer that stood when it was asked to
close run to its end, and none of them is run again.
-/

namespace Fibers

variable {σ : Type} {r : Run σ} {s : Key .scope} {g : Key .fiber}

open ScopeEvent

namespace Run.Records

variable {log : Nat → List (ScopeEvent σ)} {k : Nat}

/-- A logged claim was made by a fiber. -/
theorem exists_claims (h : r.Records s log) (hclaims : claims (log k) ≠ []) :
    ∃ i g, i < k ∧ (r.moment i).Claims s g := by
  induction k with
  | zero =>
      rw [h.start] at hclaims
      exact absurd rfl hclaims
  | succ k ih =>
      obtain ⟨new, hnew, hlogs⟩ := h.move k
      by_cases hbefore : claims (log k) = []
      · rw [hnew, claims_append, hbefore, List.nil_append] at hclaims
        obtain ⟨g, hg⟩ := hlogs.claims.mp hclaims
        exact ⟨k, g, Nat.lt_succ_self k, hg⟩
      · obtain ⟨i, g, hik, hi⟩ := ih hbefore
        exact ⟨i, g, Nat.lt_succ_of_lt hik, hi⟩

/-- A closed scope keeps its exit. -/
theorem exit_of_closed (h : r.Records s log) {sc : Scope (Finalizer σ)} {x : AnyExit}
    (hsc : (r.moment k).world.scopes.get? s = some sc) (hclosed : sc.state = .closed x) {l : Nat}
    (hkl : k ≤ l) : ((r.moment l).world.scope s).exit? = some x := by
  have htold : ((r.moment k).world.scope s).closed.outcome? = some (.resolved x) := by
    rw [World.scope_of_get hsc, (h.life hsc).2, hclosed]
    rfl
  obtain ⟨x', hresolved, hexit⟩ := h.exit_of_outcome htold
  cases hresolved
  exact hexit l hkl

/-- When the finalizers are claimed the log has all that was ever registered or taken out, and the
first request. -/
theorem claimed_eq (h : r.Records s log) {i : Nat} {sc : Scope (Finalizer σ)} {e : AnyExit}
    {claimed : List (Nat × Finalizer σ)}
    (hclaim : ((r.moment i).world.scope s).claim? = some (sc, e, claimed)) (hik : i ≤ k) :
    claimed = (registrations (log k)).filter (fun fin => fin.1 ∉ takings (log k)) ∧
      ∃ late, requests (log k) = (e, true) :: late := by
  obtain ⟨sc₀, hsc₀, hstate₀, -⟩ := World.claim_of_some hclaim
  obtain ⟨more, hmore⟩ := h.grows hik
  obtain ⟨sc₁, hsc₁, -⟩ := r.scopesLater hik s sc₀ hsc₀
  have hlife₀ := (h.life hsc₀).1
  rw [hstate₀] at hlife₀
  have hlife := (h.life hsc₁).1
  rw [hmore] at hlife
  obtain ⟨late, hrequests⟩ : ∃ late, requests (log i) = (e, true) :: late := by
    rcases hlife₀.requests_eq with ⟨hopen, -⟩ | ⟨-, e', late, heq, -, hexit⟩
    · cases hopen
    · exact ⟨late, by rw [heq, hexit e _ rfl]⟩
  obtain ⟨hregistrations, htakings⟩ := hlife.frozen (by rw [hrequests]; exact List.cons_ne_nil _ _)
  rw [hmore]
  refine ⟨?_, late ++ requests more, ?_⟩
  · rw [hregistrations, htakings]
    exact hlife₀.knows.trans hlife₀.standing_eq
  · rw [requests, List.flatMap_append, ← requests, ← requests, hrequests]
    rfl

end Run.Records

/-- A fiber that works on the publication of a scope runs no claimed finalizer. -/
theorem Moment.Publishes.not_runs {x : Moment σ} (h : x.Publishes s g) {f : Key .fiber} {y : Fiber σ}
    {m : Machine σ} {h' : Handle} {fin : Finalizer σ} {e : AnyExit} (hworks : x.Works f y m) :
    m.control ≠ .instruct (.duty (.finalize h' fin e)) := by
  intro hcontrol
  obtain ⟨y₁, m₁, v, left, hworks₁, hvalue, -⟩ := h
  obtain ⟨⟩ : some (g, m₁) = some (f, m) := hworks₁.turn.symm.trans hworks.turn
  rw [hvalue] at hcontrol
  cases hcontrol

/-- Between `i` and `j` the fiber `g` has seen the close of a scope through. It has claimed the
finalizers that were registered and not taken out, and run them: one after the other, the last
registered first, each with the exit `e` of the first request. It has published that exit, followed
by their failures. At no other time any of the claimed finalizers is invoked. -/
structure Run.Finishes (r : Run σ) (s : Key .scope) (log : List (ScopeEvent σ)) (x : AnyExit)
    (g : Key .fiber) (i j : Nat) (e : AnyExit) (xs : List AnyExit) : Prop where
  claims : (r.moment i).Claims s g
  requested : ∃ late, requests log = (e, true) :: late
  performed : r.InTurn g e i (((registrations log).filter fun fin => fin.1 ∉ takings log).map
    fun fin => ((⟨s, fin.1⟩ : Handle), fin.2)).reverse xs j
  publishes : (r.moment j).Publishes s g
  exit : x = total e xs
  only : ∀ h l, h.scope = s → r.Runs h l → i < l ∧ l < j

/-- A scope whose finalizers are claimed is not open any more. -/
theorem Moment.Claims.sealed {x : Moment σ} (h : x.Claims s g) : x.world.Sealed s := by
  obtain ⟨y, m, -, -, hsome⟩ := h
  obtain ⟨⟨sc', e', claimed⟩, hclaim⟩ := Option.isSome_iff_exists.mp hsome
  obtain ⟨sc, hsc, hstate, -⟩ := World.claim_of_some hclaim
  exact ⟨sc, hsc, by rw [Scope.isOpen, hstate]⟩

/-- A scope that can still take finalizers is claimed later. -/
theorem Moment.Claims.after {i j : Nat} (h : (r.moment i).Claims s g)
    (hopen : ¬ (r.moment j).world.Sealed s) : j < i := by
  by_contra hnot
  exact hopen (h.sealed.mono (r.scopesLater (Nat.le_of_not_lt hnot)))

/-- What stands when the finalizers of a scope are claimed is performed. -/
theorem Run.Finishes.performs {log : Nat → List (ScopeEvent σ)} (hlog : r.Records s log) {i j k : Nat}
    {e x : AnyExit} {xs : List AnyExit} (h : r.Finishes s (log k) x g i j e xs) (hik : i ≤ k) {key : Nat}
    {fin : Finalizer σ} (hstands : (r.moment i).world.Stands ⟨s, key⟩ fin) :
    ∃ a b x', i < a ∧ b < j ∧ r.Performs g (⟨s, key⟩, fin) e a b x' := by
  obtain ⟨y, m, -, -, hsome⟩ := h.claims
  obtain ⟨⟨sc', e', claimed⟩, hclaim⟩ := Option.isSome_iff_exists.mp hsome
  obtain ⟨sc, hsc, hstate, -⟩ := World.claim_of_some hclaim
  have hst := hstands.state hsc
  rw [hstate] at hst
  have hmem : (key, fin) ∈ claimed := List.mem_of_find?_eq_some hst
  rw [(hlog.claimed_eq hclaim hik).1] at hmem
  have hfin : ((⟨s, key⟩ : Handle), fin) ∈ (((registrations (log k)).filter
      fun fin => fin.1 ∉ takings (log k)).map fun fin => ((⟨s, fin.1⟩ : Handle), fin.2)).reverse :=
    List.mem_reverse.mpr (List.mem_map.mpr ⟨_, hmem, rfl⟩)
  exact h.performed.performed hfin

/-- A scope that closes in sequence and is closed is finished. -/
theorem Run.finished_of_closed {log : Nat → List (ScopeEvent σ)} (h : r.Records s log) {k : Nat}
    {sc : Scope (Finalizer σ)} {x : AnyExit}
    (hsc : (r.moment k).world.scopes.get? s = some sc) (hclosed : sc.state = .closed x)
    (hseq : sc.strategy = .sequential) :
    ∃ g i j e xs, j < k ∧ r.Finishes s (log k) x g i j e xs := by
  have hstage := (h.life hsc).1.stage
  rw [hclosed] at hstage
  obtain ⟨⟨-, -, fins, -, hlogged, -⟩, -⟩ := hstage
  obtain ⟨i, g, hik, hclaims⟩ := h.exists_claims (k := k) (by rw [hlogged]; exact List.cons_ne_nil _ _)
  obtain ⟨y, m, hworks, hcontrol, hsome⟩ := id hclaims
  obtain ⟨⟨sc', e, claimed⟩, hclaim⟩ := Option.isSome_iff_exists.mp hsome
  have hstrategy : sc'.strategy = .sequential := by
    obtain ⟨sc₀, hsc₀, -, hsc'⟩ := World.claim_of_some hclaim
    have hsame : sc₀.strategy = sc.strategy := r.strategy_eq hsc₀ hsc
    rw [hsc']
    exact hsame.trans hseq
  have hthrough : ∀ {l}, i < l → ((r.moment l).world.scope s).isClosed = true → r.Through s g e
      m.stack i (claimed.map fun fin => ((⟨s, fin.1⟩ : Handle), fin.2)).reverse l :=
    fun hil hl => Run.through_of_closed hworks hcontrol hclaim hstrategy hil hl
  obtain ⟨j, xs, exiting, hjk, hturn, hpublishes, -, sc₁, hsc₁, hclosed₁⟩ :=
    (hthrough hik (r.closed_later (Nat.le_refl k) hsc hclosed)).finished
  obtain ⟨rfl, hrequests⟩ := h.claimed_eq hclaim (Nat.le_of_lt hik)
  have hij : i < j := hturn.lt
  refine ⟨g, i, j, e, xs, hjk, hclaims, hrequests, hturn, hpublishes, ?_, ?_⟩
  · have hlast := h.exit_of_closed hsc hclosed (Nat.le_refl k)
    have hthen := h.exit_of_closed hsc₁ hclosed₁ hjk
    exact Option.some.inj (hlast.symm.trans hthen)
  · -- before the claim and after the publication everybody keeps apart from the scope
    rintro h' l rfl ⟨f, y', m', fin, x', hworks', hcontrol'⟩
    have hapart : ¬ (r.moment l).Licensed (.apart h'.scope) := fun hlicensed =>
      not_finalizes_of_licensed hlicensed hworks' hcontrol' rfl
    refine ⟨?_, ?_⟩
    · by_contra hnot
      refine hapart (Run.apart_of_unclaimed fun i' hi' f hf => ?_)
      have hsame : i' = i := Run.claims_unique hf hclaims
      omega
    · by_contra hnot
      rcases Nat.lt_or_eq_of_le (Nat.le_of_not_lt hnot) with hlt | rfl
      · exact hapart (hthrough (by omega) (r.closed_later hlt hsc₁ hclosed₁)).licensed
      · exact hpublishes.not_runs hworks' hcontrol'

/-- What stands under a handle when the finalizers of its scope are claimed is performed, if the scope closes in
sequence, before it is closed. -/
theorem Run.performed_of_closed {h : Handle} {fin : Finalizer σ} {sc : Scope (Finalizer σ)} {x : AnyExit}
    {k : Nat} (hsc : (r.moment k).world.scopes.get? h.scope = some sc) (hclosed : sc.state = .closed x)
    (hseq : sc.strategy = .sequential)
    (hstands : ∀ i g, i < k → (r.moment i).Claims h.scope g → (r.moment i).world.Stands h fin) :
    ∃ g e i a b x', (r.moment i).Claims h.scope g ∧ i < a ∧ b < k ∧ r.Performs g (h, fin) e a b x' := by
  obtain ⟨s, key⟩ := h
  obtain ⟨log, hlog⟩ := r.exists_records s
  obtain ⟨g, i, j, e, xs, hjk, hfinishes⟩ := Run.finished_of_closed hlog hsc hclosed hseq
  have hij : i < j := hfinishes.performed.lt
  obtain ⟨a, b, x', hia, hbj, hperforms⟩ :=
    hfinishes.performs hlog (by omega) (hstands i g (by omega) hfinishes.claims)
  exact ⟨g, e, i, a, b, x', hfinishes.claims, hia, by omega, hperforms⟩

end Fibers
