import Fibers.Proofs.Scopes.Bearing

set_option autoImplicit false

/-! # A claimed finalizer is run once

Nobody bears a finalizer before it is claimed, since the programs of users do not contain such duties. The
claim is made once, and gives the finalizer to one fiber (`Run.barred_or_borne`). It is run when the fiber that
bears it works on the duty, and then nobody bears it again. So no claimed finalizer is run twice, whatever the
strategy of the scope (`Run.runs_once`). Nor is a finalizer run that was taken out before the claim.
-/

namespace Fibers

variable {σ : Type} {r : Run σ} {h : Handle} {i j k : Nat}

/-- Keeping apart from a scope is to run none of its finalizers. -/
theorem Licence.apart_le_barring (h : Handle) : Licence.apart h.scope ≤ .barring h := by
  refine ⟨?_, fun _ _ => trivial, fun _ => id, id⟩
  rintro h' hne rfl
  exact hne rfl

/-- Somebody claims the finalizers of a scope, and the one under the handle is among them. -/
def Moment.Grants (x : Moment σ) (h : Handle) : Prop :=
  ∃ g y m sc e fins, x.Works g y m ∧ m.control = .instruct (.duty (.finish h.scope)) ∧
    (x.world.scope h.scope).claim? = some (sc, e, fins) ∧ h.key ∈ fins.map (·.1)

theorem Moment.Grants.claims {x : Moment σ} (hgrants : x.Grants h) : ∃ g, x.Claims h.scope g := by
  obtain ⟨g, y, m, sc, e, fins, hworks, hcontrol, hclaim, -⟩ := hgrants
  exact ⟨g, y, m, hworks, hcontrol, by rw [hclaim]; rfl⟩

/-- Other claims do not ask for it. -/
theorem claimsLicensed_barring {x : Moment σ} (hnot : ¬ x.Grants h) : x.ClaimsLicensed (.barring h) := by
  intro g y m t hworks hcontrol sc e fins hclaim
  refine ⟨trivial, fun fin hfin => ?_⟩
  rintro rfl
  exact hnot ⟨g, y, m, sc, e, fins, hworks, hcontrol, hclaim, List.mem_map_of_mem hfin⟩

theorem Moment.Licensed.not_finalizes {x : Moment σ} (hx : x.Licensed (.barring h)) {g : Key .fiber}
    {y : Fiber σ} {m : Machine σ} {fin : Finalizer σ} {e : AnyExit} (hworks : x.Works g y m) :
    m.control ≠ .instruct (.duty (.finalize h fin e)) := by
  intro hcontrol
  have hlicensed := (hx.active g m hworks.turn id).control
  rw [hcontrol] at hlicensed
  cases hlicensed with
  | duty hduty =>
      cases hduty with
      | finalize hne _ => exact hne rfl

/-- Whoever works on the duty to run a finalizer that somebody bears is the one who bears it, and nobody does
after that. -/
theorem Move.bears_runs {x x' : Moment σ} (hmove : Move x x') (hturned : x.Turned) {g f : Key .fiber}
    {y : Fiber σ} {m : Machine σ} {fin : Finalizer σ} {e : AnyExit} (hbears : x.Bears h g)
    (hworks : x.Works f y m) (hcontrol : m.control = .instruct (.duty (.finalize h fin e))) :
    x'.Licensed (.barring h) := by
  have hother : x.Licensed ((Licence.barring h).sparing g) → f = g := by
    intro hlicensed
    by_contra hne
    have hl := (hlicensed.active f m hworks.turn hne).control
    rw [hcontrol] at hl
    cases hl with
    | duty hduty =>
        cases hduty with
        | finalize hbarred _ => exact hbarred rfl
  cases hbears with
  | @control m' p hhas hcontrol' hp hstack =>
      obtain rfl := hother hhas.licensed
      obtain rfl : m = m' :=
        Option.some.inj ((Moment.machine?_of_active hworks.turn).symm.trans hhas.machine)
      rcases hcontrol' with hinstruct | hstart
      · obtain ⟨⟩ : Control.instruct _ = Control.instruct p := hcontrol.symm.trans hinstruct
        cases hp with
        | finalize hfin => exact hmove.discharges hturned hworks hhas hcontrol hfin hstack
      · rw [hcontrol] at hstart
        cases hstart
  | @stack z rest habove hz hrest =>
      obtain rfl := hother habove.licensed
      obtain ⟨m', pre, hm', hlicensed, -⟩ := habove.machine
      obtain rfl : m = m' := Option.some.inj ((Moment.machine?_of_active hworks.turn).symm.trans hm')
      rw [hcontrol] at hlicensed
      cases hlicensed with
      | duty hduty =>
          cases hduty with
          | finalize hbarred _ => exact absurd rfl hbarred

namespace Run

/-! ## From the claim on -/

/-- A finalizer is given out in one move at most. -/
theorem grants_unique (hi : (r.moment i).Grants h) (hj : (r.moment j).Grants h) : i = j := by
  obtain ⟨f, hf⟩ := hi.claims
  obtain ⟨g, hg⟩ := hj.claims
  exact claims_unique hf hg

/-- Without a claim of it nobody comes to bear a finalizer. -/
theorem barred_succ (hlicensed : (r.moment k).Licensed (.barring h)) (hnot : ¬ (r.moment k).Grants h) :
    (r.moment (k + 1)).Licensed (.barring h) :=
  ((r.move k).keeps hlicensed (fun _ _ => trivial) trivial (fun _ _ _ => id)
    (claimsLicensed_barring hnot)).1

theorem barred_later (hlicensed : (r.moment j).Licensed (.barring h)) (hjk : j ≤ k)
    (hnot : ∀ l, j ≤ l → l < k → ¬ (r.moment l).Grants h) : (r.moment k).Licensed (.barring h) := by
  induction hjk with
  | refl => exact hlicensed
  | @step k hjk ih =>
      exact barred_succ (ih fun l hjl hlk => hnot l hjl (Nat.lt_succ_of_lt hlk))
        (hnot k hjk (Nat.lt_succ_self k))

/-- Before the claim nobody bears a finalizer. -/
theorem barred_of_ungranted (hnot : ∀ l, l < k → ¬ (r.moment l).Grants h) :
    (r.moment k).Licensed (.barring h) := by
  have hstart : (r.moment 0).Licensed (.apart h.scope) :=
    apart_of_unclaimed fun l hl => absurd hl (Nat.not_lt_zero l)
  refine barred_later ⟨hstart.world.mono (Licence.apart_le_barring h) fun _ => id, fun f m hf _ =>
    (hstart.active f m hf id).mono (Licence.apart_le_barring h)⟩ (Nat.zero_le k) fun l _ hlk => hnot l hlk

/-- The keys of claimed finalizers are distinct. -/
theorem nodup_of_claim {s : Key .scope} {sc : Scope (Finalizer σ)} {e : AnyExit}
    {fins : List (Nat × Finalizer σ)} (hclaim : ((r.moment i).world.scope s).claim? = some (sc, e, fins)) :
    (fins.map (·.1)).Nodup := by
  obtain ⟨sc₀, hsc₀, hstate, -⟩ := World.claim_of_some hclaim
  obtain ⟨log, hlog⟩ := r.exists_records s
  have hkeys := (hlog.life hsc₀).1.handed_keys.1
  rw [hstate] at hkeys
  exact (List.nodup_append.mp hkeys).2.1

/-- The claim gives each finalizer to the fiber that makes it. -/
theorem bears_of_grants (hgrants : (r.moment i).Grants h) : ∃ g, (r.moment (i + 1)).Bears h g := by
  have hbefore : (r.moment i).Licensed (.barring h) := barred_of_ungranted fun l hl hl' =>
    absurd (grants_unique hl' hgrants) (Nat.ne_of_lt hl)
  obtain ⟨g, y, m, sc, e, fins, hworks, hcontrol, hclaim, hkey⟩ := hgrants
  obtain ⟨hactive, -, -, hkeeps⟩ := (r.move i).claim_next hworks hcontrol hclaim
  have hfins := World.licensed_of_claim hbefore.world.finalizers hclaim
  have hnodup := nodup_of_claim hclaim
  obtain ⟨⟨key, fin⟩, hfin, rfl : key = h.key⟩ := List.mem_map.mp hkey
  obtain ⟨front, back, rfl⟩ := List.append_of_mem hfin
  have hother : ∀ x ∈ front ++ back, x.1 ≠ h.key := by
    rw [List.map_append, List.map_cons, List.nodup_middle, List.nodup_cons, ← List.map_append] at hnodup
    intro x hx heq
    exact hnodup.1 (List.mem_map.mpr ⟨x, hx, heq⟩)
  have hplace : ∀ xs : List (Nat × Finalizer σ), (∀ x ∈ xs, x ∈ front ++ back) →
      ∀ z ∈ xs.map fun fin => ((⟨h.scope, fin.1⟩ : Handle), fin.2),
        z.1 ≠ h ∧ z.2.Licensed (.barring h) := by
    intro xs hxs z hz
    obtain ⟨x, hx, rfl⟩ := List.mem_map.mp hz
    have hmem := hxs x hx
    refine ⟨fun heq => hother x hmem (congrArg Handle.key heq), hfins x ?_⟩
    rcases List.mem_append.mp hmem with hmem | hmem
    · exact List.mem_append_left _ hmem
    · exact List.mem_append_right _ (List.mem_cons_of_mem _ hmem)
  refine ⟨g, .control ⟨⟨(hkeeps _ (fun _ => trivial) hbefore.world).sparing (fun _ => id) g, ?_⟩,
    Moment.machine?_of_active hactive⟩ (Or.inl rfl) (.flatMap ?_ (.sequel (.publish trivial)))
    (hbefore.active g m hworks.turn id).stack⟩
  · intro f m' hf hne
    rw [hactive] at hf
    cases hf
    exact absurd rfl hne
  · rw [List.map_append, List.map_cons]
    exact World.bears_finalizers (hplace front fun x hx => List.mem_append_left _ hx)
      (hfins _ (List.mem_append_right _ List.mem_cons_self))
      (hplace back fun x hx => List.mem_append_right _ hx)

/-- In every move of a run at most one fiber bears a finalizer. -/
theorem barred_or_borne (r : Run σ) (h : Handle) (k : Nat) :
    (r.moment k).Licensed (.barring h) ∨ ∃ g, (r.moment k).Bears h g := by
  induction k with
  | zero => exact Or.inl (barred_of_ungranted fun l hl => absurd hl (Nat.not_lt_zero l))
  | succ k ih =>
      by_cases hgrants : (r.moment k).Grants h
      · exact Or.inr (bears_of_grants hgrants)
      · rcases ih with hlicensed | ⟨g, hbears⟩
        · exact Or.inl (barred_succ hlicensed hgrants)
        · exact (r.move k).bears (r.lawful k) (r.turned k) (r.attentive k) (claimsLicensed_barring hgrants)
            hbears

/-- A finalizer that is run was claimed before. -/
theorem granted_of_runs (hruns : r.Runs h k) : ∃ i, i < k ∧ (r.moment i).Grants h := by
  by_contra hnot
  obtain ⟨g, y, m, fin, e, hworks, hcontrol⟩ := hruns
  exact (barred_of_ungranted fun l hl hgrants => hnot ⟨l, hl, hgrants⟩).not_finalizes hworks hcontrol

/-- A claimed finalizer is run once at most. -/
theorem runs_once (hi : r.Runs h i) (hj : r.Runs h j) : i = j := by
  -- after the first run nobody bears it any more
  have hnever : ∀ {i j}, r.Runs h i → r.Runs h j → ¬ i < j := by
    intro i j hi hj hij
    obtain ⟨l, hli, hgrants⟩ := granted_of_runs hi
    obtain ⟨g, y, m, fin, e, hworks, hcontrol⟩ := hi
    have hafter : (r.moment (i + 1)).Licensed (.barring h) := by
      rcases r.barred_or_borne h i with hlicensed | ⟨g', hbears⟩
      · exact absurd hcontrol (hlicensed.not_finalizes hworks)
      · exact (r.move i).bears_runs (r.turned i) hbears hworks hcontrol
    obtain ⟨g', y', m', fin', e', hworks', hcontrol'⟩ := hj
    refine (barred_later hafter hij fun l' hil' _ hl' => ?_).not_finalizes hworks' hcontrol'
    have hsame := grants_unique hgrants hl'
    omega
  rcases Nat.lt_trichotomy i j with hlt | heq | hlt
  · exact absurd hlt (hnever hi hj)
  · exact heq
  · exact absurd hlt (hnever hj hi)

/-! ## What was taken out -/

/-- From one moment to a later one a scope passes some events. -/
theorem passes (r : Run σ) (s : Key .scope) (hjk : j ≤ k) :
    ∃ log, World.Passes s (r.moment j).world log (r.moment k).world := by
  obtain ⟨log, hlog⟩ := r.exists_records s
  induction hjk with
  | refl => exact ⟨[], .refl⟩
  | @step k _ ih =>
      obtain ⟨before, hbefore⟩ := ih
      obtain ⟨new, -, hnew⟩ := hlog.move k
      exact ⟨before ++ new, hbefore.trans hnew.passes⟩

/-- A finalizer that was handed out is not claimed later. -/
theorem not_grants_of_handed {log : List (ScopeEvent σ)}
    (hlives : World.Lives h.scope log (r.moment j).world) (hhanded : h.key ∈ ScopeEvent.handed log)
    (hjk : j ≤ k) : ¬ (r.moment k).Grants h := by
  rintro ⟨g, y, m, sc, e, fins, -, -, hclaim, hkey⟩
  obtain ⟨sc₀, hsc₀, hstate, -⟩ := World.claim_of_some hclaim
  obtain ⟨more, hpasses⟩ := r.passes h.scope hjk
  have hnodup := ((hpasses.lives hlives).of_get hsc₀).1.handed_keys.1
  rw [hstate, ScopeEvent.handed, List.flatMap_append, List.append_assoc] at hnodup
  exact (List.nodup_append.mp hnodup).2.2 _ hhanded _ (List.mem_append_right _ hkey) rfl

end Run

end Fibers
