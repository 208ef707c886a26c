import Fibers.Proofs.Finalizers.Overtaking
import Fibers.Proofs.Scopes.Finished

set_option autoImplicit false

/-! # A registered finalizer is invoked

A finalizer that was registered with an open scope stands there until its fiber comes to its frame, or
until the scope is asked to close: its handle is in that frame and nowhere else, and it is not lent. An
exit that comes down to the frame while the scope is open finds the finalizer, and invokes it. If none
does, it stands when the scope is asked to close, and the party that closes the scope invokes it, with
the exit of the first request. So once a scope that closes in sequence is closed, every finalizer that
was registered with it under protection has been invoked.
-/

namespace Fibers

variable {σ : Type} {r : Run σ}

/-- The licence for everything but to hold one handle. -/
def Licence.without (h : Handle) : Licence :=
  { finalize := fun _ => True, publish := fun _ => True, hold := (· ≠ h), forget := True
    exempt := fun _ => False }

theorem claimsLicensed_without (h : Handle) (x : Moment σ) : x.ClaimsLicensed (.without h) :=
  fun _ _ _ _ _ _ _ _ _ _ => ⟨trivial, fun _ _ => trivial⟩

/-- What is not lent stands under a handle that nobody may hold. -/
theorem World.Stands.fares {w w' : World σ} {h : Handle} {fin : Finalizer σ} (hw : w.Stands h fin)
    (hlent : fin.isLent = false) (hfares : Fares (.without h) w w') : w'.Stands h fin :=
  hfares.stands h fin (fun hne => hne rfl) hlent hw

/-- The handle is none of those that are given out later. -/
theorem World.Issued.holds_new {w : World σ} {h : Handle} (hw : w.Issued h) :
    ∀ h', ¬ World.Issued w h' → (Licence.without h).hold h' := by
  rintro h' hfresh rfl
  exact hfresh hw

/-- The handle that a finalizer gets depends on the scopes alone. -/
theorem World.register_snd {w w' : World σ} (hscopes : w'.scopes = w.scopes) (s : Key .scope)
    (fin : Finalizer σ) : (w'.register s fin).2 = (w.register s fin).2 := by
  have hscope : w'.scope s = w.scope s := by rw [World.scope, World.scope, hscopes]
  unfold World.register
  rw [hscope]
  cases (w.scope s).register? fin with
  | none => rfl
  | some made => rfl

/-- An exit that comes down to a frame whose finalizer can be taken out stops there. -/
theorem World.descend_of_takes {w : World σ} {h : Handle} {fin : Finalizer σ}
    (htake : (w.takeFinalizer h).2 = some fin) (f : Key .fiber) (failed : Bool)
    (rest : List (Waiting σ)) :
    World.descend f failed (.finalizer (some h) fin :: rest) w =
      (w, .finalizer (some h) fin :: rest) := by
  have hclaim : (w.claimFinalizer (some h)).2 = true := by
    show ((w.takeFinalizer h).2).isSome = true
    rw [htake]
    rfl
  rcases hc : w.claimFinalizer (some h) with ⟨w', won⟩
  rw [hc] at hclaim
  obtain rfl : won = true := hclaim
  simp only [World.descend, hc]

/-- No handle that was given out before is one that is given out now. -/
theorem World.law_le_without {w : World σ} {h : Handle} (hfresh : ¬ World.Issued w h) :
    w.law ≤ .without h := by
  refine ⟨fun _ _ => trivial, fun _ _ => trivial, ?_, id⟩
  rintro h' hissued rfl
  exact hfresh hissued

/-- What is registered stands: its key is above all keys that were given out. -/
theorem World.Lives.stands_registered {w : World σ} {s : Key .scope} {log : List (ScopeEvent σ)}
    (hlives : Lives s log w) {fin : Finalizer σ} {h : Handle} (hreg : (w.register s fin).2 = some h) :
    (w.register s fin).1.Stands h fin := by
  obtain ⟨hscope, -, -⟩ := World.issued_register hreg
  obtain ⟨s, key⟩ := h
  obtain rfl := hscope
  obtain ⟨sc, fs, hooks, hsc, hstate, hstatus⟩ := World.register_of_some hreg
  refine World.stands_status hstatus ?_
  have hnew : fs.find? (·.1 == key) = none := by
    have hlife := (hlives.of_get hsc).1
    rw [hstate] at hlife
    have hbelow := hlife.handed_keys.2 fs hooks key rfl
    refine List.find?_eq_none.mpr fun x hx heq => ?_
    have hlt := hbelow x.1 (List.mem_append_right _ (List.mem_map_of_mem hx))
    rw [beq_iff_eq.mp heq] at hlt
    exact Nat.lt_irrefl key hlt
  show (fs ++ [(key, fin)]).find? (·.1 == key) = some (key, fin)
  rw [List.find?_append, hnew]
  simp

/-- What is registered in a run stands. -/
theorem Run.stands_registered (r : Run σ) {k : Nat} {w : World σ}
    (hscopes : w.scopes = (r.moment k).world.scopes) {s : Key .scope} {fin : Finalizer σ} {h : Handle}
    (hreg : (w.register s fin).2 = some h) : (w.register s fin).1.Stands h fin := by
  obtain ⟨log, hlog⟩ := r.exists_records s
  exact ((hlog.lives k).of_status (World.status_of_eq hscopes)).stands_registered hreg

section

variable {h : Handle} {fin : Finalizer σ} {f : Key .fiber} {T : List (Waiting σ)} {k : Nat}

/-- What stands under a handle that nobody has goes on to do so. -/
theorem Run.kept_succ (hlent : fin.isLent = false) (hissued : (r.moment k).world.Issued h)
    (hstands : (r.moment k).world.Stands h fin) (hlicensed : (r.moment k).Licensed (.without h)) :
    (r.moment (k + 1)).world.Stands h fin ∧ (r.moment (k + 1)).Licensed (.without h) := by
  obtain ⟨hafter, hfares⟩ := (r.move k).keeps hlicensed hissued.holds_new trivial (fun _ _ _ => id)
    (claimsLicensed_without h _)
  exact ⟨hstands.fares hlent hfares, hafter⟩

/-- What stands under a handle that is in the frames `T` of a fiber and nowhere else goes on to do so, until
an exit comes down to the frames. -/
theorem Run.held_succ (hT : T ≠ []) (hlent : fin.isLent = false) (hissued : (r.moment k).world.Issued h)
    (hstands : (r.moment k).world.Stands h fin) (habove : (r.moment k).Above (.without h) f T) :
    (∃ m pre e, (r.moment k).Meets (.without h) f T m pre e) ∨ (r.moment (k + 1)).world.Stands h fin ∧
      ((r.moment (k + 1)).Above (.without h) f T ∨
        (r.moment (k + 1)).Licensed (.without h) ∧ ∃ y m, (r.moment k).Leaves f y m) := by
  by_cases hmeets : ∃ m pre e, (r.moment k).Meets (.without h) f T m pre e
  · exact Or.inl hmeets
  · obtain ⟨hfares, hafter⟩ := (r.move k).above (r.lawful k) (r.turned k) habove hT (fun _ => id)
      hissued.holds_new trivial (claimsLicensed_without h _) fun m pre e hm => hmeets ⟨m, pre, e, hm⟩
    exact Or.inr ⟨hstands.fares hlent hfares, hafter⟩

end

namespace Protection

variable (p : Protection r) {h : Handle} {k : Nat}

/-! ## The start -/

theorem not_lent : p.finalizer.isLent = false := by
  have hcontrol := ((r.lawful_of_turn p.works.turn).licensed.active _ _ rfl id).control
  rw [p.instruction] at hcontrol
  cases hcontrol with
  | ensuring _ _ hlent => exact hlent

theorem handle_count :
    (((r.moment p.start).world.count p.fiber).register p.state.scope p.finalizer).2 = p.handle := by
  have hscopes : ((r.moment p.start).world.count p.fiber).scopes = (r.moment p.start).world.scopes :=
    rfl
  exact World.register_snd hscopes _ _

/-- The finalizer is registered, and the program begins. -/
theorem next : r.moment (p.start + 1) =
    ⟨(((r.moment p.start).world.count p.fiber).register p.state.scope p.finalizer).1,
      some (p.fiber, { p.machine with control := .instruct p.inner, stack := p.frames })⟩ := by
  rw [Run.advance_of_turn p.works.turn, World.advance_instruct p.works.here p.instruction, frames,
    ← p.handle_count]
  rfl

/-- What was registered stands. -/
theorem stands_start (hh : p.handle = some h) :
    (r.moment (p.start + 1)).world.Stands h p.finalizer := by
  rw [p.next]
  exact r.stands_registered (k := p.start) (w := (r.moment p.start).world.count p.fiber) rfl
    (p.handle_count.trans hh)

/-- From then on the handle is an old one. -/
theorem issued_after (hh : p.handle = some h) (hk : p.start < k) : (r.moment k).world.Issued h := by
  obtain ⟨-, hissued, -⟩ := World.issued_register (p.handle_count.trans hh)
  have hstart : (r.moment (p.start + 1)).world.Issued h := by
    rw [p.next]
    exact hissued
  exact hstart.mono (r.scopesLater hk)

/-! ## From moment to moment -/

/-- The finalizer stands, and nobody else holds its handle: the fiber is inside the program, above the
frame, or the frame is gone. -/
structure Kept (h : Handle) (k : Nat) : Prop where
  stands : (r.moment k).world.Stands h p.finalizer
  held : p.Inside k ∧ (r.moment k).Above (.without h) p.fiber p.frames ∨
    (r.moment k).Licensed (.without h)

theorem kept_start (hh : p.handle = some h) : p.Kept h (p.start + 1) := by
  refine ⟨p.stands_start hh, Or.inl ?_⟩
  have hlawful := (r.lawful_of_turn p.works.turn).licensed
  obtain ⟨-, -, hfresh⟩ := World.issued_register (show ((r.moment p.start).world.register p.state.scope
    p.finalizer).2 = some h from hh)
  have hle : (r.moment p.start).world.law ≤ .without h := World.law_le_without hfresh
  have hm := (hlawful.active _ _ rfl id).mono hle
  have hcontrol := hm.control
  rw [p.instruction] at hcontrol
  cases hcontrol with
  | ensuring hinner hfin _ =>
      have hw : (r.moment p.start).world.Licensed (.without h) := hlawful.world.mono hle fun _ => id
      have hcount : World.Changes (.without h) (some p.fiber) (r.moment p.start).world
          ((r.moment p.start).world.count p.fiber) := World.changes_own rfl fun x => rfl
      have hcounted := hcount.licensed (fun h' hnew hissued => absurd hissued hnew) hw
      have hregistered := World.licensed_register (s := p.state.scope) hcounted hfin
      have hmachine : (r.moment (p.start + 1)).machine? p.fiber =
          some { p.machine with control := .instruct p.inner, stack := p.frames } := by
        rw [p.next]
        exact Moment.machine?_active
      refine ⟨⟨Nat.lt_succ_self _, fun l hl hlk => ?_⟩, ?_, _, [], hmachine, hinner, rfl, nofun⟩
      · obtain rfl : l = p.start + 1 := Nat.le_antisymm hlk hl
        exact ⟨_, hmachine, List.suffix_refl _⟩
      · rw [p.next]
        refine ⟨hregistered.sparing (fun _ => id) p.fiber, fun f m hf hne => ?_⟩
        cases hf
        exact absurd rfl hne

/-- What stands when the scope is not open any more stands for good. -/
theorem stands_of_sealed {w w' : World σ} {fin : Finalizer σ} (hw : w.Stands h fin)
    (hopen : (w.scope h.scope).isOpen = false) (hlater : World.ScopesLater w w') :
    w'.Stands h fin ∧ w'.Sealed h.scope := by
  obtain ⟨sc, hsc, hst⟩ := hw
  rw [World.scope_of_get hsc] at hopen
  obtain ⟨sc', hsc', hscope⟩ := hlater h.scope sc hsc
  have hsealed : w.Sealed h.scope := ⟨sc, hsc, hopen⟩
  exact ⟨⟨sc', hsc', hst.later (by rw [World.isOpen_state, hopen]) hscope.state⟩, hsealed.mono hlater⟩

/-- An exit that comes down to the frame invokes the finalizer, unless the scope is not open any more. -/
theorem Kept.meets {p : Protection r} (hh : p.handle = some h) (hk : p.start < k) (hkept : p.Kept h k)
    (hinside : p.Inside k) (hlicensed : (r.moment k).Licensed ((Licence.without h).sparing p.fiber))
    {m : Machine σ} {pre : List (Waiting σ)} {e : AnyExit}
    (hmeets : (r.moment k).Meets (.without h) p.fiber p.frames m pre e) :
    p.Unwinds k ∨
      (r.moment (k + 1)).world.Stands h p.finalizer ∧ (r.moment (k + 1)).world.Sealed h.scope := by
  obtain ⟨w, hchanges, hw, hnext, hdescend⟩ :=
    hmeets.next (r.move k) (r.turned k) hlicensed (p.issued_after hh hk).holds_new
  obtain ⟨y, hworks⟩ := hmeets.works
  have hstands : w.Stands h p.finalizer := hkept.stands.fares p.not_lent
    (hchanges.fares (hlicensed.world.of_sparing (r.turned k _ _ hworks.turn))
      fun h' hfresh _ => (p.issued_after hh hk).holds_new h' hfresh)
  rw [frames, hh] at hdescend hnext
  by_cases hopen : (w.scope h.scope).isOpen = true
  · -- the finalizer is there to be taken out
    rw [World.descend_of_takes (hstands.take hopen)] at hdescend
    refine Or.inl ⟨hinside, y, m, e, hworks, hmeets.control, ?_⟩
    rw [hdescend, frames, hh]
  · have hall := (r.licensed_all k).machine (Moment.machine?_of_active hworks.turn) id
    have hframes : ∀ z ∈ p.frames, z.Licensed .all := fun z hz => hall.stack z
      (hmeets.stack ▸ List.mem_append_right _ hz)
    rw [frames, hh] at hframes
    have hsound : World.StepSound .all (some p.fiber) w m.exiting [] (World.unwind p.fiber m.exiting e
        (.finalizer (some h) p.finalizer :: p.machine.stack) w) :=
      World.stepSound_unwind hframes w
    obtain ⟨hstill, sc, hsc, hshut⟩ := stands_of_sealed hstands
      (Bool.not_eq_true _ ▸ hopen) hsound.changes.grows.scopes
    have hstatus := World.status_conclude (s := h.scope) p.fiber
      (World.unwind p.fiber m.exiting e (.finalizer (some h) p.finalizer :: p.machine.stack) w)
    rw [hnext]
    refine Or.inr ⟨hstill.of_status hstatus, ?_⟩
    rw [World.status_of_get hsc] at hstatus
    obtain ⟨sc', hsc', heq⟩ := Option.map_eq_some_iff.mp hstatus
    have hstate : sc'.state = sc.state := congrArg Prod.fst heq
    refine ⟨sc', hsc', ?_⟩
    rw [← World.isOpen_state, hstate, World.isOpen_state, hshut]

/-- A finalizer that is kept stays so, until an exit comes down to its frame or the scope is asked to
close. -/
theorem Kept.succ {p : Protection r} (hh : p.handle = some h) (hk : p.start < k) (hkept : p.Kept h k) :
    p.Kept h (k + 1) ∨ p.Unwinds k ∨
      (r.moment (k + 1)).world.Stands h p.finalizer ∧ (r.moment (k + 1)).world.Sealed h.scope := by
  have hissued := p.issued_after hh hk
  rcases hkept.held with ⟨hinside, habove⟩ | hlicensed
  · rcases Run.held_succ p.frames_ne_nil p.not_lent hissued hkept.stands habove with
      ⟨m, pre, e, hmeets⟩ | ⟨hstands, habove' | ⟨hlicensed, -⟩⟩
    · exact Or.inr (hkept.meets hh hk hinside habove.licensed hmeets)
    · obtain ⟨m, pre, hm, -, hstack, -⟩ := habove'.machine
      exact Or.inl ⟨hstands, Or.inl ⟨hinside.succ hm ⟨pre, hstack.symm⟩, habove'⟩⟩
    · exact Or.inl ⟨hstands, Or.inr hlicensed⟩
  · obtain ⟨hstands, hafter⟩ := Run.kept_succ p.not_lent hissued hkept.stands hlicensed
    exact Or.inl ⟨hstands, Or.inr hafter⟩

/-- The finalizer stands until its fiber comes to its frame. -/
theorem unwinds_or_stands (hh : p.handle = some h) (hk : p.start < k) :
    (∃ j, p.start < j ∧ j < k ∧ p.Unwinds j) ∨ (r.moment k).world.Stands h p.finalizer ∧
      (p.Kept h k ∨ (r.moment k).world.Sealed h.scope) := by
  induction hk with
  | refl => exact Or.inr ⟨p.stands_start hh, Or.inl (p.kept_start hh)⟩
  | @step k hk ih =>
      have hk' : p.start < k := hk
      rcases ih with ⟨j, hj, hjk, hunwinds⟩ | ⟨hstands, hkept | hsealed⟩
      · exact Or.inl ⟨j, hj, Nat.lt_succ_of_lt hjk, hunwinds⟩
      · rcases hkept.succ hh hk' with hkept' | hunwinds | ⟨hstands', hsealed'⟩
        · exact Or.inr ⟨hkept'.stands, Or.inl hkept'⟩
        · exact Or.inl ⟨k, hk', Nat.lt_succ_self k, hunwinds⟩
        · exact Or.inr ⟨hstands', Or.inr hsealed'⟩
      · obtain ⟨sc, hsc, hshut⟩ := hsealed
        obtain ⟨hstands', hsealed'⟩ := stands_of_sealed hstands
          (by rw [World.scope_of_get hsc, hshut]) (r.scopesLater (Nat.le_succ k))
        exact Or.inr ⟨hstands', Or.inr hsealed'⟩

/-! ## The invocation -/

/-- The finalizer is handed the exit `x`: by its fiber, to whose frame it comes down, or by the party that
claimed it. -/
inductive Handed (x : AnyExit) (j : Nat) : Prop
  | unwound {y : Fiber σ} {m : Machine σ} : p.Inside j → (r.moment j).Works p.fiber y m →
      m.control = .ofExit x →
      (World.descend p.fiber x.isFailure m.stack ((r.moment j).world.count p.fiber)).2 = p.frames →
      Handed x j
  | claimed {h : Handle} {g : Key .fiber} {y : Fiber σ} {m : Machine σ} : p.handle = some h →
      (r.moment j).Works g y m →
      m.control = .instruct (.duty (.finalize h p.finalizer x)) → Handed x j

/-- A finalizer that was registered with a scope that closed in sequence has been run: an exit has come down to
its frame, or whoever closed the scope has performed it. -/
theorem unwinds_or_performed (hh : p.handle = some h) {sc : Scope (Finalizer σ)} {e : AnyExit}
    (hsc : (r.moment k).world.scopes.get? p.state.scope = some sc) (hclosed : sc.state = .closed e)
    (hseq : sc.strategy = .sequential) : (∃ j, p.start < j ∧ j < k ∧ p.Unwinds j) ∨
      ∃ g e' a b x, p.start < a ∧ b < k ∧ r.Performs g (h, p.finalizer) e' a b x := by
  obtain ⟨hscope, hopen⟩ := p.open_of_handle hh
  by_cases hunwinds : ∃ j, p.start < j ∧ j < k ∧ p.Unwinds j
  · exact Or.inl hunwinds
  -- it stands when the finalizers of its scope are claimed, and these are performed one after the other
  have hstands : ∀ i g, i < k → (r.moment i).Claims h.scope g → (r.moment i).world.Stands h p.finalizer := by
    intro i g hik hclaims
    rw [hscope] at hclaims
    have hstart : p.start < i := hclaims.after hopen
    rcases p.unwinds_or_stands hh hstart with ⟨j, hj, hji, hfound⟩ | ⟨hstands, -⟩
    · exact absurd ⟨j, hj, Nat.lt_trans hji hik, hfound⟩ hunwinds
    · exact hstands
  rw [← hscope] at hsc
  obtain ⟨g, e', i, a, b, x, hclaims, hia, hbk, hperforms⟩ :=
    Run.performed_of_closed hsc hclosed hseq hstands
  rw [hscope] at hclaims
  have hstart : p.start < i := hclaims.after hopen
  exact Or.inr ⟨g, e', a, b, x, Nat.lt_trans hstart hia, hbk, hperforms⟩

/-- A finalizer that was registered with a scope that closed in sequence has been handed an exit. -/
theorem handed_of_closed (hh : p.handle = some h) {sc : Scope (Finalizer σ)} {e : AnyExit}
    (hsc : (r.moment k).world.scopes.get? p.state.scope = some sc) (hclosed : sc.state = .closed e)
    (hseq : sc.strategy = .sequential) : ∃ j x, p.start < j ∧ j < k ∧ p.Handed x j := by
  rcases p.unwinds_or_performed hh hsc hclosed hseq with ⟨j, hj, hjk, hinside, y, m, x, hworks, hcontrol, hdescend⟩ |
    ⟨g, e', a, b, x, ha, hbk, T, -, ⟨y, m, hworks, hcontrol, -⟩, hkeeps, -⟩
  · exact ⟨j, x, hj, hjk, .unwound hinside hworks hcontrol hdescend⟩
  · exact ⟨a, e', ha, Nat.lt_trans hkeeps.1 hbk, .claimed hh hworks hcontrol⟩

end Protection

end Fibers
