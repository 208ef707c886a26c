import Fibers.Proofs.Run.Above

set_option autoImplicit false

/-! # Steps of the machine alone

Some steps touch nothing but the machine of the fiber: a value is handed on, a frame is pushed, or a
continuation of the library's makes a program from a value. `glide?` computes what the machine turns
into. A fiber whose machine glides does so in its next work, whatever happens around it, unless it
leaves its program before.
-/

namespace Fibers

variable {σ : Type} {L : Licence}

/-- The program that a continuation makes from a value, if it looks at nothing else. -/
def Cont.plain? : Cont σ → Value → Option (Program σ)
  | .next p, _ => some p
  | .sequel .captured, v => some (.succeed (.exit (.success v)))
  | .sequel (.runNext p), v => some (.flatMap p (.sequel (.combine v.asExit)))
  | .sequel (.combine soFar), v => some (.succeed (.exit (World.combine soFar v.asExit)))
  | _, _ => none

/-- What a machine turns into in a step that touches nothing else. -/
def Machine.glide? (m : Machine σ) : Option (Machine σ) :=
  match m.control, m.stack with
  | .instruct (.succeed v), _ => some { m with control := .value v }
  | .instruct (.flatMap p k), st => some { m with control := .instruct p, stack := .map k :: st }
  | .instruct (.fold p h k), st => some { m with control := .instruct p, stack := .fold h k :: st }
  | .value v, .map k :: rest => (k.plain? v).map fun p => { m with control := .instruct p, stack := rest }
  | _, _ => none

theorem World.proceedWith_of_plain {k : Cont σ} {v : Value} {p : Program σ}
    (h : k.plain? v = some p) (w : World σ) : w.proceedWith k v = (w, .ok p) := by
  cases k with
  | apply f => cases h
  | next q =>
      cases h
      rfl
  | sequel s =>
      cases s <;> cases h <;> rfl

/-- The shapes of a machine that glides. -/
theorem Machine.glide_cases {m m' : Machine σ} (h : m.glide? = some m') :
    (∃ v, m.control = .instruct (.succeed v) ∧ m' = { m with control := .value v }) ∨
    (∃ p k, m.control = .instruct (.flatMap p k) ∧
      m' = { m with control := .instruct p, stack := .map k :: m.stack }) ∨
    (∃ p e k, m.control = .instruct (.fold p e k) ∧
      m' = { m with control := .instruct p, stack := .fold e k :: m.stack }) ∨
    ∃ v k rest p, m.control = .value v ∧ m.stack = .map k :: rest ∧ k.plain? v = some p ∧
      m' = { m with control := .instruct p, stack := rest } := by
  obtain ⟨control, stack, exiting⟩ := m
  unfold glide? at h
  dsimp only at h ⊢
  split at h
  · cases h
    exact Or.inl ⟨_, rfl, rfl⟩
  · cases h
    exact Or.inr (Or.inl ⟨_, _, rfl, rfl⟩)
  · cases h
    exact Or.inr (Or.inr (Or.inl ⟨_, _, _, rfl, rfl⟩))
  · obtain ⟨p, hp, rfl⟩ := Option.map_eq_some_iff.mp h
    exact Or.inr (Or.inr (Or.inr ⟨_, _, _, p, rfl, rfl, hp, rfl⟩))
  · cases h

/-- A machine that glides has a step to do. -/
theorem Machine.work_of_glide {m m' : Machine σ} (h : m.glide? = some m') :
    (∃ p, m.control = .instruct p) ∨ ∃ e, m.control = .ofExit e := by
  rcases glide_cases h with ⟨v, hc, -⟩ | ⟨p, k, hc, -⟩ | ⟨p, e, k, hc, -⟩ | ⟨v, k, rest, p, hc, -⟩
  · exact Or.inl ⟨_, hc⟩
  · exact Or.inl ⟨_, hc⟩
  · exact Or.inl ⟨_, hc⟩
  · exact Or.inr ⟨.success v, hc⟩

/-- It waits for nothing. -/
theorem Machine.minds_of_glide {m m' : Machine σ} (h : m.glide? = some m') :
    m.control.Minds fun _ => False := by
  rcases glide_cases h with ⟨v, hc, -⟩ | ⟨p, k, hc, -⟩ | ⟨p, e, k, hc, -⟩ | ⟨v, k, rest, p, hc, -⟩ <;>
    rw [hc] <;> trivial

/-- The step of a fiber whose machine glides. -/
theorem World.advance_glide {w : World σ} {g : Key .fiber} {y : Fiber σ} {m m' : Machine σ}
    (hworks : Moment.Works ⟨w, some (g, m)⟩ g y m) (h : m.glide? = some m') :
    w.advance g m = ⟨w.count g, some (g, m')⟩ := by
  rcases Machine.glide_cases h with
    ⟨v, hc, rfl⟩ | ⟨p, k, hc, rfl⟩ | ⟨p, e, k, hc, rfl⟩ | ⟨v, k, rest, p, hc, hstack, hp, rfl⟩
  · rw [advance_instruct hworks hc]
    rfl
  · rw [advance_instruct hworks hc]
    rfl
  · rw [advance_instruct hworks hc]
    rfl
  · rw [advance_unwind (e := .success v) hworks hc, hstack]
    simp only [unwind, unwindValue, proceedWith_of_plain hp]
    rfl

section

variable {x x' : Moment σ} {g : Key .fiber} {m : Machine σ}

/-- A fiber that does a step that changes itself alone has the machine that it comes to. -/
theorem Moment.Has.advance {w w' : World σ} (hhas : Moment.Has L g m ⟨w, some (g, m)⟩)
    (m' : Machine σ) (hturned : Moment.Turned ⟨w, some (g, m)⟩)
    (hexempt : ∀ f, ¬ L.exempt f) (hhold : ∀ h, L.hold h)
    (hchanges : World.Changes L (some g) w w') :
    (⟨w', some (g, m')⟩ : Moment σ).Has L g m' ∧
      ∀ s, ¬ L.publish s → World.Plainly s w w' := by
  have hw : w.Licensed L := hhas.licensed.world.of_sparing (hturned g m rfl)
  refine ⟨⟨⟨(hchanges.licensed (fun h _ _ => hhold h) hw).sparing hexempt g, fun f m'' hf hne => ?_⟩,
    Moment.machine?_active⟩, fun s hs => hchanges.plainly hs⟩
  cases hf
  exact absurd rfl hne

/-- A fiber whose machine glides stays, glides, or leaves its program. -/
theorem Move.glides (h : Move x x') (hx : x.Lawful) (hturned : x.Turned)
    (hattentive : x.world.Attentive) {m' : Machine σ} (hhas : x.Has L g m)
    (hexempt : ∀ f, ¬ L.exempt f) (hhold : ∀ h, L.hold h) (hforget : L.forget)
    (hclaims : x.ClaimsLicensed L) (hglide : m.glide? = some m') :
    (∀ s, ¬ L.publish s → World.Plainly s x.world x'.world) ∧
      (x'.Has L g m ∨ (∃ y, x.Works g y m) ∧ x'.Has L g m' ∨ x'.Licensed L ∧ ∃ y, x.Leaves g y m) := by
  -- it works and glides, or else `poised` says what becomes of it
  by_cases hidle : ∃ y, x.Works g y m
  · obtain ⟨y, hworks⟩ := hidle
    obtain ⟨w, active⟩ := x
    obtain rfl : active = some (g, m) := hworks.turn
    have hnext : x' = ⟨w.count g, some (g, m')⟩ := by
      cases h with
      | advance => exact World.advance_glide hworks hglide
    have hcount : World.Changes L (some g) w (w.count g) := World.changes_own rfl fun x => rfl
    rw [hnext]
    obtain ⟨hhas', hplain⟩ := hhas.advance m' hturned hexempt hhold hcount
    exact ⟨hplain, Or.inr (Or.inl ⟨⟨y, hworks⟩, hhas'⟩)⟩
  · obtain ⟨hfares, hafter⟩ := h.poised hx hturned hattentive hhas hexempt (fun h _ => hhold h)
      hforget hclaims (Machine.work_of_glide hglide) (Machine.minds_of_glide hglide)
      fun y hworks => hidle ⟨y, hworks⟩
    exact ⟨hfares.plainly, hafter.imp_right Or.inr⟩

end

end Fibers
