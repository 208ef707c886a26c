import Fibers.Proofs.Configuration.Layers

set_option autoImplicit false

/-! # Which layer gives a setting

A setting is looked up in this order, and the five settings do not look at each other:

    the last call, else the variable if it was laid, else the file, else the default.

`firstGiven` is that order, `Config.Follows` says it of all five settings, with zeros raised to
one, and `Config.Settled` says what makes a configuration final. `Builder.precedence` puts them
together for every file, every assignment of the variables and every row of calls.
-/

namespace Fibers

/-! ## What is looked up -/

/-- The value of a setting that three layers may give, the first layer that gives it first. -/
def firstGiven {α : Type} (call laid file : Option α) (standard : α) : α :=
  match call, laid, file with
  | some a, _, _ => a
  | none, some a, _ => a
  | none, none, some a => a
  | none, none, none => standard

theorem firstGiven_eq {α : Type} (call laid file : Option α) (standard : α) :
    firstGiven call laid file standard = call.getD (laid.getD (file.getD standard)) := by
  cases call with
  | some a => rfl
  | none =>
      cases laid with
      | some a => rfl
      | none => cases file <;> rfl

namespace Config

/-- A number, or one in place of zero. -/
def raised (n : Nat) : Nat := if n = 0 then 1 else n

/-- A strategy, or a bound of one in place of a bound of zero. -/
def raisedStrategy (s : Strategy) : Strategy := if s = .bounded 0 then .bounded 1 else s

theorem max_one (n : Nat) : max 1 n = raised n := by
  unfold raised
  split <;> omega

theorem strategy_normalize (s : Strategy) : s.normalize = raisedStrategy s := by
  unfold raisedStrategy
  split
  next h => rw [h]; rfl
  next h =>
      unfold Strategy.normalize
      split
      next => exact absurd rfl h
      next => rfl

/-- Every setting of a configuration is the one that is looked up in the calls, the layer of the
variables and the layer of the file, and zeros are raised. -/
structure Follows (c : Config) (calls : List BuilderCall) (laid file : Settings) : Prop where
  maxOps : c.maxOps = raised
    (firstGiven (calls.filterMap BuilderCall.maxOps?).getLast? laid.maxOps file.maxOps
      standard.maxOps)
  maxTrace : c.maxTrace =
    firstGiven (calls.filterMap BuilderCall.maxTrace?).getLast? laid.maxTrace file.maxTrace
      standard.maxTrace
  concurrency : c.concurrency = raised
    (firstGiven (calls.filterMap BuilderCall.concurrency?).getLast? laid.concurrency
      file.concurrency standard.concurrency)
  finalization : c.finalization = raisedStrategy
    (firstGiven (calls.filterMap BuilderCall.finalization?).getLast? laid.finalization
      file.finalization standard.finalization)
  clock : c.clock =
    firstGiven (calls.filterMap BuilderCall.clock?).getLast? laid.clock file.clock standard.clock

/-- A configuration that can be used as it is: its counts are positive, normalizing it or resolving
it as the base of a builder gives it again, and the texts of its strategy and its clock are read
back. -/
structure Settled (c : Config) : Prop where
  maxOps : 1 ≤ c.maxOps
  concurrency : 1 ≤ c.concurrency
  normalize_eq : c.normalize = c
  resolve_eq : Builder.resolve ⟨c, {}⟩ = c
  finalization : Strategy.parse c.finalization.display = .ok c.finalization
  clock : ClockKind.parse c.clock.display = .ok c.clock

theorem strategy_normalize_normalize (s : Strategy) : s.normalize.normalize = s.normalize := by
  rw [strategy_normalize, strategy_normalize]
  unfold raisedStrategy
  split <;> rfl

theorem normalize_normalize (c : Config) : c.normalize.normalize = c.normalize := by
  have hmax : ∀ n : Nat, max 1 (max 1 n) = max 1 n := by
    intro n
    omega
  simp only [normalize, hmax, strategy_normalize_normalize]

end Config

theorem ClockKind.parse_display (k : ClockKind) : ClockKind.parse k.display = .ok k := by
  have h : Text.Plain k.display := by cases k <;> decide
  unfold ClockKind.parse
  rw [h.trim_eq, h.lowercase_eq]
  cases k <;> rfl

/-- A normalized configuration whose bound has 64 bits can be used as it is. -/
theorem Config.settled_normalize {c : Config} (h : c.finalization.Fits) : c.normalize.Settled where
  maxOps := Nat.le_max_left 1 c.maxOps
  concurrency := Nat.le_max_left 1 c.concurrency
  normalize_eq := c.normalize_normalize
  resolve_eq := c.normalize_normalize
  finalization := by
    show Strategy.parse c.finalization.normalize.display = .ok c.finalization.normalize
    rw [strategy_normalize]
    unfold raisedStrategy
    split
    · exact Strategy.parse_display (by decide) (show 1 < 2 ^ 64 by decide)
    · exact Strategy.parse_display ‹_› h
  clock := ClockKind.parse_display c.clock

namespace Builder

/-- What a builder resolves to can be used as it is, if the bounds in both records have 64 bits. -/
theorem settled_resolve {b : Builder} (h : (b.explicit.over b.base).finalization.Fits) :
    b.resolve.Settled :=
  Config.settled_normalize h

/-- Laying what was asked for over the outcome again changes nothing. -/
theorem resolve_resolve (b : Builder) : resolve ⟨b.resolve, b.explicit⟩ = b.resolve := by
  have hcount : ∀ (o : Option Nat) (n : Nat),
      max 1 (o.getD (max 1 (o.getD n))) = max 1 (o.getD n) := by
    intro o n
    cases o with
    | none => show max 1 (max 1 n) = max 1 n; omega
    | some m => rfl
  have hstrategy : ∀ (o : Option Strategy) (s : Strategy),
      (o.getD (o.getD s).normalize).normalize = (o.getD s).normalize := by
    intro o s
    cases o with
    | none => exact Config.strategy_normalize_normalize s
    | some t => rfl
  simp only [resolve, Settings.over, Config.normalize, hcount, getD_getD, hstrategy]

theorem follows_resolve (calls : List BuilderCall) (laid file : Settings) :
    (resolve ⟨laid.over (file.over .standard), BuilderCall.asked calls⟩).Follows calls laid
      file where
  maxOps := by
    rw [← Config.max_one, firstGiven_eq]
    rfl
  maxTrace := by
    rw [firstGiven_eq]
    rfl
  concurrency := by
    rw [← Config.max_one, firstGiven_eq]
    rfl
  finalization := by
    rw [← Config.strategy_normalize, firstGiven_eq]
    rfl
  clock := by
    rw [firstGiven_eq]
    rfl

/-- The strategy that is looked up has a bound of 64 bits if each layer gives such a one. -/
theorem fits_over {calls : List BuilderCall} {laid file : Settings}
    (hcalls : ∀ s, BuilderCall.finalization s ∈ calls → s.Fits)
    (hlayer : ∀ s, laid.finalization = some s → s.Fits)
    (hfile : ∀ s, file.finalization = some s → s.Fits) :
    ((BuilderCall.asked calls).over (laid.over (file.over .standard))).finalization.Fits := by
  show ((BuilderCall.asked calls).finalization.getD
    (laid.finalization.getD (file.finalization.getD .sequential))).Fits
  cases hasked : (BuilderCall.asked calls).finalization with
  | some s => exact hcalls s (BuilderCall.mem_of_asked hasked)
  | none =>
      cases hv : laid.finalization with
      | some s => exact hlayer s hv
      | none =>
          cases hf : file.finalization with
          | some s => exact hfile s hf
          | none => trivial

/-- From a file that is accepted, or none, under any variables and after any row of calls whose
strategies have bounds of 64 bits: either the variables were laid and one that is set is rejected,
or the row ends with a builder. What this builder resolves to follows the order of the layers,
where the variables count only if they were laid; it can be used as it is, and resolving again
gives it again. -/
theorem precedence {toml : Option String} {file : Settings} (hfile : Toml.layer toml = .ok file)
    (vars : String → Option String) {calls : List BuilderCall}
    (hcalls : ∀ s, BuilderCall.finalization s ∈ calls → s.Fits) :
    ∃ start, opened toml = .ok start ∧
      ((BuilderCall.environment ∈ calls ∧ ∃ name value e, vars name = some value ∧
          Variables.Rejects name value e ∧ start.after vars calls = .error e) ∨
        ∃ built laid, start.after vars calls = .ok built ∧
          (if BuilderCall.environment ∈ calls then Variables.Gives vars laid else laid = {}) ∧
          built.resolve.Follows calls laid file ∧ built.resolve.Settled ∧
          resolve ⟨built.resolve, built.explicit⟩ = built.resolve) := by
  refine ⟨⟨file.over .standard, {}⟩, opened_eq_ok hfile, ?_⟩
  have hfits : ∀ s, file.finalization = some s → s.Fits := fun s => Toml.fits_of_layer hfile
  by_cases hcall : BuilderCall.environment ∈ calls
  · rcases Variables.settings_cases vars with ⟨laid, hsettings, hgives⟩ |
      ⟨name, value, e, hvalue, hrejects, hsettings⟩
    · right
      have hafter := @after_eq_ok vars laid (file.over .standard) calls fun _ => hsettings
      rw [if_pos hcall] at hafter
      refine ⟨_, laid, hafter, ?_, follows_resolve calls laid file,
        settled_resolve (fits_over hcalls (fun s => hgives.fits) hfits), resolve_resolve _⟩
      rw [if_pos hcall]
      exact hgives
    · left
      exact ⟨hcall, name, value, e, hvalue, hrejects, after_eq_error hsettings hcall⟩
  · -- no variables: their layer is empty, and an empty layer lies over the file without a trace
    right
    have hafter := @after_eq_ok vars {} (file.over .standard) calls fun h => absurd h hcall
    rw [if_neg hcall] at hafter
    refine ⟨_, {}, hafter, ?_, follows_resolve calls {} file,
      settled_resolve (@fits_over calls {} file hcalls (fun s h => by cases h) hfits),
      resolve_resolve _⟩
    rw [if_neg hcall]

/-- A file with a step count of zero, two variables, and calls before and after them. -/
def sampleFile : String := "[fiber]\nmax_op_count = 0\nconcurrency = 7\n"

/-- The variables of the example; the others are not set. -/
def sampleVars (name : String) : Option String :=
  if name = "FIBERFX_CONCURRENCY" then some " Max "
  else if name = "FIBERFX_FINALIZATION" then some "concurrent:3"
  else none

/-- The calls of the example. -/
def sampleCalls : List BuilderCall :=
  [.finalization (.bounded 0), .environment, .clock .wall, .clock .virtual]

/-- Each of the five settings comes from another layer: the step count from the file, where its
zero is raised, the trace bound from the defaults, the level from its variable, the strategy from
a call made before the variables were laid, where its zero is raised too, and the clock from the
last of two calls. -/
theorem precedence_sample :
    Toml.layer (some sampleFile) = .ok ⟨some 0, none, some 7, none, none⟩ ∧
    (∀ s, BuilderCall.finalization s ∈ sampleCalls → s.Fits) ∧
    ∃ start built, opened (some sampleFile) = .ok start ∧
      start.after sampleVars sampleCalls = .ok built ∧
      built.resolve = ⟨1, 50, unbounded, .bounded 1, .virtual⟩ ∧ built.resolve.Settled := by
  have hfile : Toml.layer (some sampleFile) = .ok ⟨some 0, none, some 7, none, none⟩ := by
    decide +kernel
  have hcalls : ∀ s, BuilderCall.finalization s ∈ sampleCalls → s.Fits := by
    intro s hs
    obtain rfl : s = .bounded 0 := by simpa [sampleCalls] using hs
    show 0 < 2 ^ 64
    decide
  obtain ⟨start, hstart, hend⟩ := precedence hfile sampleVars hcalls
  have hopened : opened (some sampleFile) = .ok ⟨⟨0, 50, 7, .sequential, .wall⟩, {}⟩ := by
    decide +kernel
  have hafter : after sampleVars ⟨⟨0, 50, 7, .sequential, .wall⟩, {}⟩ sampleCalls =
      .ok ⟨⟨0, 50, unbounded, .bounded 3, .wall⟩,
        { finalization := some (.bounded 0), clock := some .virtual }⟩ := by
    decide +kernel
  obtain rfl := Except.ok.inj (hstart.symm.trans hopened)
  refine ⟨hfile, hcalls, _, _, hopened, hafter, rfl, ?_⟩
  rcases hend with ⟨-, _, _, _, -, -, herror⟩ | ⟨built, _, hbuilt, -, -, hsettled, -⟩
  · rw [hafter] at herror
    cases herror
  · rw [← Except.ok.inj (hbuilt.symm.trans hafter)]
    exact hsettled

end Builder

end Fibers
