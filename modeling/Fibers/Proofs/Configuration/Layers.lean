import Fibers.Config.File
import Fibers.Proofs.Configuration.Strategies
import Mathlib.Data.List.Induction

set_option autoImplicit false

/-! # The layers of a configuration

A configuration comes from a file, the variables of the environment, and a row of calls on a
builder in any order. The builder keeps two records only: `explicit`, which calls write, and
`base`, over which the variables are laid wherever their call stands in the row.

`Variables.settings_cases` and `Toml.fits_of_layer` say what the two lower layers give,
`Builder.after_eq_ok` what both records hold at the end of a row, and `Builder.after_eq_error` when
a row has no end. That the position of the variables' call does not matter rests on `over_over`:
laying them again changes nothing, and no other call writes `base`.
-/

namespace Fibers

/-- What is read under another name for its faults is what is read. -/
theorem ok_of_mapError {ε φ α : Type} {r : Except ε α} {f : ε → φ} {a : α}
    (h : r.mapError f = .ok a) : r = .ok a := by
  cases r with
  | error e => cases h
  | ok b =>
      cases h
      rfl

/-! ## Variables -/

namespace Variables

/-- The variable of this name cannot be read from this value, for this reason. -/
inductive Rejects : String → String → ConfigError → Prop where
  | maxOps {value : String} {e : ConfigError} (h : number "FIBERFX_MAX_OP_COUNT" value = .error e) :
      Rejects "FIBERFX_MAX_OP_COUNT" value e
  | maxTrace {value : String} {e : ConfigError}
      (h : number "FIBERFX_MAX_TRACE_COUNT" value = .error e) :
      Rejects "FIBERFX_MAX_TRACE_COUNT" value e
  | concurrency {value : String} {e : ConfigError}
      (h : level "FIBERFX_CONCURRENCY" value = .error e) :
      Rejects "FIBERFX_CONCURRENCY" value e
  | finalization {value : String} {e : ConfigError}
      (h : strategy "FIBERFX_FINALIZATION" value = .error e) :
      Rejects "FIBERFX_FINALIZATION" value e
  | clock {value : String} {e : ConfigError} (h : clock "FIBERFX_CLOCK" value = .error e) :
      Rejects "FIBERFX_CLOCK" value e

/-- A layer holds of each variable what it reads as, and nothing of a variable that is not set. -/
structure Gives (vars : String → Option String) (layer : Settings) : Prop where
  maxOps : read vars "FIBERFX_MAX_OP_COUNT" number = .ok layer.maxOps
  maxTrace : read vars "FIBERFX_MAX_TRACE_COUNT" number = .ok layer.maxTrace
  concurrency : read vars "FIBERFX_CONCURRENCY" level = .ok layer.concurrency
  finalization : read vars "FIBERFX_FINALIZATION" strategy = .ok layer.finalization
  clock : read vars "FIBERFX_CLOCK" clock = .ok layer.clock

theorem read_eq_error {α : Type} {vars : String → Option String} {name : String}
    {parse : String → String → Except ConfigError α} {e : ConfigError}
    (h : read vars name parse = .error e) :
    ∃ value, vars name = some value ∧ parse name value = .error e := by
  unfold read at h
  split at h
  next => cases h
  next value hvalue =>
      refine ⟨value, hvalue, ?_⟩
      cases hparse : parse name value with
      | error e' =>
          rw [hparse] at h
          cases h
          rfl
      | ok a =>
          rw [hparse] at h
          cases h

theorem read_eq_some {α : Type} {vars : String → Option String} {name : String}
    {parse : String → String → Except ConfigError α} {a : α}
    (h : read vars name parse = .ok (some a)) :
    ∃ value, vars name = some value ∧ parse name value = .ok a := by
  unfold read at h
  split at h
  next => cases h
  next value hvalue =>
      refine ⟨value, hvalue, ?_⟩
      cases hparse : parse name value with
      | error e =>
          rw [hparse] at h
          cases h
      | ok b =>
          rw [hparse] at h
          cases h
          rfl

/-- The variables are read one after the other: either all of them give their part of a layer, or
one that is set is rejected. -/
theorem settings_cases (vars : String → Option String) :
    (∃ layer, settings vars = .ok layer ∧ Gives vars layer) ∨
      ∃ name value e, vars name = some value ∧ Rejects name value e ∧ settings vars = .error e := by
  unfold settings
  cases hops : read vars "FIBERFX_MAX_OP_COUNT" number with
  | error e =>
      obtain ⟨value, hvalue, hparse⟩ := read_eq_error hops
      exact Or.inr ⟨_, value, e, hvalue, .maxOps hparse, rfl⟩
  | ok maxOps =>
  cases htrace : read vars "FIBERFX_MAX_TRACE_COUNT" number with
  | error e =>
      obtain ⟨value, hvalue, hparse⟩ := read_eq_error htrace
      exact Or.inr ⟨_, value, e, hvalue, .maxTrace hparse, rfl⟩
  | ok maxTrace =>
  cases hlevel : read vars "FIBERFX_CONCURRENCY" level with
  | error e =>
      obtain ⟨value, hvalue, hparse⟩ := read_eq_error hlevel
      exact Or.inr ⟨_, value, e, hvalue, .concurrency hparse, rfl⟩
  | ok concurrency =>
  cases hstrategy : read vars "FIBERFX_FINALIZATION" strategy with
  | error e =>
      obtain ⟨value, hvalue, hparse⟩ := read_eq_error hstrategy
      exact Or.inr ⟨_, value, e, hvalue, .finalization hparse, rfl⟩
  | ok finalization =>
  cases hclock : read vars "FIBERFX_CLOCK" clock with
  | error e =>
      obtain ⟨value, hvalue, hparse⟩ := read_eq_error hclock
      exact Or.inr ⟨_, value, e, hvalue, .clock hparse, rfl⟩
  | ok clock =>
      exact Or.inl ⟨⟨maxOps, maxTrace, concurrency, finalization, clock⟩, rfl,
        ⟨hops, htrace, hlevel, hstrategy, hclock⟩⟩

/-- A strategy that a variable gives has a bound of 64 bits. -/
theorem Gives.fits {vars : String → Option String} {layer : Settings} (h : Gives vars layer)
    {s : Strategy} (hs : layer.finalization = some s) : s.Fits := by
  have hread := h.finalization
  rw [hs] at hread
  obtain ⟨value, -, hparse⟩ := read_eq_some hread
  exact Strategy.fits_of_parse (ok_of_mapError hparse)

end Variables

/-! ## Files -/

namespace Toml

/-- The layer of an optional file; without a file it is empty. -/
def layer : Option String → Except ConfigError Settings
  | none => .ok {}
  | some contents => settings contents

theorem readWith_eq_some {α : Type} {name : String} {parse : String → Except String α}
    {written : Option String} {a : α} (h : readWith name parse written = .ok (some a)) :
    ∃ text, written = some text ∧ parse text = .ok a := by
  cases written with
  | none => cases h
  | some contents =>
      refine ⟨contents, rfl, ?_⟩
      cases hparse : parse contents with
      | error e =>
          rw [readWith, hparse] at h
          cases h
      | ok b =>
          rw [readWith, hparse] at h
          cases h
          rfl

/-- The strategy in the layer of a file is one that was read. -/
theorem finalization_of_settings {contents : String} {file : Settings}
    (h : settings contents = .ok file) :
    ∃ w : Written, readWith "scope.finalization"
      (fun t => (Strategy.parse t).mapError StrategyError.message) w.finalization
        = .ok file.finalization := by
  unfold settings at h
  split at h
  next => cases h
  next w _ =>
      refine ⟨w, ?_⟩
      cases hfinalization : readWith "scope.finalization"
          (fun t => (Strategy.parse t).mapError StrategyError.message) w.finalization with
      | error e =>
          rw [hfinalization] at h
          cases h
      | ok finalization =>
          cases hclock : readWith "scheduler.clock"
              (fun t => (ClockKind.parse t).mapError ClockKindError.message) w.clock with
          | error e =>
              rw [hfinalization, hclock] at h
              cases h
          | ok clock =>
              rw [hfinalization, hclock] at h
              cases h
              rfl

/-- A strategy that a file gives has a bound of 64 bits. -/
theorem fits_of_layer {toml : Option String} {file : Settings} (h : layer toml = .ok file)
    {s : Strategy} (hs : file.finalization = some s) : s.Fits := by
  cases toml with
  | none =>
      cases h
      cases hs
  | some contents =>
      obtain ⟨w, hread⟩ := finalization_of_settings h
      rw [hs] at hread
      obtain ⟨t, -, hparse⟩ := readWith_eq_some hread
      exact Strategy.fits_of_parse (ok_of_mapError hparse)

end Toml

/-! ## Calls -/

/-- One call on a builder: a setting asked for, or the variables laid over the lower layers. Virtual
time is asked for as a clock. -/
inductive BuilderCall where
  | maxOps (n : Nat)
  | maxTrace (n : Nat)
  | concurrency (n : Nat)
  | finalization (s : Strategy)
  | clock (k : ClockKind)
  | environment
  deriving DecidableEq

namespace BuilderCall

/-- What a call makes of a builder. -/
def apply (vars : String → Option String) (b : Builder) : BuilderCall → Except ConfigError Builder
  | .maxOps n => .ok (b.maxOps n)
  | .maxTrace n => .ok (b.maxTrace n)
  | .concurrency n => .ok (b.concurrency n)
  | .finalization s => .ok (b.finalization s)
  | .clock k => .ok (b.clock k)
  | .environment => b.withVariables vars

/-- The step count that a call asks for. -/
def maxOps? : BuilderCall → Option Nat
  | .maxOps n => some n
  | _ => none

/-- The trace bound that a call asks for. -/
def maxTrace? : BuilderCall → Option Nat
  | .maxTrace n => some n
  | _ => none

/-- The level of concurrency that a call asks for. -/
def concurrency? : BuilderCall → Option Nat
  | .concurrency n => some n
  | _ => none

/-- The strategy that a call asks for. -/
def finalization? : BuilderCall → Option Strategy
  | .finalization s => some s
  | _ => none

/-- The clock that a call asks for. -/
def clock? : BuilderCall → Option ClockKind
  | .clock k => some k
  | _ => none

/-- What a row of calls asks for: of each setting the last call for it. -/
def asked (calls : List BuilderCall) : Settings where
  maxOps := (calls.filterMap maxOps?).getLast?
  maxTrace := (calls.filterMap maxTrace?).getLast?
  concurrency := (calls.filterMap concurrency?).getLast?
  finalization := (calls.filterMap finalization?).getLast?
  clock := (calls.filterMap clock?).getLast?

theorem mem_of_asked {calls : List BuilderCall} {s : Strategy}
    (h : (asked calls).finalization = some s) :
    .finalization s ∈ calls := by
  obtain ⟨call, hmem, hcall⟩ := List.mem_filterMap.mp (List.mem_of_getLast? h)
  cases call <;> cases hcall
  exact hmem

/-- A call that lays no variables writes what it asks for, over what was asked before. -/
theorem apply_concat {vars : String → Option String} {calls : List BuilderCall} {call : BuilderCall}
    (h : call ≠ .environment) (base : Config) :
    call.apply vars ⟨base, asked calls⟩ = .ok ⟨base, asked (calls ++ [call])⟩ := by
  cases call with
  | environment => exact absurd rfl h
  | _ =>
      simp [apply, asked, maxOps?, maxTrace?, concurrency?, finalization?, clock?, Builder.maxOps,
        Builder.maxTrace, Builder.concurrency, Builder.finalization, Builder.clock,
        List.filterMap_append]

theorem asked_concat_environment (calls : List BuilderCall) :
    asked (calls ++ [.environment]) = asked calls := by
  simp [asked, maxOps?, maxTrace?, concurrency?, finalization?, clock?, List.filterMap_append]

end BuilderCall

/-! ## A row of calls -/

/-- A value that is looked up twice in the same place. -/
theorem getD_getD {α : Type} (o : Option α) (a : α) : o.getD (o.getD a) = o.getD a := by
  cases o <;> rfl

theorem Settings.over_over (layer : Settings) (base : Config) :
    layer.over (layer.over base) = layer.over base := by
  simp only [Settings.over, getD_getD]

namespace Builder

/-- The builder that an optional file gives. -/
def opened : Option String → Except ConfigError Builder
  | none => .ok .new
  | some contents => ofToml contents

/-- The builder after a row of calls. The first call that fails ends the row. -/
def after (vars : String → Option String) (b : Builder) (calls : List BuilderCall) :
    Except ConfigError Builder :=
  calls.foldlM (BuilderCall.apply vars) b

theorem after_concat (vars : String → Option String) (b : Builder) (calls : List BuilderCall)
    (call : BuilderCall) :
    b.after vars (calls ++ [call]) = (b.after vars calls).bind (call.apply vars) := by
  unfold after
  rw [List.foldlM_append]
  cases calls.foldlM (BuilderCall.apply vars) b with
  | error e => rfl
  | ok b' =>
      show (call.apply vars b').bind .ok = call.apply vars b'
      cases call.apply vars b' <;> rfl

theorem opened_eq_ok {toml : Option String} {file : Settings} (h : Toml.layer toml = .ok file) :
    opened toml = .ok ⟨file.over .standard, {}⟩ := by
  cases toml with
  | none =>
      cases h
      rfl
  | some contents =>
      show (Toml.settings contents).map _ = _
      rw [show Toml.settings contents = .ok file from h]
      rfl

/-- The two records after a row of calls, if the variables, where they are laid, give a layer. -/
theorem after_eq_ok {vars : String → Option String} {layer : Settings} {base : Config}
    {calls : List BuilderCall}
    (h : BuilderCall.environment ∈ calls → Variables.settings vars = .ok layer) :
    Builder.after vars ⟨base, {}⟩ calls =
      .ok ⟨if BuilderCall.environment ∈ calls then layer.over base else base,
        BuilderCall.asked calls⟩ := by
  -- on the row without its last call
  induction calls using List.reverseRecOn with
  | nil => rfl
  | append_singleton calls call ih =>
      rw [after_concat, ih fun hmem => h (List.mem_append_left _ hmem)]
      by_cases hcall : call = .environment
      · subst hcall
        have hlast : BuilderCall.environment ∈ calls ++ [.environment] :=
          List.mem_append_right _ (List.mem_singleton.mpr rfl)
        have hlayer := h hlast
        rw [if_pos hlast, BuilderCall.asked_concat_environment]
        show (Variables.settings vars).map _ = _
        rw [hlayer]
        show Except.ok (Builder.mk _ _) = _
        split
        · rw [Settings.over_over]
        · rfl
      · have hmem : BuilderCall.environment ∈ calls ++ [call] ↔
            BuilderCall.environment ∈ calls := by
          simp [Ne.symm hcall]
        simp only [hmem]
        exact BuilderCall.apply_concat hcall _

/-- Variables that are rejected end every row in which they are laid. -/
theorem after_eq_error {vars : String → Option String} {e : ConfigError}
    (he : Variables.settings vars = .error e) {base : Config} {calls : List BuilderCall}
    (h : BuilderCall.environment ∈ calls) : Builder.after vars ⟨base, {}⟩ calls = .error e := by
  induction calls using List.reverseRecOn with
  | nil => cases h
  | append_singleton calls call ih =>
      rw [after_concat]
      by_cases hmem : BuilderCall.environment ∈ calls
      · rw [ih hmem]
        rfl
      · -- the calls before it lay nothing, so this one is the first to fail
        have hcall : call = .environment := by
          rcases List.mem_append.mp h with h | h
          · exact absurd h hmem
          · exact (List.mem_singleton.mp h).symm
        subst hcall
        have hbefore := @after_eq_ok vars {} base calls fun h => absurd h hmem
        rw [hbefore]
        show (Variables.settings vars).map _ = _
        rw [he]
        rfl

end Builder

end Fibers
