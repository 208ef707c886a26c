import Fibers.Proofs.Contests.Opening
import Fibers.Proofs.Scopes.Closing

set_option autoImplicit false

/-! # Who has a claimed finalizer to run

The finalizers of a scope are claimed once, and the program that the claim gives out has one place for each
of them. From there the duty to run a finalizer is handed on and never copied: a program has it in one of its
parts, a stack in one of its frames, and a contest gives it to one of its members. So in every move at most
one fiber bears the duty, and all that everybody else has keeps to a licence that bars it
(`Moment.Bears`). Once the duty is done, or dropped, nobody has it.
-/

namespace Fibers

variable {σ : Type} {h : Handle} {g c : Key .fiber}

/-- The licence for everything but to run one claimed finalizer. -/
def Licence.barring (h : Handle) : Licence :=
  { finalize := (· ≠ h), publish := fun _ => True, hold := fun _ => True, forget := True
    exempt := fun _ => False }

/-- A program that runs the claimed finalizer in one place. -/
inductive Program.Bears (h : Handle) : Program σ → Prop
  | finalize {fin : Finalizer σ} {e : AnyExit} :
      fin.Licensed (.barring h) → Program.Bears h (.duty (.finalize h fin e))
  | guarded {s : Key .semaphore} {p : Program σ} : p.Bears h → Program.Bears h (.duty (.guarded s p))
  | flatMap {p : Program σ} {k : Cont σ} :
      p.Bears h → k.Licensed (.barring h) → Program.Bears h (.flatMap p k)
  | fold {p : Program σ} {hd : Handler σ} {k : Cont σ} : p.Bears h → hd.Licensed (.barring h) →
      k.Licensed (.barring h) → Program.Bears h (.fold p hd k)
  | next {p q : Program σ} :
      p.Licensed (.barring h) → q.Bears h → Program.Bears h (.flatMap p (.next q))
  | runNext {p q : Program σ} :
      p.Licensed (.barring h) → q.Bears h → Program.Bears h (.flatMap p (.sequel (.runNext q)))
  | ensuring {p : Program σ} {fin : Finalizer σ} :
      p.Bears h → fin.Licensed (.barring h) → Program.Bears h (.ensuring p fin)
  | mask {p : Program σ} : p.Bears h → Program.Bears h (.mask p false)
  | withConcurrency {p : Program σ} {level : Nat} :
      p.Bears h → Program.Bears h (.withConcurrency p level)
  | zipAll {front back : List (Program σ)} {p : Program σ} :
      (∀ q ∈ front, q.Licensed (.barring h)) → p.Bears h → (∀ q ∈ back, q.Licensed (.barring h)) →
      Program.Bears h (.zipAll (front ++ p :: back))

/-- A frame that goes on with such a program. -/
inductive Waiting.Bears (h : Handle) : Waiting σ → Prop
  | next {q : Program σ} : q.Bears h → Waiting.Bears h (.map (.next q))
  | runNext {q : Program σ} : q.Bears h → Waiting.Bears h (.map (.sequel (.runNext q)))

/-- The fiber `g` has the finalizer to run, in what it is about to do or in one of its frames, and nobody
else has. -/
inductive Moment.Bears (h : Handle) (g : Key .fiber) (x : Moment σ) : Prop
  | control {m : Machine σ} {p : Program σ} : x.Has (.barring h) g m →
      m.control = .instruct p ∨ m.control = .start p → p.Bears h →
      (∀ z ∈ m.stack, z.Licensed (.barring h)) → Moment.Bears h g x
  | stack {z : Waiting σ} {rest : List (Waiting σ)} : x.Above (.barring h) g (z :: rest) → z.Bears h →
      (∀ y ∈ rest, y.Licensed (.barring h)) → Moment.Bears h g x

/-! ## The program that runs claimed finalizers -/

namespace World

/-- The program that runs a claimed finalizer has it in one place. -/
theorem bears_finalizers {e : AnyExit} {st : Strategy} {front back : List (Handle × Finalizer σ)}
    {fin : Finalizer σ} (hfront : ∀ x ∈ front, x.1 ≠ h ∧ x.2.Licensed (.barring h))
    (hfin : fin.Licensed (.barring h)) (hback : ∀ x ∈ back, x.1 ≠ h ∧ x.2.Licensed (.barring h)) :
    (finalizers e (front ++ (h, fin) :: back) st).Bears h := by
  set single : Handle × Finalizer σ → Program σ := fun fin =>
    (Program.duty (.finalize fin.1 fin.2 e)).captured with hsingle
  have hother : ∀ fs : List (Handle × Finalizer σ), (∀ x ∈ fs, x.1 ≠ h ∧ x.2.Licensed (.barring h)) →
      ∀ q ∈ fs.reverse.map single, q.Licensed (.barring h) := by
    intro fs hfs q hq
    obtain ⟨x, hx, rfl⟩ := List.mem_map.mp hq
    obtain ⟨hne, hlicensed⟩ := hfs x (List.mem_reverse.mp hx)
    exact licensed_captured (.duty (.finalize hne hlicensed))
  have hbears : (single (h, fin)).Bears h := .fold (.finalize hfin) .capture (.sequel .captured)
  have hruns : (front ++ (h, fin) :: back).reverse.map single =
      back.reverse.map single ++ single (h, fin) :: front.reverse.map single := by simp
  have hzip : (Program.zipAll ((front ++ (h, fin) :: back).reverse.map single)).Bears h := by
    rw [hruns]
    exact .zipAll (hother back hback) hbears (hother front hfront)
  have hsome : (front ++ (h, fin) :: back).isEmpty = false := by simp
  unfold finalizers
  rw [hsome]
  refine .mask ?_
  cases st with
  | concurrent => exact .flatMap (.withConcurrency hzip) (.sequel .combineAll)
  | bounded n => exact .flatMap (.withConcurrency hzip) (.sequel .combineAll)
  | sequential =>
      -- first those that come before, then the finalizer, then the others around that
      have hbefore : ((back.reverse.map single).foldl
          (fun acc q => Program.flatMap acc (.sequel (.runNext q))) (.succeed (.exit e))).Licensed
            (.barring h) :=
        List.foldlRecOn _ _ .succeed fun acc hacc q hq => .flatMap hacc (.sequel (.runNext (hother back hback q hq)))
      show (((front ++ (h, fin) :: back).reverse.map single).foldl
        (fun acc q => Program.flatMap acc (.sequel (.runNext q))) (.succeed (.exit e))).Bears h
      rw [hruns, List.foldl_append, List.foldl_cons]
      exact List.foldlRecOn _ _ (.runNext hbefore hbears) fun acc hacc q hq =>
        .flatMap hacc (.sequel (.runNext (hother front hfront q hq)))

/-! ## Starting fibers -/

/-- The child `c` was started to run a program that bears the finalizer, and has not had a turn. -/
structure Entrusts (h : Handle) (c : Key .fiber) (w w' : World σ) : Prop where
  fresh : w.fibers.get? c = none
  licensed : w'.Licensed ((Licence.barring h).sparing c)
  parked : ∃ s p, w'.parked? c = some { control := .start (.duty (.guarded s p)) } ∧ p.Bears h

/-- A fiber that was put aside stays so while others change the world. -/
theorem parked?_of_grows {actor : Option (Key .fiber)} {w w' : World σ} {m : Machine σ}
    (hgrows : Grows actor w w') (hactor : actor ≠ some c) (hm : w.parked? c = some m) :
    w'.parked? c = some m := by
  obtain ⟨y, hy, hphase⟩ := Option.bind_eq_some_iff.mp hm
  obtain ⟨y', hy', -, haside⟩ := hgrows.onward.fibers c y hy
  rw [parked?, hy', Option.bind_some, (haside hactor).machine?]
  exact hphase

theorem Entrusts.later {w w₁ w₂ : World σ} (hw : Entrusts h c w w₁)
    (hchanges : Changes ((Licence.barring h).sparing c) none w₁ w₂) : Entrusts h c w w₂ := by
  obtain ⟨s, p, hparked, hp⟩ := hw.parked
  exact ⟨hw.fresh, hchanges.licensed (fun _ _ _ => trivial) hw.licensed, s, p,
    parked?_of_grows hchanges.grows nofun hparked, hp⟩

/-- Who is new later is new now. -/
theorem Entrusts.earlier {actor : Option (Key .fiber)} {w w₁ w₂ : World σ} (hw : Entrusts h c w₁ w₂)
    (hgrows : Grows actor w w₁) : Entrusts h c w w₂ := by
  refine ⟨?_, hw.licensed, hw.parked⟩
  cases hget : w.fibers.get? c with
  | none => rfl
  | some y =>
      obtain ⟨y', hy', -⟩ := hgrows.fibers c y hget
      rw [hw.fresh] at hy'
      cases hy'

/-- Starting a child that bears the finalizer, or failing to. -/
theorem bears_forkChild {w w' : World σ} {f : Key .fiber} {p : Program σ} {params : ForkParams}
    {result : Except Defect (Key .fiber)} (hw : w.Licensed (.barring h)) (hp : p.Bears h)
    (heq : w.forkChild f p params = (w', result)) :
    w'.Licensed (.barring h) ∨ ∃ c, result = .ok c ∧ Entrusts h c w w' := by
  cases result with
  | error d =>
      have hsound : Sound (.barring h) none (fun _ => True) w (w.forkChild f p params) := by
        refine sound_forkChild w f params fun child hchild _ => ?_
        rw [heq] at hchild
        cases hchild
      rw [heq] at hsound
      exact Or.inl (hsound.changes.licensed (fun _ _ _ => trivial) hw)
  | ok c =>
      have hsound : Sound ((Licence.barring h).sparing c) none (fun _ => True) w (w.forkChild f p params) := by
        refine sound_forkChild w f params fun child hchild hspared => ?_
        rw [heq] at hchild
        cases hchild
        exact absurd rfl hspared
      rw [heq] at hsound
      obtain ⟨hfresh, ⟨x, s, token, hx, -, hphase⟩, -⟩ := forkChild_spec heq
      refine Or.inr ⟨c, rfl, hfresh, hsound.changes.licensed (fun _ _ _ => trivial)
        (hw.sparing (fun _ => id) c), s, p, ?_, hp⟩
      rw [parked?, hx, Option.bind_some, hphase]
      rfl

/-- Starting children of which one bears the finalizer. If that fails, the child may be there or not. -/
theorem bears_forkAll {w w' : World σ} {f : Key .fiber} {arena : Key .scope}
    {front back : List (Program σ)} {p : Program σ} {children : List (Key .fiber)}
    {result : Except Defect (List (Key .fiber))} (hw : w.Licensed (.barring h))
    (hfront : ∀ q ∈ front, q.Licensed (.barring h)) (hp : p.Bears h)
    (hback : ∀ q ∈ back, q.Licensed (.barring h))
    (heq : w.forkAll f arena (front ++ p :: back) children = (w', result)) :
    w'.Licensed (.barring h) ∨ ∃ c, Entrusts h c w w' := by
  induction front generalizing w children with
  | nil =>
      rw [List.nil_append, forkAll] at heq
      rcases hchild : w.forkChild f p { scope := some arena } with ⟨w₁, d | c⟩
      · rw [hchild] at heq
        cases heq
        rcases bears_forkChild hw hp hchild with hlicensed | ⟨c, hc, -⟩
        · exact Or.inl hlicensed
        · cases hc
      · rw [hchild] at heq
        dsimp only at heq
        rcases bears_forkChild hw hp hchild with hlicensed | ⟨c', hc, hentrusts⟩
        · have hsound : Sound (.barring h) none (fun _ => True) w₁
              (w₁.forkAll f arena back (c :: children)) := sound_forkAll f _ back _ _ hback
          rw [heq] at hsound
          exact Or.inl (hsound.changes.licensed (fun _ _ _ => trivial) hlicensed)
        · cases hc
          have hsound : Sound ((Licence.barring h).sparing c) none (fun _ => True) w₁
              (w₁.forkAll f arena back (c :: children)) :=
            sound_forkAll f _ back _ _ fun q hq => (hback q hq).mono (Licence.le_sparing _ c)
          rw [heq] at hsound
          exact Or.inr ⟨c, hentrusts.later hsound.changes⟩
  | cons q front ih =>
      rw [List.cons_append, forkAll] at heq
      have hsound : Sound (.barring h) none (fun _ => True) w (w.forkChild f q { scope := some arena }) :=
        sound_forkChild w f _ fun _ _ _ => hfront q List.mem_cons_self
      rcases hchild : w.forkChild f q { scope := some arena } with ⟨w₁, d | c⟩
      · rw [hchild] at heq hsound
        cases heq
        exact Or.inl (hsound.changes.licensed (fun _ _ _ => trivial) hw)
      · rw [hchild] at heq hsound
        rcases ih (hsound.changes.licensed (fun _ _ _ => trivial) hw)
          (fun q' hq' => hfront q' (List.mem_cons_of_mem _ hq')) heq with hlicensed | ⟨c', hentrusts⟩
        · exact Or.inl hlicensed
        · exact Or.inr ⟨c', hentrusts.earlier hsound.changes.grows⟩

/-- Setting up a contest in which one member bears the finalizer. -/
theorem bears_contest {w w' : World σ} {front back : List (Program σ)} {p : Program σ}
    {watcher : Key .tally → Nat → DoneWatcher σ} {decided : Contest → Sequel σ}
    {result : Except Defect (Program σ)} (hw : w.Licensed (.barring h))
    (hfront : ∀ q ∈ front, q.Licensed (.barring h)) (hp : p.Bears h)
    (hback : ∀ q ∈ back, q.Licensed (.barring h)) (hwatcher : ∀ t n k, watcher t n ≠ .wake k)
    (hreports : ∀ t n u, u ≠ t → (watcher t n).reportsTo u = false)
    (heq : w.contest g (front ++ p :: back) watcher decided = (w', result)) :
    w'.Licensed (.barring h) ∨ ∃ c, Entrusts h c w w' := by
  unfold contest at heq
  split at heq
  · cases heq
    exact Or.inl hw
  · rename_i fiber _
    dsimp only at heq
    set arena := w.forkScope fiber.scope fiber.context.id with harena
    have hscope : Changes (.barring h) none w arena.1 := Change.forkScope.changes
    have hw₀ : arena.1.Licensed (.barring h) := hscope.licensed (fun _ _ _ => trivial) hw
    rcases hall : arena.1.forkAll g arena.2 (front ++ p :: back) [] with ⟨w₁, d | members⟩
    · rw [hall] at heq
      cases heq
      rcases bears_forkAll hw₀ hfront hp hback hall with hlicensed | ⟨c, hentrusts⟩
      · exact Or.inl hlicensed
      · exact Or.inr ⟨c, hentrusts.earlier hscope.grows⟩
    · rw [hall] at heq
      cases heq
      rcases bears_forkAll hw₀ hfront hp hback hall with hlicensed | ⟨c, hentrusts⟩
      · exact Or.inl ((changes_watchAll w₁ members hwatcher hreports : Changes _ none _ _).licensed
          (fun _ _ _ => trivial) hlicensed)
      · exact Or.inr ⟨c, (hentrusts.later (changes_watchAll w₁ members hwatcher hreports)).earlier
          hscope.grows⟩

/-! ## Steps -/

/-- What the step of a program that bears the finalizer hands the duty on to: it runs it, it gives it to a
member of a contest, or it keeps it, in what it goes on with or in the frame that it pushes. -/
theorem instruct_bears (w : World σ) (f : Key .fiber) (y : Fiber σ) (m : Machine σ) {p : Program σ}
    (hp : p.Bears h) :
    (∃ fin e, p = .duty (.finalize h fin e) ∧ fin.Licensed (.barring h)) ∨
    (∃ front q back, p = .zipAll (front ++ q :: back) ∧ (∀ q ∈ front, q.Licensed (.barring h)) ∧
      q.Bears h ∧ ∀ q ∈ back, q.Licensed (.barring h)) ∨
    ∃ w' q pushed, w.instruct f y m p =
        (w', { machine := { m with control := .instruct q, stack := pushed ++ m.stack } }) ∧
      Changes (.barring h) (some f) w w' ∧
      (q.Bears h ∧ (∀ z ∈ pushed, z.Licensed (.barring h)) ∨
        q.Licensed (.barring h) ∧ ∃ z, pushed = [z] ∧ z.Bears h) := by
  have hone : ∀ {z : Waiting σ}, z.Licensed (.barring h) → ∀ z' ∈ [z], z'.Licensed (.barring h) := by
    intro z hz z' hz'
    rw [List.mem_singleton.mp hz']
    exact hz
  cases hp with
  | finalize hfin => exact Or.inl ⟨_, _, rfl, hfin⟩
  | zipAll hfront hq hback => exact Or.inr (Or.inl ⟨_, _, _, rfl, hfront, hq, hback⟩)
  | @guarded s p hp =>
      have hticket : Changes (.barring h) (some f) w
          { w with semaphores := w.semaphores.set s (w.semaphore s).ticket.1 } :=
        changes_of_eq rfl rfl rfl rfl rfl rfl (permits_set (Semaphore.later_ticket _) rfl)
      exact Or.inr (Or.inr ⟨_, _, [], rfl, hticket, Or.inl
        ⟨.ensuring (.next (.duty .take) hp) .relinquish, nofun⟩⟩)
  | flatMap hp hk => exact Or.inr (Or.inr ⟨_, _, [_], rfl, .refl w, Or.inl ⟨hp, hone hk⟩⟩)
  | fold hp hd hk => exact Or.inr (Or.inr ⟨_, _, [_], rfl, .refl w, Or.inl ⟨hp, hone ⟨hd, hk⟩⟩⟩)
  | next hp hq => exact Or.inr (Or.inr ⟨_, _, [_], rfl, .refl w, Or.inr ⟨hp, _, rfl, .next hq⟩⟩)
  | runNext hp hq => exact Or.inr (Or.inr ⟨_, _, [_], rfl, .refl w, Or.inr ⟨hp, _, rfl, .runNext hq⟩⟩)
  | ensuring hp hfin =>
      exact Or.inr (Or.inr ⟨_, _, [_], rfl, Change.register hfin |>.changes, Or.inl
        ⟨hp, hone ⟨fun _ _ => trivial, hfin⟩⟩⟩)
  | mask hp =>
      exact Or.inr (Or.inr ⟨_, _, [_], rfl, changes_own rfl fun x => rfl, Or.inl ⟨hp, hone trivial⟩⟩)
  | @withConcurrency p level hp =>
      have hsemaphore : Changes (.barring h) (some f) w (w.newSemaphore level).1 :=
        changes_of_eq rfl rfl rfl rfl rfl rfl (permits_newSemaphore w level)
      exact Or.inr (Or.inr ⟨_, _, [_], rfl, hsemaphore.trans (changes_own rfl fun x => rfl), Or.inl
        ⟨hp, hone trivial⟩⟩)

end World

section

variable {x x' : Moment σ} {m : Machine σ}

/-- Where a member of a contest bears the finalizer, or nobody does, after the step that set the contest up. -/
theorem World.bears_enter {w w' : World σ} {result : Except Defect (Program σ)} {y : Fiber σ}
    (hy : w.fibers.get? g = some y) (hstack : ∀ z ∈ m.stack, z.Licensed (.barring h))
    (hresult : ∀ p, result = .ok p → p.Licensed (.barring h))
    (hafter : w'.Licensed (.barring h) ∨ ∃ c, World.Entrusts h c w w') :
    (World.conclude g (World.enter g m (w', result))).Licensed (.barring h) ∨
      ∃ c, (World.conclude g (World.enter g m (w', result))).Bears h c := by
  obtain ⟨control, henter, hcontrol, hstay⟩ : ∃ control,
      World.enter g m (w', result) = (w', { machine := { m with control } }) ∧
        control.Licensed (.barring h) ∧ ∀ e, control ≠ .leave e := by
    cases result with
    | ok p => exact ⟨_, rfl, hresult p rfl, nofun⟩
    | error d => exact ⟨_, rfl, trivial, nofun⟩
  have hmachine : ({ m with control } : Machine σ).Licensed (.barring h) :=
    ⟨hcontrol, hstack, fun e he => absurd he (hstay e)⟩
  rw [henter]
  rcases hafter with hlicensed | ⟨c, hentrusts⟩
  · refine Or.inl ⟨hlicensed, fun f m' hf _ => ?_⟩
    cases hf
    exact hmachine
  · obtain ⟨s, p, hparked, hp⟩ := hentrusts.parked
    have hcg : c ≠ g := by
      rintro rfl
      rw [hentrusts.fresh] at hy
      cases hy
    refine Or.inr ⟨c, .control (m := { control := .start (.duty (.guarded s p)) })
      ⟨⟨hentrusts.licensed, fun f m' hf _ => ?_⟩, ?_⟩ (Or.inr rfl) (.guarded hp) nofun⟩
    · cases hf
      exact hmachine.mono (Licence.le_sparing _ c)
    · rw [Moment.machine?_of_ne fun m' hm' => hcg (by cases hm'; rfl)]
      exact hparked

/-- Once the finalizer is run nobody bears it. -/
theorem Move.discharges (hmove : Move x x') (hturned : x.Turned) {y : Fiber σ} {fin : Finalizer σ} {e : AnyExit}
    (hworks : x.Works g y m) (hhas : x.Has (.barring h) g m)
    (hcontrol : m.control = .instruct (.duty (.finalize h fin e))) (hfin : fin.Licensed (.barring h))
    (hstack : ∀ z ∈ m.stack, z.Licensed (.barring h)) : x'.Licensed (.barring h) := by
  obtain ⟨w, active⟩ := x
  obtain rfl : active = some (g, m) := hworks.turn
  have hw : w.Licensed (.barring h) := hhas.licensed.world.of_sparing (hturned g m rfl)
  have hcount : World.Changes (.barring h) (some g) w (w.count g) := World.changes_own rfl fun x => rfl
  have hsound : World.StepSound (.barring h) (some g) w m.exiting m.stack
      ((w.count g).instruct g y m (.duty (.finalize h fin e))) :=
    (World.stepSound_enter (World.sound_finalizeWith hfin e (w.count g))).after hcount
  have hnext : x' = World.conclude g ((w.count g).instruct g y m (.duty (.finalize h fin e))) := by
    cases hmove with
    | advance => exact World.advance_instruct hworks hcontrol
  rw [hnext]
  exact hsound.licensed_conclude (hsound.changes.licensed (fun _ _ _ => trivial) hw) hstack

/-- The step of a fiber that works on a program that bears the finalizer. -/
theorem Move.bears_works (hmove : Move x x') (hturned : x.Turned) {y : Fiber σ} {p : Program σ}
    (hworks : x.Works g y m) (hhas : x.Has (.barring h) g m) (hcontrol : m.control = .instruct p)
    (hp : p.Bears h) (hstack : ∀ z ∈ m.stack, z.Licensed (.barring h)) :
    x'.Licensed (.barring h) ∨ ∃ g', x'.Bears h g' := by
  rcases World.instruct_bears (x.world.count g) g y m hp with
    ⟨fin, e, rfl, hfin⟩ | ⟨front, q, back, rfl, hfront, hq, hback⟩ | ⟨w', q, pushed, heq, hchanges, hq⟩
  · exact Or.inl (hmove.discharges hturned hworks hhas hcontrol hfin hstack)
  · obtain ⟨w, active⟩ := x
    obtain rfl : active = some (g, m) := hworks.turn
    have hw : w.Licensed (.barring h) := hhas.licensed.world.of_sparing (hturned g m rfl)
    have hcount : World.Changes (.barring h) (some g) w (w.count g) := World.changes_own rfl fun x => rfl
    have hcounted := hcount.licensed (fun _ _ _ => trivial) hw
    have hinstruct : (w.count g).instruct g y m (.zipAll (front ++ q :: back)) =
        World.enter g m ((w.count g).contest g (front ++ q :: back) .member .zipDecided) := by
      cases front with
      | nil => rfl
      | cons p front => rfl
    have hnext : x' = World.conclude g
        (World.enter g m ((w.count g).contest g (front ++ q :: back) .member .zipDecided)) := by
      cases hmove with
      | advance => rw [World.advance_instruct hworks hcontrol, hinstruct]
    rcases hcontest : (w.count g).contest g (front ++ q :: back) .member .zipDecided with ⟨w', result⟩
    rw [hnext, hcontest]
    have hafter := World.bears_contest hcounted hfront hq hback (fun t n k => by simp)
      (fun t n u hu => by exact decide_eq_false hu.symm) hcontest
    refine World.bears_enter (World.get?_count hworks.fiber) hstack ?_ hafter
    rintro p rfl
    obtain ⟨c, t, -, rfl⟩ := World.contest_spec hcontest
    exact .flatMap .wait (.sequel .zipDecided)
  · obtain ⟨w, active⟩ := x
    obtain rfl : active = some (g, m) := hworks.turn
    have hcount : World.Changes (.barring h) (some g) w (w.count g) := World.changes_own rfl fun x => rfl
    have hnext : x' = ⟨w', some (g, { m with control := .instruct q, stack := pushed ++ m.stack })⟩ := by
      cases hmove with
      | advance =>
          rw [World.advance_instruct hworks hcontrol, heq]
          rfl
    rw [hnext]
    obtain ⟨hhas', -⟩ := hhas.advance { m with control := .instruct q, stack := pushed ++ m.stack } hturned
      (fun _ => id) (fun _ => trivial) (hcount.trans hchanges)
    refine Or.inr ⟨g, ?_⟩
    rcases hq with ⟨hq, hpushed⟩ | ⟨hq, z, rfl, hz⟩
    · refine .control hhas' (Or.inl rfl) hq fun z hz => ?_
      rcases List.mem_append.mp hz with hz | hz
      · exact hpushed z hz
      · exact hstack z hz
    · exact .stack ⟨hhas'.licensed, _, [], hhas'.machine, hq, rfl, nofun⟩ hz hstack

/-- A fiber that is about to start is still about to, or starts, or leaves its program. -/
theorem Move.starts (hmove : Move x x') (hx : x.Lawful) (hturned : x.Turned) (hattentive : x.world.Attentive)
    {L : Licence} {p : Program σ} (hhas : x.Has L g m) (hcontrol : m.control = .start p)
    (hexempt : ∀ f, ¬ L.exempt f) (hhold : ∀ h, L.hold h) (hforget : L.forget) (hclaims : x.ClaimsLicensed L) :
    x'.Has L g m ∨ x'.Has L g { m with control := .instruct p } ∨ x'.Licensed L := by
  by_cases haside : ∀ m, x.active ≠ some (g, m)
  · have hminds : m.control.Minds fun _ => False := by
      rw [hcontrol]
      trivial
    exact Or.inl (hmove.has_aside hx hattentive hhas (fun h _ => hhold h) hforget hclaims hminds haside).2
  · simp only [not_forall, not_not] at haside
    obtain ⟨m', hactive⟩ := haside
    obtain rfl : m' = m := Option.some.inj ((Moment.machine?_of_active hactive).symm.trans hhas.machine)
    obtain ⟨w, active⟩ := x
    obtain rfl : active = some (g, m') := hactive
    obtain ⟨y, hy, hrun⟩ := hturned g m' rfl
    have hw : w.Licensed L := hhas.licensed.world.of_sparing ⟨y, hy, hrun⟩
    have hfiber : w.fibers.get? g = some y := hy
    cases hmove with
    | advance =>
        by_cases hleaves : Moment.Leaves ⟨w, some (g, m')⟩ g y m'
        · exact Or.inr (Or.inr (World.keeps_leaves hw (fun h _ => hhold h) hleaves).1)
        · have hfree := Moment.free_of_not_leaves rfl hy hleaves
          have hadvance : w.advance g m' = ⟨w, some (g, { m' with control := .instruct p })⟩ := by
            rw [World.advance_of_free hfiber hfree, World.step, hcontrol]
            rfl
          rw [hadvance]
          exact Or.inr (Or.inl (hhas.advance _ hturned hexempt hhold (.refl w)).1)

/-- Every move hands the finalizer on, or nobody bears it any more. -/
theorem Move.bears (hmove : Move x x') (hx : x.Lawful) (hturned : x.Turned) (hattentive : x.world.Attentive)
    (hclaims : x.ClaimsLicensed (.barring h)) (hbears : x.Bears h g) :
    x'.Licensed (.barring h) ∨ ∃ g', x'.Bears h g' := by
  cases hbears with
  | @control m p hhas hcontrol hp hstack =>
      have hsame : x'.Has (.barring h) g m → ∃ g', x'.Bears h g' := fun hhas' =>
        ⟨g, .control hhas' hcontrol hp hstack⟩
      rcases hcontrol with hinstruct | hstart
      · by_cases hworks : ∃ y, x.Works g y m
        · obtain ⟨y, hworks⟩ := hworks
          exact hmove.bears_works hturned hworks hhas hinstruct hp hstack
        · have hminds : m.control.Minds fun _ => False := by
            rw [hinstruct]
            cases hp <;> trivial
          obtain ⟨-, hhas' | ⟨hlicensed, -⟩⟩ := hmove.poised hx hturned hattentive hhas (fun _ => id)
            (fun _ _ => trivial) trivial hclaims (Or.inl ⟨p, hinstruct⟩) hminds fun y hy => hworks ⟨y, hy⟩
          · exact Or.inr (hsame hhas')
          · exact Or.inl hlicensed
      · rcases hmove.starts hx hturned hattentive hhas hstart (fun _ => id) (fun _ => trivial) trivial hclaims with
          hhas' | hhas' | hlicensed
        · exact Or.inr (hsame hhas')
        · exact Or.inr ⟨g, .control hhas' (Or.inl rfl) hp hstack⟩
        · exact Or.inl hlicensed
  | @stack z rest habove hz hrest =>
      by_cases hmeets : ∃ m pre e, x.Meets (.barring h) g (z :: rest) m pre e
      · obtain ⟨m, pre, e, hmeets⟩ := hmeets
        obtain ⟨w, -, hw, hnext, -⟩ := hmeets.next hmove hturned habove.licensed fun _ _ => trivial
        have hgoes : ∀ q : Program σ, q.Bears h →
            (⟨w, some (g, ⟨.instruct q, rest, m.exiting⟩)⟩ : Moment σ).Bears h g := by
          intro q hq
          refine .control ⟨⟨hw.sparing (fun _ => id) g, fun f m' hf hne => ?_⟩, Moment.machine?_active⟩
            (Or.inl rfl) hq hrest
          cases hf
          exact absurd rfl hne
        rw [hnext]
        cases e with
        | success v =>
            cases hz with
            | next hq => exact Or.inr ⟨g, hgoes _ hq⟩
            | runNext hq => exact Or.inr ⟨g, hgoes _ (.flatMap hq (.sequel .combine))⟩
        | failure c =>
            -- a failure goes past the frame
            have hpast : World.unwind g m.exiting (.failure c) (z :: rest) w =
                World.unwind g m.exiting (.failure c) rest w := by
              cases hz <;> rfl
            have hsound : World.StepSound (.barring h) (some g) w m.exiting []
                (World.unwind g m.exiting (.failure c) rest w) := World.stepSound_unwind hrest w
            rw [hpast]
            exact Or.inl (hsound.licensed_conclude (hsound.changes.licensed (fun _ _ _ => trivial) hw) nofun)
      · obtain ⟨-, habove' | ⟨hlicensed, -⟩⟩ := hmove.above hx hturned habove (List.cons_ne_nil _ _)
          (fun _ => id) (fun _ _ => trivial) trivial hclaims fun m pre e hm => hmeets ⟨m, pre, e, hm⟩
        · exact Or.inr ⟨g, .stack habove' hz hrest⟩
        · exact Or.inl hlicensed

end

end Fibers
