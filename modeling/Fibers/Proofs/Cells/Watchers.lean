import Fibers.Proofs.Cells.Notification
import Fibers.World.Act

set_option autoImplicit false

/-! # The observers of a future in a world

The futures of a world serve their observers by folding over them, and what an observer of the program's does
with the future that has just settled is computed on the spot. Both come to what the calls come to when each
of them is made on the cell as it is: a scene that plays a future goes on to play it when the world settles
it or adds an observer to it.
-/

namespace Fibers

variable {σ : Type}

/-- What an observer of the program's does, call by call; `again` is what it asks the cell to settle with. -/
def Reaction.dealing (again : Settled (Program σ)) : Reaction σ → Dealing (World σ) (Program σ)
  | .stop => .done
  | .panic _ => .panic
  | .note write next =>
      .look fun w => .write { w with board := write w.board } (next.dealing again)
  | .settle next => .settle again fun answer => (next answer).dealing again
  | .look next => .poll fun seen observers => (next seen.isNone observers).dealing again
  | .observe inner next => .add (fun _ => inner.dealing again) fun key => (next key).dealing again

/-- What an observer does when it hears how the future has settled. -/
def FutureWatcher.hear (again : Settled (Program σ)) :
    FutureWatcher σ → Settled (Program σ) → Dealing (World σ) (Program σ)
  | .wake k, s => .look fun w => .write (w.wake k (World.settledProgram s)) .done
  | .react r, s => (r (World.outcomeOf s)).dealing again

/-- The observer under a key. -/
def FutureWatcher.listener (again : Settled (Program σ)) (o : Nat × FutureWatcher σ) :
    Listener (World σ) (Program σ) := ⟨o.1, o.2.hear again⟩

/-- A cell whose observers make their calls one by one. -/
def Cell.spelled (again : Settled (Program σ)) :
    Cell (Program σ) (FutureWatcher σ) → Cell (Program σ) (Listener (World σ) (Program σ))
  | .pending os key => .pending (os.map fun o => (o.1, FutureWatcher.listener again o)) key
  | .settled s => .settled s

theorem Cell.forget?_spelled (again : Settled (Program σ)) (cell : Cell (Program σ) (FutureWatcher σ))
    (key : Nat) : (cell.spelled again).forget? key = (cell.forget? key).map (·.spelled again) := by
  cases cell with
  | settled s => rfl
  | pending os next =>
      have hany : (os.map fun o => (o.1, FutureWatcher.listener again o)).any (·.1 == key) =
          os.any (·.1 == key) := by
        rw [List.any_map]
        rfl
      simp only [spelled, forget?, hany]
      split
      · rw [List.filter_map]
        rfl
      · rfl

namespace Scene

variable {again s : Settled (Program σ)} {c : Scene (World σ) (Program σ)} {role : Role}
  {rest : List (Todo (World σ) (Program σ))}

/-- The calls of an observer come to what is computed on the spot. -/
theorem leads_dealing (r : Reaction σ) (hcell : c.cell = .settled s)
    (htodo : c.todo = .act role (r.dealing again) :: rest) :
    ∃ c', c.Leads c' ∧ c'.todo = rest ∧ c'.cell = .settled s ∧
      c'.board = { c.board with board := r.run c.board.board } := by
  induction r generalizing c role rest with
  | stop => exact ⟨_, .of_act htodo .refl, rfl, hcell, rfl⟩
  | panic message => exact ⟨_, .of_act htodo .refl, rfl, hcell, rfl⟩
  | note write next ih =>
      obtain ⟨c', hleads, hends⟩ := ih hcell rfl
        (c := { c with
          board := { c.board with board := write c.board.board }
          todo := .act role (next.dealing again) :: rest })
      exact ⟨c', .of_act htodo (.of_act rfl hleads), hends⟩
  | settle next ih =>
      obtain ⟨c', hleads, hends⟩ := ih false hcell rfl
        (c := { c with todo := .act role ((next false).dealing again) :: rest }.note [.settle again false])
      refine ⟨c', .of_act htodo ?_, hends⟩
      simp only [deal, hcell, Cell.settle?]
      rw [← hcell]
      exact hleads
  | look next ih =>
      obtain ⟨c', hleads, hends⟩ := ih false 0 hcell rfl
        (c := { c with todo := .act role ((next false 0).dealing again) :: rest }.note [.poll (some s)])
      refine ⟨c', .of_act htodo ?_, hends⟩
      simp only [deal, hcell, Cell.outcome?, Cell.observers]
      rw [← hcell]
      exact hleads
  | observe inner next ihinner ihnext =>
      obtain ⟨c₁, hserves, hrest, hcell₁, hboard₁⟩ := ihinner hcell rfl
        (c := { c with
          added := c.added + 1
          todo := .act (.late c.added) (inner.dealing again) ::
            .act role ((next none).dealing again) :: rest }.note [.invoke c.added s])
      obtain ⟨c', hleads, hends, hcell', hboard⟩ := ihnext none hcell₁ hrest
      refine ⟨c', .of_act htodo ?_, hends, hcell', ?_⟩
      · simp only [deal, hcell, Cell.attach?, Cell.outcome?]
        rw [← hcell]
        exact hserves.trans hleads
      · rw [hboard, hboard₁]
        rfl

/-- An observer does to the world what serving it does. -/
theorem leads_hear (o : FutureWatcher σ) (hcell : c.cell = .settled s)
    (htodo : c.todo = .act role (o.hear again s) :: rest) :
    ∃ c', c.Leads c' ∧ c'.todo = rest ∧ c'.cell = .settled s ∧
      c'.board = World.notifyFuture s c.board o := by
  cases o with
  | wake k => exact ⟨_, .of_act htodo (.of_act rfl (.of_act rfl .refl)), rfl, hcell, rfl⟩
  | react r => exact leads_dealing _ hcell htodo

/-- Observers that are served one after the other do to the world what a fold over them does. -/
theorem leads_serve (os : List (Nat × FutureWatcher σ)) (hcell : c.cell = .settled s)
    (htodo : c.todo = .serve (os.map (FutureWatcher.listener again)) s :: rest) :
    ∃ c', c.Leads c' ∧ c'.todo = rest ∧ c'.cell = .settled s ∧
      c'.board = (os.map (·.2)).foldl (World.notifyFuture s) c.board := by
  induction os generalizing c with
  | nil => exact ⟨{ c with todo := rest }, .single (by rw [next?, htodo]; rfl), rfl, hcell, rfl⟩
  | cons o os ih =>
      obtain ⟨c₁, hserves, hrest, hcell₁, hboard₁⟩ := leads_hear o.2 hcell rfl
        (c := { c with
          todo := .act (.due o.1) (o.2.hear again s) ::
            .serve (os.map (FutureWatcher.listener again)) s :: rest }.note [.invoke o.1 s])
      obtain ⟨c', hleads, hends, hcell', hboard⟩ := ih hcell₁ hrest
      refine ⟨c', .head (by rw [next?, htodo]; rfl) (hserves.trans hleads), hends, hcell', ?_⟩
      rw [hboard, hboard₁]
      rfl

/-- A scene plays a future of a world: its cell has the same observers, and around it is the world, but for
its futures. -/
structure Plays (again : Settled (Program σ)) (c : Scene (World σ) (Program σ)) (w : World σ)
    (f : Key .future) : Prop where
  cell : c.cell = (w.future f).spelled again
  board : w = { c.board with futures := w.futures }

/-- Serving observers does not look at the futures of the world. -/
theorem foldl_notifyFuture (os : List (FutureWatcher σ)) (w : World σ)
    (futures : Store .future (Cell (Program σ) (FutureWatcher σ))) :
    os.foldl (World.notifyFuture s) { w with futures } =
      { os.foldl (World.notifyFuture s) w with futures } := by
  induction os generalizing w with
  | nil => rfl
  | cons o os ih =>
      cases o with
      | wake k => exact ih (World.notifyFuture s w (.wake k))
      | react r => exact ih (World.notifyFuture s w (.react r))

namespace Plays

variable {w : World σ} {f : Key .future} {cell : Cell (Program σ) (FutureWatcher σ)}

/-- What is told of a future is its cell. -/
theorem future_set (hmade : w.futures.get? f = some cell) (cell' : Cell (Program σ) (FutureWatcher σ)) :
    ({ w with futures := w.futures.set f cell' } : World σ).future f = cell' := by
  rw [World.future, Store.get?_set_of_some hmade]
  rfl

/-- A world that settles a future does what the scene comes to that plays it. -/
theorem settle (h : Plays again c w f) (hmade : w.futures.get? f = some cell)
    {k : Bool → Dealing (World σ) (Program σ)} (htodo : c.todo = .act role (.settle s k) :: rest) :
    ∃ c', c.Leads c' ∧ c'.todo = .act role (k (w.settle f s).2) :: rest ∧
      Plays again c' (w.settle f s).1 f := by
  obtain ⟨hcell, hboard⟩ := h
  unfold World.settle
  cases hfuture : w.future f with
  | settled s' =>
      rw [hfuture] at hcell
      refine ⟨_, .of_act htodo .refl, ?_, ?_, ?_⟩
      · simp only [deal, hcell, Cell.spelled, Cell.settle?, note_todo]
      · simp only [deal, hcell, Cell.spelled, Cell.settle?, note_cell, hfuture]
      · simpa only [deal, hcell, Cell.spelled, Cell.settle?, note] using hboard
  | pending os key =>
      rw [hfuture] at hcell
      obtain ⟨c', hserves, hrest, hcell', hboard'⟩ := leads_serve os rfl rfl
        (c := { c with
          cell := .settled s
          todo := .serve (os.map (FutureWatcher.listener again)) s :: .act role (k true) :: rest }.note
          [.settle s true])
      have hdeal : c.deal role rest (.settle s k) = ({ c with
          cell := .settled s
          todo := .serve (os.map (FutureWatcher.listener again)) s :: .act role (k true) :: rest }
          : Scene (World σ) (Program σ)).note [.settle s true] := by
        simp only [deal, hcell, Cell.spelled, Cell.settle?, List.map_map]
        rfl
      refine ⟨c', .of_act htodo (hdeal ▸ hserves), hrest, ?_, ?_⟩
      · rw [hcell']
        simp only [Cell.settle?, foldl_notifyFuture]
        rw [World.future, Store.get?_set_of_some hmade]
        rfl
      · simp only [Cell.settle?, foldl_notifyFuture]
        rw [hboard', hboard, foldl_notifyFuture]
        rfl

/-- A world that adds an observer to a future does what the scene comes to that plays it. -/
theorem add (h : Plays again c w f) (hmade : w.futures.get? f = some cell) (o : FutureWatcher σ)
    (hadded : ∀ os key, w.future f = .pending os key → c.added = key)
    {k : Option Nat → Dealing (World σ) (Program σ)}
    (htodo : c.todo = .act role (.add (o.hear again) k) :: rest) :
    ∃ c', c.Leads c' ∧ c'.todo = .act role (k (w.watchFuture f o).2) :: rest ∧
      Plays again c' (w.watchFuture f o).1 f := by
  obtain ⟨hcell, hboard⟩ := h
  unfold World.watchFuture
  cases hfuture : w.future f with
  | settled s' =>
      rw [hfuture] at hcell
      have hsettled : c.cell = .settled s' := hcell
      obtain ⟨c', hserves, hrest, hcell', hboard'⟩ := leads_hear o hsettled rfl
        (c := { c with
          added := c.added + 1
          todo := .act (.late c.added) (o.hear again s') :: .act role (k none) :: rest }.note
          [.invoke c.added s'])
      refine ⟨c', .of_act htodo ?_, hrest, ?_, ?_⟩
      · simp only [deal, hsettled, Cell.attach?, Cell.outcome?]
        rw [← hsettled]
        exact hserves
      · have hsame : (World.notifyFuture s' w o).future f = w.future f := by cases o <;> rfl
        simp only [Cell.attach?, Cell.outcome?]
        rw [hcell', hsame, hfuture]
        rfl
      · simp only [Cell.attach?, Cell.outcome?]
        rw [hboard', hboard]
        cases o <;> rfl
  | pending os key =>
      rw [hfuture] at hcell
      obtain rfl := hadded os key hfuture
      refine ⟨_, .of_act htodo .refl, ?_, ?_, ?_⟩
      · simp only [deal, hcell, Cell.spelled, Cell.attach?, note_todo]
      · simp only [deal, hcell, Cell.spelled, Cell.attach?, note_cell, future_set hmade, List.map_append]
        rfl
      · simp only [deal, hcell, Cell.spelled, Cell.attach?, note]
        rw [hboard]

/-- A world that removes an observer from a future answers as the scene does, and goes on alike. -/
theorem remove (h : Plays again c w f) (hmade : w.futures.get? f = some cell) (key : Nat)
    {k : Bool → Dealing (World σ) (Program σ)} (htodo : c.todo = .act role (.remove key k) :: rest) :
    ∃ w' answer c', w.command (.unwatchFuture f key) = (w', .ok answer) ∧ c.Leads c' ∧
      c'.todo = .act role (k answer) :: rest ∧ Plays again c' w' f := by
  obtain ⟨hcell, hboard⟩ := h
  cases hforget : (w.future f).forget? key with
  | none =>
      refine ⟨w, false, _, by simp only [World.command, hforget], .of_act htodo .refl, ?_, ?_, ?_⟩
      · simp only [deal, hcell, Cell.forget?_spelled, hforget, Option.map_none, note_todo]
      · simp only [deal, hcell, Cell.forget?_spelled, hforget, Option.map_none, note_cell]
      · simpa only [deal, hcell, Cell.forget?_spelled, hforget, Option.map_none, note] using hboard
  | some cell' =>
      refine ⟨{ w with futures := w.futures.set f cell' }, true, _, by simp only [World.command, hforget],
        .of_act htodo .refl, ?_, ?_, ?_⟩
      · simp only [deal, hcell, Cell.forget?_spelled, hforget, Option.map_some, note_todo]
      · simp only [deal, hcell, Cell.forget?_spelled, hforget, Option.map_some, note_cell, future_set hmade]
      · simp only [deal, hcell, Cell.forget?_spelled, hforget, Option.map_some, note]
        rw [hboard]

end Plays

end Scene

end Fibers
