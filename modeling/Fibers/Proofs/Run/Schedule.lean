import Fibers.Proofs.Run.Moment

set_option autoImplicit false

/-! # Tasks in order

Among the runs of a system is one in which a program is started in a root fiber and the tasks are
taken in the order of the queue, each as soon as the one before it has come to its end. What
happens in it can be computed. The driver of a virtual clock keeps to the deadlines besides
(`Moment.tick`).
-/

namespace Fibers

variable {σ : Type}

/-- What comes next if the tasks are taken in order. -/
def Moment.next (x : Moment σ) : Moment σ :=
  match x with
  | ⟨w, some (f, m)⟩ => w.advance f m
  | ⟨w, none⟩ =>
      match w.timers.live with
      | [] => ⟨w, none⟩
      | t :: rest => World.begin { w with timers := { w.timers with live := rest } } t.task

/-- What comes after a number of moves. -/
def Moment.later (x : Moment σ) : Nat → Moment σ
  | 0 => x
  | k + 1 => (x.later k).next

theorem Moment.move_next (x : Moment σ) : Move x x.next := by
  obtain ⟨w, active⟩ := x
  cases active with
  | some fm => exact .advance
  | none =>
      simp only [next]
      cases hlive : w.timers.live with
      | nil =>
          have hkeep : ∀ u ∈ w.timers.live, u ∈ w.timers.live := fun _ hu => hu
          exact .pass hkeep
      | cons t rest =>
          have ht : t ∈ w.timers.live := by
            rw [hlive]
            exact List.mem_cons_self
          have hrest : ∀ u ∈ { w.timers with live := rest }.live, u ∈ w.timers.live := by
            intro u hu
            rw [hlive]
            exact List.mem_cons_of_mem _ hu
          exact .task ht hrest

/-- The run of one program, with the tasks in order. -/
def Run.inOrder (config : Config) (board : σ) (p : Program σ) (hp : p.Licensed .none) : Run σ where
  config := config
  services := .empty
  board := board
  moment
    | 0 => ⟨World.new config .empty board, none⟩
    | k + 1 => Moment.later ⟨((World.new config .empty board).runFiber p).1, none⟩ k
  start := rfl
  move
    | 0 => .root hp
    | _ + 1 => Moment.move_next _

/-- With no task left nothing happens in it any more. -/
theorem Run.inOrder_stays {config : Config} {board : σ} {p : Program σ} {hp : p.Licensed .none} {n k : Nat}
    (hidle : ((Run.inOrder config board p hp).moment (n + 1)).active = none)
    (hempty : ((Run.inOrder config board p hp).moment (n + 1)).world.timers.live = []) (hnk : n + 1 ≤ k) :
    (Run.inOrder config board p hp).moment k = (Run.inOrder config board p hp).moment (n + 1) := by
  induction hnk with
  | refl => rfl
  | @step k hnk ih =>
      obtain ⟨k, rfl⟩ := Nat.exists_eq_add_of_le' (Nat.lt_of_lt_of_le (Nat.succ_pos n) hnk)
      show ((Run.inOrder config board p hp).moment (k + 1)).next = _
      rw [ih]
      rcases hx : (Run.inOrder config board p hp).moment (n + 1) with ⟨w, active⟩
      rw [hx] at hidle hempty
      obtain rfl : active = none := hidle
      simp only [Moment.next, show w.timers.live = [] from hempty]

/-! ## On a virtual clock -/

/-- The world with `rest` for its queue. -/
def World.withQueue (w : World σ) (rest : List (Timer (Task σ))) : World σ :=
  { w with timers := { w.timers with live := rest } }

namespace Moment

/-- The next step of the turn, if it is anybody's. -/
def stride (x : Moment σ) : Moment σ :=
  match x with
  | ⟨w, some (f, m)⟩ => w.advance f m
  | ⟨w, none⟩ => ⟨w, none⟩

/-- What comes next on a virtual clock: a turn is seen to its end, then the tasks that are due are taken
in order, and where none is due the clock jumps to the next deadline. With no task left nothing happens
any more. -/
def tick (x : Moment σ) : Moment σ :=
  match x with
  | ⟨w, some (f, m)⟩ => w.advance f m
  | ⟨w, none⟩ =>
      match w.timers.live with
      | [] => ⟨w, none⟩
      | t :: rest =>
          if t.deadline.nanos ≤ w.now.nanos then World.begin (w.withQueue rest) t.task
          else ⟨{ w with timers := w.timers.advanceTo t.deadline }, none⟩

/-- What the driver does are moves of the system, and exact ones. -/
theorem exact_tick (x : Moment σ) : Exact x x.tick := by
  obtain ⟨w, active⟩ := x
  cases active with
  | some fm => exact .advance
  | none =>
      simp only [tick]
      cases hlive : w.timers.live with
      | nil => exact .pass ⟨rfl, rfl, Nat.le_refl _⟩
      | cons t rest =>
          dsimp only
          split
          · exact .task ⟨⟨[], rest, hlive, rfl⟩, rfl, rfl⟩
          · exact .pass (Timers.passes_advanceTo _ _)

/-- While a turn is on, the driver goes on with it. -/
theorem tick_of_active {w : World σ} {f : Key .fiber} {m : Machine σ} :
    (⟨w, some (f, m)⟩ : Moment σ).tick = (⟨w, some (f, m)⟩ : Moment σ).stride := rfl

end Moment

end Fibers
