import Mathlib.Data.List.Nodup
import Mathlib.Data.List.Range
import Mathlib.Data.List.Induction
import Mathlib.Logic.Relation
import Fibers.Cell

set_option autoImplicit false

/-! # Serving the observers of a cell

An observer may do with the cell that has just settled whatever anybody may do with a cell: settle it again,
add and remove observers, look at it, and panic. A `Scene` is a cell with what is around it, the calls that
are under way, and the history of the cell. Every call reads the cell as it is when the call is made; nothing
is assumed of it because an observer makes the call.

A cell is new to begin with. One that is made with an outcome is one that its maker settles first.

A call that settles the cell has observers to serve, and goes on when the last of them has ended. A panic ends
the observer that panics and nothing else. An observer that is added too late is served within the call that
adds it, and that call returns when the observer has ended.
-/

namespace Fibers

variable {σ α : Type}

/-- What is done with a cell, and with what is around it. What is done next may depend on all answers. -/
inductive Dealing (σ α : Type) where
  | done
  | panic
  | look (k : σ → Dealing σ α)
  | write (board : σ) (k : Dealing σ α)
  | settle (s : Settled α) (k : Bool → Dealing σ α)
  | add (observer : Settled α → Dealing σ α) (k : Option Nat → Dealing σ α)
  | remove (key : Nat) (k : Bool → Dealing σ α)
  | poll (k : Option (Settled α) → Nat → Dealing σ α)

/-- An observer, with the number of the call that added it. -/
structure Listener (σ α : Type) where
  number : Nat
  hear : Settled α → Dealing σ α

/-- Who is dealing with the cell: the one who made the calls to begin with, an observer that had been waiting,
or one that came too late and whose call is still to return. -/
inductive Role where
  | host
  | due (n : Nat)
  | late (n : Nat)

/-- What is still to be done. -/
inductive Todo (σ α : Type) where
  | act (role : Role) (d : Dealing σ α)
  | serve (due : List (Listener σ α)) (s : Settled α)

/-! ## Histories -/

/-- What is noted of a cell: calls with their answers, and when an observer was invoked and when it ended. The
call that adds an observer is noted when it returns. -/
inductive Mark (α : Type) where
  | settle (s : Settled α) (answer : Bool)
  | add (n : Nat) (key : Option Nat)
  | remove (key : Nat) (answer : Bool)
  | poll (seen : Option (Settled α))
  | invoke (n : Nat) (s : Settled α)
  | finish (n : Nat)

namespace Mark

/-- What a call asked the cell to settle with, whatever it was answered. -/
def settles? : Mark α → Option (Settled α)
  | .settle s _ => some s
  | .add _ _ => none
  | .remove _ _ => none
  | .poll _ => none
  | .invoke _ _ => none
  | .finish _ => none

/-- The number of an observer that was kept under a key. -/
def registers? : Mark α → Option Nat
  | .add n (some _) => some n
  | .add _ none => none
  | .settle _ _ => none
  | .remove _ _ => none
  | .poll _ => none
  | .invoke _ _ => none
  | .finish _ => none

/-- The key whose observer was removed. -/
def removes? : Mark α → Option Nat
  | .remove key true => some key
  | .remove _ false => none
  | .settle _ _ => none
  | .add _ _ => none
  | .poll _ => none
  | .invoke _ _ => none
  | .finish _ => none

/-- The number of an observer that was invoked. -/
def invokes? : Mark α → Option Nat
  | .invoke n _ => some n
  | .settle _ _ => none
  | .add _ _ => none
  | .remove _ _ => none
  | .poll _ => none
  | .finish _ => none

end Mark

/-- What the first of the calls to settle asked for. -/
def firstOutcome (history : List (Mark α)) : Option (Settled α) := history.findSome? Mark.settles?

/-- The observers that were kept, in the order in which they were added. -/
def registered (history : List (Mark α)) : List Nat := history.filterMap Mark.registers?

/-- The keys whose removal was answered with yes. -/
def removed (history : List (Mark α)) : List Nat := history.filterMap Mark.removes?

/-- The observers that were invoked, in that order. -/
def invoked (history : List (Mark α)) : List Nat := history.filterMap Mark.invokes?

/-! ## Scenes -/

/-- A cell, what is around it, how many observers were added so far, what is still to be done, the most urgent
first, and the history of the cell. -/
structure Scene (σ α : Type) where
  cell : Cell α (Listener σ α) := .fresh
  board : σ
  added : Nat := 0
  todo : List (Todo σ α)
  history : List (Mark α) := []

/-- What is noted when the dealings of somebody end. -/
def Role.farewell : Role → List (Mark α)
  | .host => []
  | .due n => [.finish n]
  | .late n => [.finish n, .add n none]

namespace Scene

/-- Somebody is going to deal with a new cell. -/
def start (d : Dealing σ α) (board : σ) : Scene σ α := { board, todo := [.act .host d] }

/-- Adds to the history. -/
def note (c : Scene σ α) (marks : List (Mark α)) : Scene σ α := { c with history := c.history ++ marks }

@[simp] theorem note_cell (c : Scene σ α) (marks : List (Mark α)) : (c.note marks).cell = c.cell := rfl

@[simp] theorem note_added (c : Scene σ α) (marks : List (Mark α)) : (c.note marks).added = c.added := rfl

@[simp] theorem note_todo (c : Scene σ α) (marks : List (Mark α)) : (c.note marks).todo = c.todo := rfl

@[simp] theorem note_history (c : Scene σ α) (marks : List (Mark α)) :
    (c.note marks).history = c.history ++ marks := rfl

/-- The first of somebody's dealings, with the rest of what is to be done. -/
def deal (c : Scene σ α) (role : Role) (rest : List (Todo σ α)) : Dealing σ α → Scene σ α
  | .done => { c with todo := rest }.note role.farewell
  | .panic => { c with todo := rest }.note role.farewell
  | .look k => { c with todo := .act role (k c.board) :: rest }
  | .write board k => { c with board, todo := .act role k :: rest }
  | .settle s k =>
      match c.cell.settle? s with
      | some (cell, due) =>
          { c with cell, todo := .serve due s :: .act role (k true) :: rest }.note [.settle s true]
      | none => { c with todo := .act role (k false) :: rest }.note [.settle s false]
  | .add hear k =>
      match c.cell.attach? ⟨c.added, hear⟩ with
      | some (cell, key) =>
          { c with cell, added := c.added + 1, todo := .act role (k (some key)) :: rest }.note
            [.add c.added (some key)]
      | none =>
          match c.cell.outcome? with
          | some s =>
              { c with
                added := c.added + 1
                todo := .act (.late c.added) (hear s) :: .act role (k none) :: rest }.note
                [.invoke c.added s]
          | none => { c with todo := .act role (k none) :: rest }
  | .remove key k =>
      match c.cell.forget? key with
      | some cell => { c with cell, todo := .act role (k true) :: rest }.note [.remove key true]
      | none => { c with todo := .act role (k false) :: rest }.note [.remove key false]
  | .poll k =>
      { c with todo := .act role (k c.cell.outcome? c.cell.observers.length) :: rest }.note
        [.poll c.cell.outcome?]

/-- What comes next, if anything is still to be done. -/
def next? (c : Scene σ α) : Option (Scene σ α) :=
  match c.todo with
  | [] => none
  | .act role d :: rest => some (c.deal role rest d)
  | .serve [] _ :: rest => some { c with todo := rest }
  | .serve (o :: due) s :: rest =>
      some ({ c with todo := .act (.due o.number) (o.hear s) :: .serve due s :: rest }.note
        [.invoke o.number s])

/-- What a scene leads to. -/
def Leads : Scene σ α → Scene σ α → Prop := Relation.ReflTransGen fun c c' => c.next? = some c'

/-- What a number of steps leads to. -/
def after : Nat → Scene σ α → Scene σ α
  | 0, c => c
  | n + 1, c =>
      match c.next? with
      | some c' => after n c'
      | none => c

theorem leads_after (n : Nat) (c : Scene σ α) : c.Leads (c.after n) := by
  induction n generalizing c with
  | zero => exact .refl
  | succ n ih =>
      unfold after
      split
      · rename_i c' hnext
        exact .head hnext (ih c')
      · exact .refl

/-! ## Everything comes to its end -/

variable {c c' : Scene σ α} {s : Settled α} {role : Role} {rest : List (Todo σ α)}

theorem Leads.of_act {d : Dealing σ α} (htodo : c.todo = .act role d :: rest)
    (h : (c.deal role rest d).Leads c') : c.Leads c' :=
  .head (by rw [next?, htodo]) h

/-- Observers come to their ends one after the other, if each of them does. -/
theorem ends_serve {P : Cell α (Listener σ α) → Prop}
    (hacts : ∀ (c : Scene σ α) role d rest, P c.cell → c.todo = .act role d :: rest →
      ∃ c', c.Leads c' ∧ c'.todo = rest ∧ P c'.cell)
    (due : List (Listener σ α)) (hcell : P c.cell) (htodo : c.todo = .serve due s :: rest) :
    ∃ c', c.Leads c' ∧ c'.todo = rest ∧ P c'.cell := by
  induction due generalizing c with
  | nil => exact ⟨{ c with todo := rest }, .single (by rw [next?, htodo]), rfl, hcell⟩
  | cons o due ih =>
      obtain ⟨c₁, hleads, hrest, hcell₁⟩ := hacts
        ({ c with todo := .act (.due o.number) (o.hear s) :: .serve due s :: rest }.note [.invoke o.number s])
        _ _ _ hcell rfl
      obtain ⟨c', hends, hdone⟩ := ih hcell₁ hrest
      exact ⟨c', .head (by rw [next?, htodo]) (hleads.trans hends), hdone⟩

/-- With a cell that has settled, all dealings come to their end, those of further observers included. -/
theorem ends_of_settled (d : Dealing σ α) (hcell : c.cell = .settled s) (htodo : c.todo = .act role d :: rest) :
    ∃ c', c.Leads c' ∧ c'.todo = rest ∧ c'.cell = .settled s := by
  induction d generalizing c role rest with
  | done => exact ⟨_, .of_act htodo .refl, rfl, hcell⟩
  | panic => exact ⟨_, .of_act htodo .refl, rfl, hcell⟩
  | look k ih =>
      obtain ⟨c', hleads, hends⟩ := ih c.board (c := c.deal role rest (.look k)) hcell rfl
      exact ⟨c', .of_act htodo hleads, hends⟩
  | write board k ih =>
      obtain ⟨c', hleads, hends⟩ := ih (c := c.deal role rest (.write board k)) hcell rfl
      exact ⟨c', .of_act htodo hleads, hends⟩
  | settle s' k ih =>
      obtain ⟨c', hleads, hends⟩ :=
        ih false (c := { c with todo := .act role (k false) :: rest }.note [.settle s' false]) hcell rfl
      refine ⟨c', .of_act htodo ?_, hends⟩
      simp only [deal, hcell, Cell.settle?]
      rw [← hcell]
      exact hleads
  | add hear k ihhear ihk =>
      obtain ⟨c₁, hserves, hrest, hcell₁⟩ := ihhear s
        (c := { c with
          added := c.added + 1
          todo := .act (.late c.added) (hear s) :: .act role (k none) :: rest }.note [.invoke c.added s])
        hcell rfl
      obtain ⟨c', hleads, hends⟩ := ihk none hcell₁ hrest
      refine ⟨c', .of_act htodo ?_, hends⟩
      simp only [deal, hcell, Cell.attach?, Cell.outcome?]
      rw [← hcell]
      exact hserves.trans hleads
  | remove key k ih =>
      obtain ⟨c', hleads, hends⟩ :=
        ih false (c := { c with todo := .act role (k false) :: rest }.note [.remove key false]) hcell rfl
      refine ⟨c', .of_act htodo ?_, hends⟩
      simp only [deal, hcell, Cell.forget?]
      rw [← hcell]
      exact hleads
  | poll k ih =>
      obtain ⟨c', hleads, hends⟩ := ih _ _ (c := c.deal role rest (.poll k)) hcell rfl
      exact ⟨c', .of_act htodo hleads, hends⟩

/-- All dealings come to their end. -/
theorem ends_act (d : Dealing σ α) (htodo : c.todo = .act role d :: rest) :
    ∃ c', c.Leads c' ∧ c'.todo = rest := by
  induction d generalizing c role rest with
  | done => exact ⟨_, .of_act htodo .refl, rfl⟩
  | panic => exact ⟨_, .of_act htodo .refl, rfl⟩
  | look k ih =>
      obtain ⟨c', hleads, hends⟩ := ih c.board (c := c.deal role rest (.look k)) rfl
      exact ⟨c', .of_act htodo hleads, hends⟩
  | write board k ih =>
      obtain ⟨c', hleads, hends⟩ := ih (c := c.deal role rest (.write board k)) rfl
      exact ⟨c', .of_act htodo hleads, hends⟩
  | settle s' k ih =>
      cases hcell : c.cell with
      | settled s =>
          obtain ⟨c', hleads, hends, -⟩ := ends_of_settled (.settle s' k) hcell htodo
          exact ⟨c', hleads, hends⟩
      | pending os key =>
          -- the observers are not part of these dealings, but the cell has settled when they deal with it
          obtain ⟨c₁, hserves, hrest, hcell₁⟩ := ends_serve (P := (· = .settled s'))
            (c := { c with
              cell := .settled s'
              todo := .serve (os.map Prod.snd) s' :: .act role (k true) :: rest }.note [.settle s' true])
            (fun _ _ d _ => ends_of_settled d) (os.map Prod.snd) rfl rfl
          obtain ⟨c', hleads, hends⟩ := ih true hrest
          refine ⟨c', .of_act htodo ?_, hends⟩
          simp only [deal, hcell, Cell.settle?]
          exact hserves.trans hleads
  | add hear k _ ihk =>
      cases hcell : c.cell with
      | settled s =>
          obtain ⟨c', hleads, hends, -⟩ := ends_of_settled (.add hear k) hcell htodo
          exact ⟨c', hleads, hends⟩
      | pending os key =>
          obtain ⟨c', hleads, hends⟩ : ∃ c', (({ c with
              cell := .pending (os ++ [(key, ⟨c.added, hear⟩)]) (key + 1)
              added := c.added + 1
              todo := .act role (k (some key)) :: rest } : Scene σ α).note
              [.add c.added (some key)]).Leads c' ∧ c'.todo = rest := ihk (some key) rfl
          refine ⟨c', .of_act htodo ?_, hends⟩
          simp only [deal, hcell, Cell.attach?]
          exact hleads
  | remove key k ih =>
      cases hforget : c.cell.forget? key with
      | some cell =>
          obtain ⟨c', hleads, hends⟩ := ih true
            (c := { c with cell, todo := .act role (k true) :: rest }.note [.remove key true]) rfl
          refine ⟨c', .of_act htodo ?_, hends⟩
          simp only [deal, hforget]
          exact hleads
      | none =>
          obtain ⟨c', hleads, hends⟩ := ih false
            (c := { c with todo := .act role (k false) :: rest }.note [.remove key false]) rfl
          refine ⟨c', .of_act htodo ?_, hends⟩
          simp only [deal, hforget]
          exact hleads
  | poll k ih =>
      obtain ⟨c', hleads, hends⟩ := ih _ _ (c := c.deal role rest (.poll k)) rfl
      exact ⟨c', .of_act htodo hleads, hends⟩

/-- Every scene comes to rest. -/
theorem rests (c : Scene σ α) : ∃ c', c.Leads c' ∧ c'.todo = [] := by
  cases c with
  | mk cell board added todo history =>
      induction todo generalizing cell board added history with
      | nil => exact ⟨_, .refl, rfl⟩
      | cons t rest ih =>
          have hfirst : ∃ c' : Scene σ α,
              Leads ⟨cell, board, added, t :: rest, history⟩ c' ∧ c'.todo = rest := by
            cases t with
            | act role d => exact ends_act d rfl
            | serve due s =>
                have hacts (c : Scene σ α) (role : Role) (d : Dealing σ α) (rest : List (Todo σ α))
                    (_ : True) (htodo : c.todo = .act role d :: rest) :
                    ∃ c', c.Leads c' ∧ c'.todo = rest ∧ True := by
                  obtain ⟨c', hleads, hends⟩ := ends_act d htodo
                  exact ⟨c', hleads, hends, trivial⟩
                obtain ⟨c', hleads, hrest, -⟩ := ends_serve (P := fun _ => True) hacts due trivial
                  (c := ⟨cell, board, added, .serve due s :: rest, history⟩) rfl
                exact ⟨c', hleads, hrest⟩
          obtain ⟨⟨cell₁, board₁, added₁, todo₁, history₁⟩, hleads, hrest⟩ := hfirst
          change todo₁ = rest at hrest
          subst hrest
          obtain ⟨c', hends, hnil⟩ := ih cell₁ board₁ added₁ history₁
          exact ⟨c', hleads.trans hends, hnil⟩

end Scene

end Fibers
