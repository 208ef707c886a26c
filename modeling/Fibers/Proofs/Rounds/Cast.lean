import Fibers.Proofs.Rounds.Agenda
import Fibers.Proofs.Rounds.Deeds
import Fibers.Proofs.Rounds.Host
import Fibers.Proofs.Rounds.Tempo

set_option autoImplicit false

/-! # The members and the fiber that zips them

`Zip` is what is fixed of a zip of sleeps under a bound: the fiber that zips, its members, and what they share.
`Cast` says what the members and the fiber are like in a world, by where each of them is. It is kept by every
step that changes one of them and leaves the others alone (`Cast.put`).
-/

namespace Fibers.Rounds

open World Direct

variable {σ : Type} {n : Nat}

/-! ## What is fixed -/

/-- What is fixed of a zip of `n` programs that sleep for `span`, with `level` permits; it starts at `start`. -/
structure Zip (σ : Type) (n : Nat) where
  host : Host σ
  walker : Fin n → Walker σ
  permits : Key .semaphore
  level : Nat
  span : Duration
  budget : Nat
  start : Nat
  refs : Store .refs FiberRefs

namespace Zip

variable (Z : Zip σ n)

/-- The member at a place. -/
def member (i : Fin n) : Member σ :=
  { Z.walker i with
    permits := Z.permits
    ticket := i.val
    span := Z.span
    arena := Z.host.scope
    tally := Z.host.tally }

/-- The fiber that zips, and the members. -/
def party : Option (Fin n) → Walker σ
  | none => Z.host.toWalker
  | some i => Z.walker i

/-- The instant at which the zip is to end. -/
def horizon : Nat := Z.start + Z.span * Tempo.rounds n Z.level

/-- All that is fixed fits together, and the time does not overflow. -/
structure Sound : Prop where
  host : Z.host.Sound Z.budget
  member : ∀ i, (Z.member i).Sound Z.budget
  level : 0 < Z.level
  budget : 0 < Z.budget
  fits : Z.horizon ≤ Time.limit
  members : Z.host.contest.members = List.ofFn fun i => (Z.walker i).fiber
  size : Z.host.size = n
  fibers : ∀ x y, (Z.party x).fiber = (Z.party y).fiber → x = y
  scopes : ∀ x y, (Z.party x).scope = (Z.party y).scope → x = y
  outside : ∀ x, (Z.party x).scope ≠ Z.host.birth.scope
  untouched : ∀ i, ∀ e ∈ ((Z.refs.get? (Z.walker i).birth.context.refs).getD default).entries, e.touched = false

end Zip

/-! ## Where the parties are -/

namespace Stance

/-- The number of the task that the member waits for. -/
def alarm? : Stance → Option Nat
  | .ready _ id => some id
  | .asleep _ id _ => some id
  | _ => none

/-- The future that the member has to do with. -/
def future? : Stance → Option (Key .future)
  | .active (.queue grant) _ => some grant
  | .active (.called grant) _ => some grant
  | .ready (.queue grant) _ => some grant
  | .ready (.called grant) _ => some grant
  | .waiting grant => some grant
  | .asleep callback _ _ => some callback
  | _ => none

/-- The member has its turn. -/
def isActive : Stance → Bool
  | .active _ _ => true
  | _ => false

/-- The scope of the member is in the arena. -/
def isWithin : Stance → Bool
  | .active (.door _) _ => false
  | .ready (.door _) _ => false
  | .gone => false
  | _ => true

end Stance

/-- Where the fiber that zips is: it has its turn, with a number of steps of its budget done; its next turn is
in the queue under a number; or it waits for the members under a token. -/
inductive Seat where
  | active (p : Post) (ops : Nat)
  | ready (p : Post) (id : Nat)
  | waiting (token : Nat)

namespace Seat

/-- The number of the task that the fiber waits for. -/
def alarm? : Seat → Option Nat
  | .ready _ id => some id
  | _ => none

def isActive : Seat → Bool
  | .active _ _ => true
  | _ => false

/-- The fiber has been told that all members have ended. -/
def isTold : Seat → Bool
  | .active .posed _ => false
  | .active .asking _ => false
  | .ready .posed _ => false
  | .ready .asking _ => false
  | .waiting _ => false
  | _ => true

/-- What the tally has while some members are left. -/
def ballot (f : Key .fiber) (left : Nat) : Seat → Cell (Option (Nat × AnyExit)) Wake
  | .waiting token => .pending [(0, ⟨f, token⟩)] 1
  | _ => if left = 0 then .settled (.resolved none) else .fresh

/-- The fiber waits as long as members are left. -/
structure Fits (left : Nat) (s : Seat) : Prop where
  told : s.isTold = true → left = 0
  waiting : ∀ token, s = .waiting token → 0 < left

end Seat

/-- The number of members that have not ended. -/
def left (stance : Fin n → Stance) : Nat := (Finset.univ.filter fun i => (stance i).stage ≠ .gone).card

/-- The numbers of the tasks that the parties wait for. -/
def alarm (seat : Seat) (stance : Fin n → Stance) : Option (Fin n) → Option Nat
  | none => seat.alarm?
  | some i => (stance i).alarm?

theorem alarm_put (seat : Seat) (stance : Fin n → Stance) (i : Fin n) (s : Stance) :
    alarm seat (Function.update stance i s) = Function.update (alarm seat stance) (some i) s.alarm? := by
  funext x
  cases x with
  | none => rfl
  | some j =>
      rw [Function.update_apply, alarm, Function.update_apply]
      by_cases hji : j = i
      · rw [if_pos hji, if_pos (congrArg some hji)]
      · rw [if_neg hji, if_neg fun heq => hji (Option.some.inj heq)]
        rfl

theorem alarm_sit (seat seat' : Seat) (stance : Fin n → Stance) :
    alarm seat' stance = Function.update (alarm seat stance) none seat'.alarm? := by
  funext x
  cases x with
  | none => rw [Function.update_self, alarm]
  | some j => rw [Function.update_of_ne (by simp)]; rfl

theorem left_congr {stance stance' : Fin n → Stance}
    (h : ∀ i, (stance' i).stage = .gone ↔ (stance i).stage = .gone) : left stance' = left stance := by
  unfold left
  congr 1
  ext i
  simp [h i]

/-! ## What the parties are like -/

/-- What has become of the grant that a member at a point has to do with. -/
def Point.Heard (p : Point) (w : World σ) : Prop :=
  match p with
  | .queue grant => w.futures.get? grant = some .fresh
  | .called grant => w.futures.get? grant = some (.settled (.resolved .unit))
  | _ => True

namespace Member

variable (k : Member σ)

/-- What a member is like, by where it is. -/
def In (w : World σ) : Stance → Prop
  | .active p ops => k.Active (k.spot p) ops w ∧ p.Heard w
  | .ready p id =>
      (∃ t ∈ w.timers.live, t.id = id ∧ t.deadline = w.now ∧ k.Awaits (k.spot p) t w) ∧ p.Heard w
  | .waiting grant =>
      ∃ token, k.Parked (k.queuing grant) token (k.queuing grant).machine w ∧
        w.futures.get? grant = some (.pending [(0, .wake ⟨k.fiber, token⟩)] 1)
  | .asleep callback id due =>
      (∃ t ∈ w.timers.live, t.id = id ∧ t.deadline.nanos = due ∧ t.task = .ring callback) ∧
        ∃ token, k.Parked (k.spot (.awake id)) token k.dozing w ∧
          w.futures.get? callback = some (.pending [(0, .wake ⟨k.fiber, token⟩)] 1)
  | .gone =>
      (∃ y, w.fibers.get? k.fiber = some y ∧ y.exit? = some ending ∧ y.scope = k.scope ∧
        y.context.refs = k.birth.context.refs) ∧
      w.scopes.get? k.scope = some (k.nestAt (k.spot (.door .shut)))

end Member

namespace Host

variable (k : Host σ)

/-- What the fiber that zips is like, by where it is, while `fs` are the finalizers of the arena. -/
def In (fs : List (Nat × Finalizer σ)) (w : World σ) : Seat → Prop
  | .active p ops => k.Active (k.spot fs p) ops w
  | .ready p id => ∃ t ∈ w.timers.live, t.id = id ∧ t.deadline = w.now ∧ k.Awaits (k.spot fs p) t w
  | .waiting token => k.Parked (k.spot fs .asking) token (k.spot fs .asking).machine w

end Host

/-! ## Who is spared -/

/-- From `w` to `w'` nothing has happened to a walker, nor to the task it waits for. -/
structure Walker.Spared (k : Walker σ) (id : Option Nat) (w w' : World σ) : Prop where
  fiber : w'.fibers.get? k.fiber = w.fibers.get? k.fiber
  scope : w'.scopes.get? k.scope = w.scopes.get? k.scope
  tasks : ∀ t ∈ w.timers.live, id = some t.id → t ∈ w'.timers.live
  now : w'.now = w.now

theorem Walker.Spared.trans {k : Walker σ} {id : Option Nat} {w w₁ w' : World σ} (h : k.Spared id w w₁)
    (h' : k.Spared id w₁ w') : k.Spared id w w' :=
  ⟨h'.fiber.trans h.fiber, h'.scope.trans h.scope, fun t ht hid => h'.tasks t (h.tasks t ht hid) hid,
    h'.now.trans h.now⟩

theorem Point.Heard.congr {p : Point} {w w' : World σ} (h : p.Heard w) (ops : Nat)
    (hfuture : ∀ g, (Stance.active p ops).future? = some g → w'.futures.get? g = w.futures.get? g) : p.Heard w' := by
  cases p with
  | queue grant => exact (hfuture grant rfl).trans h
  | called grant => exact (hfuture grant rfl).trans h
  | _ => trivial

theorem Member.In.spared {k : Member σ} {s : Stance} {w w' : World σ} (h : k.In w s)
    (hspared : k.Spared s.alarm? w w')
    (hfuture : ∀ g, s.future? = some g → w'.futures.get? g = w.futures.get? g) : k.In w' s := by
  cases s with
  | active p ops => exact ⟨h.1.congr hspared.fiber hspared.scope, h.2.congr ops hfuture⟩
  | ready p id =>
      obtain ⟨⟨t, ht, rfl, hdue, hawaits⟩, hheard⟩ := h
      refine ⟨⟨t, hspared.tasks t ht rfl, rfl, hdue.trans hspared.now.symm,
        hawaits.congr hspared.fiber hspared.scope⟩, hheard.congr 0 fun g hg => hfuture g ?_⟩
      cases p <;> exact hg
  | waiting grant =>
      obtain ⟨token, hparked, hgrant⟩ := h
      exact ⟨token, hparked.congr hspared.fiber hspared.scope, (hfuture grant rfl).trans hgrant⟩
  | asleep callback id due =>
      obtain ⟨⟨t, ht, rfl, hdue, htask⟩, token, hparked, hcallback⟩ := h
      exact ⟨⟨t, hspared.tasks t ht rfl, rfl, hdue, htask⟩, token, hparked.congr hspared.fiber hspared.scope,
        (hfuture callback rfl).trans hcallback⟩
  | gone =>
      obtain ⟨⟨y, hget, hrest⟩, hscope⟩ := h
      exact ⟨⟨y, hspared.fiber.trans hget, hrest⟩, hspared.scope.trans hscope⟩

theorem Host.In.spared {k : Host σ} {fs : List (Nat × Finalizer σ)} {s : Seat} {w w' : World σ}
    (h : k.In fs w s) (hspared : k.Spared s.alarm? w w') : k.In fs w' s := by
  cases s with
  | active p ops => exact Walker.Active.congr h hspared.fiber hspared.scope
  | ready p id =>
      obtain ⟨t, ht, rfl, hdue, hawaits⟩ := h
      exact ⟨t, hspared.tasks t ht rfl, rfl, hdue.trans hspared.now.symm, hawaits.congr hspared.fiber hspared.scope⟩
  | waiting token => exact Walker.Parked.congr h hspared.fiber hspared.scope

/-- The future that a member has to do with is there. -/
theorem Member.In.future {k : Member σ} {s : Stance} {w : World σ} (h : k.In w s) {g : Key .future}
    (hg : s.future? = some g) : ∃ c, w.futures.get? g = some c := by
  have hheard : ∀ p : Point, p.Heard w → ∀ ops, (Stance.active p ops).future? = some g →
      ∃ c, w.futures.get? g = some c := by
    intro p hp ops hfuture
    cases p with
    | queue grant =>
        cases hfuture
        exact ⟨_, hp⟩
    | called grant =>
        cases hfuture
        exact ⟨_, hp⟩
    | _ => cases hfuture
  cases s with
  | active p ops => exact hheard p h.2 ops hg
  | ready p id => exact hheard p h.2 0 (by cases p <;> exact hg)
  | waiting grant =>
      cases hg
      obtain ⟨token, -, hgrant⟩ := h
      exact ⟨_, hgrant⟩
  | asleep callback id due =>
      cases hg
      obtain ⟨-, token, -, hcallback⟩ := h
      exact ⟨_, hcallback⟩
  | gone => cases hg

namespace Zip

/-- From `w` to `w'` nothing has happened to any party but `x`, nor to the scope that the arena is in. -/
structure Spares (Z : Zip σ n) (alarm : Option (Fin n) → Option Nat) (x : Option (Fin n)) (w w' : World σ) :
    Prop where
  others : ∀ y, y ≠ x → (Z.party y).Spared (alarm y) w w'
  home : w'.scopes.get? Z.host.birth.scope = w.scopes.get? Z.host.birth.scope
  refs : w'.refs = w.refs

variable {Z : Zip σ n} {alarm : Option (Fin n) → Option Nat} {x : Option (Fin n)} {w w₁ w' : World σ}

theorem Spares.trans (h : Z.Spares alarm x w w₁) (h' : Z.Spares alarm x w₁ w') : Z.Spares alarm x w w' :=
  ⟨fun y hy => (h.others y hy).trans (h'.others y hy), h'.home.trans h.home, h'.refs.trans h.refs⟩

theorem spares_private (hZ : Z.Sound) (h : (Z.party x).Private w w') : Z.Spares alarm x w w' := by
  have htimers : w'.timers = w.timers := by rw [h.rest]
  have hrefs : w'.refs = w.refs := by rw [h.rest]
  refine ⟨fun y hy => ⟨h.fibers _ fun heq => hy (hZ.fibers y x heq), h.scopes _ fun heq => hy (hZ.scopes y x heq),
    fun t ht _ => htimers ▸ ht, congrArg Timers.now htimers⟩, h.scopes _ (hZ.outside x).symm, hrefs⟩

/-- The scope that the arena is in stays open. -/
theorem Spares.home_open (h : Z.Spares alarm x w w') (hopen : (w.scope Z.host.birth.scope).isOpen = true) :
    (w'.scope Z.host.birth.scope).isOpen = true := by
  rw [World.scope, h.home]
  exact hopen

/-- A change of what is shared. -/
theorem spares_shared (Z : Zip σ n) (alarm : Option (Fin n) → Option Nat) (x : Option (Fin n))
    (hfibers : w'.fibers = w.fibers) (hscopes : w'.scopes = w.scopes)
    (htasks : ∀ t ∈ w.timers.live, t ∈ w'.timers.live) (hnow : w'.now = w.now) (hrefs : w'.refs = w.refs) :
    Z.Spares alarm x w w' :=
  ⟨fun y _ => ⟨by rw [hfibers], by rw [hscopes], fun t ht _ => htasks t ht, hnow⟩, by rw [hscopes], hrefs⟩

end Zip

/-! ## All parties -/

/-- What the parties are like, and the tally of those that are left. -/
structure Cast (Z : Zip σ n) (seat : Seat) (stance : Fin n → Stance) (w : World σ) : Prop where
  host : ∃ fs, Z.host.In fs w seat ∧ ∀ x ∈ fs, ∃ i : Fin n, x.1 = i.val ∧ (stance i).isWithin = true
  member : ∀ i, (Z.member i).In w (stance i)
  apart : ∀ i j g, (stance i).future? = some g → (stance j).future? = some g → i = j
  tally : w.tallies.get? Z.host.tally =
    some { decided := seat.ballot Z.host.fiber (left stance), remaining := left stance }
  fits : seat.Fits (left stance)
  home : (w.scope Z.host.birth.scope).isOpen = true
  refs : w.refs = Z.refs

namespace Cast

variable {Z : Zip σ n} {seat seat' : Seat} {stance : Fin n → Stance} {w w' : World σ} {i : Fin n} {s : Stance}

/-- A step that leaves the futures of the others alone. -/
def Apart (stance : Fin n → Stance) (i : Fin n) (w w' : World σ) : Prop :=
  ∀ j, j ≠ i → ∀ g, (stance j).future? = some g → w'.futures.get? g = w.futures.get? g

theorem apart_of_eq (h : w'.futures = w.futures) : Apart stance i w w' := fun _ _ _ _ => by rw [h]

/-- Setting the future of a member. -/
theorem apart_set (h : Cast Z seat stance w) {g : Key .future} (hg : (stance i).future? = some g)
    {c : Cell (Program σ) (FutureWatcher σ)} (hfutures : w'.futures = w.futures.set g c) : Apart stance i w w' := by
  intro j hj l hl
  rw [hfutures, Store.get?_set, if_neg]
  rintro rfl
  exact hj (h.apart j i g hl hg)

/-- Making a future. -/
theorem apart_add (h : Cast Z seat stance w) {c : Cell (Program σ) (FutureWatcher σ)}
    (hfutures : w'.futures = (w.futures.add c).1) : Apart stance i w w' := by
  intro j _ g hg
  obtain ⟨c', hc'⟩ := (h.member j).future hg
  rw [hfutures, Store.get?_add_of_some c hc', hc']

/-- A member goes elsewhere, and nothing happens to the others. -/
theorem put (h : Cast Z seat stance w) (hspares : Z.Spares (alarm seat stance) (some i) w w')
    (hin : (Z.member i).In w' s) (hapart : Apart stance i w w')
    (hnew : ∀ g, s.future? = some g → (stance i).future? = some g ∨ w.futures.get? g = none)
    (hwithin : s.isWithin = (stance i).isWithin) (hgone : s.stage = .gone ↔ (stance i).stage = .gone)
    (htallies : w'.tallies = w.tallies) : Cast Z seat (Function.update stance i s) w' := by
  have hleft : left (Function.update stance i s) = left stance := by
    refine left_congr fun j => ?_
    rw [Function.update_apply]
    split
    · rename_i hji
      rw [hji]
      exact hgone
    · rfl
  have hfuture : ∀ j g, j ≠ i → s.future? = some g → (stance j).future? = some g → False := by
    intro j g hj hs hj'
    rcases hnew g hs with hold | hnone
    · exact hj (h.apart j i g hj' hold)
    · obtain ⟨c, hc⟩ := (h.member j).future hj'
      rw [hnone] at hc
      cases hc
  refine ⟨?_, fun j => ?_, fun j l g hj hl => ?_, ?_, ?_, ?_, hspares.refs.trans h.refs⟩
  · obtain ⟨fs, hhost, hfs⟩ := h.host
    refine ⟨fs, hhost.spared (hspares.others none (by simp)), fun x hx => ?_⟩
    obtain ⟨j, hxj, hj⟩ := hfs x hx
    refine ⟨j, hxj, ?_⟩
    rw [Function.update_apply]
    split
    · rename_i hji
      rw [hwithin, ← hji]
      exact hj
    · exact hj
  · rw [Function.update_apply]
    split
    · rename_i hji
      rw [hji]
      exact hin
    · rename_i hji
      exact (h.member j).spared (hspares.others (some j) fun heq => hji (Option.some.inj heq)) (hapart j hji)
  · rw [Function.update_apply] at hj hl
    split at hj
    · rename_i hji
      split at hl
      · rename_i hli
        rw [hji, hli]
      · rename_i hli
        exact absurd hl (hfuture l g hli hj)
    · rename_i hji
      split at hl
      · exact absurd hj (hfuture j g hji hl)
      · exact h.apart j l g hj hl
  · rw [htallies, hleft]
    exact h.tally
  · rw [hleft]
    exact h.fits
  · exact hspares.home_open h.home

/-- A member that has to do with no future any more goes elsewhere, whatever becomes of the fiber that zips. -/
theorem depart (h : Cast Z seat stance w) (hs : s.future? = none) (hin : (Z.member i).In w' s)
    (hmembers : ∀ j, j ≠ i → (Z.walker j).Spared (stance j).alarm? w w') (hfutures : w'.futures = w.futures)
    {fs : List (Nat × Finalizer σ)} (hhost : Z.host.In fs w' seat')
    (hfs : ∀ x ∈ fs, ∃ j : Fin n, j ≠ i ∧ x.1 = j.val ∧ (stance j).isWithin = true)
    (htally : w'.tallies.get? Z.host.tally = some
      { decided := seat'.ballot Z.host.fiber (left (Function.update stance i s))
        remaining := left (Function.update stance i s) })
    (hfits : seat'.Fits (left (Function.update stance i s))) (hhome : (w'.scope Z.host.birth.scope).isOpen = true)
    (hrefs : w'.refs = w.refs) : Cast Z seat' (Function.update stance i s) w' := by
  have hold : ∀ j g, (Function.update stance i s j).future? = some g → (stance j).future? = some g := by
    intro j g hj
    rw [Function.update_apply] at hj
    split at hj
    · rw [hs] at hj
      cases hj
    · exact hj
  refine ⟨⟨fs, hhost, fun x hx => ?_⟩, fun j => ?_, fun j l g hj hl => h.apart j l g (hold j g hj) (hold l g hl),
    htally, hfits, hhome, hrefs.trans h.refs⟩
  · obtain ⟨j, hji, hxj, hj⟩ := hfs x hx
    exact ⟨j, hxj, by rw [Function.update_of_ne hji, hj]⟩
  · rw [Function.update_apply]
    split
    · rename_i hji
      rw [hji]
      exact hin
    · rename_i hji
      exact (h.member j).spared (hmembers j hji) fun g _ => by rw [hfutures]

/-- The fiber that zips goes elsewhere, and nothing happens to the members. -/
theorem sit (h : Cast Z seat stance w) {fs : List (Nat × Finalizer σ)} (hin : Z.host.In fs w' seat')
    (hfs : ∀ x ∈ fs, ∃ i : Fin n, x.1 = i.val ∧ (stance i).isWithin = true)
    (hmembers : ∀ j, (Z.walker j).Spared (stance j).alarm? w w') (hfutures : w'.futures = w.futures)
    (htally : w'.tallies.get? Z.host.tally =
      some { decided := seat'.ballot Z.host.fiber (left stance), remaining := left stance })
    (hfits : seat'.Fits (left stance)) (hhome : (w'.scope Z.host.birth.scope).isOpen = true)
    (hrefs : w'.refs = w.refs) : Cast Z seat' stance w' :=
  ⟨⟨fs, hin, hfs⟩, fun j => (h.member j).spared (hmembers j) fun g _ => by rw [hfutures], h.apart, htally, hfits, hhome,
    hrefs.trans h.refs⟩

end Cast

end Fibers.Rounds
