import Fibers.Proofs.Cells.Serving

set_option autoImplicit false

/-! # Every observer is told once

Whoever makes the calls, a cell settles with what the first of them asks for; each observer is invoked once
after that, unless it was removed before, and in the order of registration; and one that is added later is
invoked within the call that adds it. All of this is said of the history. It holds because at every moment the
observers that were kept and not removed are those that were invoked, followed by those that the cell still
has or that are being served.
-/

namespace Fibers

variable {σ α : Type}

/-! ## Histories -/

section Concat

variable (past : List (Mark α)) (e : Mark α)

@[simp] theorem firstOutcome_concat :
    firstOutcome (past ++ [e]) = (firstOutcome past).or e.settles? := by
  rw [firstOutcome, List.findSome?_append]
  cases h : e.settles? <;> simp [firstOutcome, h]

@[simp] theorem registered_concat : registered (past ++ [e]) = registered past ++ e.registers?.toList := by
  cases h : e.registers? <;> simp [registered, h]

@[simp] theorem removed_concat : removed (past ++ [e]) = removed past ++ e.removes?.toList := by
  cases h : e.removes? <;> simp [removed, h]

@[simp] theorem invoked_concat : invoked (past ++ [e]) = invoked past ++ e.invokes?.toList := by
  cases h : e.invokes? <;> simp [invoked, h]

end Concat

attribute [simp] Mark.settles? Mark.registers? Mark.removes? Mark.invokes?

theorem mem_invoked {history : List (Mark α)} {n : Nat} :
    n ∈ invoked history ↔ ∃ s, .invoke n s ∈ history := by
  simp only [invoked, List.mem_filterMap]
  constructor
  · rintro ⟨e, he, hn⟩
    cases e <;> simp only [Mark.invokes?, Option.some.injEq, reduceCtorEq] at hn
    subst hn
    exact ⟨_, he⟩
  · rintro ⟨s, hs⟩
    exact ⟨_, hs, rfl⟩

theorem mem_removed {history : List (Mark α)} {key : Nat} :
    key ∈ removed history ↔ .remove key true ∈ history := by
  simp only [removed, List.mem_filterMap]
  constructor
  · rintro ⟨e, he, hn⟩
    cases e with
    | remove key answer =>
        cases answer <;> simp only [Mark.removes?, Option.some.injEq, reduceCtorEq] at hn
        subst hn
        exact he
    | _ => cases hn
  · intro h
    exact ⟨_, h, rfl⟩

theorem mem_registered {history : List (Mark α)} {n : Nat} :
    n ∈ registered history ↔ ∃ key, .add n (some key) ∈ history := by
  simp only [registered, List.mem_filterMap]
  constructor
  · rintro ⟨e, he, hn⟩
    cases e with
    | add n key =>
        cases key <;> simp only [Mark.registers?, Option.some.injEq, reduceCtorEq] at hn
        subst hn
        exact ⟨_, he⟩
    | _ => cases hn
  · rintro ⟨key, h⟩
    exact ⟨_, h, rfl⟩

/-- How an entry follows those before it. The first of the calls to settle is answered with yes, and no other;
the cell shows what that call asked for. An observer is kept, under its number as a key, if the cell has not
settled, and otherwise it has been served when the call returns. What is removed was kept, was not removed
before, and was not served. Who is invoked is told what the cell settled with, was not invoked before, and was
not removed. -/
def Mark.Follows (past : List (Mark α)) : Mark α → Prop
  | .settle _ answer => answer = true ↔ firstOutcome past = none
  | .poll seen => seen = firstOutcome past
  | .add n (some key) => key = n ∧ firstOutcome past = none
  | .add n none => n ∈ invoked past ∧ .finish n ∈ past ∧ n ∉ registered past
  | .remove key answer =>
      answer = true ↔ firstOutcome past = none ∧ key ∈ registered past ∧ key ∉ removed past
  | .invoke n s => firstOutcome past = some s ∧ n ∉ invoked past ∧ n ∉ removed past
  | .finish _ => True

/-- Each entry of a history follows those before it. -/
def Truthful (history : List (Mark α)) : Prop :=
  ∀ past e rest, history = past ++ e :: rest → e.Follows past

theorem Truthful.concat {history : List (Mark α)} {e : Mark α} (h : Truthful history)
    (he : e.Follows history) : Truthful (history ++ [e]) := by
  intro past e' rest heq
  cases rest using List.reverseRecOn with
  | nil =>
      obtain ⟨rfl, hlast⟩ := List.append_inj' heq rfl
      cases hlast
      exact he
  | append_singleton rest last =>
      refine h past e' rest ?_
      rw [← List.cons_append, ← List.append_assoc] at heq
      exact List.append_inj_left' heq rfl

/-- While nobody has asked the cell to settle, nobody has been invoked. -/
theorem Truthful.invoked_eq_nil {history : List (Mark α)} (h : Truthful history)
    (hnone : firstOutcome history = none) : invoked history = [] := by
  refine List.eq_nil_iff_forall_not_mem.mpr fun n hn => ?_
  obtain ⟨s, hs⟩ := mem_invoked.mp hn
  obtain ⟨past, rest, heq⟩ := List.append_of_mem hs
  have hpast := (h past _ rest heq).1
  rw [heq, firstOutcome, List.findSome?_append, ← firstOutcome, hpast] at hnone
  cases hnone

/-- What was removed had been kept. -/
theorem Truthful.removed_subset {history : List (Mark α)} (h : Truthful history) :
    removed history ⊆ registered history := by
  intro key hkey
  obtain ⟨past, rest, heq⟩ := List.append_of_mem (mem_removed.mp hkey)
  have hpast := ((h past _ rest heq).mp rfl).2.1
  rw [heq, registered, List.filterMap_append]
  exact List.mem_append_left _ hpast

/-- What is known of somebody who deals with a cell that has settled: an observer was invoked, and one that
came late was never kept. -/
def Role.Known (history : List (Mark α)) : Role → Prop
  | .host => True
  | .due n => n ∈ invoked history
  | .late n => n ∈ invoked history ∧ n ∉ registered history

theorem Role.Known.concat {role : Role} {history : List (Mark α)} {e : Mark α} (h : Role.Known history role)
    (he : e.registers? = none) : Role.Known (history ++ [e]) role := by
  cases role with
  | host => trivial
  | due n =>
      rw [Role.Known, invoked_concat]
      exact List.mem_append_left _ h
  | late n =>
      rw [Role.Known, invoked_concat, registered_concat, he, Option.toList_none, List.append_nil]
      exact ⟨List.mem_append_left _ h.1, h.2⟩

/-! ## Before the cell settles -/

namespace Scene

variable {c c' : Scene σ α} {m : Nat} {s : Settled α} {role : Role} {rest : List (Todo σ α)}

/-- What holds of a scene while nobody has asked the cell to settle: the cell has the observers that were kept
and not removed, in order, and nobody deals with it but the one who made the calls to begin with. -/
structure Open (c : Scene σ α) : Prop where
  truthful : Truthful c.history
  unsettled : firstOutcome c.history = none
  registered : registered c.history = List.range c.added
  cell : ∃ os, c.cell = .pending os c.added ∧ (∀ o ∈ os, o.2.number = o.1) ∧
    os.map (·.1) = (List.range c.added).filter (fun n => n ∉ removed c.history)
  host : ∀ t ∈ c.todo, ∃ d, t = .act .host d

theorem open_start (d : Dealing σ α) (board : σ) : (start d board).Open where
  truthful past e rest h := by cases past <;> cases h
  unsettled := rfl
  registered := rfl
  cell := ⟨[], rfl, nofun, rfl⟩
  host t ht := ⟨d, List.mem_singleton.mp ht⟩

namespace Open

/-- The one who deals with the cell goes on. -/
theorem go (h : c.Open) {d : Dealing σ α} (htodo : c.todo = .act role d :: rest) (board : σ)
    (d' : Dealing σ α) : ({ c with board, todo := .act role d' :: rest } : Scene σ α).Open where
  truthful := h.truthful
  unsettled := h.unsettled
  registered := h.registered
  cell := h.cell
  host t ht := by
    obtain ⟨d₀, heq⟩ := h.host _ (htodo ▸ List.mem_cons_self)
    cases heq
    rcases List.mem_cons.mp ht with rfl | ht
    · exact ⟨d', rfl⟩
    · exact h.host t (htodo ▸ List.mem_cons_of_mem _ ht)

theorem leave (h : c.Open) {d : Dealing σ α} (htodo : c.todo = .act role d :: rest) :
    (({ c with todo := rest } : Scene σ α).note role.farewell).Open := by
  obtain ⟨d₀, heq⟩ := h.host _ (htodo ▸ List.mem_cons_self)
  cases heq
  rw [Role.farewell, note, List.append_nil]
  exact ⟨h.truthful, h.unsettled, h.registered, h.cell,
    fun t ht => h.host t (htodo ▸ List.mem_cons_of_mem _ ht)⟩

theorem poll (h : c.Open) {k : Option (Settled α) → Nat → Dealing σ α}
    (htodo : c.todo = .act role (.poll k) :: rest) : (c.deal role rest (.poll k)).Open := by
  obtain ⟨os, hcell, hnumbered, hkeys⟩ := h.cell
  have hgo := h.go htodo c.board (k c.cell.outcome? c.cell.observers.length)
  have hseen : c.cell.outcome? = firstOutcome c.history := by rw [hcell, h.unsettled]; rfl
  exact ⟨h.truthful.concat hseen, by simp [deal, h.unsettled], by simp [deal, h.registered],
    ⟨os, hcell, hnumbered, by simp [deal, hkeys]⟩, hgo.host⟩

/-- An observer is kept under the next key. -/
theorem add (h : c.Open) {hear : Settled α → Dealing σ α} {k : Option Nat → Dealing σ α}
    (htodo : c.todo = .act role (.add hear k) :: rest) : (c.deal role rest (.add hear k)).Open := by
  obtain ⟨os, hcell, hnumbered, hkeys⟩ := h.cell
  have hgo := h.go htodo c.board (k (some c.added))
  have hnew : c.added ∉ removed c.history := by
    intro hmem
    have hrange := h.registered ▸ h.truthful.removed_subset hmem
    exact Nat.lt_irrefl _ (List.mem_range.mp hrange)
  simp only [deal, hcell, Cell.attach?]
  refine ⟨h.truthful.concat ⟨rfl, h.unsettled⟩, by simp [h.unsettled], ?_, ?_, hgo.host⟩
  · simp [h.registered, List.range_succ]
  · refine ⟨_, rfl, fun o ho => ?_, ?_⟩
    · rcases List.mem_append.mp ho with ho | ho
      · exact hnumbered o ho
      · obtain rfl := List.mem_singleton.mp ho
        rfl
    · simp [hkeys, List.range_succ, List.filter_append, hnew]

/-- An observer that the cell has is dropped. -/
theorem remove (h : c.Open) {key : Nat} {k : Bool → Dealing σ α}
    (htodo : c.todo = .act role (.remove key k) :: rest) : (c.deal role rest (.remove key k)).Open := by
  obtain ⟨os, hcell, hnumbered, hkeys⟩ := h.cell
  have hkeeps : (∃ o ∈ os, o.1 = key) ↔
      key ∈ Fibers.registered c.history ∧ key ∉ removed c.history := by
    rw [← List.mem_map, hkeys, h.registered, List.mem_filter, decide_eq_true_eq]
  by_cases hany : os.any (·.1 == key) = true
  · have hgo := h.go htodo c.board (k true)
    have hkept : (os.filter fun o => o.1 != key).map (·.1) = (os.map (·.1)).filter (· != key) := by
      rw [List.filter_map]
      rfl
    simp only [deal, hcell, Cell.forget?, if_pos hany]
    refine ⟨h.truthful.concat (iff_of_true rfl ⟨h.unsettled, hkeeps.mp ?_⟩),
      by simp [h.unsettled], by simp [h.registered],
      ⟨_, rfl, fun o ho => hnumbered o (List.mem_of_mem_filter ho), ?_⟩, hgo.host⟩
    · simpa using hany
    · rw [hkept, hkeys, List.filter_filter]
      refine List.filter_congr fun n _ => Bool.eq_iff_iff.mpr ?_
      simp [and_comm]
  · have hgo := h.go htodo c.board (k false)
    simp only [deal, hcell, Cell.forget?, if_neg hany]
    refine ⟨h.truthful.concat (iff_of_false Bool.false_ne_true fun hkept => hany ?_),
      by simp [h.unsettled], by simp [h.registered], ⟨os, rfl, hnumbered, by simp [hkeys]⟩, hgo.host⟩
    obtain ⟨o, ho, hkey⟩ := hkeeps.mpr hkept.2
    exact List.any_eq_true.mpr ⟨o, ho, beq_iff_eq.mpr hkey⟩

end Open

/-! ## After the cell has settled -/

/-- The observers that are being served and still to be invoked. -/
def dueIn : Todo σ α → List Nat
  | .act _ _ => []
  | .serve due _ => due.map (·.number)

/-- What holds of a scene whose cell has settled, when `m` observers had been kept: of those that were not
removed, the ones that were invoked come first, and the others are due. -/
structure Shut (m : Nat) (s : Settled α) (c : Scene σ α) : Prop where
  truthful : Truthful c.history
  cell : c.cell = .settled s
  outcome : firstOutcome c.history = some s
  registered : registered c.history = List.range m
  early : m ≤ c.added
  serving : ∀ due s', .serve due s' ∈ c.todo → s' = s
  acting : ∀ role d, .act role d ∈ c.todo → Role.Known c.history role
  told : (invoked c.history).filter (· < m) ++ c.todo.flatMap dueIn =
    (List.range m).filter (fun n => n ∉ removed c.history)
  added : ∀ n ∈ invoked c.history, n < c.added
  newcomers : ∀ n, m ≤ n → n < c.added → n ∈ invoked c.history

/-- The first call to settle makes those due that the cell has. -/
theorem Open.settle (h : c.Open) {k : Bool → Dealing σ α}
    (htodo : c.todo = .act role (.settle s k) :: rest) :
    (c.deal role rest (.settle s k)).Shut c.added s := by
  obtain ⟨os, hcell, hnumbered, hkeys⟩ := h.cell
  have hgo := h.go htodo c.board (k true)
  have hinvoked := h.truthful.invoked_eq_nil h.unsettled
  have hnumbers : (os.map (·.2)).map (·.number) = os.map (·.1) := by
    rw [List.map_map]
    exact List.map_congr_left hnumbered
  have hdue : (Todo.act role (k true) :: rest).flatMap dueIn = [] := by
    refine List.flatMap_eq_nil_iff.mpr fun t ht => ?_
    obtain ⟨d, rfl⟩ := hgo.host t ht
    rfl
  simp only [deal, hcell, Cell.settle?]
  constructor
  case truthful => exact h.truthful.concat (iff_of_true rfl h.unsettled)
  case cell => rfl
  case outcome => simp [h.unsettled]
  case registered => simp [h.registered]
  case early => exact Nat.le_refl _
  case serving =>
    intro due s' hs
    rcases List.mem_cons.mp hs with heq | hs
    · cases heq
      rfl
    · obtain ⟨d, heq⟩ := hgo.host _ hs
      cases heq
  case acting =>
    intro role' d hd
    rcases List.mem_cons.mp hd with heq | hd
    · cases heq
    · obtain ⟨d', heq⟩ := hgo.host _ hd
      cases heq
      trivial
  case told =>
    rw [note_todo, List.flatMap_cons, hdue, List.append_nil, dueIn, hnumbers]
    simp [hinvoked, hkeys]
  case added => simp [hinvoked]
  case newcomers => exact fun n hn hlt => absurd hlt (Nat.not_lt.mpr hn)

namespace Shut

/-- What nothing is noted of, and by which nothing was still to be invoked. -/
theorem todo (h : c.Shut m s) (board : σ) {ts : List (Todo σ α)}
    (hserving : ∀ due s', .serve due s' ∈ ts → s' = s)
    (hacting : ∀ role d, .act role d ∈ ts → Role.Known c.history role)
    (hdue : ts.flatMap dueIn = c.todo.flatMap dueIn) :
    ({ c with board, todo := ts } : Scene σ α).Shut m s :=
  ⟨h.truthful, h.cell, h.outcome, h.registered, h.early, hserving, hacting, hdue ▸ h.told, h.added,
    h.newcomers⟩

/-- Somebody goes on with other dealings. -/
theorem go (h : c.Shut m s) {d : Dealing σ α} (htodo : c.todo = .act role d :: rest) (board : σ)
    (d' : Dealing σ α) : ({ c with board, todo := .act role d' :: rest } : Scene σ α).Shut m s := by
  refine h.todo board (fun due s' hs => ?_) (fun role' d₁ hd => ?_) (by rw [htodo]; rfl)
  · rcases List.mem_cons.mp hs with heq | hs
    · cases heq
    · exact h.serving due s' (htodo ▸ List.mem_cons_of_mem _ hs)
  · rcases List.mem_cons.mp hd with heq | hd
    · cases heq
      exact h.acting role d (htodo ▸ List.mem_cons_self)
    · exact h.acting role' d₁ (htodo ▸ List.mem_cons_of_mem _ hd)

/-- What was to be done first is done, and nobody was still to be invoked by it. -/
theorem pop (h : c.Shut m s) {t : Todo σ α} (htodo : c.todo = t :: rest) (hdue : dueIn t = []) :
    ({ c with todo := rest } : Scene σ α).Shut m s := by
  refine h.todo c.board (fun due s' hs => ?_) (fun role' d hd => ?_) ?_
  · exact h.serving due s' (htodo ▸ List.mem_cons_of_mem _ hs)
  · exact h.acting role' d (htodo ▸ List.mem_cons_of_mem _ hd)
  · rw [htodo, List.flatMap_cons, hdue]
    rfl

/-- A note of what keeps, removes and invokes nobody. -/
theorem note (h : c.Shut m s) {e : Mark α} (he : e.Follows c.history) (hregisters : e.registers? = none)
    (hremoves : e.removes? = none) (hinvokes : e.invokes? = none) : (c.note [e]).Shut m s where
  truthful := h.truthful.concat he
  cell := h.cell
  outcome := by rw [note_history, firstOutcome_concat, h.outcome, Option.some_or]
  registered := by
    rw [note_history, registered_concat, hregisters, Option.toList_none, List.append_nil, h.registered]
  early := h.early
  serving := h.serving
  acting role d hd := (h.acting role d hd).concat hregisters
  told := by
    rw [note_history, invoked_concat, removed_concat, hremoves, hinvokes, Option.toList_none, List.append_nil,
      List.append_nil]
    exact h.told
  added := by
    rw [note_history, invoked_concat, hinvokes, Option.toList_none, List.append_nil]
    exact h.added
  newcomers := by
    rw [note_history, invoked_concat, hinvokes, Option.toList_none, List.append_nil]
    exact h.newcomers

theorem settle (h : c.Shut m s) {s' : Settled α} {k : Bool → Dealing σ α}
    (htodo : c.todo = .act role (.settle s' k) :: rest) : (c.deal role rest (.settle s' k)).Shut m s := by
  have hgo := h.go htodo c.board (k false)
  simp only [deal, h.cell, Cell.settle?]
  rw [h.cell] at hgo
  exact hgo.note (by simp [Mark.Follows, h.outcome]) rfl rfl rfl

theorem remove (h : c.Shut m s) {key : Nat} {k : Bool → Dealing σ α}
    (htodo : c.todo = .act role (.remove key k) :: rest) : (c.deal role rest (.remove key k)).Shut m s := by
  have hgo := h.go htodo c.board (k false)
  simp only [deal, h.cell, Cell.forget?]
  rw [h.cell] at hgo
  exact hgo.note (by simp [Mark.Follows, h.outcome]) rfl rfl rfl

theorem poll (h : c.Shut m s) {k : Option (Settled α) → Nat → Dealing σ α}
    (htodo : c.todo = .act role (.poll k) :: rest) : (c.deal role rest (.poll k)).Shut m s := by
  have hseen : c.cell.outcome? = firstOutcome c.history := by rw [h.cell, h.outcome]; rfl
  exact (h.go htodo c.board _).note hseen rfl rfl rfl

/-- When somebody's dealings end, an observer that came late has been served. -/
theorem leave (h : c.Shut m s) {d : Dealing σ α} (htodo : c.todo = .act role d :: rest) :
    (({ c with todo := rest } : Scene σ α).note role.farewell).Shut m s := by
  have hpop := h.pop htodo rfl
  have hknown := h.acting role d (htodo ▸ List.mem_cons_self)
  cases role with
  | host =>
      rw [Role.farewell, Scene.note, List.append_nil]
      exact hpop
  | due n => exact hpop.note trivial rfl rfl rfl
  | late n =>
      have hfinish := hpop.note (e := .finish n) trivial rfl rfl rfl
      have hlate := hknown.concat (e := .finish n) rfl
      have hlast := hfinish.note (e := .add n none)
        ⟨hlate.1, List.mem_append_right _ List.mem_cons_self, hlate.2⟩ rfl rfl rfl
      simpa only [Role.farewell, Scene.note, List.append_assoc, List.singleton_append] using hlast

/-- An observer that comes late is invoked at once. -/
theorem add (h : c.Shut m s) {hear : Settled α → Dealing σ α} {k : Option Nat → Dealing σ α}
    (htodo : c.todo = .act role (.add hear k) :: rest) : (c.deal role rest (.add hear k)).Shut m s := by
  have hgo := h.go htodo c.board (k none)
  have hnew : c.added ∉ invoked c.history := fun hmem => Nat.lt_irrefl _ (h.added _ hmem)
  have hnever : c.added ∉ Fibers.registered c.history := by
    rw [h.registered, List.mem_range]
    exact Nat.not_lt.mpr h.early
  simp only [deal, h.cell, Cell.attach?, Cell.outcome?]
  constructor
  case truthful =>
    exact h.truthful.concat ⟨h.outcome, hnew, fun hmem => hnever (h.truthful.removed_subset hmem)⟩
  case cell => rfl
  case outcome => simp [h.outcome]
  case registered => simp [h.registered]
  case early => exact Nat.le_succ_of_le h.early
  case serving =>
    intro due s' hs
    rcases List.mem_cons.mp hs with heq | hs
    · cases heq
    · exact hgo.serving due s' hs
  case acting =>
    intro role' d hd
    rcases List.mem_cons.mp hd with heq | hd
    · cases heq
      simpa [Role.Known] using hnever
    · exact (hgo.acting role' d hd).concat rfl
  case told =>
    have hlate : ¬ c.added < m := Nat.not_lt.mpr h.early
    have htold := hgo.told
    simpa [List.filter_append, hlate, dueIn] using htold
  case added =>
    intro n hn
    rcases List.mem_append.mp (invoked_concat c.history _ ▸ hn) with hn | hn
    · exact Nat.lt_succ_of_lt (h.added n hn)
    · obtain rfl := List.mem_singleton.mp hn
      exact Nat.lt_succ_self _
  case newcomers =>
    intro n hn hlt
    rw [note_history, invoked_concat]
    rcases Nat.lt_succ_iff_lt_or_eq.mp hlt with hlt | rfl
    · exact List.mem_append_left _ (h.newcomers n hn hlt)
    · exact List.mem_append_right _ List.mem_cons_self

/-- The next of those that are due was kept, and it was not removed or invoked. -/
theorem next_due (h : c.Shut m s) {o : Listener σ α} {due : List (Listener σ α)} {s' : Settled α}
    (htodo : c.todo = .serve (o :: due) s' :: rest) :
    o.number < m ∧ o.number ∉ removed c.history ∧ o.number ∉ invoked c.history := by
  have htold := h.told
  rw [htodo, List.flatMap_cons, dueIn, List.map_cons, List.cons_append] at htold
  obtain ⟨hrange, hleft⟩ := List.mem_filter.mp (htold ▸ List.mem_append_right _ List.mem_cons_self)
  have hm : o.number < m := List.mem_range.mp hrange
  refine ⟨hm, of_decide_eq_true hleft, fun hinvoked => ?_⟩
  -- those that were kept and not removed are all different
  have hnodup := (List.nodup_range (n := m)).filter (fun n => decide (n ∉ removed c.history))
  rw [← htold] at hnodup
  have hfirst : o.number ∈ (invoked c.history).filter (· < m) :=
    List.mem_filter.mpr ⟨hinvoked, decide_eq_true hm⟩
  exact List.disjoint_of_nodup_append hnodup hfirst List.mem_cons_self

/-- The next of those that are due is invoked. -/
theorem serve (h : c.Shut m s) {o : Listener σ α} {due : List (Listener σ α)} {s' : Settled α}
    (htodo : c.todo = .serve (o :: due) s' :: rest) :
    (({ c with todo := .act (.due o.number) (o.hear s') :: .serve due s' :: rest } : Scene σ α).note
      [.invoke o.number s']).Shut m s := by
  obtain ⟨hm, hleft, hnew⟩ := h.next_due htodo
  obtain rfl := h.serving _ s' (htodo ▸ List.mem_cons_self)
  constructor
  case truthful => exact h.truthful.concat ⟨h.outcome, hnew, hleft⟩
  case cell => exact h.cell
  case outcome => simp [h.outcome]
  case registered => simp [h.registered]
  case early => exact h.early
  case serving =>
    intro due' s' hs
    rcases List.mem_cons.mp hs with heq | hs
    · cases heq
    · rcases List.mem_cons.mp hs with heq | hs
      · cases heq
        rfl
      · exact h.serving due' s' (htodo ▸ List.mem_cons_of_mem _ hs)
  case acting =>
    intro role' d hd
    rcases List.mem_cons.mp hd with heq | hd
    · cases heq
      simp [Role.Known]
    · rcases List.mem_cons.mp hd with heq | hd
      · cases heq
      · exact (h.acting role' d (htodo ▸ List.mem_cons_of_mem _ hd)).concat rfl
  case told =>
    have htold := h.told
    rw [htodo] at htold
    simpa [List.filter_append, hm, dueIn] using htold
  case added =>
    intro n hn
    rcases List.mem_append.mp (invoked_concat c.history _ ▸ hn) with hn | hn
    · exact h.added n hn
    · obtain rfl := List.mem_singleton.mp hn
      exact hm.trans_le h.early
  case newcomers =>
    intro n hn hlt
    rw [note_history, invoked_concat]
    exact List.mem_append_left _ (h.newcomers n hn hlt)

end Shut

/-! ## Every scene that is led to -/

/-- A scene and its history accord, before the cell settles and after. -/
def Kept (c : Scene σ α) : Prop := c.Open ∨ ∃ m s, c.Shut m s

theorem Open.next (h : c.Open) (hnext : c.next? = some c') : c'.Kept := by
  unfold next? at hnext
  split at hnext
  · cases hnext
  · rename_i role d rest htodo
    cases hnext
    cases d with
    | done => exact .inl (h.leave htodo)
    | panic => exact .inl (h.leave htodo)
    | look k => exact .inl (h.go htodo c.board (k c.board))
    | write board k => exact .inl (h.go htodo board k)
    | settle s k => exact .inr ⟨_, s, h.settle htodo⟩
    | add hear k => exact .inl (h.add htodo)
    | remove key k => exact .inl (h.remove htodo)
    | poll k => exact .inl (h.poll htodo)
  · rename_i s rest htodo
    obtain ⟨d, heq⟩ := h.host _ (htodo ▸ List.mem_cons_self)
    cases heq
  · rename_i o due s rest htodo
    obtain ⟨d, heq⟩ := h.host _ (htodo ▸ List.mem_cons_self)
    cases heq

theorem Shut.next (h : c.Shut m s) (hnext : c.next? = some c') : c'.Shut m s := by
  unfold next? at hnext
  split at hnext
  · cases hnext
  · rename_i role d rest htodo
    cases hnext
    cases d with
    | done => exact h.leave htodo
    | panic => exact h.leave htodo
    | look k => exact h.go htodo c.board (k c.board)
    | write board k => exact h.go htodo board k
    | settle s k => exact h.settle htodo
    | add hear k => exact h.add htodo
    | remove key k => exact h.remove htodo
    | poll k => exact h.poll htodo
  · rename_i s' rest htodo
    cases hnext
    exact h.pop htodo rfl
  · rename_i o due s' rest htodo
    cases hnext
    exact h.serve htodo

theorem Leads.kept {d : Dealing σ α} {board : σ} (h : (start d board).Leads c) : c.Kept := by
  induction h with
  | refl => exact .inl (open_start d board)
  | tail _ hnext ih =>
      rcases ih with hopen | ⟨m, s, hshut⟩
      · exact hopen.next hnext
      · exact .inr ⟨m, s, hshut.next hnext⟩

/-! ## What the history of a cell shows -/

theorem Kept.truthful (h : c.Kept) : Truthful c.history := by
  rcases h with hopen | ⟨m, s, hshut⟩
  · exact hopen.truthful
  · exact hshut.truthful

theorem Kept.outcome (h : c.Kept) : c.cell.outcome? = firstOutcome c.history := by
  rcases h with hopen | ⟨m, s, hshut⟩
  · obtain ⟨os, hcell, -⟩ := hopen.cell
    rw [hcell, hopen.unsettled]
    rfl
  · rw [hshut.cell, hshut.outcome]
    rfl

/-- Of those that were kept, the ones that were invoked come first among those that were not removed. -/
theorem Shut.told_registered (h : c.Shut m s) :
    (invoked c.history).filter (· ∈ Fibers.registered c.history) ++ c.todo.flatMap dueIn =
      (Fibers.registered c.history).filter (· ∉ removed c.history) := by
  have htold := h.told
  simpa [h.registered] using htold

/-- How a cell notifies its observers, whoever makes the calls and wherever they are made from. -/
structure Notifies (c : Scene σ α) : Prop where
  /-- Of all calls to settle, the first is answered with yes, and no other. -/
  first : ∀ past s answer rest, c.history = past ++ .settle s answer :: rest →
    (answer = true ↔ ∀ e ∈ past, e.settles? = none)
  /-- What it asked for is what the cell has settled with. -/
  outcome : c.cell.outcome? = firstOutcome c.history
  /-- It is what the cell has shown ever since, and nothing before. -/
  polls : ∀ past seen rest, c.history = past ++ .poll seen :: rest → seen = firstOutcome past
  /-- It is never replaced. -/
  stays : ∀ c' s, c.Leads c' → c.cell.outcome? = some s → c'.cell.outcome? = some s
  /-- An observer is kept under its number as a key, before the cell settles, -/
  kept : ∀ past n key rest, c.history = past ++ .add n (some key) :: rest →
    key = n ∧ firstOutcome past = none
  /-- and each has a number of its own. -/
  keys : (registered c.history).Pairwise (· < ·)
  /-- A removal is answered with yes if and only if the observer is kept, was not removed before, and the cell
  has not settled. -/
  removes : ∀ past key answer rest, c.history = past ++ .remove key answer :: rest →
    (answer = true ↔ firstOutcome past = none ∧ key ∈ registered past ∧ key ∉ removed past)
  /-- No observer is invoked twice. -/
  once : (invoked c.history).Nodup
  /-- An observer is invoked with what the cell has settled with, and only then. -/
  given : ∀ past n s rest, c.history = past ++ .invoke n s :: rest → firstOutcome past = some s
  /-- An observer that was removed is not invoked, neither before nor after. -/
  spared : ∀ n, .remove n true ∈ c.history → n ∉ invoked c.history
  /-- Those that were kept are invoked in the order of their registration. -/
  order : ((invoked c.history).filter (· ∈ registered c.history)).Sublist (registered c.history)
  /-- An observer that comes too late to be kept was invoked and has ended when the call that adds it
  returns. -/
  late : ∀ past n rest, c.history = past ++ .add n none :: rest →
    (∃ s, .invoke n s ∈ past) ∧ .finish n ∈ past ∧ n ∉ registered past
  /-- When all calls have returned and the cell has settled, those were invoked that were kept and not
  removed, in that order, and those that came late. -/
  all : c.todo = [] → c.cell.isPending = false →
    (invoked c.history).filter (· ∈ registered c.history) =
      (registered c.history).filter (· ∉ removed c.history) ∧
    ∀ n key, .add n key ∈ c.history → .remove n true ∉ c.history → n ∈ invoked c.history

end Scene

/-- No observer is invoked twice. -/
theorem Truthful.once {history : List (Mark α)} (h : Truthful history) : (invoked history).Nodup := by
  induction history using List.reverseRecOn with
  | nil => exact List.nodup_nil
  | append_singleton history e ih =>
      have hbefore : Truthful history := fun past e' rest heq => h past e' (rest ++ [e]) (by simp [heq])
      rw [invoked_concat]
      cases e with
      | invoke n s =>
          have hnew := (h history _ [] rfl).2.1
          rw [Mark.invokes?, Option.toList_some, ← List.concat_eq_append]
          exact List.Nodup.concat hnew (ih hbefore)
      | _ => simpa using ih hbefore

/-- What was invoked was not removed. -/
theorem Truthful.spared {history : List (Mark α)} (h : Truthful history) {n : Nat}
    (hremoved : .remove n true ∈ history) : n ∉ invoked history := by
  intro hinvoked
  obtain ⟨s, hs⟩ := mem_invoked.mp hinvoked
  obtain ⟨past, rest, heq⟩ := List.append_of_mem hs
  have hpast := h past _ rest heq
  rw [heq] at hremoved
  rcases List.mem_append.mp hremoved with hbefore | hafter
  · exact hpast.2.2 (mem_removed.mpr hbefore)
  · -- the cell had settled when the observer was invoked, so nothing was removed from it afterwards
    rcases List.mem_cons.mp hafter with heq' | hafter
    · cases heq'
    · obtain ⟨between, after, rfl⟩ := List.append_of_mem hafter
      have hsplit : past ++ .invoke n s :: (between ++ .remove n true :: after) =
          (past ++ .invoke n s :: between) ++ .remove n true :: after := by simp
      have hnone := ((h _ _ after (heq.trans hsplit)).mp rfl).1
      rw [firstOutcome, List.findSome?_append, ← firstOutcome, hpast.1] at hnone
      cases hnone

namespace Scene

variable {c : Scene σ α}

theorem Kept.stays {c c' : Scene σ α} {s : Settled α} (h : c.Kept) (hleads : c.Leads c')
    (hsettled : c.cell.outcome? = some s) : c'.cell.outcome? = some s := by
  rcases h with hopen | ⟨m, s', hshut⟩
  · obtain ⟨os, hcell, -⟩ := hopen.cell
    rw [hcell] at hsettled
    cases hsettled
  · have hlater : c'.Shut m s' := by
      induction hleads with
      | refl => exact hshut
      | tail _ hnext ih => exact ih.next hnext
    rw [hshut.cell] at hsettled
    rw [hlater.cell]
    exact hsettled

theorem Kept.sorted (h : c.Kept) : (registered c.history).Pairwise (· < ·) := by
  rcases h with hopen | ⟨m, s, hshut⟩
  · rw [hopen.registered]
    exact List.pairwise_lt_range
  · rw [hshut.registered]
    exact List.pairwise_lt_range

theorem Kept.order (h : c.Kept) :
    ((invoked c.history).filter (· ∈ registered c.history)).Sublist (registered c.history) := by
  rcases h with hopen | ⟨m, s, hshut⟩
  · rw [hopen.truthful.invoked_eq_nil hopen.unsettled]
    exact List.nil_sublist _
  · exact (List.sublist_append_left _ _).trans (hshut.told_registered ▸ List.filter_sublist)

/-- When nothing is left to be done, nobody is due. -/
theorem Kept.all (h : c.Kept) (htodo : c.todo = []) (hsettled : c.cell.isPending = false) :
    (invoked c.history).filter (· ∈ registered c.history) =
      (registered c.history).filter (· ∉ removed c.history) ∧
    ∀ n key, .add n key ∈ c.history → .remove n true ∉ c.history → n ∈ invoked c.history := by
  rcases h with hopen | ⟨m, s, hshut⟩
  · obtain ⟨os, hcell, -⟩ := hopen.cell
    rw [hcell] at hsettled
    cases hsettled
  · have htold := hshut.told_registered
    rw [htodo, List.flatMap_nil, List.append_nil] at htold
    refine ⟨htold, fun n key hadd hleft => ?_⟩
    cases key with
    | some key =>
        have hkept : n ∈ (registered c.history).filter (· ∉ removed c.history) :=
          List.mem_filter.mpr ⟨mem_registered.mpr ⟨key, hadd⟩,
            decide_eq_true fun hremoved => hleft (mem_removed.mp hremoved)⟩
        rw [← htold] at hkept
        exact List.mem_of_mem_filter hkept
    | none =>
        obtain ⟨past, rest, heq⟩ := List.append_of_mem hadd
        obtain ⟨s', hs'⟩ := mem_invoked.mp (hshut.truthful past _ rest heq).1
        exact mem_invoked.mpr ⟨s', heq ▸ List.mem_append_left _ hs'⟩

/-- Whatever is done with a new cell, by the one who has it and by its observers while it is settling or later,
and whoever panics, the cell notifies its observers as it should, and all calls return. -/
theorem Leads.notifies {d : Dealing σ α} {board : σ} (h : (start d board).Leads c) :
    c.Notifies ∧ ∃ c', c.Leads c' ∧ c'.todo = [] := by
  have hkept := h.kept
  refine ⟨?_, c.rests⟩
  constructor
  case first =>
    intro past s answer rest heq
    have hfollows : answer = true ↔ firstOutcome past = none := hkept.truthful past _ rest heq
    rw [hfollows, firstOutcome, List.findSome?_eq_none_iff]
  case outcome => exact hkept.outcome
  case polls => exact fun past seen rest heq => hkept.truthful past _ rest heq
  case stays => exact fun c' s hleads hsettled => hkept.stays hleads hsettled
  case kept => exact fun past n key rest heq => hkept.truthful past _ rest heq
  case keys => exact hkept.sorted
  case removes => exact fun past key answer rest heq => hkept.truthful past _ rest heq
  case once => exact hkept.truthful.once
  case given => exact fun past n s rest heq => (hkept.truthful past _ rest heq).1
  case spared => exact fun n => hkept.truthful.spared
  case order => exact hkept.order
  case late =>
    intro past n rest heq
    obtain ⟨hinvoked, hfinish, hnever⟩ := hkept.truthful past _ rest heq
    exact ⟨mem_invoked.mp hinvoked, hfinish, hnever⟩
  case all => exact fun htodo hsettled => hkept.all htodo hsettled

/-- Three observers are added and the second is removed. The first settles the cell again, adds a further
observer that panics, removes the third, and panics. -/
def rehearsal : Dealing Unit Nat :=
  .add (fun _ => .settle (.resolved 2) fun _ => .add (fun _ => .panic) fun _ => .remove 2 fun _ => .panic)
    fun _ =>
  .add (fun _ => .done) fun _ =>
  .add (fun _ => .done) fun _ =>
  .remove 1 fun _ =>
  .settle (.resolved 1) fun _ => .settle (.resolved 3) fun _ => .done

/-- The first observer is invoked, the one that it adds, and the third. -/
theorem rehearsal_notifies :
    let c := (start rehearsal ()).after 20
    (start rehearsal ()).Leads c ∧ c.todo = [] ∧ invoked c.history = [0, 3, 2] ∧
      c.Notifies ∧ ∃ c', c.Leads c' ∧ c'.todo = [] := by
  intro c
  have hleads : (start rehearsal ()).Leads c := leads_after 20 _
  exact ⟨hleads, rfl, rfl, Leads.notifies hleads⟩

end Scene

end Fibers
