import Fibers.Proofs.Scopes.Discipline
import Fibers.Proofs.World.References

set_option autoImplicit false

/-! # Executing a part of a program

A fiber that works above some frames of its stack executes a part of its program: it comes to the part, and
it comes to an exit of the part when an exit comes down to the frames for the first time. In between it does
not leave its program. What a part does is what its subparts do, one after the other (`Run.Executes`), and
each kind of program has a lemma that says how. Meanwhile only acts, forks and joins touch the maps of
fiber references; a stretch of a run in which a fiber leaves the maps alone is silent (`Run.Silent`).
-/

namespace Fibers

variable {σ : Type} {r : Run σ} {g : Key .fiber} {T : List (Waiting σ)} {exiting : Bool}
variable {a b k n : Nat} {c : Control σ} {e : AnyExit}

/-! ## Silent moves -/

/-- From `a` to `b` the fiber `g` does not touch the maps of references. -/
def Run.Silent (r : Run σ) (g : Key .fiber) (a b : Nat) : Prop :=
  ∀ k m, a ≤ k → k < b → (r.moment k).active = some (g, m) →
    (r.moment (k + 1)).world.refs = (r.moment k).world.refs

namespace Run.Silent

theorem refl (a : Nat) : r.Silent g a a := fun _ _ hak hka => absurd hak (Nat.not_le.mpr hka)

theorem trans {b' : Nat} (h : r.Silent g a b) (h' : r.Silent g b b') : r.Silent g a b' := by
  intro k m hak hkb hactive
  by_cases hk : k < b
  · exact h k m hak hk hactive
  · exact h' k m (Nat.le_of_not_lt hk) hkb hactive

/-- One move of the fiber. -/
theorem of_turn {m : Machine σ} (hactive : (r.moment k).active = some (g, m))
    (h : (r.moment (k + 1)).world.refs = (r.moment k).world.refs) : r.Silent g k (k + 1) := by
  intro j _ hkj hjk _
  obtain rfl : j = k := by omega
  exact h

/-- One move of somebody else. -/
theorem of_aside (h : ∀ m, (r.moment k).active ≠ some (g, m)) : r.Silent g k (k + 1) := by
  intro j m hkj hjk hactive
  obtain rfl : j = k := by omega
  exact absurd hactive (h m)

/-- A move in which the fiber does not work. -/
theorem of_idle (h : ∀ y m, ¬ (r.moment k).Works g y m) : r.Silent g k (k + 1) := by
  by_cases haside : ∀ m, (r.moment k).active ≠ some (g, m)
  · exact of_aside haside
  · simp only [not_forall, not_not] at haside
    obtain ⟨m, hactive⟩ := haside
    refine of_turn hactive ?_
    obtain ⟨y, hy, -⟩ := r.turned k g m hactive
    have hidle : ¬ Moment.Works ⟨(r.moment k).world, some (g, m)⟩ g y m := fun hworks =>
      h y m ⟨hactive, hworks.fiber, hworks.free, hworks.budget, hworks.work⟩
    rw [Run.advance_of_turn hactive, World.advance, hy]
    dsimp only
    rw [World.refs_conclude]
    rcases World.step_idle hy hidle with ⟨x, -, hstep⟩ | ⟨p, hstep⟩ | hstep <;> rw [hstep] <;> rfl

end Run.Silent

/-! ## The next step -/

/-- A fiber that has a step to do and waits for nothing comes to do it, or to leave its program, unless it is
still about to. Until then it touches no map of references and keeps its masks. -/
theorem Run.comes_or_stays {m : Machine σ} {y : Fiber σ} (hm : (r.moment a).machine? g = some m)
    (hy : (r.moment a).world.fibers.get? g = some y)
    (hwork : (∃ p, m.control = .instruct p) ∨ ∃ x, m.control = .ofExit x)
    (hminds : m.control.Minds fun _ => False) (han : a ≤ n) :
    ∃ j y', a ≤ j ∧ j ≤ n ∧ r.Silent g a j ∧ y.Onward y' ∧ (m.stack ≠ [] → y'.masks = y.masks) ∧
      (j = n ∧ (r.moment n).machine? g = some m ∨
        j < n ∧ ((r.moment j).Works g y' m ∨ (r.moment j).Leaves g y' m)) := by
  induction hn : n - a generalizing a y with
  | zero =>
      obtain rfl : a = n := by omega
      exact ⟨a, y, Nat.le_refl a, Nat.le_refl a, .refl a, .refl y, fun _ => rfl, Or.inl ⟨rfl, hm⟩⟩
  | succ d ih =>
      by_cases hgoes : (r.moment a).Works g y m ∨ (r.moment a).Leaves g y m
      · exact ⟨a, y, Nat.le_refl a, han, .refl a, .refl y, fun _ => rfl, Or.inr ⟨by omega, hgoes⟩⟩
      obtain ⟨hworks, hleaves⟩ := not_or.mp hgoes
      have hidle : ∀ z m', ¬ (r.moment a).Works g z m' := by
        intro z m' hz
        obtain rfl := Option.some.inj (hm.symm.trans (Moment.machine?_of_active hz.turn))
        obtain rfl := Option.some.inj (hy.symm.trans hz.fiber)
        exact hworks hz
      have hstays : (r.moment (a + 1)).machine? g = some m := by
        rcases Run.works_or_stays hm hwork hminds with ⟨z, hz⟩ | hstays | ⟨z, hz⟩
        · exact absurd hz (hidle z m)
        · exact hstays
        · obtain rfl := Option.some.inj (hy.symm.trans hz.2.1)
          exact absurd hz hleaves
      obtain ⟨y₁, hy₁, honward⟩ := r.onward (Nat.le_succ a) hy
      have hmasks : m.stack ≠ [] → y₁.masks = y.masks := by
        intro hstack
        obtain ⟨y₂, hy₂, -, ⟨hmasks, -⟩ | ⟨hz, -⟩⟩ := (r.move a).rests (r.lawful a) hy hm hstack hworks
        · obtain rfl := Option.some.inj (hy₁.symm.trans hy₂)
          exact hmasks
        · exact absurd hz hleaves
      obtain ⟨j, y', haj, hjn, hsilent, honward', hmasks', hj⟩ := ih hstays hy₁ (by omega) (by omega)
      exact ⟨j, y', by omega, hjn, (Run.Silent.of_idle hidle).trans hsilent, honward.trans honward',
        fun hstack => (hmasks' hstack).trans (hmasks hstack), hj⟩

/-- If it has something else to do later, it has come to do it, or to leave its program, before. -/
theorem Run.comes {m : Machine σ} {y : Fiber σ} (hm : (r.moment a).machine? g = some m)
    (hy : (r.moment a).world.fibers.get? g = some y)
    (hwork : (∃ p, m.control = .instruct p) ∨ ∃ x, m.control = .ofExit x)
    (hminds : m.control.Minds fun _ => False) (han : a ≤ n) (hgone : (r.moment n).machine? g ≠ some m) :
    ∃ j y', a ≤ j ∧ j < n ∧ r.Silent g a j ∧ y.Onward y' ∧ (m.stack ≠ [] → y'.masks = y.masks) ∧
      ((r.moment j).Works g y' m ∨ (r.moment j).Leaves g y' m) := by
  obtain ⟨j, y', haj, -, hsilent, honward, hmasks, ⟨-, hstays⟩ | ⟨hjn, hj⟩⟩ :=
    Run.comes_or_stays hm hy hwork hminds han
  · exact absurd hstays hgone
  · exact ⟨j, y', haj, hjn, hsilent, honward, hmasks, hj⟩

/-- A fiber whose next step does nothing but count comes past it, unless it leaves its program first. -/
theorem Run.gets_past {m : Machine σ} {y : Fiber σ} (m' : Machine σ) (hm : (r.moment a).machine? g = some m)
    (hy : (r.moment a).world.fibers.get? g = some y)
    (hwork : (∃ p, m.control = .instruct p) ∨ ∃ x, m.control = .ofExit x)
    (hminds : m.control.Minds fun _ => False) (han : a ≤ n) (hgone : (r.moment n).machine? g ≠ some m)
    (hstep : ∀ j y', y.Onward y' → (r.moment j).Works g y' m →
      r.moment (j + 1) = ⟨(r.moment j).world.count g, some (g, m')⟩) :
    ∃ j y', a ≤ j ∧ j < n ∧ y.Onward y' ∧ (m.stack ≠ [] → y'.masks = y.masks) ∧
      (r.Silent g a j ∧ (r.moment j).Leaves g y' m ∨ r.Silent g a (j + 1) ∧
        (r.moment (j + 1)).machine? g = some m' ∧ (r.moment (j + 1)).world.fibers.get? g = some y') := by
  obtain ⟨j, y', haj, hjn, hsilent, honward, hmasks, hworks | hleaves⟩ :=
    Run.comes hm hy hwork hminds han hgone
  · have hnext := hstep j y' honward hworks
    refine ⟨j, { y' with ops := y'.ops + 1 }, haj, hjn, honward.trans ⟨rfl, rfl, id, fun _ => id⟩, hmasks, Or.inr
      ⟨hsilent.trans (.of_turn hworks.turn (by rw [hnext]; rfl)), ?_, ?_⟩⟩
    · rw [hnext]
      exact Moment.machine?_active
    · rw [hnext]
      exact World.get?_count hworks.fiber
  · exact ⟨j, y', haj, hjn, honward, hmasks, Or.inl ⟨hsilent, hleaves⟩⟩

/-! ## Executions -/

theorem Control.ofExit_injective {x x' : AnyExit} (h : (Control.ofExit x : Control σ) = .ofExit x') :
    x = x' := by
  cases x <;> cases x' <;> cases h <;> rfl

/-- An exit that comes down to some frames has come down to those above them. -/
theorem Moment.Lands.above {x : Moment σ} {m m' : Machine σ} {z : Waiting σ} (h : x.Lands g T m e)
    (hcarries : x.Carries g (z :: T) m') : x.Lands g (z :: T) m e := by
  obtain ⟨⟨y, hworks⟩, hcontrol, pre, hpre, hpast⟩ := h
  obtain rfl : m' = m :=
    Option.some.inj (hcarries.machine.symm.trans (Moment.machine?_of_active hworks.turn))
  obtain ⟨upper, hupper⟩ := hcarries.stack
  obtain rfl : pre = upper ++ [z] := by
    refine (List.append_left_inj T).mp ?_
    rw [← hpre, ← hupper, List.append_assoc]
    rfl
  refine ⟨⟨y, hworks⟩, hcontrol, upper, hupper.symm, ?_⟩
  rw [World.descend_append] at hpast
  by_contra hne
  rw [if_neg hne] at hpast
  exact hne (List.append_eq_nil_iff.mp hpast).1

/-- From `a` to `b` the fiber `g` executes what the control `c` says, above the frames `T`, and comes to the
exit `e`. -/
structure Run.Executes (r : Run σ) (g : Key .fiber) (T : List (Waiting σ)) (exiting : Bool) (a b : Nat)
    (c : Control σ) (e : AnyExit) : Prop where
  le : a ≤ b
  starts : (r.moment a).machine? g = some ⟨c, T, exiting⟩
  stays : ∀ k, a ≤ k → k < b → ∀ y m, ¬ (r.moment k).Leaves g y m
  above : ∀ k, a ≤ k → k < b → ∀ m x, ¬ (r.moment k).Lands g T m x
  lands : ∃ m, (r.moment b).Lands g T m e

namespace Run.Executes

/-- The rest of an execution. -/
theorem later (h : r.Executes g T exiting a b c e) {c' : Control σ} (hak : a ≤ k) (hkb : k ≤ b)
    (hm : (r.moment k).machine? g = some ⟨c', T, exiting⟩) : r.Executes g T exiting k b c' e :=
  ⟨hkb, hm, fun j hkj => h.stays j (Nat.le_trans hak hkj), fun j hkj => h.above j (Nat.le_trans hak hkj),
    h.lands⟩

/-- The fiber carries the frames all the time. -/
theorem carries (h : r.Executes g T exiting a b c e) (hc : ∀ x, c ≠ .leave x) (hak : a ≤ k) (hkb : k ≤ b) :
    ∃ m, (r.moment k).Carries g T m ∧ m.exiting = exiting := by
  induction k with
  | zero =>
      obtain rfl := Nat.le_zero.mp hak
      exact ⟨_, ⟨h.starts, List.suffix_rfl, hc⟩, rfl⟩
  | succ k ih =>
      rcases Nat.lt_or_ge k a with hka | hak
      · obtain rfl : a = k + 1 := by omega
        exact ⟨_, ⟨h.starts, List.suffix_rfl, hc⟩, rfl⟩
      obtain ⟨m, hcarries, hexiting⟩ := ih hak (Nat.le_of_succ_le hkb)
      rcases Run.carries_or_lands hcarries with ⟨m', hcarries', hexiting'⟩ | ⟨y, hleaves⟩ | ⟨x, hlands⟩
      · exact ⟨m', hcarries', hexiting'.trans hexiting⟩
      · exact absurd hleaves (h.stays k hak hkb y m)
      · exact absurd hlands (h.above k hak hkb m x)

/-- A machine that has an instruction to do is not at the end. -/
theorem lt_of_instruct (h : r.Executes g T exiting a b c e) (hkb : k ≤ b) {m : Machine σ} {p : Program σ}
    (hm : (r.moment k).machine? g = some m) (hp : m.control = .instruct p) : k < b := by
  refine Nat.lt_of_le_of_ne hkb ?_
  rintro rfl
  obtain ⟨m', ⟨y, hworks⟩, hcontrol, -⟩ := h.lands
  obtain rfl : m = m' := Option.some.inj (hm.symm.trans (Moment.machine?_of_active hworks.turn))
  rw [hp] at hcontrol
  cases e <;> cases hcontrol

/-- A fiber that has a step to do and waits for nothing comes to do it. -/
theorem works (h : r.Executes g T exiting a b c e)
    (hwork : (∃ p, c = .instruct p) ∨ ∃ x, c = .ofExit x) (hminds : c.Minds fun _ => False) :
    ∃ k y, a ≤ k ∧ k ≤ b ∧ (r.moment k).Works g y ⟨c, T, exiting⟩ ∧ r.Silent g a k := by
  obtain ⟨y, hy⟩ : ∃ y, (r.moment a).world.fibers.get? g = some y := by
    rcases Moment.machine?_cases h.starts with hactive | ⟨-, y, hy, -⟩
    · obtain ⟨y, hy, -⟩ := r.turned a g _ hactive
      exact ⟨y, hy⟩
    · exact ⟨y, hy⟩
  obtain ⟨j, y', haj, hjb, hsilent, -, -, ⟨rfl, hend⟩ | ⟨hlt, hworks | hleaves⟩⟩ :=
    Run.comes_or_stays h.starts hy hwork hminds h.le
  · obtain ⟨m, ⟨z, hworks⟩, -⟩ := h.lands
    obtain rfl : m = ⟨c, T, exiting⟩ :=
      Option.some.inj ((Moment.machine?_of_active hworks.turn).symm.trans hend)
    exact ⟨j, z, haj, hjb, hworks, hsilent⟩
  · exact ⟨j, y', haj, hjb, hworks, hsilent⟩
  · exact absurd hleaves (h.stays j haj hlt y' _)

/-- What is executed once comes to one exit. -/
theorem unique {b' : Nat} {e' : AnyExit} (h : r.Executes g T exiting a b c e)
    (h' : r.Executes g T exiting a b' c e') : b = b' ∧ e = e' := by
  obtain ⟨m, hlands⟩ := h.lands
  obtain ⟨m', hlands'⟩ := h'.lands
  rcases Nat.lt_trichotomy b b' with hlt | rfl | hlt
  · exact absurd hlands (h'.above b h.le hlt m e)
  · obtain ⟨y, hworks⟩ := hlands.works
    obtain ⟨y', hworks'⟩ := hlands'.works
    obtain ⟨⟩ : some (g, m) = some (g, m') := hworks.turn.symm.trans hworks'.turn
    exact ⟨rfl, Control.ofExit_injective (hlands.control.symm.trans hlands'.control)⟩
  · exact absurd hlands' (h.above b' h'.le hlt m' e')

/-! ## Exits -/

/-- An exit is executed by letting it down. -/
theorem of_exit {x : AnyExit} (h : r.Executes g T exiting a b (.ofExit x) e) :
    e = x ∧ r.Silent g a b := by
  have hminds : (Control.ofExit x : Control σ).Minds fun _ => False := by cases x <;> trivial
  obtain ⟨k, y, hak, hkb, hworks, hsilent⟩ := h.works (Or.inr ⟨x, rfl⟩) hminds
  have hlands : (r.moment k).Lands g T ⟨.ofExit x, T, exiting⟩ x := ⟨⟨y, hworks⟩, rfl, [], rfl, rfl⟩
  have hat : r.Executes g T exiting k k (.ofExit x) x :=
    ⟨Nat.le_refl k, Moment.machine?_of_active hworks.turn, fun j hj hj' => absurd hj (Nat.not_le.mpr hj'),
      fun j hj hj' => absurd hj (Nat.not_le.mpr hj'), _, hlands⟩
  obtain ⟨rfl, rfl⟩ :=
    (h.later hak hkb (Moment.machine?_of_active hworks.turn)).unique hat
  exact ⟨rfl, hsilent⟩

/-! ## Parts -/

/-- A part of a program, above one more frame, is executed before the whole is. -/
theorem inner (h : r.Executes g T exiting a b c e) {z : Waiting σ} {c' : Control σ}
    (hak : a ≤ k) (hkb : k ≤ b) (hm : (r.moment k).machine? g = some ⟨c', z :: T, exiting⟩)
    (hc' : ∀ x, c' ≠ .leave x) :
    ∃ b' e', b' ≤ b ∧ r.Executes g (z :: T) exiting k b' c' e' := by
  -- follow the fiber until an exit comes down to the frame: at `b` it has
  have hfollow : ∀ n j m, n = b - j → k ≤ j → j ≤ b → (r.moment j).Carries g (z :: T) m →
      ∃ b' e', j ≤ b' ∧ b' ≤ b ∧ (∀ i, j ≤ i → i < b' → ∀ m x, ¬ (r.moment i).Lands g (z :: T) m x) ∧
        ∃ m, (r.moment b').Lands g (z :: T) m e' := by
    intro n
    induction n with
    | zero =>
        intro j m hn hkj hjb hcarries
        obtain rfl : j = b := by omega
        obtain ⟨m', hlands⟩ := h.lands
        exact ⟨j, e, Nat.le_refl j, Nat.le_refl j, fun i hi hi' => absurd hi (Nat.not_le.mpr hi'), m',
          hlands.above hcarries⟩
    | succ n ih =>
        intro j m hn hkj hjb hcarries
        rcases Run.carries_or_lands hcarries with ⟨m', hcarries', -⟩ | ⟨y, hleaves⟩ | ⟨x, hlands⟩
        · by_cases hlands : ∃ m x, (r.moment j).Lands g (z :: T) m x
          · obtain ⟨m, x, hlands⟩ := hlands
            exact ⟨j, x, Nat.le_refl j, hjb, fun i hi hi' => absurd hi (Nat.not_le.mpr hi'), m, hlands⟩
          · obtain ⟨b', e', hjb', hb'b, hno, hlands'⟩ :=
              ih (j + 1) m' (by omega) (Nat.le_succ_of_le hkj) (by omega) hcarries'
            refine ⟨b', e', Nat.le_of_succ_le hjb', hb'b, fun i hji hib' m x hi => ?_, hlands'⟩
            rcases Nat.lt_or_ge j i with hlt | hge
            · exact hno i hlt hib' m x hi
            · obtain rfl : i = j := Nat.le_antisymm hge hji
              exact hlands ⟨m, x, hi⟩
        · exact absurd hleaves (h.stays j (Nat.le_trans hak hkj) (by omega) y m)
        · exact ⟨j, x, Nat.le_refl j, hjb, fun i hi hi' => absurd hi (Nat.not_le.mpr hi'), m, hlands⟩
  obtain ⟨b', e', hkb', hb'b, hno, hlands⟩ :=
    hfollow (b - k) k _ rfl (Nat.le_refl k) hkb ⟨hm, List.suffix_rfl, hc'⟩
  exact ⟨b', e', hb'b, hkb', hm, fun j hkj hjb' => h.stays j (Nat.le_trans hak hkj)
    (Nat.lt_of_lt_of_le hjb' hb'b), hno, hlands⟩

/-- What becomes of the exit of a part: the frame lets it pass, and the whole has it too, or the frame stops
it and does something with it. -/
theorem out {b' : Nat} {e' : AnyExit} {z : Waiting σ} {c' : Control σ} (h : r.Executes g T exiting a b c e)
    (hpart : r.Executes g (z :: T) exiting k b' c' e') (hak : a ≤ k) (hb'b : b' ≤ b)
    (hc' : ∀ x, c' ≠ .leave x) :
    ∃ w m, World.Changes .all (some g) (r.moment b').world w ∧ w.refs = (r.moment b').world.refs ∧
      (r.moment b').active = some (g, m) ∧
      ((World.descend g e'.isFailure [z] w).2 = [] ∧ b' = b ∧ e' = e ∨
        (World.descend g e'.isFailure [z] w).2 ≠ [] ∧ b' < b ∧
          r.moment (b' + 1) = World.conclude g (World.unwind g exiting e' (z :: T) w)) := by
  obtain ⟨m, hlands⟩ := hpart.lands
  obtain ⟨m', hcarries, hexiting⟩ := hpart.carries hc' hpart.le (Nat.le_refl b')
  obtain ⟨y, hworks⟩ := hlands.works
  obtain rfl : m' = m :=
    Option.some.inj (hcarries.machine.symm.trans (Moment.machine?_of_active hworks.turn))
  obtain ⟨w, hchanges, ⟨pre, hpre, hdown⟩, hnext⟩ := hlands.next
  have hrefs := World.refs_descend g e'.isFailure pre ((r.moment b').world.count g)
  rw [hdown] at hrefs
  -- an exit that comes down to the frames `T` at `b'` has passed the frame
  have hpast : ∀ m x, (r.moment b').Lands g T m x → x = e' ∧ (World.descend g e'.isFailure [z] w).2 = [] := by
    rintro m'' x ⟨⟨y', hworks'⟩, hcontrol, pre', hpre', hpast⟩
    obtain ⟨⟩ : some (g, m') = some (g, m'') := hworks.turn.symm.trans hworks'.turn
    obtain rfl := Control.ofExit_injective (hlands.control.symm.trans hcontrol)
    obtain rfl : pre' = pre ++ [z] := by
      refine (List.append_left_inj T).mp ?_
      rw [← hpre', hpre, List.append_assoc]
      rfl
    rw [World.descend_append, hdown, if_pos rfl] at hpast
    exact ⟨rfl, hpast⟩
  refine ⟨w, m', hchanges, hrefs, hworks.turn, ?_⟩
  by_cases hpass : (World.descend g e'.isFailure [z] w).2 = []
  · have hlandsT : (r.moment b').Lands g T m' e' := by
      refine ⟨⟨y, hworks⟩, hlands.control, pre ++ [z], by rw [hpre, List.append_assoc]; rfl, ?_⟩
      rw [World.descend_append, hdown, if_pos rfl]
      exact hpass
    rcases Nat.lt_or_eq_of_le hb'b with hlt | rfl
    · exact absurd hlandsT (h.above b' (Nat.le_trans hak hpart.le) hlt m' e')
    · obtain ⟨m'', hlands'⟩ := h.lands
      exact Or.inl ⟨hpass, rfl, (hpast m'' e hlands').1.symm⟩
  · refine Or.inr ⟨hpass, Nat.lt_of_le_of_ne hb'b ?_, hexiting ▸ hnext⟩
    rintro rfl
    obtain ⟨m'', hlands'⟩ := h.lands
    exact hpass (hpast m'' e hlands').2

/-- A fiber goes on with what a call gave back. -/
theorem enters {c' : Control σ} {w : World σ} {q : Program σ} (h : r.Executes g T exiting a b c e)
    (hak : a ≤ k) (hkb : k < b)
    (hnext : r.moment (k + 1) = World.conclude g (World.enter g ⟨c', T, exiting⟩ (w, .ok q))) :
    (r.moment (k + 1)).world = w ∧ r.Executes g T exiting (k + 1) b (.instruct q) e := by
  have hmoment : r.moment (k + 1) = ⟨w, some (g, ⟨.instruct q, T, exiting⟩)⟩ := hnext
  exact ⟨by rw [hmoment], h.later (Nat.le_succ_of_le hak) hkb (by rw [hmoment]; exact Moment.machine?_active)⟩

/-- A fiber comes to the step of an instruction that is no wait. -/
theorem instructs {p : Program σ} (h : r.Executes g T exiting a b (.instruct p) e)
    (hminds : (Control.instruct p).Minds fun _ => False) :
    ∃ k y, a ≤ k ∧ k < b ∧ r.Silent g a k ∧ (r.moment k).Works g y ⟨.instruct p, T, exiting⟩ ∧
      r.moment (k + 1) = World.conclude g
        (((r.moment k).world.count g).instruct g y ⟨.instruct p, T, exiting⟩ p) := by
  obtain ⟨k, y, hak, hkb, hworks, hsilent⟩ := h.works (Or.inl ⟨p, rfl⟩) hminds
  refine ⟨k, y, hak, h.lt_of_instruct hkb (Moment.machine?_of_active hworks.turn) rfl, hsilent, hworks, ?_⟩
  rw [Run.advance_of_turn hworks.turn, World.advance_instruct hworks.here rfl]

/-! ## Programs -/

/-- A program that ends at once. -/
theorem ends {x : AnyExit} (h : r.Executes g T exiting a b (.instruct (Program.ofExit x)) e) :
    e = x ∧ r.Silent g a b := by
  obtain ⟨k, y, hak, hkb, hsilent, hworks, hnext⟩ := h.instructs (by cases x <;> trivial)
  have hmoment : r.moment (k + 1) =
      ⟨(r.moment k).world.count g, some (g, ⟨.ofExit x, T, exiting⟩)⟩ := by
    rw [hnext]
    cases x <;> rfl
  have hrest : r.Executes g T exiting (k + 1) b (.ofExit x) e :=
    h.later (Nat.le_succ_of_le hak) hkb (by rw [hmoment]; exact Moment.machine?_active)
  obtain ⟨rfl, hsilent'⟩ := hrest.of_exit
  refine ⟨rfl, (hsilent.trans (.of_turn hworks.turn ?_)).trans hsilent'⟩
  rw [hmoment]
  rfl

/-- A program is executed and then what follows its value; a failure is the failure of the whole. -/
theorem flatMap {p : Program σ} {next : Cont σ} (h : r.Executes g T exiting a b (.instruct (.flatMap p next)) e) :
    ∃ a' b' e', a < a' ∧ b' ≤ b ∧ r.Silent g a a' ∧
      r.Executes g (.map next :: T) exiting a' b' (.instruct p) e' ∧
      ((∃ cause, e' = .failure cause ∧ b' = b ∧ e = e') ∨
        ∃ v w m, e' = .success v ∧ b' < b ∧ World.Changes .all (some g) (r.moment b').world w ∧
          w.refs = (r.moment b').world.refs ∧ (r.moment b').active = some (g, m) ∧
          r.moment (b' + 1) =
            World.conclude g (World.enter g ⟨.value v, T, exiting⟩ (w.proceedWith next v))) := by
  obtain ⟨k, y, hak, hkb, hsilent, hworks, hnext⟩ := h.instructs trivial
  have hmoment : r.moment (k + 1) =
      ⟨(r.moment k).world.count g, some (g, ⟨.instruct p, .map next :: T, exiting⟩)⟩ := hnext
  have hcount : r.Silent g k (k + 1) := .of_turn hworks.turn (by rw [hmoment]; rfl)
  have hak' : a ≤ k + 1 := Nat.le_succ_of_le hak
  have hstart : (r.moment (k + 1)).machine? g = some ⟨.instruct p, .map next :: T, exiting⟩ := by
    rw [hmoment]
    exact Moment.machine?_active
  have hstays : ∀ x, (Control.instruct p : Control σ) ≠ .leave x := World.instruct_ne_leave p
  obtain ⟨b', e', hb'b, hpart⟩ := h.inner hak' hkb hstart hstays
  refine ⟨k + 1, b', e', Nat.lt_succ_of_le hak, hb'b, hsilent.trans hcount, hpart, ?_⟩
  obtain ⟨w, m, hchanges, hrefs, hactive, ⟨hpass, hb, he⟩ | ⟨hstop, hlt, hnext'⟩⟩ := h.out hpart hak' hb'b hstays
  · left
    cases e' with
    | success v => cases hpass
    | failure cause => exact ⟨cause, rfl, hb, he.symm⟩
  · cases e' with
    | success v => exact Or.inr ⟨v, w, m, rfl, hlt, hchanges, hrefs, hactive, hnext'⟩
    | failure cause => exact absurd rfl hstop

/-- Two programs one after the other. -/
theorem andThen {p q : Program σ} (h : r.Executes g T exiting a b (.instruct (p.andThen q)) e) :
    ∃ a' b' e', a < a' ∧ b' ≤ b ∧ r.Silent g a a' ∧
      r.Executes g (.map (.next q) :: T) exiting a' b' (.instruct p) e' ∧
      ((∃ cause, e' = .failure cause ∧ b' = b ∧ e = e') ∨
        ∃ v, e' = .success v ∧ b' < b ∧ r.Silent g b' (b' + 1) ∧
          r.Executes g T exiting (b' + 1) b (.instruct q) e) := by
  obtain ⟨a', b', e', haa', hb'b, hsilent, hpart, hrest⟩ := h.flatMap
  refine ⟨a', b', e', haa', hb'b, hsilent, hpart, hrest.imp_right ?_⟩
  rintro ⟨v, w, m, he', hlt, -, hrefs, hactive, hnext⟩
  obtain ⟨hworld, hgoes⟩ := h.enters (Nat.le_trans (Nat.le_of_lt haa') hpart.le) hlt hnext
  exact ⟨v, he', hlt, .of_turn hactive (by rw [hworld, hrefs]), hgoes⟩

/-- A fiber that waits goes on with what it waited for. -/
theorem waits {aw : Awaited} (h : r.Executes g T exiting a b (.instruct (.wait aw)) e)
    (hminds : (Control.instruct (.wait aw) : Control σ).Minds (· = aw)) :
    ∃ k p, a ≤ k ∧ k < b ∧ (r.moment k).world.settledProgram? aw = some p ∧ r.Silent g a (k + 1) ∧
      r.Executes g T exiting (k + 1) b (.instruct p) e := by
  induction hn : b - a generalizing a with
  | zero =>
      have hlt := h.lt_of_instruct h.le h.starts rfl
      omega
  | succ n ih =>
      have hab : a < b := by omega
      have hsilent : r.Silent g a (a + 1) := by
        by_cases hworks : ∃ y m, (r.moment a).Works g y m
        · obtain ⟨y, m, hworks⟩ := hworks
          obtain rfl : m = ⟨.instruct (.wait aw), T, exiting⟩ :=
            Option.some.inj ((Moment.machine?_of_active hworks.turn).symm.trans h.starts)
          refine .of_turn hworks.turn ?_
          rw [Run.advance_of_turn hworks.turn, World.advance_instruct hworks.here rfl, World.refs_conclude]
          rfl
        · exact .of_idle fun y m hy => hworks ⟨y, m, hy⟩
      rcases Run.waits_or_goes h.starts rfl hminds with ⟨y, hleaves⟩ | hstays | ⟨p, hp, hgoes⟩
      · exact absurd hleaves (h.stays a (Nat.le_refl a) hab y _)
      · obtain ⟨k, p, hak, hkb, hp, hsilent', hrest⟩ :=
          ih (h.later (Nat.le_succ a) hab hstays) (by omega)
        exact ⟨k, p, Nat.le_of_succ_le hak, hkb, hp, hsilent.trans hsilent', hrest⟩
      · exact ⟨a, p, Nat.le_refl a, hab, hp, hsilent, h.later (Nat.le_succ a) hab hgoes⟩

/-- A program that gives the exit of another as its value. -/
theorem captured {p : Program σ} (h : r.Executes g T exiting a b (.instruct p.captured) e) :
    ∃ a' b' e', a < a' ∧ b' < b ∧ r.Silent g a a' ∧ r.Silent g b' b ∧ e = .success (.exit e') ∧
      r.Executes g (.fold .capture (.sequel .captured) :: T) exiting a' b' (.instruct p) e' := by
  obtain ⟨k, y, hak, hkb, hsilent, hworks, hnext⟩ := h.instructs trivial
  have hmoment : r.moment (k + 1) = ⟨(r.moment k).world.count g,
      some (g, ⟨.instruct p, .fold .capture (.sequel .captured) :: T, exiting⟩)⟩ := hnext
  have hcount : r.Silent g k (k + 1) := .of_turn hworks.turn (by rw [hmoment]; rfl)
  have hak' : a ≤ k + 1 := Nat.le_succ_of_le hak
  have hstart : (r.moment (k + 1)).machine? g =
      some ⟨.instruct p, .fold .capture (.sequel .captured) :: T, exiting⟩ := by
    rw [hmoment]
    exact Moment.machine?_active
  have hstays : ∀ x, (Control.instruct p : Control σ) ≠ .leave x := World.instruct_ne_leave p
  obtain ⟨b', e', hb'b, hpart⟩ := h.inner hak' hkb hstart hstays
  obtain ⟨w, m, hchanges, hrefs, hactive, ⟨hpass, -⟩ | ⟨-, hlt, hnext'⟩⟩ := h.out hpart hak' hb'b hstays
  · cases hpass
  · have hcall : r.moment (b' + 1) =
        World.conclude g (World.enter g ⟨.ofExit e', T, exiting⟩ (w, .ok (.succeed (.exit e')))) := by
      rw [hnext']
      cases e' <;> rfl
    obtain ⟨hworld, hgoes⟩ := h.enters (Nat.le_trans hak' hpart.le) hlt hcall
    obtain ⟨rfl, hend⟩ := hgoes.ends (x := .success (.exit e'))
    exact ⟨k + 1, b', e', Nat.lt_succ_of_le hak, hlt, hsilent.trans hcount,
      Run.Silent.trans (.of_turn hactive (by rw [hworld, hrefs])) hend, rfl, hpart⟩

/-- A region ends as what is in it. -/
theorem region {p : Program σ} {z : Restore} (h : r.Executes g T exiting a b c e) (hak : a ≤ k) (hkb : k ≤ b)
    (hm : (r.moment k).machine? g = some ⟨.instruct p, .restore z :: T, exiting⟩) :
    ∃ b', b' ≤ b ∧ r.Silent g b' b ∧ r.Executes g (.restore z :: T) exiting k b' (.instruct p) e := by
  have hstays : ∀ x, (Control.instruct p : Control σ) ≠ .leave x := World.instruct_ne_leave p
  obtain ⟨b', e', hb'b, hpart⟩ := h.inner hak hkb hm hstays
  obtain ⟨w, m, hchanges, hrefs, hactive, ⟨-, rfl, rfl⟩ | ⟨hstop, hlt, hnext⟩⟩ :=
    h.out hpart hak hb'b hstays
  · exact ⟨b', hb'b, .refl b', hpart⟩
  · -- the region lets a close take effect: the fiber has the exit once more below it
    have hrestore := World.refs_restore w g z
    rcases hr : w.restore g z with ⟨w', left⟩
    rw [hr] at hrestore
    cases left with
    | false =>
        simp only [World.descend, hr] at hstop
        exact absurd rfl hstop
    | true =>
        have hmoment : r.moment (b' + 1) = ⟨w', some (g, ⟨.ofExit e', T, exiting⟩)⟩ := by
          rw [hnext]
          cases e' <;> simp only [World.unwind, World.unwindValue, World.unwindFailure, hr] <;> rfl
        have hrest : r.Executes g T exiting (b' + 1) b (.ofExit e') e :=
          h.later (Nat.le_succ_of_le (Nat.le_trans hak hpart.le)) hlt
            (by rw [hmoment]; exact Moment.machine?_active)
        obtain ⟨rfl, hsilent⟩ := hrest.of_exit
        refine ⟨b', hb'b, Run.Silent.trans (.of_turn hactive ?_) hsilent, hpart⟩
        rw [hmoment]
        exact hrestore.trans hrefs

/-- A program in which interruption is put off. -/
theorem uninterruptible {p : Program σ}
    (h : r.Executes g T exiting a b (.instruct p.uninterruptible) e) :
    ∃ a' b', a < a' ∧ b' ≤ b ∧ r.Silent g a a' ∧ r.Silent g b' b ∧
      r.Executes g (.restore .interruptible :: T) exiting a' b' (.instruct p) e := by
  obtain ⟨k, y, hak, hkb, hsilent, hworks, hnext⟩ := h.instructs trivial
  have hmoment : r.moment (k + 1) = ⟨((r.moment k).world.count g).modifyFiber g fun fiber =>
      { fiber with masks := fiber.masks.push false },
      some (g, ⟨.instruct p, .restore .interruptible :: T, exiting⟩)⟩ := hnext
  obtain ⟨b', hb'b, hsilent', hpart⟩ := h.region (Nat.le_succ_of_le hak) hkb
    (by rw [hmoment]; exact Moment.machine?_active)
  exact ⟨k + 1, b', Nat.lt_succ_of_le hak, hb'b,
    hsilent.trans (.of_turn hworks.turn (by rw [hmoment]; rfl)), hsilent', hpart⟩

/-- A program with a bound of its own on the children that run at once. -/
theorem withConcurrency {p : Program σ} {level : Nat}
    (h : r.Executes g T exiting a b (.instruct (.withConcurrency p level)) e) :
    ∃ a' b', a < a' ∧ b' ≤ b ∧ r.Silent g a a' ∧ r.Silent g b' b ∧
      r.Executes g (.restore .semaphore :: T) exiting a' b' (.instruct p) e := by
  obtain ⟨k, y, hak, hkb, hsilent, hworks, hnext⟩ := h.instructs trivial
  have hmoment : r.moment (k + 1) = ⟨(((r.moment k).world.count g).newSemaphore level).1.modifyFiber g
      fun fiber => { fiber with
        semaphores := fiber.semaphores.push (((r.moment k).world.count g).newSemaphore level).2 },
      some (g, ⟨.instruct p, .restore .semaphore :: T, exiting⟩)⟩ := hnext
  obtain ⟨b', hb'b, hsilent', hpart⟩ := h.region (Nat.le_succ_of_le hak) hkb
    (by rw [hmoment]; exact Moment.machine?_active)
  exact ⟨k + 1, b', Nat.lt_succ_of_le hak, hb'b,
    hsilent.trans (.of_turn hworks.turn (by rw [hmoment]; rfl)), hsilent', hpart⟩

end Run.Executes

/-! ## Checking an execution -/

/-- The fiber `g` drops its program. -/
def Moment.drops (g : Key .fiber) (x : Moment σ) : Bool :=
  match x.active with
  | some (f, m) => f = g && !m.exiting && x.world.mustLeave g
  | none => false

/-- The fiber `g` lets an exit down past all its frames. -/
def Moment.emerges (g : Key .fiber) (x : Moment σ) : Bool :=
  match x.active with
  | some (f, ⟨.value _, stack, _⟩) => f = g && (World.descend g false stack (x.world.count g)).2.isEmpty
  | some (f, ⟨.failure _, stack, _⟩) => f = g && (World.descend g true stack (x.world.count g)).2.isEmpty
  | _ => false

theorem Moment.Leaves.drops {x : Moment σ} {y : Fiber σ} {m : Machine σ} (h : x.Leaves g y m) :
    x.drops g = true := by
  obtain ⟨hactive, hfiber, hexiting, hleave⟩ := h
  simp [Moment.drops, hactive, hexiting, World.mustLeave, hfiber, hleave]

theorem Moment.Lands.emerges {x : Moment σ} {m : Machine σ} (h : x.Lands g [] m e) :
    x.emerges g = true := by
  obtain ⟨⟨y, hworks⟩, hcontrol, pre, hpre, hpast⟩ := h
  obtain ⟨control, stack, exiting⟩ := m
  rw [List.append_nil] at hpre
  obtain rfl : stack = pre := hpre
  obtain rfl : control = .ofExit e := hcontrol
  have hempty : (World.descend g e.isFailure stack (x.world.count g)).2.isEmpty = true :=
    List.isEmpty_iff.mpr hpast
  cases e <;> simp only [Moment.emerges, hworks.turn, Control.ofExit, decide_true, Bool.true_and] <;>
    exact hempty

/-- A program at the bottom of the stack has been executed where an exit comes down to the bottom for the first
time. -/
theorem Run.executes_of_bottom (hab : a ≤ b) (hstarts : (r.moment a).machine? g = some ⟨c, [], exiting⟩)
    (hstays : ∀ k < b, a ≤ k → (r.moment k).drops g = false)
    (habove : ∀ k < b, a ≤ k → (r.moment k).emerges g = false)
    (hlands : ∃ m, (r.moment b).Lands g [] m e) : r.Executes g [] exiting a b c e where
  le := hab
  starts := hstarts
  stays := fun k hak hkb y m hleaves => by
    have hdrops := hleaves.drops
    rw [hstays k hkb hak] at hdrops
    cases hdrops
  above := fun k hak hkb m x hx => by
    have hemerges := hx.emerges
    rw [habove k hkb hak] at hemerges
    cases hemerges
  lands := hlands

end Fibers
