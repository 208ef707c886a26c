import Fibers.Proofs.Scopes.Discipline
import Fibers.Proofs.Scopes.Sequence

set_option autoImplicit false

/-! # From the claim to the publication

Along a run a fiber that closes a scope in sequence runs the claimed finalizers one after the other,
the last registered first, each with the exit of the request. Then it publishes that exit, followed
by the failures of the finalizers. It does so unless it leaves its program before: then nobody ever
does.
-/

namespace Fibers

variable {σ : Type} {r : Run σ} {s : Key .scope} {g : Key .fiber}

namespace Run

/-! ## Running finalizers -/

/-- The fiber `g` runs a claimed finalizer for the exit `e`: it invokes it at `a`, keeps what is to
follow on its stack up to `b`, and there the program of the finalizer ends with the exit `x`. -/
def Performs (r : Run σ) (g : Key .fiber) (fin : Handle × Finalizer σ) (e : AnyExit) (a b : Nat)
    (x : AnyExit) : Prop :=
  ∃ T, T ≠ [] ∧ (∃ y m, (r.moment a).Works g y m ∧
      m.control = .instruct (.duty (.finalize fin.1 fin.2 e)) ∧ m.stack = T) ∧
    r.Keeps g a T b ∧
    ∃ y m, (r.moment b).Works g y m ∧ m.control = .ofExit x ∧
      (World.descend g x.isFailure m.stack ((r.moment b).world.count g)).2 = T

/-- After `i` and before `k` the fiber `g` runs claimed finalizers, one after the other, with the
exits they lead to. -/
inductive InTurn (r : Run σ) (g : Key .fiber) (e : AnyExit) (i : Nat) :
    List (Handle × Finalizer σ) → List AnyExit → Nat → Prop
  | nil {k : Nat} : i < k → InTurn r g e i [] [] k
  | snoc {fins : List (Handle × Finalizer σ)} {xs : List AnyExit} {fin : Handle × Finalizer σ}
      {x : AnyExit} {a b k : Nat} : InTurn r g e i fins xs a → r.Performs g fin e a b x → b < k →
      InTurn r g e i (fins ++ [fin]) (xs ++ [x]) k

variable {e : AnyExit} {i k : Nat} {fins : List (Handle × Finalizer σ)} {xs : List AnyExit}

theorem InTurn.later (h : r.InTurn g e i fins xs k) {l : Nat} (hkl : k ≤ l) :
    r.InTurn g e i fins xs l := by
  cases h with
  | nil hik => exact .nil (Nat.lt_of_lt_of_le hik hkl)
  | snoc hbefore hperforms hbk => exact .snoc hbefore hperforms (Nat.lt_of_lt_of_le hbk hkl)

theorem InTurn.lt (h : r.InTurn g e i fins xs k) : i < k := by
  induction h with
  | nil hik => exact hik
  | snoc _ hperforms hbk ih =>
      obtain ⟨T, -, -, hkeeps, -⟩ := hperforms
      exact Nat.lt_trans (Nat.lt_trans ih hkeeps.1) hbk

/-- Every one of the finalizers is run to its end in that time. -/
theorem InTurn.performed (h : r.InTurn g e i fins xs k) {fin : Handle × Finalizer σ}
    (hfin : fin ∈ fins) : ∃ a b x, i < a ∧ b < k ∧ r.Performs g fin e a b x := by
  induction h with
  | nil => cases hfin
  | @snoc fins xs fin' x a b k hbefore hperforms hbk ih =>
      rcases List.mem_append.mp hfin with hfin | hfin
      · obtain ⟨a', b', x', hia, hba, hperforms'⟩ := ih hfin
        obtain ⟨T, -, -, hkeeps, -⟩ := hperforms
        have hab : a < b := hkeeps.1
        exact ⟨a', b', x', hia, by omega, hperforms'⟩
      · rw [List.mem_singleton.mp hfin]
        exact ⟨a, b, x, hbefore.lt, hbk, hperforms⟩

/-! ## The claim in a run -/

/-- The finalizers of a scope are claimed in one move of a run at most. -/
theorem claims_unique {i j : Nat} {f g : Key .fiber} (hi : (r.moment i).Claims s f)
    (hj : (r.moment j).Claims s g) : i = j := by
  obtain ⟨log, hlog⟩ := r.exists_records s
  exact hlog.claims_unique hi hj

/-- In a move without a claim, who keeps apart from the scope goes on to. -/
theorem apart_succ (hlicensed : (r.moment k).Licensed (.apart s))
    (hnone : ∀ g, ¬ (r.moment k).Claims s g) :
    (r.moment (k + 1)).Licensed (.apart s) ∧
      World.Plainly s (r.moment k).world (r.moment (k + 1)).world := by
  obtain ⟨hafter, hfares⟩ := (r.move k).keeps hlicensed (fun _ _ => trivial) trivial (fun _ _ _ => id)
    (claimsLicensed_apart hnone)
  exact ⟨hafter, hfares.plainly s (Licence.not_publish_apart s)⟩

/-- Before the claim nobody runs the finalizers of the scope or publishes its exit. -/
theorem apart_of_unclaimed (h : ∀ j, j < k → ∀ g, ¬ (r.moment j).Claims s g) :
    (r.moment k).Licensed (.apart s) := by
  induction k with
  | zero =>
      have hle : (r.moment 0).world.law ≤ .apart s := by
        have hnever : ∀ t, ¬ (r.moment 0).world.Sealed t := by
          rintro t ⟨sc, hsc, -⟩
          rw [r.start] at hsc
          cases hsc
        exact ⟨fun h hh => absurd hh (hnever _), fun t ht => absurd ht (hnever t),
          fun _ _ => trivial, id⟩
      refine ⟨(r.lawful 0).licensed.world.mono hle fun _ => id, fun f m hf _ => ?_⟩
      rw [r.start] at hf
      cases hf
  | succ k ih =>
      exact (apart_succ (ih fun j hj => h j (Nat.lt_succ_of_lt hj)) (h k (Nat.lt_succ_self k))).1

end Run

/-! ## Closed scopes -/

/-- A scope whose finalizers were claimed and whose exit is not published is not closed. -/
theorem World.Spent.not_closed {w : World σ} (h : w.Spent s) : (w.scope s).isClosed = false := by
  obtain ⟨e, hstate⟩ := h.state
  rw [Scope.isClosed, hstate]

/-- A closed scope stays closed. -/
theorem Run.closed_later (r : Run σ) {k l : Nat} (hkl : k ≤ l) {sc : Scope (Finalizer σ)}
    {x : AnyExit} (hsc : (r.moment k).world.scopes.get? s = some sc) (hclosed : sc.state = .closed x) :
    ((r.moment l).world.scope s).isClosed = true := by
  obtain ⟨sc', hsc', hlater⟩ := r.scopesLater hkl s sc hsc
  have hstays := hlater.state
  rw [hclosed] at hstays
  rw [World.scope_of_get hsc', Scope.isClosed]
  cases hstate : sc'.state with
  | opened fs hs n =>
      rw [hstate] at hstays
      exact hstays.elim
  | closing e u =>
      rw [hstate] at hstays
      exact hstays.elim
  | closed x' => rfl

/-- The strategy of a scope is fixed when the scope is made. -/
theorem Run.strategy_eq (r : Run σ) {k l : Nat} {sc sc' : Scope (Finalizer σ)}
    (hsc : (r.moment k).world.scopes.get? s = some sc)
    (hsc' : (r.moment l).world.scopes.get? s = some sc') : sc.strategy = sc'.strategy := by
  rcases Nat.le_total k l with hkl | hlk
  · obtain ⟨sc₁, hsc₁, hlater⟩ := r.scopesLater hkl s sc hsc
    obtain rfl : sc₁ = sc' := Option.some.inj (hsc₁.symm.trans hsc')
    exact hlater.strategy.symm
  · obtain ⟨sc₁, hsc₁, hlater⟩ := r.scopesLater hlk s sc' hsc'
    obtain rfl : sc₁ = sc := Option.some.inj (hsc₁.symm.trans hsc)
    exact hlater.strategy

/-- A scope that closes in sequence does so always. -/
theorem Run.sequential_of (r : Run σ) {k : Nat} {sc : Scope (Finalizer σ)}
    (hsc : (r.moment k).world.scopes.get? s = some sc) (hseq : sc.strategy = .sequential) (l : Nat) :
    ((r.moment l).world.scope s).strategy = .sequential := by
  cases hget : (r.moment l).world.scopes.get? s with
  | none =>
      rw [World.scope, hget]
      rfl
  | some sc' =>
      rw [World.scope_of_get hget, r.strategy_eq hget hsc]
      exact hseq

/-- The state of a scope that has an exit. -/
theorem World.closed_of_exit {w : World σ} {sc : Scope (Finalizer σ)} {e : AnyExit}
    (hsc : w.scopes.get? s = some sc) (h : (w.scope s).exit? = some e) : sc.state = .closed e := by
  rw [World.scope_of_get hsc, Scope.exit?] at h
  cases hstate : sc.state with
  | opened fs hooks n =>
      rw [hstate] at h
      cases h
  | closing x u =>
      rw [hstate] at h
      cases h
  | closed x =>
      rw [hstate] at h
      cases h
      rfl

/-! ## From the claim to the publication -/

open Sequence

/-- The exit that finalizers lead to. -/
def total (e : AnyExit) (xs : List AnyExit) : AnyExit := xs.foldl World.combine e

theorem total_concat (e : AnyExit) (xs : List AnyExit) (x : AnyExit) :
    total e (xs ++ [x]) = World.combine (total e xs) x := by simp [total]

/-- The fiber `g` is closing the scope: it is at a point, or inside the finalizer that it invoked
last. -/
inductive Run.Closing (r : Run σ) (s : Key .scope) (g : Key .fiber) (e : AnyExit)
    (rest : List (Waiting σ)) (i : Nat) (fins : List (Handle × Finalizer σ)) (k : Nat) : Prop
  | point {done todo : List (Handle × Finalizer σ)} {xs : List AnyExit} {exiting : Bool}
      {m : Machine σ} : fins = done ++ todo → r.InTurn g e i done xs k →
      (r.moment k).Has (.apart s) g m → Point s e rest exiting todo (total e xs) m →
      Run.Closing r s g e rest i fins k
  | inside {done todo : List (Handle × Finalizer σ)} {fin : Handle × Finalizer σ}
      {xs : List AnyExit} {a : Nat} : fins = done ++ fin :: todo → r.InTurn g e i done xs a →
      (∃ y m, (r.moment a).Works g y m ∧ m.control = .instruct (.duty (.finalize fin.1 fin.2 e)) ∧
        m.stack = frames e (total e xs) todo (.restore .interruptible :: .publishes s :: rest)) →
      r.Keeps g a (frames e (total e xs) todo (.restore .interruptible :: .publishes s :: rest)) k →
      (r.moment k).Above (.apart s) g
        (frames e (total e xs) todo (.restore .interruptible :: .publishes s :: rest)) →
      Run.Closing r s g e rest i fins k

/-- The fiber has left its program before it came to publish, and nobody has taken over. -/
structure Run.Dropped (r : Run σ) (s : Key .scope) (g : Key .fiber) (i k : Nat) : Prop where
  spent : (r.moment k).world.Spent s
  licensed : (r.moment k).Licensed (.apart s)
  leaves : ∃ j, i < j ∧ j < k ∧ ∃ y m, (r.moment j).Leaves g y m ∧ m.Closes s

/-- The fiber has run all the finalizers and published what they led to. -/
structure Run.Through (r : Run σ) (s : Key .scope) (g : Key .fiber) (e : AnyExit)
    (rest : List (Waiting σ)) (i : Nat) (fins : List (Handle × Finalizer σ)) (k : Nat) : Prop where
  licensed : (r.moment k).Licensed (.apart s)
  finished : ∃ j xs exiting, j < k ∧ r.InTurn g e i fins xs j ∧ (r.moment j).Publishes s g ∧
    (r.moment (j + 1)).machine? g = some ⟨.instruct .unit, rest, exiting⟩ ∧
    ∃ sc, (r.moment (j + 1)).world.scopes.get? s = some sc ∧ sc.state = .closed (total e xs)

section

variable {e : AnyExit} {rest : List (Waiting σ)} {i k : Nat} {fins : List (Handle × Finalizer σ)}

theorem Run.Through.isClosed (h : r.Through s g e rest i fins k) {l : Nat} (hkl : k ≤ l) :
    ((r.moment l).world.scope s).isClosed = true := by
  obtain ⟨j, xs, exiting, hjk, -, -, -, sc, hsc, hclosed⟩ := h.finished
  exact r.closed_later (Nat.le_trans hjk hkl) hsc hclosed

/-- The machine of a fiber that is closing a scope: it is about to start, or the frame that publishes
waits below. In that case no exit comes down past the frame without a stop. -/
theorem Run.Closing.machine (h : r.Closing s g e rest i fins k) :
    ∃ m, (r.moment k).machine? g = some m ∧
      ((∃ p, m.control = .instruct (.flatMap p (.sequel (.publish s)))) ∨
        .publishes s :: rest <:+ m.stack ∧
          ∀ (x : AnyExit) (w : World σ), m.control = .ofExit x →
            rest.length < (World.descend g x.isFailure m.stack w).2.length) := by
  cases h with
  | @point _ _ _ _ m _ _ hhas hpoint =>
      refine ⟨m, hhas.machine, hpoint.suffix.imp_right fun hsuffix =>
        ⟨hsuffix, fun x w hcontrol => ?_⟩⟩
      -- at a point only values come down
      obtain ⟨v, rfl⟩ := hpoint.success hcontrol
      obtain ⟨pre, heq⟩ := hsuffix
      rw [← heq]
      exact World.length_descend (fun _ => rfl) pre w
  | @inside done todo fin xs a _ _ _ hkeeps _ =>
      obtain ⟨m, hm, hsuffix⟩ := hkeeps.2 k hkeeps.1 (Nat.le_refl k)
      have hbelow : .publishes s :: rest <:+ .map (.sequel (.combine (total e xs))) ::
          (queue e todo ++ .restore .interruptible :: .publishes s :: rest) :=
        ((List.suffix_cons _ _).trans (List.suffix_append _ _)).trans (List.suffix_cons _ _)
      refine ⟨m, hm, Or.inr ⟨(hbelow.trans (List.suffix_cons _ _)).trans hsuffix, fun x w _ => ?_⟩⟩
      obtain ⟨pre, heq⟩ := hsuffix
      rw [← heq]
      have hle := hbelow.length_le
      rw [List.length_cons] at hle
      exact Nat.lt_of_lt_of_le (Nat.lt_of_succ_le hle)
        (Nat.le_of_lt (World.length_descend (fun _ => rfl) pre w))

theorem Run.Closing.closes (h : r.Closing s g e rest i fins k) :
    ∃ m, (r.moment k).machine? g = some m ∧ m.Closes s := by
  obtain ⟨m, hm, hstart | ⟨hsuffix, -⟩⟩ := h.machine
  · exact ⟨m, hm, Or.inr hstart⟩
  · exact ⟨m, hm, Or.inl (hsuffix.subset List.mem_cons_self)⟩

/-- One move of a fiber that is closing a scope. -/
theorem Run.Closing.succ (h : r.Closing s g e rest i fins k) (hspent : (r.moment k).world.Spent s)
    (hrest : ∀ z ∈ rest, z.Licensed (.apart s)) (hfins : ∀ fin ∈ fins, fin.2.Licensed (.apart s)) :
    (r.moment (k + 1)).world.Spent s ∧ r.Closing s g e rest i fins (k + 1) ∨
      r.Dropped s g i (k + 1) ∨ r.Through s g e rest i fins (k + 1) := by
  have hmove := r.move k
  have hcloses : ∀ m, (r.moment k).machine? g = some m → m.Closes s := by
    obtain ⟨m, hm, hcloses⟩ := h.closes
    intro m' hm'
    obtain rfl := Option.some.inj (hm.symm.trans hm')
    exact hcloses
  cases h with
  | @point done todo xs exiting m heq hturn hhas hpoint =>
      have htodo : ∀ fin ∈ todo, fin.2.Licensed (.apart s) := fun fin hfin =>
        hfins fin (by rw [heq]; exact List.mem_append_right _ hfin)
      have hsucc : r.InTurn g e i done xs (k + 1) := hturn.later (Nat.le_succ k)
      cases hmove.point (r.lawful k) (r.turned k) (r.attentive k) hspent hhas hpoint hrest htodo with
      | point hspent' hhas' hpoint' => exact Or.inl ⟨hspent', .point heq hsucc hhas' hpoint'⟩
      | left hspent' hlicensed hleaves =>
          obtain ⟨y, hleaves⟩ := hleaves
          exact Or.inr (Or.inl ⟨hspent', hlicensed, k, hturn.lt, Nat.lt_succ_self k, y, m, hleaves,
            hcloses m (Moment.machine?_of_active hleaves.1)⟩)
      | published hnil hpublishes hlicensed hmachine hclosed =>
          subst hnil
          rw [List.append_nil] at heq
          subst heq
          exact Or.inr (Or.inr ⟨hlicensed, k, xs, exiting, Nat.lt_succ_self k, hturn, hpublishes,
            hmachine, hclosed⟩)
      | @inside fin left hspent' hcons hworks hcontrol hstack habove =>
          subst hcons
          rw [hstack] at habove
          -- the next finalizer is begun
          obtain ⟨y, hworks⟩ := hworks
          obtain ⟨m', pre, hm', -, hstack', -⟩ := habove.machine
          refine Or.inl ⟨hspent', .inside heq hturn ⟨y, m, hworks, hcontrol, hstack⟩
            ⟨Nat.lt_succ_self k, fun l hkl hlk => ?_⟩ habove⟩
          obtain rfl : l = k + 1 := by omega
          exact ⟨m', hm', hstack' ▸ List.suffix_append _ _⟩
  | @inside done todo fin xs a heq hturn hworks hkeeps habove =>
      obtain ⟨hspent', hafter⟩ := hmove.inside (r.lawful k) (r.turned k) hspent habove
      have hak : a < k := hkeeps.1
      rcases hafter with habove' | ⟨m, outcome, ⟨y, hends⟩, hcontrol, hdescend, m', exiting, hhas,
          hstage⟩ | ⟨hlicensed, y, m, hleaves⟩
      · obtain ⟨m', pre, hm', -, hstack', -⟩ := habove'.machine
        refine Or.inl ⟨hspent', .inside heq hturn hworks ⟨by omega, fun l hal hlk => ?_⟩ habove'⟩
        rcases Nat.lt_or_eq_of_le hlk with hlt | rfl
        · exact hkeeps.2 l hal (Nat.le_of_lt_succ hlt)
        · exact ⟨m', hm', hstack' ▸ List.suffix_append _ _⟩
      · -- the finalizer has ended, and the next point is after it
        have hperforms : r.Performs g fin e a k outcome :=
          ⟨_, List.cons_ne_nil _ _, hworks, hkeeps, y, m, hends, hcontrol, hdescend⟩
        have hdone : fins = (done ++ [fin]) ++ todo := by rw [heq, List.append_assoc]; rfl
        rw [← total_concat] at hstage
        exact Or.inl ⟨hspent', .point hdone (hturn.snoc hperforms (Nat.lt_succ_self k)) hhas
          (.stage hstage)⟩
      · exact Or.inr (Or.inl ⟨hspent', hlicensed, k, Nat.lt_trans hturn.lt hak, Nat.lt_succ_self k,
          y, m, hleaves, hcloses m (Moment.machine?_of_active hleaves.1)⟩)

/-- What a fiber leaves undone when it leaves its program, nobody takes up. -/
theorem Run.Dropped.succ (h : r.Dropped s g i k) : r.Dropped s g i (k + 1) := by
  obtain ⟨hlicensed, hplain⟩ := Run.apart_succ h.licensed h.spent.not_claims
  obtain ⟨j, hij, hjk, hleaves⟩ := h.leaves
  exact ⟨h.spent.of_plainly hplain, hlicensed, j, hij, Nat.lt_succ_of_lt hjk, hleaves⟩

theorem Run.Dropped.later (h : r.Dropped s g i k) {l : Nat} (hkl : k ≤ l) : r.Dropped s g i l := by
  induction hkl with
  | refl => exact h
  | step _ ih => exact ih.succ

end

/-- A fiber that has claimed the finalizers of a scope that closes in sequence is closing the scope,
or it has left its program, or it has run them all in turn and published what they led to. -/
theorem Run.sequence {i : Nat} {y : Fiber σ} {m : Machine σ} {sc : Scope (Finalizer σ)}
    {e : AnyExit} {claimed : List (Nat × Finalizer σ)} (hworks : (r.moment i).Works g y m)
    (hcontrol : m.control = .instruct (.duty (.finish s)))
    (hclaim : ((r.moment i).world.scope s).claim? = some (sc, e, claimed))
    (hseq : sc.strategy = .sequential) {k : Nat} (hik : i < k) :
    let fins := (claimed.map fun fin => ((⟨s, fin.1⟩ : Handle), fin.2)).reverse
    (r.moment k).world.Spent s ∧ r.Closing s g e m.stack i fins k ∨ r.Dropped s g i k ∨
      r.Through s g e m.stack i fins k := by
  intro fins
  have hclaims : (r.moment i).Claims s g := ⟨y, m, hworks, hcontrol, by rw [hclaim]; rfl⟩
  have hbefore : (r.moment i).Licensed (.apart s) := by
    refine Run.apart_of_unclaimed fun j hji f hj => ?_
    exact absurd (Run.claims_unique hj hclaims) (Nat.ne_of_lt hji)
  have hrest : ∀ z ∈ m.stack, z.Licensed (.apart s) :=
    (hbefore.active g m hworks.turn id).stack
  have hfins : ∀ fin ∈ fins, fin.2.Licensed (.apart s) := by
    intro fin hfin
    obtain ⟨z, hz, rfl⟩ := List.mem_map.mp (List.mem_reverse.mp hfin)
    exact World.licensed_of_claim hbefore.world.finalizers hclaim z hz
  induction k with
  | zero => exact absurd hik (Nat.not_lt_zero i)
  | succ k ih =>
      rcases Nat.lt_or_eq_of_le (Nat.le_of_lt_succ hik) with hlt | rfl
      · rcases ih hlt with ⟨hspent, hclosing⟩ | hdropped | hthrough
        · exact hclosing.succ hspent hrest hfins
        · exact Or.inr (Or.inl hdropped.succ)
        · have hnone : ∀ f, ¬ (r.moment k).Claims s f := fun f hf =>
            absurd (Run.claims_unique hclaims hf) (Nat.ne_of_lt hlt)
          obtain ⟨hlicensed, -⟩ := Run.apart_succ hthrough.licensed hnone
          obtain ⟨j, xs, exiting, hjk, hrest⟩ := hthrough.finished
          exact Or.inr (Or.inr ⟨hlicensed, j, xs, exiting, Nat.lt_succ_of_lt hjk, hrest⟩)
      · left
        obtain ⟨hactive, -, hspent, hkeeps⟩ := (r.move i).claim_next hworks hcontrol hclaim
        rw [hseq] at hactive
        have hlicensed : (r.moment (i + 1)).Licensed ((Licence.apart s).sparing g) := by
          refine ⟨(hkeeps _ (fun _ => trivial) hbefore.world).sparing (fun _ => id) g, ?_⟩
          intro f m' hf hne
          rw [hactive] at hf
          cases hf
          exact absurd rfl hne
        have hturn : r.InTurn g e i [] [] (i + 1) := .nil (Nat.lt_succ_self i)
        exact ⟨hspent, .point (List.nil_append fins).symm hturn
          ⟨hlicensed, Moment.machine?_of_active hactive⟩ (.claimed _)⟩

/-- If the scope is closed, the fiber has run them all and published. -/
theorem Run.through_of_closed {i : Nat} {y : Fiber σ} {m : Machine σ} {sc : Scope (Finalizer σ)}
    {e : AnyExit} {claimed : List (Nat × Finalizer σ)} (hworks : (r.moment i).Works g y m)
    (hcontrol : m.control = .instruct (.duty (.finish s)))
    (hclaim : ((r.moment i).world.scope s).claim? = some (sc, e, claimed))
    (hseq : sc.strategy = .sequential) {k : Nat} (hik : i < k)
    (hclosed : ((r.moment k).world.scope s).isClosed = true) :
    r.Through s g e m.stack i (claimed.map fun fin => ((⟨s, fin.1⟩ : Handle), fin.2)).reverse k := by
  have hspent : ¬ (r.moment k).world.Spent s := by
    intro hspent
    rw [hspent.not_closed] at hclosed
    cases hclosed
  rcases Run.sequence hworks hcontrol hclaim hseq hik with ⟨h, -⟩ | hdropped | hthrough
  · exact absurd h hspent
  · exact absurd hdropped.spent hspent
  · exact hthrough

end Fibers
