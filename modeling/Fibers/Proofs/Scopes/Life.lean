import Mathlib.Tactic.Common
import Mathlib.Data.List.Induction
import Mathlib.Data.List.Nodup
import Fibers.Program

set_option autoImplicit false

/-! # The life of a scope

What happens to a scope can be written down as a log of events. `Life` says which logs a scope can
have and in which state each of them leaves it. The rest of this module reads the rules of scopes
off such a log: only the first request to close a scope is granted, its hooks are told once,
finalizers are handed out once, they are claimed once and the exit is published once.
-/

namespace Fibers

variable {σ : Type}

/-- One thing that happens to a scope. A hook that comes late is told at once, and a request that
comes late is refused. -/
inductive ScopeEvent (σ : Type) where
  | registered (key : Nat) (fin : Finalizer σ)
  | taken (key : Nat) (fin : Finalizer σ)
  | hooked (f : Key .fiber)
  | late (f : Key .fiber)
  | requested (exit : AnyExit) (told : List (Key .fiber))
  | refused (exit : AnyExit)
  | claimed (fins : List (Nat × Finalizer σ))
  | published (exit : AnyExit)

namespace ScopeEvent

/-! ## Reading a log -/

/-- The finalizers that stand after an event. -/
def stand (fs : List (Nat × Finalizer σ)) : ScopeEvent σ → List (Nat × Finalizer σ)
  | .registered key fin => fs ++ [(key, fin)]
  | .taken key _ => fs.filter (·.1 != key)
  | _ => fs

/-- The finalizers that were registered and not taken out again, in the order of registration. -/
def standing (log : List (ScopeEvent σ)) : List (Nat × Finalizer σ) := log.foldl stand []

/-- The finalizers that were registered, in order. -/
def registrations (log : List (ScopeEvent σ)) : List (Nat × Finalizer σ) :=
  log.flatMap fun
    | .registered key fin => [(key, fin)]
    | _ => []

/-- The keys of the finalizers that were taken out again. -/
def takings (log : List (ScopeEvent σ)) : List Nat :=
  log.flatMap fun
    | .taken key _ => [key]
    | _ => []

/-- The fibers that were put on the hooks, in time or late. -/
def hooks (log : List (ScopeEvent σ)) : List (Key .fiber) :=
  log.flatMap fun
    | .hooked f => [f]
    | .late f => [f]
    | _ => []

/-- The fibers that were told of the closing. -/
def told (log : List (ScopeEvent σ)) : List (Key .fiber) :=
  log.flatMap fun
    | .requested _ fs => fs
    | .late f => [f]
    | _ => []

/-- The requests to close the scope, each with its answer. -/
def requests (log : List (ScopeEvent σ)) : List (AnyExit × Bool) :=
  log.flatMap fun
    | .requested e _ => [(e, true)]
    | .refused e => [(e, false)]
    | _ => []

/-- The keys of the finalizers that were handed out, to those who took them or to the one who
claimed them. -/
def handed (log : List (ScopeEvent σ)) : List Nat :=
  log.flatMap fun
    | .taken key _ => [key]
    | .claimed fins => fins.map (·.1)
    | _ => []

/-- The claims, and what each was given. -/
def claims (log : List (ScopeEvent σ)) : List (List (Nat × Finalizer σ)) :=
  log.flatMap fun
    | .claimed fins => [fins]
    | _ => []

/-- The exits that were published. -/
def publications (log : List (ScopeEvent σ)) : List AnyExit :=
  log.flatMap fun
    | .published e => [e]
    | _ => []

@[simp] theorem standing_nil : standing ([] : List (ScopeEvent σ)) = [] := rfl

@[simp] theorem standing_concat (log : List (ScopeEvent σ)) (ev : ScopeEvent σ) :
    standing (log ++ [ev]) = stand (standing log) ev := by
  simp [standing]

theorem registrations_append (log log' : List (ScopeEvent σ)) :
    registrations (log ++ log') = registrations log ++ registrations log' := List.flatMap_append

theorem takings_append (log log' : List (ScopeEvent σ)) :
    takings (log ++ log') = takings log ++ takings log' := List.flatMap_append

theorem claims_append (log log' : List (ScopeEvent σ)) :
    claims (log ++ log') = claims log ++ claims log' := List.flatMap_append

theorem publications_append (log log' : List (ScopeEvent σ)) :
    publications (log ++ log') = publications log ++ publications log' := List.flatMap_append

end ScopeEvent

open ScopeEvent

/-! ## The rules -/

/-- Whether nobody has asked to close a scope in this state. -/
def ScopeState.isOpen {φ : Type} : ScopeState φ → Bool
  | .opened _ _ _ => true
  | _ => false

/-- The logs that a scope can have, with the state they leave it in. -/
inductive Life : List (ScopeEvent σ) → ScopeState (Finalizer σ) → Prop
  | fresh : Life [] (.opened [] [] 0)
  | register {log : List (ScopeEvent σ)} {fs : List (Nat × Finalizer σ)}
      {hooks : List (Key .fiber)} {n : Nat} {fin : Finalizer σ} : Life log (.opened fs hooks n) →
      Life (log ++ [.registered n fin]) (.opened (fs ++ [(n, fin)]) hooks (n + 1))
  | take {log : List (ScopeEvent σ)} {fs : List (Nat × Finalizer σ)} {hooks : List (Key .fiber)}
      {n key : Nat} {fin : Finalizer σ} : Life log (.opened fs hooks n) → (key, fin) ∈ fs →
      Life (log ++ [.taken key fin]) (.opened (fs.filter (·.1 != key)) hooks n)
  | hook {log : List (ScopeEvent σ)} {fs : List (Nat × Finalizer σ)} {hooks : List (Key .fiber)}
      {n : Nat} {f : Key .fiber} : Life log (.opened fs hooks n) →
      Life (log ++ [.hooked f]) (.opened fs (hooks ++ [f]) n)
  | late {log : List (ScopeEvent σ)} {st : ScopeState (Finalizer σ)} {f : Key .fiber} :
      Life log st → st.isOpen = false → Life (log ++ [.late f]) st
  | request {log : List (ScopeEvent σ)} {fs : List (Nat × Finalizer σ)}
      {hooks : List (Key .fiber)} {n : Nat} {e : AnyExit} : Life log (.opened fs hooks n) →
      Life (log ++ [.requested e hooks]) (.closing e (some fs))
  | refuse {log : List (ScopeEvent σ)} {st : ScopeState (Finalizer σ)} {e : AnyExit} :
      Life log st → st.isOpen = false → Life (log ++ [.refused e]) st
  | claim {log : List (ScopeEvent σ)} {fs : List (Nat × Finalizer σ)} {e : AnyExit} :
      Life log (.closing e (some fs)) → Life (log ++ [.claimed fs]) (.closing e none)
  | publish {log : List (ScopeEvent σ)} {e x : AnyExit} :
      Life log (.closing e none) → Life (log ++ [.published x]) (.closed x)

namespace Life

variable {log : List (ScopeEvent σ)} {st : ScopeState (Finalizer σ)}

/-- What the state knows of the log: the finalizers that stand, until they are claimed, and the
hooks, until they are told. -/
def Knows (log : List (ScopeEvent σ)) : ScopeState (Finalizer σ) → Prop
  | .opened fs hs n => fs = standing log ∧ hs = hooks log ∧ ∀ x ∈ fs, x.1 < n
  | .closing _ (some fs) => fs = standing log
  | .closing _ none => True
  | .closed _ => True

/-- Hooks and requests that come late change nothing of that. -/
theorem Knows.concat {ev : ScopeEvent σ} (h : Knows log st) (hst : st.isOpen = false)
    (hev : ∀ fs, stand fs ev = fs) : Knows (log ++ [ev]) st := by
  cases st with
  | opened fs hs n => cases hst
  | closing e u =>
      cases u with
      | none => trivial
      | some fs => exact h.trans (by rw [standing_concat, hev])
  | closed e => trivial

theorem knows (h : Life log st) : Knows log st := by
  induction h with
  | fresh => exact ⟨rfl, rfl, fun x hx => by cases hx⟩
  | register _ ih =>
      obtain ⟨rfl, rfl, hkeys⟩ := ih
      refine ⟨by simp [stand], by simp [hooks], fun x hx => ?_⟩
      rcases List.mem_append.mp hx with hx | hx
      · exact Nat.lt_succ_of_lt (hkeys x hx)
      · rw [List.mem_singleton.mp hx]
        exact Nat.lt_succ_self _
  | take _ _ ih =>
      obtain ⟨rfl, rfl, hkeys⟩ := ih
      exact ⟨by simp [stand], by simp [hooks], fun x hx => hkeys x (List.mem_filter.mp hx).1⟩
  | hook _ ih =>
      obtain ⟨rfl, rfl, hkeys⟩ := ih
      exact ⟨by simp [stand], by simp [hooks], hkeys⟩
  | late _ hst ih => exact ih.concat hst fun _ => rfl
  | request _ ih => exact ih.1.trans (by rw [standing_concat]; rfl)
  | refuse _ hst ih => exact ih.concat hst fun _ => rfl
  | claim => trivial
  | publish => trivial

/-- While a scope is open nobody is told of its closing; afterwards all fibers that were put on its
hooks, in time or late, have been told, each once. -/
theorem told_eq (h : Life log st) : told log = if st.isOpen then [] else hooks log := by
  induction h with
  | fresh => rfl
  | register _ ih => simpa [told, ScopeState.isOpen] using ih
  | take _ _ ih => simpa [told, ScopeState.isOpen] using ih
  | hook _ ih => simpa [told, ScopeState.isOpen] using ih
  | late _ hst ih =>
      rw [hst] at ih ⊢
      simpa [told, hooks] using ih
  | request hbefore ih =>
      obtain ⟨-, rfl, -⟩ := hbefore.knows
      have hnobody : told _ = [] := ih
      simp only [told, hooks] at hnobody ⊢
      simp [hnobody, ScopeState.isOpen]
  | refuse _ hst ih =>
      rw [hst] at ih ⊢
      simpa [told, hooks] using ih
  | claim _ ih => simpa [told, hooks, ScopeState.isOpen] using ih
  | publish _ ih => simpa [told, hooks, ScopeState.isOpen] using ih

/-- Of all requests to close a scope exactly the first is granted, and while the scope is closing
its state keeps the exit of that request. -/
theorem requests_eq (h : Life log st) :
    st.isOpen = true ∧ requests log = [] ∨
      st.isOpen = false ∧ ∃ e rest, requests log = (e, true) :: rest ∧ (∀ c ∈ rest, c.2 = false) ∧
        ∀ e' u, st = .closing e' u → e' = e := by
  induction h with
  | fresh => exact Or.inl ⟨rfl, rfl⟩
  | register _ ih => exact ih.imp (fun h => ⟨rfl, by simpa [requests] using h.2⟩) fun h => nomatch h.1
  | take _ _ ih => exact ih.imp (fun h => ⟨rfl, by simpa [requests] using h.2⟩) fun h => nomatch h.1
  | hook _ ih => exact ih.imp (fun h => ⟨rfl, by simpa [requests] using h.2⟩) fun h => nomatch h.1
  | late _ hst ih =>
      rcases ih with ⟨hopen, -⟩ | ⟨-, e, rest, heq, hrest, hexit⟩
      · rw [hst] at hopen
        cases hopen
      · exact Or.inr ⟨hst, e, rest, by simpa [requests] using heq, hrest, hexit⟩
  | @request log fs hs n e _ ih =>
      rcases ih with ⟨-, heq⟩ | ⟨hopen, -⟩
      · refine Or.inr ⟨rfl, e, [], ?_, (fun c hc => by cases hc), fun e' u he => ?_⟩
        · simp only [requests] at heq ⊢
          simp [heq]
        · cases he
          rfl
      · cases hopen
  | @refuse log st x _ hst ih =>
      rcases ih with ⟨hopen, -⟩ | ⟨-, e, rest, heq, hrest, hexit⟩
      · rw [hst] at hopen
        cases hopen
      · refine Or.inr ⟨hst, e, rest ++ [(x, false)], ?_, fun c hc => ?_, hexit⟩
        · simp only [requests] at heq ⊢
          simp [heq]
        · rcases List.mem_append.mp hc with hc | hc
          · exact hrest c hc
          · rw [List.mem_singleton.mp hc]
  | claim _ ih =>
      rcases ih with ⟨hopen, -⟩ | ⟨-, e, rest, heq, hrest, hexit⟩
      · cases hopen
      · refine Or.inr ⟨rfl, e, rest, by simpa [requests] using heq, hrest, fun e' u he => ?_⟩
        cases he
        exact hexit _ _ rfl
  | publish _ ih =>
      rcases ih with ⟨hopen, -⟩ | ⟨-, e, rest, heq, hrest, -⟩
      · cases hopen
      · exact Or.inr ⟨rfl, e, rest, by simpa [requests] using heq, hrest, fun e' u => nofun⟩

/-! ## Handing out finalizers -/

/-- The keys of the finalizers that a scope still has. -/
def keys : ScopeState (Finalizer σ) → List Nat
  | .opened fs _ _ => fs.map (·.1)
  | .closing _ (some fs) => fs.map (·.1)
  | .closing _ none => []
  | .closed _ => []

theorem keys_filter (fs : List (Nat × Finalizer σ)) (key : Nat) :
    (fs.filter (·.1 != key)).map (·.1) = (fs.map (·.1)).filter (· != key) := by
  rw [List.filter_map]
  rfl

/-- What was handed out and what the scope still has never meet, and new keys are above both. -/
theorem handed_keys (h : Life log st) : (handed log ++ keys st).Nodup ∧
    ∀ fs hs n, st = .opened fs hs n → ∀ k ∈ handed log ++ keys st, k < n := by
  induction h with
  | fresh => exact ⟨List.nodup_nil, fun fs hs n _ k hk => by cases hk⟩
  | @register log fs hs n fin _ ih =>
      obtain ⟨hnodup, hbound⟩ := ih
      have hbelow := hbound _ _ _ rfl
      -- the key of a new finalizer is the bound, so it is none of those before
      have heq : handed (log ++ [.registered n fin]) ++ keys (.opened (fs ++ [(n, fin)]) hs (n + 1)) =
          handed log ++ keys (.opened fs hs n) ++ [n] := by simp [handed, keys]
      rw [heq]
      refine ⟨List.nodup_append.mpr ⟨hnodup, List.nodup_singleton n, fun a ha b hb => ?_⟩, ?_⟩
      · rw [List.mem_singleton.mp hb]
        exact Nat.ne_of_lt (hbelow a ha)
      · rintro _ _ _ ⟨⟩ k hk
        rcases List.mem_append.mp hk with hk | hk
        · exact Nat.lt_succ_of_lt (hbelow k hk)
        · rw [List.mem_singleton.mp hk]
          exact Nat.lt_succ_self n
  | @take log fs hs n key fin _ hmem ih =>
      obtain ⟨hnodup, hbound⟩ := ih
      have hkey : key ∈ fs.map (·.1) := List.mem_map.mpr ⟨_, hmem, rfl⟩
      obtain ⟨hhanded, hfs, hdisjoint⟩ := List.nodup_append.mp hnodup
      -- a key that is taken moves from the keys of the scope to those handed out
      have heq : handed (log ++ [.taken key fin]) ++ keys (.opened (fs.filter (·.1 != key)) hs n) =
          handed log ++ (key :: (fs.map (·.1)).filter (· != key)) := by
        rw [keys, keys_filter]
        simp [handed]
      have hsub : ∀ k ∈ key :: (fs.map (·.1)).filter (· != key), k ∈ fs.map (·.1) := by
        intro k hk
        rcases List.mem_cons.mp hk with rfl | hk
        · exact hkey
        · exact (List.mem_filter.mp hk).1
      rw [heq]
      refine ⟨List.nodup_append.mpr ⟨hhanded, ?_, fun a ha b hb => hdisjoint a ha b (hsub b hb)⟩, ?_⟩
      · refine List.nodup_cons.mpr ⟨fun hin => ?_, List.Nodup.filter _ hfs⟩
        simpa using (List.mem_filter.mp hin).2
      · rintro _ _ _ ⟨⟩ k hk
        refine hbound _ _ _ rfl k ?_
        rcases List.mem_append.mp hk with hk | hk
        · exact List.mem_append_left _ hk
        · exact List.mem_append_right _ (hsub k hk)
  | hook _ ih =>
      obtain ⟨hnodup, hbound⟩ := ih
      refine ⟨by simpa [handed, keys] using hnodup, ?_⟩
      rintro _ _ _ ⟨⟩ k hk
      exact hbound _ _ _ rfl k (by simpa [handed, keys] using hk)
  | late _ hst ih =>
      refine ⟨by simpa [handed] using ih.1, ?_⟩
      rintro _ _ _ rfl
      cases hst
  | request _ ih => exact ⟨by simpa [handed, keys] using ih.1, fun _ _ _ => nofun⟩
  | refuse _ hst ih =>
      refine ⟨by simpa [handed] using ih.1, ?_⟩
      rintro _ _ _ rfl
      cases hst
  | claim _ ih => exact ⟨by simpa [handed, keys] using ih.1, fun _ _ _ => nofun⟩
  | publish _ ih => exact ⟨by simpa [handed, keys] using ih.1, fun _ _ _ => nofun⟩

/-- Finalizers are handed out once: neither twice to those who take them, nor to one of them and to
the one who claims them. -/
theorem handed_nodup (h : Life log st) : (handed log).Nodup :=
  (List.nodup_append.mp h.handed_keys.1).1

/-- What stands are the finalizers that were registered but for those that were taken out. -/
theorem standing_eq (h : Life log st) :
    standing log = (registrations log).filter fun x => x.1 ∉ takings log := by
  induction h with
  | fresh => rfl
  | @register log fs hs n fin hbefore ih =>
      have hfresh : n ∉ takings log := by
        intro hn
        have hhanded : n ∈ handed log := by
          obtain ⟨ev, hev, hmem⟩ := List.mem_flatMap.mp hn
          refine List.mem_flatMap.mpr ⟨ev, hev, ?_⟩
          cases ev with
          | taken key fin => exact hmem
          | _ => cases hmem
        exact Nat.lt_irrefl n (hbefore.handed_keys.2 _ _ _ rfl n (List.mem_append_left _ hhanded))
      have hnew : registrations [.registered n fin] = [(n, fin)] := rfl
      have hnone : takings [(.registered n fin : ScopeEvent σ)] = [] := rfl
      rw [standing_concat, registrations_append, takings_append, hnew, hnone, List.append_nil,
        List.filter_append, ← ih]
      simp [stand, hfresh]
  | @take log fs hs n key fin _ _ ih =>
      have hnone : registrations [(.taken key fin : ScopeEvent σ)] = [] := rfl
      have hnew : takings [(.taken key fin : ScopeEvent σ)] = [key] := rfl
      rw [standing_concat, registrations_append, takings_append, hnone, hnew, List.append_nil, ih,
        stand, List.filter_filter]
      refine List.filter_congr fun x _ => ?_
      by_cases hx : x.1 = key
      · simp [hx]
      · simp [hx]
  | hook _ ih => simpa [registrations, takings, stand] using ih
  | late _ _ ih => simpa [registrations, takings, stand] using ih
  | request _ ih => simpa [registrations, takings, stand] using ih
  | refuse _ _ ih => simpa [registrations, takings, stand] using ih
  | claim _ ih => simpa [registrations, takings, stand] using ih
  | publish _ ih => simpa [registrations, takings, stand] using ih

/-- Before its last event a scope had a life too, and it was open if the event is that a finalizer
was registered or taken out. -/
theorem init {ev : ScopeEvent σ} (h : Life (log ++ [ev]) st) : ∃ st', Life log st' ∧
    (registrations [ev] = [] ∧ takings [ev] = [] ∨ st'.isOpen = true) := by
  generalize heq : log ++ [ev] = whole at h
  have hinit : ∀ {before : List (ScopeEvent σ)} {ev' : ScopeEvent σ}, log ++ [ev] = before ++ [ev'] →
      before = log ∧ ev' = ev := by
    intro before ev' heq
    obtain ⟨hlog, hev⟩ := List.append_inj' heq rfl
    exact ⟨hlog.symm, (List.head_eq_of_cons_eq hev).symm⟩
  cases h with
  | fresh => simp at heq
  | register hbefore =>
      obtain ⟨rfl, rfl⟩ := hinit heq
      exact ⟨_, hbefore, Or.inr rfl⟩
  | take hbefore _ =>
      obtain ⟨rfl, rfl⟩ := hinit heq
      exact ⟨_, hbefore, Or.inr rfl⟩
  | hook hbefore =>
      obtain ⟨rfl, rfl⟩ := hinit heq
      exact ⟨_, hbefore, Or.inl ⟨rfl, rfl⟩⟩
  | late hbefore _ =>
      obtain ⟨rfl, rfl⟩ := hinit heq
      exact ⟨_, hbefore, Or.inl ⟨rfl, rfl⟩⟩
  | request hbefore =>
      obtain ⟨rfl, rfl⟩ := hinit heq
      exact ⟨_, hbefore, Or.inl ⟨rfl, rfl⟩⟩
  | refuse hbefore _ =>
      obtain ⟨rfl, rfl⟩ := hinit heq
      exact ⟨_, hbefore, Or.inl ⟨rfl, rfl⟩⟩
  | claim hbefore =>
      obtain ⟨rfl, rfl⟩ := hinit heq
      exact ⟨_, hbefore, Or.inl ⟨rfl, rfl⟩⟩
  | publish hbefore =>
      obtain ⟨rfl, rfl⟩ := hinit heq
      exact ⟨_, hbefore, Or.inl ⟨rfl, rfl⟩⟩

/-- Once a scope was asked to close, no finalizer is registered or taken out. -/
theorem frozen {more : List (ScopeEvent σ)} (h : Life (log ++ more) st) (hasked : requests log ≠ []) :
    registrations (log ++ more) = registrations log ∧ takings (log ++ more) = takings log := by
  induction more using List.reverseRecOn generalizing st with
  | nil => exact ⟨by rw [List.append_nil], by rw [List.append_nil]⟩
  | append_singleton more ev ih =>
      rw [← List.append_assoc] at h ⊢
      obtain ⟨st', hbefore, hev | hopen⟩ := h.init
      · obtain ⟨hregistrations, htakings⟩ := ih hbefore
        rw [registrations_append, takings_append, hev.1, hev.2, List.append_nil, List.append_nil]
        exact ⟨hregistrations, htakings⟩
      · rcases hbefore.requests_eq with ⟨-, hnone⟩ | ⟨hshut, -⟩
        · rw [requests, List.flatMap_append] at hnone
          exact absurd (List.append_eq_nil_iff.mp hnone).1 hasked
        · rw [hopen] at hshut
          cases hshut

/-! ## Claiming and publishing -/

/-- There was one claim, after a request to close. It was given the finalizers that had been
registered and not taken out, in the order of registration. -/
def Claimed (log : List (ScopeEvent σ)) : Prop :=
  ∃ pre post fins, log = pre ++ .claimed fins :: post ∧ claims log = [fins] ∧
    fins = ((registrations pre).filter fun x => x.1 ∉ takings pre) ∧ requests pre ≠ []

/-- One exit was published, after the claim. -/
def Published (log : List (ScopeEvent σ)) (x : AnyExit) : Prop :=
  ∃ pre post, log = pre ++ .published x :: post ∧ publications log = [x] ∧ Claimed pre

theorem Claimed.concat {ev : ScopeEvent σ} (h : Claimed log) (hev : claims [ev] = []) :
    Claimed (log ++ [ev]) := by
  obtain ⟨pre, post, fins, rfl, hclaims, hfins, hrequests⟩ := h
  refine ⟨pre, post ++ [ev], fins, by simp, ?_, hfins, hrequests⟩
  rw [claims_append, hclaims, hev, List.append_nil]

theorem Published.concat {ev : ScopeEvent σ} {x : AnyExit} (h : Published log x)
    (hev : publications [ev] = []) : Published (log ++ [ev]) x := by
  obtain ⟨pre, post, rfl, hpublished, hclaimed⟩ := h
  refine ⟨pre, post ++ [ev], by simp, ?_, hclaimed⟩
  rw [publications_append, hpublished, hev, List.append_nil]

/-- What a state tells of the claim and the publication. -/
def Stage (log : List (ScopeEvent σ)) : ScopeState (Finalizer σ) → Prop
  | .opened _ _ _ => claims log = [] ∧ publications log = []
  | .closing _ (some _) => claims log = [] ∧ publications log = []
  | .closing _ none => Claimed log ∧ publications log = []
  | .closed x => Claimed log ∧ Published log x

/-- Neither claim nor publication, and one more event that is neither. -/
theorem nothing_concat {ev : ScopeEvent σ} (h : claims log = [] ∧ publications log = [])
    (hclaims : claims [ev] = []) (hpublications : publications [ev] = []) :
    claims (log ++ [ev]) = [] ∧ publications (log ++ [ev]) = [] := by
  rw [claims_append, publications_append, h.1, h.2, hclaims, hpublications]
  exact ⟨rfl, rfl⟩

theorem Stage.concat {ev : ScopeEvent σ} (h : Stage log st) (hclaims : claims [ev] = [])
    (hpublications : publications [ev] = []) : Stage (log ++ [ev]) st := by
  cases st with
  | opened fs hs n => exact nothing_concat h hclaims hpublications
  | closing e u =>
      cases u with
      | some fs => exact nothing_concat h hclaims hpublications
      | none =>
          refine ⟨h.1.concat hclaims, ?_⟩
          rw [publications_append, h.2, hpublications]
          rfl
  | closed x => exact ⟨h.1.concat hclaims, h.2.concat hpublications⟩

/-- There is one claim at most, and one publication. -/
theorem Stage.at_most_once (h : Stage log st) :
    (claims log).length ≤ 1 ∧ (publications log).length ≤ 1 := by
  have hnothing : claims log = [] ∧ publications log = [] →
      (claims log).length ≤ 1 ∧ (publications log).length ≤ 1 := by
    rintro ⟨hclaims, hpublications⟩
    rw [hclaims, hpublications]
    exact ⟨Nat.zero_le _, Nat.zero_le _⟩
  cases st with
  | opened fs hs n => exact hnothing h
  | closing e u =>
      cases u with
      | some fs => exact hnothing h
      | none =>
          obtain ⟨⟨pre, post, fins, -, hclaims, -⟩, hpublications⟩ := h
          rw [hclaims, hpublications]
          exact ⟨Nat.le_refl _, Nat.zero_le _⟩
  | closed x =>
      obtain ⟨⟨pre, post, fins, -, hclaims, -⟩, -, -, -, hpublications, -⟩ := h
      rw [hclaims, hpublications]
      exact ⟨Nat.le_refl _, Nat.le_refl _⟩

/-- The finalizers of a scope are claimed once, as they stand; the exit is published once, after
that. -/
theorem stage (h : Life log st) : Stage log st := by
  induction h with
  | fresh => exact ⟨rfl, rfl⟩
  | register _ ih => exact nothing_concat ih rfl rfl
  | take _ _ ih => exact nothing_concat ih rfl rfl
  | hook _ ih => exact nothing_concat ih rfl rfl
  | late _ _ ih => exact ih.concat rfl rfl
  | request _ ih => exact nothing_concat ih rfl rfl
  | refuse _ _ ih => exact ih.concat rfl rfl
  | @claim log fs e hbefore ih =>
      have hfs : fs = standing log := hbefore.knows
      refine ⟨⟨log, [], fs, rfl, ?_, hfs.trans hbefore.standing_eq, ?_⟩, ?_⟩
      · rw [claims_append, ih.1]
        rfl
      · rcases hbefore.requests_eq with ⟨hopen, -⟩ | ⟨-, e', rest, heq, -⟩
        · cases hopen
        · rw [heq]
          exact List.cons_ne_nil _ _
      · rw [publications_append, ih.2]
        rfl
  | @publish log e x _ ih =>
      refine ⟨ih.1.concat rfl, log, [], rfl, ?_, ih.1⟩
      rw [publications_append, ih.2]
      rfl

end Life

end Fibers
