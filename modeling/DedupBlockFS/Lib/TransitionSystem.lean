-- SUMMARY: Guarded executable transition systems, their runs, and the rules that carry invariants along runs.
import Mathlib.Logic.Relation
import Mathlib.Tactic.Common

/-!
# Transition systems

A system is an initial state and an executable step function: `step s e` is
`none` when the event `e` is not enabled in `s`. A run is a finite sequence of
enabled steps that all satisfy a condition `P` on the state before the step, the
event and the state after it; the condition is where a theorem about runs puts
its assumptions.
-/

structure TransitionSystem (S E : Type*) where
  init : S
  step : S → E → Option S

namespace TransitionSystem

variable {S E : Type*} {sys : TransitionSystem S E} {P Q : S → E → S → Prop} {s s' s'' : S}

/-- One enabled step that satisfies `P`. -/
def StepTo (sys : TransitionSystem S E) (P : S → E → S → Prop) (s s' : S) : Prop :=
  ∃ e, sys.step s e = some s' ∧ P s e s'

/-- A finite run all of whose steps satisfy `P`. -/
def Run (sys : TransitionSystem S E) (P : S → E → S → Prop) : S → S → Prop :=
  Relation.ReflTransGen (sys.StepTo P)

/-- The states that a run from the initial state ends in. -/
def Reachable (sys : TransitionSystem S E) (P : S → E → S → Prop) (s : S) : Prop :=
  sys.Run P sys.init s

theorem Run.refl : sys.Run P s s := Relation.ReflTransGen.refl

theorem Run.trans (h : sys.Run P s s') (h' : sys.Run P s' s'') : sys.Run P s s'' :=
  Relation.ReflTransGen.trans h h'

theorem Run.step {e : E} (hstep : sys.step s e = some s') (hP : P s e s')
    (h : sys.Run P s' s'') : sys.Run P s s'' :=
  Relation.ReflTransGen.head ⟨e, hstep, hP⟩ h

theorem Run.single {e : E} (hstep : sys.step s e = some s') (hP : P s e s') : sys.Run P s s' :=
  .step hstep hP .refl

theorem Run.mono (hPQ : ∀ s e s', P s e s' → Q s e s') (h : sys.Run P s s') : sys.Run Q s s' :=
  Relation.ReflTransGen.mono (fun _ _ ⟨e, hstep, hP⟩ => ⟨e, hstep, hPQ _ _ _ hP⟩) _ _ h

/-- An invariant that every step of the run preserves holds at its end. -/
theorem Run.invariant {I : S → Prop} (h : sys.Run P s s')
    (hstep : ∀ s e s', I s → sys.step s e = some s' → P s e s' → I s') (hs : I s) : I s' := by
  induction h with
  | refl => exact hs
  | tail _ hlast ih =>
    obtain ⟨e, hse, hP⟩ := hlast
    exact hstep _ e _ ih hse hP

/-- Every step of a run starts in a state with the invariants of the run. -/
theorem Run.strengthen {I : S → Prop} (h : sys.Run P s s')
    (hstep : ∀ s e s', I s → sys.step s e = some s' → P s e s' → I s') (hs : I s) :
    sys.Run (fun s e s' => I s ∧ P s e s') s s' := by
  induction h with
  | refl => exact .refl
  | tail hrun hlast ih =>
    obtain ⟨e, hse, hP⟩ := hlast
    exact ih.trans (.single hse ⟨Run.invariant hrun hstep hs, hP⟩)

theorem Reachable.invariant {I : S → Prop} (h : sys.Reachable P s) (hinit : I sys.init)
    (hstep : ∀ s e s', I s → sys.step s e = some s' → P s e s' → I s') : I s :=
  Run.invariant h hstep hinit

/-! ## Replaying events -/

/-- Execute the events one after the other; `none` when one of them is not enabled or
    its step fails the check. -/
def replay (sys : TransitionSystem S E) (check : S → E → S → Bool) (s : S) : List E → Option S
  | [] => some s
  | e :: es =>
    match sys.step s e with
    | none => none
    | some s' => if check s e s' then sys.replay check s' es else none

theorem Run.of_replay {check : S → E → S → Bool} {es : List E}
    (hcheck : ∀ s, ∀ e ∈ es, ∀ s', check s e s' → P s e s')
    (h : sys.replay check s es = some s') : sys.Run P s s' := by
  induction es generalizing s with
  | nil => exact Option.some.inj h ▸ .refl
  | cons e es ih =>
    simp only [replay] at h
    split at h
    · cases h
    · rename_i s₁ hstep
      split at h
      · rename_i hc
        exact .step hstep (hcheck _ e List.mem_cons_self _ hc)
          (ih (fun s e' he' => hcheck s e' (List.mem_cons_of_mem e he')) h)
      · cases h

/-- A replay whose events all lower a measure is no longer than the measure allows. -/
theorem length_le_of_replay {check : S → E → S → Bool} {es : List E} {μ : S → Nat}
    (hlower : ∀ s, ∀ e ∈ es, ∀ s', sys.step s e = some s' → μ s' < μ s)
    (h : sys.replay check s es = some s') : es.length + μ s' ≤ μ s := by
  induction es generalizing s with
  | nil =>
    obtain rfl := Option.some.inj h
    exact Nat.le_of_eq (Nat.zero_add _)
  | cons e es ih =>
    simp only [replay] at h
    split at h
    · cases h
    · rename_i s₁ hstep
      split at h
      · have hrest := ih (fun s e' he' => hlower s e' (List.mem_cons_of_mem e he')) h
        have hfirst := hlower s e List.mem_cons_self s₁ hstep
        rw [List.length_cons]
        omega
      · cases h

end TransitionSystem
