import Mathlib.Logic.Relation

/-!
# Transition systems and their reachable states

A system is given by its initial states and its steps. A property of every run is proved by an
inductive invariant; a run may further be kept inside a discipline, a predicate that every state
of the run meets, which is how assumptions on the users of a component are stated.
-/

namespace CppUtils

universe u

/-- Initial states and steps. An interleaving of several parties is one step of one of them. -/
structure TransitionSystem (State : Type u) where
  Init : State → Prop
  Step : State → State → Prop

namespace TransitionSystem

variable {State : Type u} {T : TransitionSystem State} {Keeps Keeps' : State → Prop}

/-- The states reached by the runs all of whose states meet the discipline `Keeps`. -/
inductive ReachableUnder (T : TransitionSystem State) (Keeps : State → Prop) : State → Prop
  | init {s : State} (hinit : T.Init s) (hkeeps : Keeps s) : ReachableUnder T Keeps s
  | step {s s' : State} (hreach : ReachableUnder T Keeps s) (hstep : T.Step s s')
      (hkeeps : Keeps s') : ReachableUnder T Keeps s'

/-- The states reached by any run. -/
abbrev Reachable (T : TransitionSystem State) : State → Prop := T.ReachableUnder fun _ => True

/-- A run from one state to another, of any length. -/
abbrev Steps (T : TransitionSystem State) : State → State → Prop := Relation.ReflTransGen T.Step

theorem ReachableUnder.keeps {s : State} (hreach : T.ReachableUnder Keeps s) : Keeps s := by
  cases hreach with
  | init _ hkeeps => exact hkeeps
  | step _ _ hkeeps => exact hkeeps

theorem ReachableUnder.mono (hle : ∀ s, Keeps s → Keeps' s) {s : State}
    (hreach : T.ReachableUnder Keeps s) : T.ReachableUnder Keeps' s := by
  induction hreach with
  | init hinit hkeeps => exact .init hinit (hle _ hkeeps)
  | step _ hstep hkeeps ih => exact .step ih hstep (hle _ hkeeps)

theorem ReachableUnder.reachable {s : State} (hreach : T.ReachableUnder Keeps s) : T.Reachable s :=
  hreach.mono fun _ _ => trivial

/-- An inductive invariant holds of every reachable state. The step case may use that the state
it starts from is reachable, so invariants can be proved one after another. -/
theorem ReachableUnder.invariant (I : State → Prop) (hinit : ∀ s, T.Init s → Keeps s → I s)
    (hstep : ∀ s s', T.ReachableUnder Keeps s → I s → T.Step s s' → Keeps s' → I s')
    {s : State} (hreach : T.ReachableUnder Keeps s) : I s := by
  induction hreach with
  | init h hkeeps => exact hinit _ h hkeeps
  | step hreach h hkeeps ih => exact hstep _ _ hreach ih h hkeeps

theorem Reachable.invariant (I : State → Prop) (hinit : ∀ s, T.Init s → I s)
    (hstep : ∀ s s', T.Reachable s → I s → T.Step s s' → I s') {s : State}
    (hreach : T.Reachable s) : I s :=
  ReachableUnder.invariant I (fun s h _ => hinit s h) (fun s s' hr hi h _ => hstep s s' hr hi h)
    hreach

theorem Reachable.next {s s' : State} (hreach : T.Reachable s) (hstep : T.Step s s') :
    T.Reachable s' :=
  .step hreach hstep trivial

theorem Reachable.steps {s s' : State} (hreach : T.Reachable s) (hsteps : T.Steps s s') :
    T.Reachable s' := by
  induction hsteps with
  | refl => exact hreach
  | tail _ hstep ih => exact ih.next hstep

theorem Reachable.stable (I : State → Prop)
    (hstep : ∀ s s', T.Reachable s → I s → T.Step s s' → I s') {s s' : State}
    (hreach : T.Reachable s) (hsteps : T.Steps s s') (hI : I s) : I s' := by
  induction hsteps with
  | refl => exact hI
  | tail hsteps h ih => exact hstep _ _ (hreach.steps hsteps) ih h

/-- A run given by its choices, each of which determines the next state. -/
theorem steps_of_foldlM {α : Type*} {next : State → α → Option State}
    (hnext : ∀ s x s', next s x = some s' → T.Step s s') {moves : List α} {s s' : State}
    (h : moves.foldlM next s = some s') : T.Steps s s' := by
  induction moves generalizing s with
  | nil =>
    cases h
    exact .refl
  | cons x moves ih =>
    obtain ⟨s₁, hstep, hrest⟩ := Option.bind_eq_some_iff.mp h
    exact .head (hnext s x s₁ hstep) (ih hrest)

end TransitionSystem

end CppUtils
