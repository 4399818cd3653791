import Mathlib.Data.Option.Basic

/-! Finite runs of a partial step function. A guard is a condition on the state
before a step and on the step; a guarded run meets it at every step it takes.
`none` ends a run: the step never returns. -/
namespace Nekros.GuardedRun

variable {State Event : Type}

def run (step : State → Event → Option State) : State → List Event → Option State
  | s,[] => some s
  | s,e::rest => (step s e).bind (fun s' => run step s' rest)

theorem runAppend (step : State → Event → Option State) (s : State) (first rest : List Event) :
    run step s (first ++ rest) = (run step s first).bind (fun s' => run step s' rest) := by
  induction first generalizing s with
  | nil => rfl
  | cons e tail ih =>
      rw [List.cons_append,run,run,Option.bind_assoc]
      exact congrArg (step s e).bind (funext ih)

def Guarded (step : State → Event → Option State) (guard : State → Event → Prop) :
    State → List Event → Prop
  | _,[] => True
  | s,e::rest => guard s e ∧ ∀ s', step s e = some s' → Guarded step guard s' rest

instance decidableGuarded (step : State → Event → Option State) (guard : State → Event → Prop)
    [∀ s e, Decidable (guard s e)] : ∀ s events, Decidable (Guarded step guard s events)
  | _,[] => .isTrue trivial
  | s,e::rest =>
      match next : step s e with
      | none => decidable_of_iff (guard s e)
          ⟨fun ok => ⟨ok,fun s' same => by rw [next] at same; cases same⟩,And.left⟩
      | some s' =>
          let _ := decidableGuarded step guard s' rest
          decidable_of_iff (guard s e ∧ Guarded step guard s' rest)
            ⟨fun ok => ⟨ok.1,fun t same => by rw [next] at same; cases same; exact ok.2⟩,
              fun ok => ⟨ok.1,ok.2 s' next⟩⟩

theorem guardedAlways {step : State → Event → Option State} {guard : State → Event → Prop}
    (always : ∀ s e, guard s e) (s : State) (events : List Event) : Guarded step guard s events := by
  induction events generalizing s with
  | nil => trivial
  | cons e rest ih => exact ⟨always s e,fun s' _ => ih s'⟩

theorem guardedImp {step : State → Event → Option State} {guard guard' : State → Event → Prop}
    (imp : ∀ s e, guard s e → guard' s e) {s : State} {events : List Event}
    (h : Guarded step guard s events) : Guarded step guard' s events := by
  induction events generalizing s with
  | nil => trivial
  | cons e rest ih => exact ⟨imp s e h.1,fun s' next => ih (h.2 s' next)⟩

theorem guardedAnd {step : State → Event → Option State} {guard guard' : State → Event → Prop}
    {s : State} {events : List Event} (h : Guarded step guard s events) (h' : Guarded step guard' s events) :
    Guarded step (fun s e => guard s e ∧ guard' s e) s events := by
  induction events generalizing s with
  | nil => trivial
  | cons e rest ih => exact ⟨⟨h.1,h'.1⟩,fun s' next => ih (h.2 s' next) (h'.2 s' next)⟩

theorem guardedCongr {step : State → Event → Option State} {guard guard' : State → Event → Prop}
    (inv : State → Prop) (same : ∀ s e, inv s → (guard s e ↔ guard' s e))
    (preserves : ∀ s e s', inv s → guard' s e → step s e = some s' → inv s')
    {s : State} {events : List Event} (initial : inv s) :
    Guarded step guard s events ↔ Guarded step guard' s events := by
  induction events generalizing s with
  | nil => exact Iff.rfl
  | cons e rest ih =>
      rw [Guarded,Guarded,same s e initial]
      refine and_congr_right fun ok => forall_congr' fun s' => forall_congr' fun next => ?_
      exact ih (preserves s e s' initial ok next)

theorem guardedInvariant {step : State → Event → Option State} {guard : State → Event → Prop}
    (inv : State → Prop)
    (preserves : ∀ s e s', inv s → guard s e → step s e = some s' → inv s')
    {s t : State} {events : List Event} (initial : inv s)
    (guarded : Guarded step guard s events) (ran : run step s events = some t) : inv t := by
  induction events generalizing s with
  | nil => cases Option.some.inj ran; exact initial
  | cons e rest ih =>
      obtain ⟨s',next,tail⟩ := Option.bind_eq_some_iff.mp ran
      exact ih (preserves s e s' initial guarded.1 next) (guarded.2 s' next) tail

theorem runInvariant {step : State → Event → Option State} (inv : State → Prop)
    (preserves : ∀ s e s', inv s → step s e = some s' → inv s')
    {s t : State} {events : List Event} (initial : inv s) (ran : run step s events = some t) : inv t := by
  induction events generalizing s with
  | nil => cases Option.some.inj ran; exact initial
  | cons e rest ih =>
      obtain ⟨s',next,tail⟩ := Option.bind_eq_some_iff.mp ran
      exact ih (preserves s e s' initial next) tail

theorem guardedReturns {step : State → Event → Option State} {guard : State → Event → Prop}
    (inv : State → Prop)
    (returns : ∀ s e, inv s → guard s e → ∃ s', step s e = some s' ∧ inv s')
    {s : State} {events : List Event} (initial : inv s) (guarded : Guarded step guard s events) :
    ∃ t, run step s events = some t ∧ inv t := by
  induction events generalizing s with
  | nil => exact ⟨s,rfl,initial⟩
  | cons e rest ih =>
      obtain ⟨s',next,kept⟩ := returns s e initial guarded.1
      obtain ⟨t,ran,final⟩ := ih kept (guarded.2 s' next)
      exact ⟨t,Option.bind_eq_some_iff.mpr ⟨s',next,ran⟩,final⟩

def Along (step : State → Event → Option State) (holds : State → Prop) : State → List Event → Prop
  | s,[] => holds s
  | s,e::rest => holds s ∧ ∀ s', step s e = some s' → Along step holds s' rest

theorem alongHead {step : State → Event → Option State} {holds : State → Prop} {s : State}
    {events : List Event} (h : Along step holds s events) : holds s := by
  cases events with
  | nil => exact h
  | cons e rest => exact h.1

/- A guard is exact when the first step that misses it breaks the property at once. -/
theorem guardExact {step : State → Event → Option State} {valid guard : State → Event → Prop}
    {holds : State → Prop} (inv : State → Prop) (sound : ∀ s, inv s → holds s)
    (keeps : ∀ s e s', inv s → valid s e → guard s e → step s e = some s' → inv s')
    (breaks : ∀ s e, inv s → valid s e → ¬ guard s e → ∃ s', step s e = some s' ∧ ¬ holds s')
    {s : State} {events : List Event} (initial : inv s) (ok : Guarded step valid s events) :
    Along step holds s events ↔ Guarded step guard s events := by
  induction events generalizing s with
  | nil => exact iff_of_true (sound s initial) trivial
  | cons e rest ih =>
      by_cases meets : guard s e
      · have later : ∀ s', step s e = some s' →
            (Along step holds s' rest ↔ Guarded step guard s' rest) :=
          fun s' next => ih (keeps s e s' initial ok.1 meets next) (ok.2 s' next)
        constructor
        · exact fun along => ⟨meets,fun s' next => (later s' next).mp (along.2 s' next)⟩
        · exact fun guarded => ⟨sound s initial,fun s' next => (later s' next).mpr (guarded.2 s' next)⟩
      · obtain ⟨s',next,broken⟩ := breaks s e initial ok.1 meets
        exact iff_of_false (fun along => broken (alongHead (along.2 s' next))) (fun guarded => meets guarded.1)

end Nekros.GuardedRun
