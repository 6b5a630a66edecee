import Mathlib.Tactic.TypeStar

/-! Runs of a machine that takes one event at a time, an event it cannot take being
refused. An invariant is carried along a run, and a measure that every step
lowers bounds its length. -/

namespace Perry.Machine

variable {σ ε : Type*} (step : σ → ε → Option σ)

inductive Runs : σ → List ε → σ → Prop
  | nil (s : σ) : Runs s [] s
  | cons {s t u : σ} {e : ε} {es : List ε} (taken : step s e = some t) (rest : Runs t es u) : Runs s (e :: es) u

/-- Each event of the run meets the condition in the state in which it is taken. -/
def Throughout (condition : σ → ε → Prop) : σ → List ε → Prop
  | _,[] => True
  | s,e :: es => condition s e ∧ ∀ t,step s e = some t → Throughout condition t es

variable {step}

/-- A run is computed. -/
theorem Runs.foldlM_eq {s t : σ} {es : List ε} (run : Runs step s es t) : es.foldlM step s = some t := by
  induction run with
  | nil => rfl
  | cons taken _ ih =>
    rw [List.foldlM_cons,taken]
    exact ih

instance Throughout.decidable {condition : σ → ε → Prop} [∀ s e, Decidable (condition s e)] :
    (s : σ) → (es : List ε) → Decidable (Throughout step condition s es)
  | _,[] => .isTrue trivial
  | s,e :: es => match taken : step s e with
    | none => decidable_of_iff (condition s e) ⟨fun met => ⟨met,fun t next => by rw [taken] at next; cases next⟩,And.left⟩
    | some t =>
      have : Decidable (Throughout step condition t es) := Throughout.decidable t es
      decidable_of_iff (condition s e ∧ Throughout step condition t es)
        ⟨fun met => ⟨met.1,fun u next => by rw [taken] at next; cases next; exact met.2⟩,fun met => ⟨met.1,met.2 t taken⟩⟩

theorem Runs.append {s t u : σ} {es fs : List ε} (first : Runs step s es t) (second : Runs step t fs u) :
    Runs step s (es ++ fs) u := by
  induction first with
  | nil => exact second
  | cons taken _ ih => exact .cons taken (ih second)

theorem Runs.invariant {Inv : σ → Prop} (preserved : ∀ {s e t}, Inv s → step s e = some t → Inv t)
    {s t : σ} {es : List ε} (run : Runs step s es t) (start : Inv s) : Inv t := by
  induction run with
  | nil => exact start
  | cons taken _ ih => exact ih (preserved start taken)

theorem Throughout.append {condition : σ → ε → Prop} {s t : σ} {es fs : List ε} (run : Runs step s es t)
    (whole : Throughout step condition s (es ++ fs)) : Throughout step condition t fs := by
  induction run with
  | nil => exact whole
  | cons taken _ ih => exact ih (whole.2 _ taken)

/-- An invariant that is preserved where the condition is met. -/
theorem Runs.invariant_of {Inv : σ → Prop} {condition : σ → ε → Prop}
    (preserved : ∀ {s e t}, Inv s → condition s e → step s e = some t → Inv t)
    {s t : σ} {es : List ε} (run : Runs step s es t) (met : Throughout step condition s es) (start : Inv s) : Inv t := by
  induction run with
  | nil => exact start
  | cons taken _ ih => exact ih (met.2 _ taken) (preserved start met.1 taken)

/-- A machine that answers every event as its specification does, where the condition is met, never
refuses one. -/
theorem Throughout.simulates {τ : Type*} {R : σ → τ → Prop} {spec : τ → ε → τ} {condition : σ → ε → Prop} {Allowed : ε → Prop}
    (forward : ∀ {s a e}, R s a → Allowed e → condition s e → ∃ t, step s e = some t ∧ R t (spec a e))
    {s : σ} {a : τ} {es : List ε} (met : Throughout step condition s es) (allowed : ∀ e ∈ es, Allowed e) (start : R s a) :
    ∃ t, Runs step s es t ∧ R t (es.foldl spec a) := by
  induction es generalizing s a with
  | nil => exact ⟨s,.nil s,start⟩
  | cons e es ih =>
    obtain ⟨first,others⟩ := List.forall_mem_cons.mp allowed
    obtain ⟨t,taken,related⟩ := forward start first met.1
    obtain ⟨u,run,reached⟩ := ih (met.2 t taken) others related
    exact ⟨u,.cons taken run,reached⟩

/-- The same, for all events. -/
theorem Throughout.refines {τ : Type*} {R : σ → τ → Prop} {spec : τ → ε → τ} {condition : σ → ε → Prop}
    (forward : ∀ {s a e}, R s a → condition s e → ∃ t, step s e = some t ∧ R t (spec a e))
    {s : σ} {a : τ} {es : List ε} (met : Throughout step condition s es) (start : R s a) :
    ∃ t, Runs step s es t ∧ R t (es.foldl spec a) := by
  have allowed : ∀ e ∈ es, (fun _ : ε => True) e := fun _ _ => trivial
  have answers : ∀ {s a e}, R s a → (fun _ : ε => True) e → condition s e → ∃ t, step s e = some t ∧ R t (spec a e) :=
    fun related _ met => forward related met
  exact Throughout.simulates answers met allowed start

/-- A machine that takes every event that meets the condition, with an invariant that carries it on. -/
theorem Throughout.invariant {Inv : σ → Prop} {condition : σ → ε → Prop}
    (taken : ∀ {s e}, Inv s → condition s e → ∃ t, step s e = some t ∧ Inv t)
    {s : σ} {es : List ε} (met : Throughout step condition s es) (start : Inv s) : ∃ t, Runs step s es t ∧ Inv t := by
  induction es generalizing s with
  | nil => exact ⟨s,.nil s,start⟩
  | cons e es ih =>
    obtain ⟨t,here,inv⟩ := taken start met.1
    obtain ⟨u,run,reached⟩ := ih (met.2 t here) inv
    exact ⟨u,.cons here run,reached⟩

/-- Where every step lowers a measure, the measure bounds the length of a run. -/
theorem Runs.length_le {Inv : σ → Prop} {Allowed : ε → Prop} (measure : σ → Nat)
    (lower : ∀ {s e t}, Inv s → Allowed e → step s e = some t → Inv t ∧ measure t < measure s)
    {s t : σ} {es : List ε} (run : Runs step s es t) (allowed : ∀ e ∈ es, Allowed e) (start : Inv s) :
    Inv t ∧ es.length + measure t ≤ measure s := by
  induction run with
  | nil => exact ⟨start,Nat.le_of_eq (Nat.zero_add _)⟩
  | cons taken _ ih =>
    obtain ⟨first,others⟩ := List.forall_mem_cons.mp allowed
    obtain ⟨inv,less⟩ := lower start first taken
    obtain ⟨reached,bound⟩ := ih others inv
    refine ⟨reached,?_⟩
    rw [List.length_cons]
    omega

end Perry.Machine
