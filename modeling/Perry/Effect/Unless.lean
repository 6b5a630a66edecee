import Perry.Effect.Run

/-! Computations that agree unless the first of them meets something bad on its way, which then
stays with it. -/
namespace Perry.Effect

/-- Whatever is bad stays bad, and from related states the first computation meets something bad or both end alike, in related
states again. -/
structure Unless {σ τ ε α : Type} (bad : σ → Prop) (R : σ → τ → Prop) (m : Run σ ε α) (l : Run τ ε α) : Prop where
  stays : ∀ s,bad s → bad (m s).2
  agree : ∀ s t,R s t → bad (m s).2 ∨ (m s).1 = (l t).1 ∧ R (m s).2 (l t).2

namespace Unless

variable {σ τ ε δ α β γ : Type} {bad : σ → Prop} {R : σ → τ → Prop} {m : Run σ ε α} {l : Run τ ε α}

theorem pure (a : α) : Unless bad R (Pure.pure a : Run σ ε α) (Pure.pure a : Run τ ε α) :=
  ⟨fun _ met => met,fun _ _ related => .inr ⟨rfl,related⟩⟩

theorem raise (e : ε) : Unless bad R (Run.raise e : Run σ ε α) (Run.raise e : Run τ ε α) :=
  ⟨fun _ met => met,fun _ _ related => .inr ⟨rfl,related⟩⟩

theorem observe {k : Except ε α → Run σ ε β} {j : Except ε α → Run τ ε β} (first : Unless bad R m l)
    (rest : ∀ r,Unless bad R (k r) (j r)) : Unless bad R (m.observe k) (l.observe j) where
  stays s met := (rest _).stays _ (first.stays s met)
  agree s t related := by
    rw [Run.observe_apply,Run.observe_apply]
    rcases first.agree s t related with met | ⟨same,related⟩
    · exact .inl ((rest _).stays _ met)
    · rw [← same]
      exact (rest _).agree _ _ related

theorem bind {k : α → Run σ ε β} {j : α → Run τ ε β} (first : Unless bad R m l) (rest : ∀ a,Unless bad R (k a) (j a)) :
    Unless bad R (m >>= k) (l >>= j) := by
  rw [Run.bind_eq_observe,Run.bind_eq_observe]
  apply first.observe
  rintro (e | a)
  · exact raise e
  · exact rest a

theorem mapError (f : ε → δ) (same : Unless bad R m l) : Unless bad R (m.mapError f) (l.mapError f) := by
  have first (s : σ) : ((m.mapError f) s).2 = (m s).2 ∧ ((m.mapError f) s).1 = (m s).1.mapError f := by
    unfold Run.mapError
    rcases m s with ⟨_ | _,_⟩ <;> exact ⟨rfl,rfl⟩
  have second (t : τ) : ((l.mapError f) t).2 = (l t).2 ∧ ((l.mapError f) t).1 = (l t).1.mapError f := by
    unfold Run.mapError
    rcases l t with ⟨_ | _,_⟩ <;> exact ⟨rfl,rfl⟩
  constructor
  · intro s met
    rw [(first s).1]
    exact same.stays s met
  · intro s t related
    rw [(first s).1,(first s).2,(second t).1,(second t).2]
    exact (same.agree s t related).imp_right fun both => ⟨congrArg _ both.1,both.2⟩

theorem ite {c : Prop} [Decidable c] {m' : Run σ ε α} {l' : Run τ ε α} (yes : Unless bad R m l) (no : Unless bad R m' l') :
    Unless bad R (if c then m else m') (if c then l else l') := by
  by_cases h : c
  · rw [if_pos h,if_pos h]
    exact yes
  · rw [if_neg h,if_neg h]
    exact no

theorem iterate {out : ε} {step : Run σ ε Bool} {step' : Run τ ε Bool} (each : Unless bad R step step') (n : Nat) :
    Unless bad R (Run.iterate out step n) (Run.iterate out step' n) := by
  induction n with
  | zero => exact raise out
  | succ n ih => exact each.bind fun _ => ite ih (pure ())

/-- Sequences whose steps agree one by one. -/
theorem forM_map {κ : Type} {xs : List γ} {g h : γ → κ} {f : κ → Run σ ε Unit} {f' : κ → Run τ ε Unit}
    (each : ∀ x ∈ xs,Unless bad R (f (g x)) (f' (h x))) : Unless bad R ((xs.map g).forM f) ((xs.map h).forM f') := by
  induction xs with
  | nil => exact pure ()
  | cons x xs ih => exact (each x (List.mem_cons_self ..)).bind fun _ => ih fun y member => each y (List.mem_cons_of_mem x member)

theorem forM {xs : List γ} {f : γ → Run σ ε Unit} {f' : γ → Run τ ε Unit} (each : ∀ x ∈ xs,Unless bad R (f x) (f' x)) :
    Unless bad R (xs.forM f) (xs.forM f') := by
  have same := forM_map (g := id) (h := id) each
  rw [List.map_id] at same
  exact same

end Unless

end Perry.Effect
