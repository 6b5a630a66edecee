import Perry.Effect.Run

/-! Pre- and postconditions of one computation, with a postcondition of its own for
the abrupt path, and the rules by which they compose. -/
namespace Perry.Effect

namespace Run

variable {σ ε δ α β : Type}

/-- What holds at the end, by how the computation ended. -/
def Post (Q : α → σ → Prop) (E : ε → σ → Prop) : Except ε α → σ → Prop
  | .ok a,t => Q a t
  | .error e,t => E e t

/-- From a state in `P` the computation ends normally in `Q` or abruptly in `E`. -/
def Triple (P : σ → Prop) (m : Run σ ε α) (Q : α → σ → Prop) (E : ε → σ → Prop) : Prop :=
  ∀ s, P s → Post Q E (m s).1 (m s).2

namespace Triple

variable {P P' : σ → Prop} {m : Run σ ε α} {Q Q' : α → σ → Prop} {E E' : ε → σ → Prop}

theorem pure {a : α} (holds : ∀ s, P s → Q a s) : Triple P (pure a : Run σ ε α) Q E := holds

theorem raise {e : ε} (holds : ∀ s, P s → E e s) : Triple P (raise e : Run σ ε α) Q E := holds

theorem update {f : σ → σ} {Q : Unit → σ → Prop} (holds : ∀ s, P s → Q () (f s)) :
    Triple P (update f : Run σ ε Unit) Q E := holds

theorem conseq (triple : Triple P m Q E) (pre : ∀ s, P' s → P s) (post : ∀ a s, Q a s → Q' a s)
    (abrupt : ∀ e s, E e s → E' e s) : Triple P' m Q' E' := by
  intro s h
  have ended := triple s (pre s h)
  cases r : (m s).1 with
  | ok a =>
    rw [r] at ended
    exact post a _ ended
  | error e =>
    rw [r] at ended
    exact abrupt e _ ended

theorem pre (triple : Triple P m Q E) (stronger : ∀ s, P' s → P s) : Triple P' m Q E :=
  fun s h => triple s (stronger s h)

theorem post (triple : Triple P m Q E) (weaker : ∀ a s, Q a s → Q' a s) : Triple P m Q' E :=
  triple.conseq (fun _ h => h) weaker fun _ _ h => h

theorem bind {k : α → Run σ ε β} {R : β → σ → Prop} (first : Triple P m Q E)
    (rest : ∀ a, Triple (Q a) (k a) R E) : Triple P (m >>= k) R E := by
  intro s h
  have ended := first s h
  rw [bind_apply]
  rcases ran : m s with ⟨e | a,t⟩
  · rw [ran] at ended
    exact ended
  · rw [ran] at ended
    exact rest a t ended

/-- Both ways the observed computation ends go on to the same postconditions. -/
theorem observe {k : Except ε α → Run σ ε β} {R : β → σ → Prop} (first : Triple P m Q E)
    (normal : ∀ a, Triple (Q a) (k (.ok a)) R E') (abrupt : ∀ e, Triple (E e) (k (.error e)) R E') :
    Triple P (m.observe k) R E' := by
  intro s h
  have ended := first s h
  rw [observe_apply]
  rcases ran : m s with ⟨e | a,t⟩
  · rw [ran] at ended
    exact abrupt e t ended
  · rw [ran] at ended
    exact normal a t ended

theorem mapError {f : ε → δ} {D : δ → σ → Prop} (triple : Triple P m Q fun e => D (f e)) :
    Triple P (m.mapError f) Q D := by
  intro s h
  have ended := triple s h
  unfold Run.mapError
  rcases ran : m s with ⟨e | a,t⟩
  · rw [ran] at ended
    exact ended
  · rw [ran] at ended
    exact ended

theorem ite {c : Prop} [Decidable c] {l : Run σ ε α} (yes : c → Triple P m Q E) (no : ¬c → Triple P l Q E) :
    Triple P (if c then m else l) Q E := by
  by_cases h : c
  · rw [if_pos h]
    exact yes h
  · rw [if_neg h]
    exact no h

/-- A loop keeps what each of its rounds keeps. -/
theorem iterate {e : ε} {step : Run σ ε Bool} {I : σ → Prop} {R : Unit → σ → Prop}
    (round : Triple I step (fun again s => if again then I s else R () s) E) (ends : ∀ s, I s → E e s) (n : Nat) :
    Triple I (iterate e step n) R E := by
  induction n with
  | zero => exact ends
  | succ n ih =>
    rw [iterate_succ]
    refine bind round fun again => ?_
    cases again with
    | true => exact ih
    | false => exact fun s h => h

theorem forM {as : List β} {step : β → Run σ ε Unit} {I : σ → Prop} (each : ∀ a ∈ as, Triple I (step a) (fun _ => I) E) :
    Triple I (as.forM step) (fun _ => I) E := by
  induction as with
  | nil => exact fun s h => h
  | cons a as ih =>
    exact bind (each a (by simp)) fun _ => ih fun b member => each b (by simp [member])

end Triple

/-- The computation keeps `I`, and ends with a value in `Q` or a completion in `E`. -/
def Always (I : σ → Prop) (Q : α → Prop) (E : ε → Prop) (m : Run σ ε α) : Prop :=
  Triple I m (fun a s => Q a ∧ I s) fun e s => E e ∧ I s

namespace Always

variable {I : σ → Prop} {m : Run σ ε α} {Q Q' : α → Prop} {E E' : ε → Prop}

theorem pure {a : α} (holds : Q a) : Always I Q E (pure a : Run σ ε α) := fun _ h => ⟨holds,h⟩

theorem raise {e : ε} (holds : E e) : Always I Q E (raise e : Run σ ε α) := fun _ h => ⟨holds,h⟩

theorem weaken (always : Always I Q E m) (weaker : ∀ a, Q a → Q' a) : Always I Q' E m :=
  Triple.post always fun a _ h => ⟨weaker a h.1,h.2⟩

theorem bind {k : α → Run σ ε β} {R : β → Prop} (first : Always I Q E m) (rest : ∀ a, Q a → Always I R E (k a)) :
    Always I R E (m >>= k) :=
  Triple.bind first fun a s h => rest a h.1 s h.2

theorem observe {k : Except ε α → Run σ ε β} {R : β → Prop} (first : Always I Q E m)
    (normal : ∀ a, Q a → Always I R E' (k (.ok a))) (abrupt : ∀ e, E e → Always I R E' (k (.error e))) :
    Always I R E' (m.observe k) :=
  Triple.observe first (fun a s h => normal a h.1 s h.2) fun e s h => abrupt e h.1 s h.2

theorem mapError {f : ε → δ} {D : δ → Prop} (always : Always I Q E m) (maps : ∀ e, E e → D (f e)) :
    Always I Q D (m.mapError f) :=
  Triple.mapError (Triple.conseq always (fun _ h => h) (fun _ _ h => h) fun e _ h => ⟨maps e h.1,h.2⟩)

theorem ite {c : Prop} [Decidable c] {l : Run σ ε α} (yes : c → Always I Q E m) (no : ¬c → Always I Q E l) :
    Always I Q E (if c then m else l) := Triple.ite yes no

theorem iterate {e : ε} {step : Run σ ε Bool} (round : Always I (fun _ => True) E step) (ends : E e) (n : Nat) :
    Always I (fun _ => True) E (iterate e step n) := by
  refine Triple.iterate (Triple.post round fun again s h => ?_) (fun _ h => ⟨ends,h⟩) n
  cases again with
  | true => exact h.2
  | false => exact h

theorem forM {as : List β} {step : β → Run σ ε Unit} (each : ∀ a ∈ as, Always I (fun _ => True) E (step a)) :
    Always I (fun _ => True) E (as.forM step) := by
  refine Triple.post (Triple.forM fun a member => ?_) fun _ s h => ⟨trivial,h⟩
  exact Triple.post (each a member) fun _ s h => h.2

end Always

end Run

end Perry.Effect
