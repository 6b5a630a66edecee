import Mathlib.Logic.Basic
import Mathlib.Tactic.Common

/-! State-passing computations that end normally or with an abrupt completion,
the fuelled loop over them, and the relational rules that compare two of them.
Nothing here mentions a source language: states, completions and values are
arbitrary types, and a final state is reported on every path. -/
namespace Perry.Effect

/-- A computation over states `σ`, values `α` and abrupt completions `ε`. The
state is returned on the abrupt path too, so effects are never rolled back. -/
def Run (σ ε α : Type) : Type := σ → Except ε α × σ

namespace Run

variable {σ ε α β γ : Type}

protected def pure (a : α) : Run σ ε α := fun s => (.ok a,s)

protected def bind (m : Run σ ε α) (k : α → Run σ ε β) : Run σ ε β := fun s =>
  match m s with
  | (.ok a,s') => k a s'
  | (.error e,s') => (.error e,s')

instance : Monad (Run σ ε) where
  pure := Run.pure
  bind := Run.bind

/-- Complete abruptly. -/
def raise (e : ε) : Run σ ε α := fun s => (.error e,s)

/-- Run `m` and hand its completion, normal or abrupt, to `k`. -/
def observe (m : Run σ ε α) (k : Except ε α → Run σ ε β) : Run σ ε β := fun s =>
  k (m s).1 (m s).2

def update (f : σ → σ) : Run σ ε Unit := fun s => (.ok (),f s)

theorem pure_apply (a : α) (s : σ) : (pure a : Run σ ε α) s = (.ok a,s) := rfl

theorem bind_apply (m : Run σ ε α) (k : α → Run σ ε β) (s : σ) :
    (m >>= k) s = match m s with
      | (.ok a,s') => k a s'
      | (.error e,s') => (.error e,s') := rfl

theorem bind_ok {m : Run σ ε α} {k : α → Run σ ε β} {s s' : σ} {a : α}
    (ran : m s = (.ok a,s')) : (m >>= k) s = k a s' := by
  rw [bind_apply,ran]

theorem bind_error {m : Run σ ε α} {k : α → Run σ ε β} {s s' : σ} {e : ε}
    (ran : m s = (.error e,s')) : (m >>= k) s = (.error e,s') := by
  rw [bind_apply,ran]

theorem bind_eq_ok {m : Run σ ε α} {k : α → Run σ ε β} {s t : σ} {b : β} :
    (m >>= k) s = (.ok b,t) ↔ ∃ a u, m s = (.ok a,u) ∧ k a u = (.ok b,t) := by
  rw [bind_apply]
  rcases m s with ⟨_ | a,u⟩ <;> simp

private theorem bind_pure_comp_id (m : Run σ ε α) : m >>= pure = m := by
  funext s
  rw [bind_apply]
  rcases m s with ⟨_ | a,s'⟩
  · rfl
  · rfl

private theorem bind_bind (m : Run σ ε α) (k : α → Run σ ε β) (l : β → Run σ ε γ) :
    m >>= k >>= l = m >>= fun a => k a >>= l := by
  funext s
  simp only [bind_apply]
  rcases m s with ⟨_ | a,s'⟩
  · rfl
  · rfl

instance : LawfulMonad (Run σ ε) :=
  LawfulMonad.mk' (Run σ ε) bind_pure_comp_id (fun _ _ => rfl) bind_bind

@[simp] theorem raise_bind (e : ε) (k : α → Run σ ε β) : raise e >>= k = raise e := rfl

@[simp] theorem observe_pure (a : α) (k : Except ε α → Run σ ε β) :
    observe (pure a) k = k (.ok a) := rfl

@[simp] theorem observe_raise (e : ε) (k : Except ε α → Run σ ε β) :
    observe (raise e) k = k (.error e) := rfl

theorem observe_apply (m : Run σ ε α) (k : Except ε α → Run σ ε β) (s : σ) :
    observe m k s = k (m s).1 (m s).2 := rfl

/-- Observing a sequence is observing its first part and, when that is normal,
the second. -/
theorem observe_bind (m : Run σ ε α) (l : α → Run σ ε β) (k : Except ε β → Run σ ε γ) :
    observe (m >>= l) k = observe m (fun
      | .ok a => observe (l a) k
      | .error e => k (.error e)) := by
  funext s
  simp only [observe_apply,bind_apply]
  rcases m s with ⟨_ | _,_⟩ <;> rfl

theorem observe_bind_right (m : Run σ ε α) (k : Except ε α → Run σ ε β) (l : β → Run σ ε γ) :
    observe m k >>= l = observe m fun r => k r >>= l := rfl

theorem bind_eq_observe (m : Run σ ε α) (k : α → Run σ ε β) :
    m >>= k = observe m (fun
      | .ok a => k a
      | .error e => raise e) := by
  funext s
  simp only [observe_apply,bind_apply]
  rcases m s with ⟨_ | _,_⟩ <;> rfl

/-- Rename the abrupt completions. -/
def mapError {δ : Type} (f : ε → δ) (m : Run σ ε α) : Run σ δ α := fun s =>
  match m s with
  | (.ok a,s') => (.ok a,s')
  | (.error e,s') => (.error (f e),s')

section mapError

variable {δ : Type} (f : ε → δ)

@[simp] theorem mapError_pure (a : α) : mapError f (pure a : Run σ ε α) = pure a := rfl

@[simp] theorem mapError_raise (e : ε) : mapError f (raise e : Run σ ε α) = raise (f e) := rfl

@[simp] theorem mapError_bind (m : Run σ ε α) (k : α → Run σ ε β) :
    mapError f (m >>= k) = mapError f m >>= fun a => mapError f (k a) := by
  funext s
  simp only [mapError,bind_apply]
  rcases m s with ⟨_ | a,s'⟩ <;> rfl

end mapError

/-- Run `g` on the way out of an abrupt completion, then go on with it. -/
def onExit (m : Run σ ε α) (g : ε → Run σ ε Unit) : Run σ ε α :=
  m.observe fun
    | .ok a => pure a
    | .error e => g e >>= fun _ => raise e

section onExit

variable (g : ε → Run σ ε Unit)

@[simp] theorem onExit_pure (a : α) : onExit (pure a) g = pure a := rfl

@[simp] theorem onExit_raise (e : ε) : onExit (raise e : Run σ ε α) g = g e >>= fun _ => raise e := rfl

theorem onExit_bind (m : Run σ ε α) (k : α → Run σ ε β) :
    onExit (m >>= k) g = onExit m g >>= fun a => onExit (k a) g := by
  have out (e : ε) : (g e >>= fun _ => (raise e : Run σ ε α)) >>= (fun a => onExit (k a) g) =
      g e >>= fun _ => raise e := by
    simp only [bind_assoc,raise_bind]
  funext s
  rw [bind_apply]
  simp only [onExit,observe_apply,bind_apply m k]
  rcases m s with ⟨e | a,s'⟩
  · exact (congrFun (out e) s').symm
  · rfl

/-- Nothing happens on the way out of completions that `g` ignores. -/
theorem onExit_eq_self {m : Run σ ε α} (ignored : ∀ s e, (m s).1 = .error e → g e = pure ()) :
    onExit m g = m := by
  funext s
  have fact := ignored s
  revert fact
  simp only [onExit,observe_apply]
  rcases m s with ⟨e | a,s'⟩ <;> intro fact
  · simp only [fact e rfl]
    rfl
  · rfl

theorem onExit_mapError {δ : Type} {f : δ → ε} {m : Run σ δ α} (ignored : ∀ e, g (f e) = pure ()) :
    onExit (mapError f m) g = mapError f m := by
  refine onExit_eq_self g fun s e => ?_
  simp only [mapError]
  rcases m s with ⟨d | a,s'⟩ <;> intro ended
  · cases ended
    exact ignored d
  · cases ended

/-- Moving an exit action inside a handler, where it becomes `g'`. -/
theorem onExit_observe {k k' : Except ε α → Run σ ε β} {g' : ε → Run σ ε Unit} {m : Run σ ε α}
    (normal : ∀ a, onExit (k (.ok a)) g = k' (.ok a))
    (abrupt : ∀ e, onExit (k (.error e)) g = (g' e >>= fun _ => raise e).observe k') :
    onExit (m.observe k) g = (onExit m g').observe k' := by
  funext s
  simp only [onExit,observe_apply]
  rcases m s with ⟨e | a,s'⟩
  · exact congrFun (abrupt e) s'
  · exact congrFun (normal a) s'

end onExit

/-- Every abrupt completion of `m` satisfies `Q`. -/
def Raises (Q : ε → Prop) (m : Run σ ε α) : Prop := ∀ s e, (m s).1 = .error e → Q e

namespace Raises

variable {Q : ε → Prop}

theorem pure (a : α) : Raises Q (Pure.pure a : Run σ ε α) := by
  intro s e ended
  cases ended

theorem bind {m : Run σ ε α} {k : α → Run σ ε β} (first : Raises Q m) (rest : ∀ a, Raises Q (k a)) :
    Raises Q (m >>= k) := by
  intro s e
  have one := first s
  revert one
  rw [bind_apply]
  rcases m s with ⟨d | a,s'⟩ <;> intro one ended
  · cases ended
    exact one _ rfl
  · exact rest a s' e ended

theorem forM {γ : Type} {f : γ → Run σ ε Unit} {xs : List γ} (each : ∀ x ∈ xs, Raises Q (f x)) :
    Raises Q (xs.forM f) := by
  induction xs with
  | nil => exact pure ()
  | cons x xs ih => exact bind (each x (by simp)) fun _ => ih fun y member => each y (by simp [member])

theorem mono {Q' : ε → Prop} {m : Run σ ε α} (raises : Raises Q m) (weaker : ∀ e, Q e → Q' e) : Raises Q' m :=
  fun s e ended => weaker e (raises s e ended)

theorem raise {e : ε} (holds : Q e) : Raises Q (Run.raise e : Run σ ε α) := by
  intro s f ended
  cases ended
  exact holds

theorem observe {Q' : ε → Prop} {m : Run σ ε α} {k : Except ε α → Run σ ε β} (first : Raises Q' m)
    (rest : ∀ r, (∀ e, r = .error e → Q' e) → Raises Q (k r)) : Raises Q (m.observe k) :=
  fun s => rest (m s).1 (first s) (m s).2

/-- Two handlers that agree on what `m` raises. -/
theorem observe_congr {m : Run σ ε α} {k j : Except ε α → Run σ ε β} (raises : Raises Q m)
    (same : ∀ r, (∀ e, r = .error e → Q e) → k r = j r) : Run.observe m k = Run.observe m j := by
  funext s
  rw [observe_apply,observe_apply,same _ (raises s)]

theorem ite {c : Prop} [Decidable c] {m l : Run σ ε α} (yes : c → Raises Q m) (no : ¬c → Raises Q l) :
    Raises Q (if c then m else l) := by
  by_cases h : c
  · simpa only [h,if_true] using yes h
  · simpa only [h,if_false] using no h

/-- A handler that passes on what `m` raises sees only how the continuation ends. -/
theorem observe_bind {m : Run σ ε α} {l : α → Run σ ε β} {k : Except ε β → Run σ ε γ}
    (raises : Raises Q m) (passes : ∀ e, Q e → k (.error e) = Run.raise e) :
    (m >>= l).observe k = m >>= fun a => Run.observe (l a) k := by
  funext s
  have one := raises s
  revert one
  simp only [observe_apply,bind_apply]
  rcases m s with ⟨e | a,s'⟩ <;> intro one
  · exact congrFun (passes e (one e rfl)) s'
  · rfl

end Raises

theorem onExit_of_raises {Q : ε → Prop} {m : Run σ ε α} {g : ε → Run σ ε Unit} (raises : Raises Q m)
    (ignored : ∀ e, Q e → g e = pure ()) : onExit m g = m :=
  onExit_eq_self g fun s e ended => ignored e (raises s e ended)

/-- No run of `m` ends normally. -/
def Abrupt (m : Run σ ε α) : Prop := ∀ s, ∃ e t, m s = (.error e,t)

namespace Abrupt

theorem raise (e : ε) : Abrupt (Run.raise e : Run σ ε α) := fun s => ⟨e,s,rfl⟩

theorem bind {m : Run σ ε α} (abrupt : Abrupt m) (k : α → Run σ ε β) : Abrupt (m >>= k) := by
  intro s
  obtain ⟨e,t,ended⟩ := abrupt s
  exact ⟨e,t,bind_error ended⟩

theorem after (m : Run σ ε α) {k : α → Run σ ε β} (abrupt : ∀ a, Abrupt (k a)) : Abrupt (m >>= k) := by
  intro s
  rw [bind_apply]
  rcases m s with ⟨e | a,t⟩
  · exact ⟨e,t,rfl⟩
  · exact abrupt a t

theorem ite {c : Prop} [Decidable c] {m l : Run σ ε α} (yes : Abrupt m) (no : Abrupt l) :
    Abrupt (if c then m else l) := by
  by_cases h : c
  · simpa only [h,if_true] using yes
  · simpa only [h,if_false] using no

/-- Nothing comes after it. -/
theorem bind_congr {m : Run σ ε α} (abrupt : Abrupt m) (k l : α → Run σ ε β) : m >>= k = m >>= l := by
  funext s
  obtain ⟨e,t,ended⟩ := abrupt s
  rw [bind_error ended,bind_error ended]

end Abrupt

/-- Repeat `step` while it answers `true`, at most `n` times; `out` is raised
when the bound is reached. -/
def iterate (out : ε) (step : Run σ ε Bool) : Nat → Run σ ε Unit
  | 0 => raise out
  | n + 1 => step >>= fun again => if again then iterate out step n else pure ()

theorem Raises.iterate {Q : ε → Prop} {out : ε} {step : Run σ ε Bool} (stop : Q out) (each : Raises Q step) (n : Nat) :
    Raises Q (Run.iterate out step n) := by
  induction n with
  | zero => exact Raises.raise stop
  | succ n ih => exact Raises.bind each fun again => Raises.ite (fun _ => ih) fun _ => Raises.pure ()

@[simp] theorem iterate_zero (out : ε) (step : Run σ ε Bool) : iterate out step 0 = raise out := rfl

theorem iterate_succ (out : ε) (step : Run σ ε Bool) (n : Nat) :
    iterate out step (n + 1) =
      step >>= fun again => if again then iterate out step n else pure () := rfl

theorem onExit_iterate {g : ε → Run σ ε Unit} {out : ε} (ignored : g out = pure ())
    (step : Run σ ε Bool) (n : Nat) :
    onExit (iterate out step n) g = iterate out (onExit step g) n := by
  induction n with
  | zero =>
    simp only [iterate_zero,onExit_raise,ignored]
    rfl
  | succ n ih =>
    simp only [iterate_succ,onExit_bind]
    congr 1
    funext again
    cases again with
    | false => rfl
    | true => simpa using ih

end Run

/-- Two computations started in related states end in the same way, in states
that `post` relates when both are normal and `fail` when both are abrupt. -/
def Sim {σ τ ε α β : Type} (pre : σ → τ → Prop) (post : α → β → σ → τ → Prop)
    (fail : ε → ε → σ → τ → Prop) (m : Run σ ε α) (l : Run τ ε β) : Prop :=
  ∀ s t, pre s t → match m s,l t with
    | (.ok a,s'),(.ok b,t') => post a b s' t'
    | (.error e,s'),(.error f,t') => fail e f s' t'
    | _,_ => False

namespace Sim

variable {σ τ ε α β α' β' : Type} {pre : σ → τ → Prop} {fail : ε → ε → σ → τ → Prop}

theorem pure {post : α → β → σ → τ → Prop} {a : α} {b : β}
    (related : ∀ s t, pre s t → post a b s t) :
    Sim pre post fail (Pure.pure a : Run σ ε α) (Pure.pure b : Run τ ε β) :=
  fun s t h => related s t h

theorem raise {post : α → β → σ → τ → Prop} {e f : ε} (related : ∀ s t, pre s t → fail e f s t) :
    Sim pre post fail (Run.raise e : Run σ ε α) (Run.raise f : Run τ ε β) :=
  fun s t h => related s t h

theorem bind {mid : α → β → σ → τ → Prop} {post : α' → β' → σ → τ → Prop}
    {m : Run σ ε α} {l : Run τ ε β} {k : α → Run σ ε α'} {j : β → Run τ ε β'}
    (first : Sim pre mid fail m l) (rest : ∀ a b, Sim (mid a b) post fail (k a) (j b)) :
    Sim pre post fail (m >>= k) (l >>= j) := by
  intro s t h
  have one := first s t h
  simp only [Run.bind_apply]
  revert one
  rcases m s with ⟨_ | a,s'⟩ <;> rcases l t with ⟨_ | b,t'⟩ <;> intro one
  · exact one
  · exact one.elim
  · exact one.elim
  · exact rest a b s' t' one

theorem observe {mid : Except ε α → Except ε β → σ → τ → Prop} {post : α' → β' → σ → τ → Prop}
    {m : Run σ ε α} {l : Run τ ε β} {k : Except ε α → Run σ ε α'} {j : Except ε β → Run τ ε β'}
    (first : Sim pre (fun a b => mid (.ok a) (.ok b)) (fun e f => mid (.error e) (.error f)) m l)
    (rest : ∀ x y, Sim (mid x y) post fail (k x) (j y)) :
    Sim pre post fail (m.observe k) (l.observe j) := by
  intro s t h
  have one := first s t h
  simp only [Run.observe_apply]
  revert one
  rcases m s with ⟨_ | a,s'⟩ <;> rcases l t with ⟨_ | b,t'⟩ <;> intro one
  · exact rest _ _ s' t' one
  · exact one.elim
  · exact one.elim
  · exact rest _ _ s' t' one

theorem conseq {pre' : σ → τ → Prop} {post post' : α → β → σ → τ → Prop}
    {fail' : ε → ε → σ → τ → Prop} {m : Run σ ε α} {l : Run τ ε β}
    (weak : Sim pre post fail m l) (hpre : ∀ s t, pre' s t → pre s t)
    (hpost : ∀ a b s t, post a b s t → post' a b s t)
    (hfail : ∀ e f s t, fail e f s t → fail' e f s t) : Sim pre' post' fail' m l := by
  intro s t h
  have one := weak s t (hpre s t h)
  revert one
  rcases m s with ⟨_ | a,s'⟩ <;> rcases l t with ⟨_ | b,t'⟩ <;> intro one
  · exact hfail _ _ _ _ one
  · exact one.elim
  · exact one.elim
  · exact hpost _ _ _ _ one

theorem iterate {inv : σ → τ → Prop} {out : ε} {m : Run σ ε Bool} {l : Run τ ε Bool}
    (stop : ∀ s t, inv s t → fail out out s t)
    (step : Sim inv (fun a b s t => a = b ∧ inv s t) fail m l) (n : Nat) :
    Sim inv (fun _ _ => inv) fail (Run.iterate out m n) (Run.iterate out l n) := by
  induction n with
  | zero => exact raise stop
  | succ n ih =>
    refine bind step ?_
    intro a b s t h
    obtain ⟨rfl,h⟩ := h
    cases a with
    | false => exact h
    | true => exact ih s t h

end Sim

/-- A computation of the second program alone: it ends normally and moves the relation. -/
def Stutters {σ τ ε : Type} (pre post : σ → τ → Prop) (l : Run τ ε Unit) : Prop :=
  ∀ s t, pre s t → ∃ u, l t = (.ok (),u) ∧ post s u

section stutters

variable {σ τ ε α β : Type} {pre mid : σ → τ → Prop}

theorem Stutters.pure : Stutters pre pre (Pure.pure () : Run τ ε Unit) := fun _ t related => ⟨t,rfl,related⟩

theorem Stutters.bind {post : σ → τ → Prop} {l j : Run τ ε Unit} (first : Stutters pre mid l)
    (rest : Stutters mid post j) : Stutters pre post (l >>= fun _ => j) := by
  intro s t related
  obtain ⟨u,ran,between⟩ := first s t related
  obtain ⟨w,ran',after⟩ := rest s u between
  exact ⟨w,(Run.bind_ok ran).trans ran',after⟩

theorem Sim.stutter {post : α → β → σ → τ → Prop} {fail : ε → ε → σ → τ → Prop} {l : Run τ ε Unit}
    {m : Run σ ε α} {j : Run τ ε β} (own : Stutters pre mid l) (rest : Sim mid post fail m j) :
    Sim pre post fail m (l >>= fun _ => j) := by
  intro s t related
  obtain ⟨u,ran,between⟩ := own s t related
  rw [Run.bind_ok ran]
  exact rest s u between

end stutters

/-- Two computations give the same result and keep a relation between their
states, whichever way they end. -/
def Keeps {σ τ ε α : Type} (R : σ → τ → Prop) (m : Run σ ε α) (l : Run τ ε α) : Prop :=
  Sim R (fun a b s t => a = b ∧ R s t) (fun e f s t => e = f ∧ R s t) m l

namespace Keeps

variable {σ τ ε α β : Type} {R : σ → τ → Prop}

theorem apply {m : Run σ ε α} {l : Run τ ε α} (same : Keeps R m l) {s : σ} {t : τ} (h : R s t) :
    (m s).1 = (l t).1 ∧ R (m s).2 (l t).2 := by
  have one := same s t h
  revert one
  rcases m s with ⟨_ | a,s'⟩ <;> rcases l t with ⟨_ | b,t'⟩ <;> intro one
  · exact ⟨congrArg _ one.1,one.2⟩
  · exact one.elim
  · exact one.elim
  · exact ⟨congrArg _ one.1,one.2⟩

theorem of_apply {m : Run σ ε α} {l : Run τ ε α}
    (same : ∀ s t, R s t → (m s).1 = (l t).1 ∧ R (m s).2 (l t).2) : Keeps R m l := by
  intro s t h
  have one := same s t h
  revert one
  rcases m s with ⟨_ | a,s'⟩ <;> rcases l t with ⟨_ | b,t'⟩ <;> intro one
  · exact ⟨by simpa using one.1,one.2⟩
  · simp at one
  · simp at one
  · exact ⟨by simpa using one.1,one.2⟩

theorem pure (a : α) : Keeps R (Pure.pure a : Run σ ε α) (Pure.pure a : Run τ ε α) :=
  Sim.pure fun _ _ h => ⟨rfl,h⟩

theorem raise (e : ε) : Keeps R (Run.raise e : Run σ ε α) (Run.raise e : Run τ ε α) :=
  Sim.raise fun _ _ h => ⟨rfl,h⟩

theorem bind {m : Run σ ε α} {l : Run τ ε α} {k : α → Run σ ε β} {j : α → Run τ ε β}
    (first : Keeps R m l) (rest : ∀ a, Keeps R (k a) (j a)) : Keeps R (m >>= k) (l >>= j) := by
  refine Sim.bind first ?_
  rintro a _ s t ⟨rfl,h⟩
  exact rest a s t h

theorem observe {m : Run σ ε α} {l : Run τ ε α} {k : Except ε α → Run σ ε β}
    {j : Except ε α → Run τ ε β} (first : Keeps R m l) (rest : ∀ r, Keeps R (k r) (j r)) :
    Keeps R (m.observe k) (l.observe j) := by
  intro s t h
  obtain ⟨equal,related⟩ := first.apply h
  simp only [Run.observe_apply,equal]
  exact rest _ _ _ related

/-- The handlers need to agree only on what the first computation raises. -/
theorem observe_of_raises {Q : ε → Prop} {m : Run σ ε α} {l : Run τ ε α} {k : Except ε α → Run σ ε β}
    {j : Except ε α → Run τ ε β} (first : Keeps R m l) (raises : Run.Raises Q m)
    (rest : ∀ r, (∀ e, r = .error e → Q e) → Keeps R (k r) (j r)) : Keeps R (m.observe k) (l.observe j) := by
  intro s t h
  obtain ⟨equal,related⟩ := first.apply h
  simp only [Run.observe_apply,← equal]
  exact rest _ (raises s) _ _ related

theorem mapError {δ : Type} (f : ε → δ) {m : Run σ ε α} {l : Run τ ε α} (same : Keeps R m l) :
    Keeps R (m.mapError f) (l.mapError f) := by
  intro s t h
  have one := same s t h
  revert one
  simp only [Run.mapError]
  rcases m s with ⟨_ | a,s'⟩ <;> rcases l t with ⟨_ | b,t'⟩ <;> intro one
  · exact ⟨congrArg f one.1,one.2⟩
  · exact one.elim
  · exact one.elim
  · exact one

theorem iterate {out : ε} {m : Run σ ε Bool} {l : Run τ ε Bool} (step : Keeps R m l) (n : Nat) :
    Keeps R (Run.iterate out m n) (Run.iterate out l n) :=
  Sim.conseq (Sim.iterate (fun _ _ h => ⟨rfl,h⟩) step n) (fun _ _ h => h) (fun _ _ _ _ h => ⟨rfl,h⟩)
    (fun _ _ _ _ h => h)

theorem ite {c : Prop} [Decidable c] {m m' : Run σ ε α} {l l' : Run τ ε α} (yes : c → Keeps R m l)
    (no : ¬c → Keeps R m' l') : Keeps R (if c then m else m') (if c then l else l') := by
  by_cases h : c
  · simp only [h,if_true]
    exact yes h
  · simp only [h,if_false]
    exact no h

theorem forM {γ : Type} {f : γ → Run σ ε Unit} {g : γ → Run τ ε Unit} (xs : List γ)
    (each : ∀ x, Keeps R (f x) (g x)) : Keeps R (xs.forM f) (xs.forM g) := by
  induction xs with
  | nil => exact pure ()
  | cons x xs ih => exact (each x).bind fun _ => ih

end Keeps

end Perry.Effect
