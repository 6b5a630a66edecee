import Perry.Effect.Run

/-! Computations whose second form replaces some abrupt completions by the value of a
flag and another way out. The flag is idle as long as none of them happened. -/
namespace Perry.Effect

/-- A computation that ends so. -/
def Run.ended {σ ε α : Type} (r : Except ε α) : Run σ ε α := fun s => (r,s)

/-- Which completions the flag can stand for, which may stay as they are, and how the states
are related while it has a value. After a final completion nothing looks at the flag again. -/
structure Escape (σ τ ε V : Type) where
  holds : V → σ → τ → Prop
  related : σ → τ → Prop
  idle : V
  code : ε → Option V
  plain : ε → Prop
  final : ε → Prop
  forget : ∀ {v s t}, holds v s t → related s t

namespace Escape

variable {σ τ ε V α β : Type} (escape : Escape σ τ ε V)

/-- How the two computations end: alike, or with a completion on one side and, on the
other, with the exit of the flag that stands for it. -/
inductive Ends (exit : V → Except ε α) : Except ε α × σ → Except ε α × τ → Prop where
  | normal {a s t} (idle : escape.holds escape.idle s t) : Ends exit (.ok a,s) (.ok a,t)
  | escaped {c v s t} (coded : escape.code c = some v) (held : escape.holds v s t) : Ends exit (.error c,s) (exit v,t)
  | left {c s t} (plain : escape.plain c) (idle : ¬escape.final c → escape.holds escape.idle s t)
      (related : escape.related s t) : Ends exit (.error c,s) (.error c,t)

def Flags (exit : V → Except ε α) (m : Run σ ε α) (l : Run τ ε α) : Prop :=
  ∀ s t, escape.holds escape.idle s t → escape.Ends exit (m s) (l t)

variable {escape} {exit : V → Except ε α} {exit' : V → Except ε β} {m : Run σ ε α} {l : Run τ ε α}

theorem Ends.of_left {c : ε} {s : σ} {t : τ} (plain : escape.plain c) (idle : escape.holds escape.idle s t) :
    escape.Ends exit (.error c,s) (.error c,t) := .left plain (fun _ => idle) (escape.forget idle)

namespace Flags

theorem of_keeps (same : Keeps (escape.holds escape.idle) m l) (plain : Run.Raises escape.plain m) : escape.Flags exit m l := by
  intro s t idle
  obtain ⟨equal,related⟩ := same.apply idle
  have raised := plain s
  revert equal related raised
  rcases m s with ⟨c | _,u⟩ <;> rcases l t with ⟨d | _,w⟩ <;> intro equal related raised
  · cases equal
    exact .of_left (raised c rfl) related
  · cases equal
  · cases equal
  · cases equal
    exact .normal related

theorem raise {c : ε} (plain : escape.plain c) : escape.Flags exit (Run.raise c) (Run.raise c) :=
  fun _ _ idle => .of_left plain idle

theorem pure (a : α) : escape.Flags exit (Pure.pure a) (Pure.pure a) := fun _ _ idle => .normal idle

theorem sets {c : ε} {v : V} (coded : escape.code c = some v)
    (set : ∀ s t, escape.holds escape.idle s t → ∃ u, l t = (exit v,u) ∧ escape.holds v s u) :
    escape.Flags exit (Run.raise c) l := by
  intro s t idle
  obtain ⟨u,ended,held⟩ := set s t idle
  rw [ended]
  exact .escaped coded held

/-- The first part of both sides runs in step, the second side keeping what it found. -/
theorem enter {μ ν : Type} {mid : μ → ν → σ → τ → Prop} {m : Run σ ε μ} {l : Run τ ε ν} {k : μ → Run σ ε β} {j : ν → Run τ ε β}
    (first : Sim (escape.holds escape.idle) mid (fun c d s t => c = d ∧ escape.holds escape.idle s t) m l)
    (plain : Run.Raises escape.plain m) (rest : ∀ a b s t, mid a b s t → escape.Ends exit' (k a s) (j b t)) :
    escape.Flags exit' (m >>= k) (l >>= j) := by
  intro s t idle
  have one := first s t idle
  have raised := plain s
  revert one raised
  rw [Run.bind_apply,Run.bind_apply]
  rcases m s with ⟨c | a,u⟩ <;> rcases l t with ⟨d | b,w⟩ <;> intro one raised
  · obtain ⟨rfl,idle⟩ := one
    exact .of_left (raised c rfl) idle
  · exact one.elim
  · exact one.elim
  · exact rest a b u w one

/-- Something both sides evaluate alike comes first. -/
theorem after {μ : Type} {m : Run σ ε μ} {l : Run τ ε μ} {k : μ → Run σ ε β} {j : μ → Run τ ε β}
    (same : Keeps (escape.holds escape.idle) m l) (plain : Run.Raises escape.plain m)
    (rest : ∀ a, escape.Flags exit' (k a) (j a)) : escape.Flags exit' (m >>= k) (l >>= j) := by
  refine enter same plain ?_
  rintro a b s t ⟨rfl,idle⟩
  exact rest a s t idle

/-- The second side does something of its own first. -/
theorem stutter {l : Run τ ε Unit} {j : Run τ ε β} {m : Run σ ε β} {mid : σ → τ → Prop}
    (own : Stutters (escape.holds escape.idle) mid l) (rest : ∀ s t, mid s t → escape.Ends exit' (m s) (j t)) :
    escape.Flags exit' m (l >>= fun _ => j) := by
  intro s t idle
  obtain ⟨u,ran,between⟩ := own s t idle
  rw [Run.bind_ok ran]
  exact rest s u between

theorem ite {c : Prop} [Decidable c] {m' : Run σ ε α} {l' : Run τ ε α} (yes : escape.Flags exit m l) (no : escape.Flags exit m' l') :
    escape.Flags exit (if c then m else m') (if c then l else l') := by
  by_cases h : c
  · simpa only [h,if_true] using yes
  · simpa only [h,if_false] using no

/-- One computation after another; what follows an exit moves it to the exit of the whole. -/
theorem bind {k : α → Run σ ε β} {j : α → Run τ ε β} (first : escape.Flags exit m l) (rest : ∀ a, escape.Flags exit' (k a) (j a))
    (leaves : ∀ c v s t, escape.code c = some v → escape.holds v s t →
      ∃ u, (Run.ended (exit v) >>= j) t = (exit' v,u) ∧ escape.holds v s u) : escape.Flags exit' (m >>= k) (l >>= j) := by
  intro s t idle
  have one := first s t idle
  revert one
  rw [Run.bind_apply]
  generalize last : l t = q
  rcases m s with ⟨r,u⟩
  obtain ⟨q,w⟩ := q
  intro one
  cases one with
  | normal idle =>
    rw [Run.bind_ok last]
    exact rest _ u w idle
  | @escaped c v _ _ coded held =>
    obtain ⟨x,moved,kept⟩ := leaves c v u w coded held
    have same : (l >>= j) t = (Run.ended (exit v) >>= j) w := by
      rw [Run.bind_apply,last,Run.bind_apply]
      rfl
    rw [same,moved]
    exact .escaped coded kept
  | left plain idle related =>
    rw [Run.bind_error last]
    exact .left plain idle related

/-- A handler on both sides. -/
theorem observe {f : Except ε α → Run σ ε β} {g : Except ε α → Run τ ε β} (first : escape.Flags exit m l)
    (normal : ∀ a, escape.Flags exit' (f (.ok a)) (g (.ok a)))
    (escaped : ∀ s c v u t, m s = (.error c,u) → escape.code c = some v → escape.holds v u t →
      escape.Ends exit' (f (.error c) u) (g (exit v) t))
    (left : ∀ s c u t, m s = (.error c,u) → escape.plain c → ¬escape.final c →
      escape.holds escape.idle u t → escape.Ends exit' (f (.error c) u) (g (.error c) t))
    (stops : ∀ c, escape.final c → f (.error c) = Run.raise c ∧ g (.error c) = Run.raise c) :
    escape.Flags exit' (m.observe f) (l.observe g) := by
  intro s t idle
  have one := first s t idle
  have escaped := escaped s
  have left := left s
  revert one escaped left
  rw [Run.observe_apply,Run.observe_apply]
  rcases m s with ⟨r,u⟩
  rcases l t with ⟨q,w⟩
  intro one escaped left
  cases one with
  | normal idle => exact normal _ u w idle
  | escaped coded held => exact escaped _ _ _ _ rfl coded held
  | left plain idle related =>
    rename_i c
    by_cases stop : escape.final c
    · rw [(stops c stop).1,(stops c stop).2]
      exact .left plain idle related
    · exact left _ _ _ rfl plain stop (idle stop)

/-- A step that answers no on its way out, repeated. -/
theorem iterate {out : ε} {step : Run σ ε Bool} {step' : Run τ ε Bool} {leave : V → Except ε Bool} {exit : V → Except ε Unit}
    (stop : escape.plain out) (no : ∀ v, leave v = .ok false) (ok : ∀ v, exit v = .ok ()) (each : escape.Flags leave step step')
    (n : Nat) : escape.Flags exit (Run.iterate out step n) (Run.iterate out step' n) := by
  induction n with
  | zero => exact raise stop
  | succ n ih =>
    refine bind each (fun again => ite ih (pure ())) fun c v s t _ held => ⟨t,?_,held⟩
    rw [no,ok]
    rfl

end Flags

end Escape

end Perry.Effect
