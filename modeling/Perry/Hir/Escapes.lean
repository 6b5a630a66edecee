import Perry.Effect.Escape
import Perry.Hir.Frame

/-! Statements of a program whose second form takes other ways out for some of its jumps. -/
namespace Perry.Hir

open Perry.Effect

section escapes

variable {W V : Type} {host : Host W} {n : Nat} {inside : LocalId → Prop} {escape : Escape (State W) (State W) Comp V}

theorem complete_eq_ended {α : Type} (r : Except Comp α) : (complete r : Act W α) = Run.ended r := by
  cases r <;> rfl

/-- The flag stands for jumps only, and as long as it is idle it does not disturb the locals
of the program. -/
structure Jumping (inside : LocalId → Prop) (escape : Escape (State W) (State W) Comp V) : Prop where
  framed : Framed (fun a => inside a.id) (escape.holds escape.idle)
  final : ∀ c, escape.final c ↔ Mode.ecma.finalizes (.error c) = false
  jump : ∀ {c v}, escape.code c = some v → ∃ l, c = .break l ∨ c = .continue l
  signals : ∀ s : Signal, escape.plain s.comp
  timeouts : escape.plain .timeout

/-- A way out that is no exception and lets a `finally` block run. -/
structure Outward (exit : V → Except Comp Unit) : Prop where
  throws : ∀ v w, exit v ≠ .error (.throw w)
  finalizes : ∀ v, Mode.ecma.finalizes (exit v) = true

theorem flags_uncaught {exit : V → Except Comp Unit} {m l : Act W Unit} (first : escape.Flags exit m l) :
    escape.Flags exit (m.observe (execCatch host .ecma n none)) (l.observe (execCatch host .ecma n none)) := by
  refine first.observe (fun a => .pure a) (fun s c v u t _ coded held => ?_) (fun s c u t _ plain _ idle => .of_left plain idle)
    fun c _ => ⟨rfl,rfl⟩
  rw [execCatch,complete_eq_ended,complete_eq_ended]
  exact .escaped coded held

namespace Jumping

variable (jumping : Jumping inside escape) {exit : V → Except Comp Unit} (outward : Outward exit) {m l : Act W Unit}
  {labels : List String}
include jumping

theorem finalizes {c : Comp} {v : V} (coded : escape.code c = some v) : Mode.ecma.finalizes (.error c) = true := by
  obtain ⟨_,rfl | rfl⟩ := jumping.jump coded <;> rfl

/-- An evaluation on both sides comes first. -/
theorem performs {α β : Type} {exit : V → Except Comp β} {m l : Eval W α} {k j : α → Act W β}
    (same : Keeps (escape.holds escape.idle) m l) (rest : ∀ a, escape.Flags exit (k a) (j a)) :
    escape.Flags exit (perform m >>= k) (perform l >>= j) :=
  .after (Keeps.perform same) (raises_perform jumping.signals m) rest

theorem statement {s : Stmt} {exit : V → Except Comp Unit} (reads : ∀ a ∈ s.accesses, inside a.id)
    (plain : Run.Raises escape.plain (exec host .ecma n labels s)) :
    escape.Flags exit (exec host .ecma n labels s) (exec host .ecma n labels s) :=
  .of_keeps (jumping.framed.exec host .ecma n reads labels) plain

theorem branches {c : Expr} {t t' : List Stmt} {e e' : Option (List Stmt)} (reads : ∀ a ∈ c.accesses, inside a.id)
    (yes : escape.Flags exit (execList host .ecma n labels t) (execList host .ecma n labels t'))
    (no : escape.Flags exit (execList host .ecma n labels (e.getD [])) (execList host .ecma n labels (e'.getD []))) :
    escape.Flags exit (exec host .ecma n labels (.if c t e)) (exec host .ecma n labels (.if c t' e')) := by
  rw [exec_if,exec_if]
  exact jumping.performs (jumping.framed.evalTest host reads) fun _ => .ite yes no

theorem stops {c : Comp} (final : escape.final c) : c = .halt ∨ c = .timeout := by
  have ends := (jumping.final c).mp final
  cases c with
  | halt => exact .inl rfl
  | timeout => exact .inr rfl
  | _ => cases ends

include outward in
/-- A `catch` on both sides. -/
theorem catches {param : Option LocalId} {body body' : List Stmt} (first : escape.Flags exit m l)
    (binds : ∀ id ∈ param, inside id)
    (handled : escape.Flags exit (execList host .ecma n [] body) (execList host .ecma n [] body')) :
    escape.Flags exit (m.observe (execCatch host .ecma n (some (.mk param body))))
      (l.observe (execCatch host .ecma n (some (.mk param body')))) := by
  have passes {c : List Stmt} (r : Except Comp Unit) (other : ∀ w, r ≠ .error (.throw w)) :
      execCatch host .ecma n (some (.mk param c)) r = Run.ended r := by
    rw [← complete_eq_ended]
    rcases r with c | _
    · cases c with
      | throw w => exact absurd rfl (other w)
      | _ => rfl
    · rfl
  refine first.observe (fun a => .pure a) (fun s c v u t _ coded held => ?_) (fun s c u t _ plain _ idle => ?_) fun c final => ?_
  · have other (w : Val) : (.error c : Except Comp Unit) ≠ .error (.throw w) := by
      obtain ⟨_,rfl | rfl⟩ := jumping.jump coded <;> exact fun same => by cases same
    rw [passes _ other,passes _ (outward.throws v)]
    exact .escaped coded held
  · cases c with
    | throw v =>
      exact jumping.performs (jumping.framed.bindParam host param binds v) (fun _ => handled) u t idle
    | _ => exact .of_left plain idle
  · obtain rfl | rfl := jumping.stops final <;> exact ⟨rfl,rfl⟩

include outward in
/-- A `finally` block on both sides: how the block ends after an escape is up to the escape. -/
theorem finalizer {body body' : List Stmt} (first : escape.Flags exit m l)
    (finals : escape.Flags exit (execList host .ecma n [] body) (execList host .ecma n [] body'))
    (escaped : ∀ s c v u t, m s = (.error c,u) → escape.code c = some v → escape.holds v u t →
      escape.Ends exit ((execList host .ecma n [] body >>= fun _ => complete (.error c)) u)
        ((execList host .ecma n [] body' >>= fun _ => complete (exit v)) t))
    (kept : ∀ s c u, m s = (.error c,u) → escape.plain c → ¬escape.final c → ∀ d x v,
      execList host .ecma n [] body u = (.error d,x) → escape.code d = some v → ∃ e, exit v = .error e) :
    escape.Flags exit (m.observe (finalize .ecma (execList host .ecma n [] body)))
      (l.observe (finalize .ecma (execList host .ecma n [] body'))) := by
  refine first.observe (fun a => ?_) (fun s c v u t ran coded held => ?_) (fun s c u t ran plain goes idle => ?_) fun c final => ?_
  · exact .bind finals (fun _ => .pure a) fun c v s t _ held => ⟨t,by cases exit v <;> rfl,held⟩
  · rw [finalize,finalize,if_pos (jumping.finalizes coded),if_pos (outward.finalizes v)]
    exact escaped s c v u t ran coded held
  · have runs : Mode.ecma.finalizes (.error c) = true := by
      rw [← Bool.not_eq_false,← jumping.final]
      exact goes
    have other := kept s c u ran plain goes
    have ends := finals u t idle
    rw [finalize,finalize,if_pos runs,if_pos runs,Run.bind_apply]
    revert other ends
    generalize last : execList host .ecma n [] body' t = q
    rcases execList host .ecma n [] body u with ⟨r,x⟩
    obtain ⟨q,y⟩ := q
    intro other ends
    cases ends with
    | normal idle =>
      rw [Run.bind_ok last]
      exact .of_left plain idle
    | @escaped d v _ _ coded held =>
      obtain ⟨e,out⟩ := other d x v rfl coded
      have ends : escape.Ends exit (.error d,x) (exit v,y) := .escaped coded held
      rw [out] at last ends
      rw [Run.bind_error last]
      exact ends
    | left plain idle related =>
      rw [Run.bind_error last]
      exact .left plain idle related
  · obtain rfl | rfl := jumping.stops final <;> exact ⟨rfl,rfl⟩

end Jumping

end escapes

end Perry.Hir
