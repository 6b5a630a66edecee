import Perry.Hir.Frame

/-! What the transform passes share: the counter they take fresh local ids from,
and the walk that rewrites the closure bodies inside an expression. An
evaluation creates a closure by its function id, so this walk is invisible to
the activation it happens in. -/
namespace Perry.Transform

open Perry.Effect Perry.Hir

/-- A pass step that may take fresh ids from the `next_local_id` counter, which
never goes back. -/
structure Fresh (α : Type) where
  run : LocalId → α × LocalId
  grows : ∀ next, next ≤ (run next).2

namespace Fresh

instance : Monad Fresh where
  pure a := ⟨fun next => (a,next),fun _ => Nat.le_refl _⟩
  bind m k := ⟨fun next => (k (m.run next).1).run (m.run next).2,
    fun next => Nat.le_trans (m.grows next) ((k _).grows _)⟩

variable {α β : Type}

@[simp] theorem pure_run (a : α) (next : LocalId) : (pure a : Fresh α).run next = (a,next) := rfl

@[simp] theorem bind_run (m : Fresh α) (k : α → Fresh β) (next : LocalId) :
    (m >>= k).run next = (k (m.run next).1).run (m.run next).2 := rfl

end Fresh

def freshLocal : Fresh LocalId := ⟨fun next => (next,next + 1),Nat.le_succ⟩

@[simp] theorem freshLocal_run (next : LocalId) : freshLocal.run next = (next,next + 1) := rfl

section closures

variable (g : List Stmt → Fresh (List Stmt))

mutual

/-- Rewrite the body of every closure an expression builds, outermost only. -/
def onClosures : Expr → Fresh Expr
  | .lit l => pure (.lit l)
  | .localGet id => pure (.localGet id)
  | .localSet id value => do
    let value ← onClosures value
    pure (.localSet id value)
  | .update id op pre => pure (.update id op pre)
  | .strict op args => do
    let args ← onClosuresList args
    pure (.strict op args)
  | .logical op left right => do
    let left ← onClosures left
    let right ← onClosures right
    pure (.logical op left right)
  | .conditional c t e => do
    let c ← onClosures c
    let t ← onClosures t
    let e ← onClosures e
    pure (.conditional c t e)
  | .sequence items => do
    let items ← onClosuresList items
    pure (.sequence items)
  | .arrayMut kind id args => do
    let args ← onClosuresList args
    pure (.arrayMut kind id args)
  | .withSet object property value fallback strict => do
    let object ← onClosures object
    let value ← onClosures value
    pure (.withSet object property value fallback strict)
  | .closure funcId params defaults captures mutableCaptures flags body => do
    let body ← g body
    let defaults ← onClosuresList defaults
    pure (.closure funcId params defaults captures mutableCaptures flags body)
  | .await operand => do
    let operand ← onClosures operand
    pure (.await operand)
  | .yield value delegate => do
    let value ← onClosuresOption value
    pure (.yield value delegate)

def onClosuresList : List Expr → Fresh (List Expr)
  | [] => pure []
  | e :: es => do
    let e ← onClosures e
    let es ← onClosuresList es
    pure (e :: es)

def onClosuresOption : Option Expr → Fresh (Option Expr)
  | none => pure none
  | some e => do
    let e ← onClosures e
    pure (some e)

end

section

-- equations, made here once and not by the first proofs that unfold these
attribute [local simp] onClosures onClosuresList onClosuresOption

end

end closures

/-- An expression rewriter the activation cannot see. -/
structure Invisible (walk : Expr → Fresh Expr) : Prop where
  evals : ∀ {W : Type} (host : Host W) (e : Expr) (next : LocalId), eval host ((walk e).run next).1 = eval host e

private theorem evalArgs_onClosuresList {W : Type} {host : Host W} {g : List Stmt → Fresh (List Stmt)}
    {es : List Expr} (each : ∀ e ∈ es, ∀ next, eval host ((onClosures g e).run next).1 = eval host e)
    (next : LocalId) : evalArgs host ((onClosuresList g es).run next).1 = evalArgs host es := by
  induction es generalizing next with
  | nil => rfl
  | cons e es ih =>
    simp only [onClosuresList,Fresh.bind_run,Fresh.pure_run,evalArgs,each e (by simp),
      ih fun a member => each a (by simp [member])]

private theorem evalSequence_onClosuresList {W : Type} {host : Host W} {g : List Stmt → Fresh (List Stmt)}
    {es : List Expr} (each : ∀ e ∈ es, ∀ next, eval host ((onClosures g e).run next).1 = eval host e)
    (last : Val) (next : LocalId) :
    evalSequence host last ((onClosuresList g es).run next).1 = evalSequence host last es := by
  induction es generalizing next last with
  | nil => rfl
  | cons e es ih =>
    simp only [onClosuresList,Fresh.bind_run,Fresh.pure_run,evalSequence,each e (by simp),
      ih fun a member => each a (by simp [member])]

theorem eval_onClosures {W : Type} (host : Host W) (g : List Stmt → Fresh (List Stmt)) (e : Expr)
    (next : LocalId) : eval host ((onClosures g e).run next).1 = eval host e := by
  induction e using Expr.induct generalizing next with
  | lit l => rfl
  | localGet id => rfl
  | localSet id value ih => simp only [onClosures,Fresh.bind_run,Fresh.pure_run,eval,ih]
  | update id op pre => rfl
  | strict op args ih =>
    simp only [onClosures,Fresh.bind_run,Fresh.pure_run,eval,evalArgs_onClosuresList ih]
  | logical op left right ihl ihr => simp only [onClosures,Fresh.bind_run,Fresh.pure_run,eval,ihl,ihr]
  | conditional c t e ihc iht ihe =>
    simp only [onClosures,Fresh.bind_run,Fresh.pure_run,eval,ihc,iht,ihe]
  | sequence items ih =>
    simp only [onClosures,Fresh.bind_run,Fresh.pure_run,eval,evalSequence_onClosuresList ih]
  | arrayMut kind id args ih =>
    simp only [onClosures,Fresh.bind_run,Fresh.pure_run,eval,evalArgs_onClosuresList ih]
  | withSet object property value fallback strict iho ihv =>
    simp only [onClosures,Fresh.bind_run,Fresh.pure_run,eval,iho,ihv]
  | closure funcId params defaults captures mutableCaptures flags body ih =>
    simp only [onClosures,Fresh.bind_run,Fresh.pure_run,eval]
  | await operand ih => simp only [onClosures,Fresh.bind_run,Fresh.pure_run,eval,ih]
  | yieldNone delegate => rfl
  | yieldSome value delegate ih =>
    simp only [onClosures,onClosuresOption,Fresh.bind_run,Fresh.pure_run,eval,evalOption,ih]

theorem invisible_onClosures (g : List Stmt → Fresh (List Stmt)) : Invisible (onClosures g) :=
  ⟨fun host e next => eval_onClosures host g e next⟩

theorem invisible_pure : Invisible pure := ⟨fun _ _ _ => rfl⟩

end Perry.Transform
