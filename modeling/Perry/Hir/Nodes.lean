import Perry.Hir.Module

/-! The nodes a walk over statements meets, and what an activation keeps: an
invariant that reads, requests to the host and the writes of other locals keep is
kept by every statement whose writes of the guarded locals keep it. -/
namespace Perry.Hir

open Perry.Effect

inductive Node where
  | bind (id : LocalId) (init : Option Expr)
  | caught (id : LocalId)
  | expr (e : Expr)

section nodes

variable (enter : Bool)

mutual

/-- The nodes below an expression, parents first; closure bodies only on request. -/
def nodesOfExpr : Expr → List Node
  | .lit l => [.expr (.lit l)]
  | .localGet id => [.expr (.localGet id)]
  | .localSet id value => .expr (.localSet id value) :: nodesOfExpr value
  | .update id op pre => [.expr (.update id op pre)]
  | .strict op args => .expr (.strict op args) :: nodesOfList args
  | .logical op left right => .expr (.logical op left right) :: (nodesOfExpr left ++ nodesOfExpr right)
  | .conditional c t e => .expr (.conditional c t e) :: (nodesOfExpr c ++ nodesOfExpr t ++ nodesOfExpr e)
  | .sequence items => .expr (.sequence items) :: nodesOfList items
  | .arrayMut kind id args => .expr (.arrayMut kind id args) :: nodesOfList args
  | .withSet object property value fallback strict =>
    .expr (.withSet object property value fallback strict) :: (nodesOfExpr object ++ nodesOfExpr value)
  | .closure funcId params defaults captures mutableCaptures flags body =>
    .expr (.closure funcId params defaults captures mutableCaptures flags body) ::
      ((if enter then nodesOfStmts body else []) ++ nodesOfList defaults)
  | .await operand => .expr (.await operand) :: nodesOfExpr operand
  | .yield value delegate => .expr (.yield value delegate) :: nodesOfOption value
termination_by structural e => e

def nodesOfList : List Expr → List Node
  | [] => []
  | e :: es => nodesOfExpr e ++ nodesOfList es
termination_by structural es => es

def nodesOfOption : Option Expr → List Node
  | none => []
  | some e => nodesOfExpr e
termination_by structural e => e

def nodesOfStmt : Stmt → List Node
  | .let id _ init => .bind id init :: nodesOfOption init
  | .expr e | .throw e => nodesOfExpr e
  | .return value => nodesOfOption value
  | .if c t e => nodesOfExpr c ++ nodesOfStmts t ++ nodesOfBlock e
  | .while c b | .doWhile b c => nodesOfExpr c ++ nodesOfStmts b
  | .for i c u b => nodesOfInit i ++ nodesOfOption c ++ nodesOfOption u ++ nodesOfStmts b
  | .labeled _ s => nodesOfStmt s
  | .try b h f => nodesOfStmts b ++ nodesOfCatch h ++ nodesOfBlock f
  | .switch d cases => nodesOfExpr d ++ nodesOfCases cases
  | _ => []
termination_by structural s => s

def nodesOfStmts : List Stmt → List Node
  | [] => []
  | s :: ss => nodesOfStmt s ++ nodesOfStmts ss
termination_by structural ss => ss

def nodesOfInit : Option Stmt → List Node
  | none => []
  | some s => nodesOfStmt s
termination_by structural i => i

def nodesOfCatch : Option CatchClause → List Node
  | none => []
  | some (.mk param body) => param.toList.map .caught ++ nodesOfStmts body
termination_by structural h => h

def nodesOfBlock : Option (List Stmt) → List Node
  | none => []
  | some body => nodesOfStmts body
termination_by structural f => f

def nodesOfCases : List SwitchCase → List Node
  | [] => []
  | .mk test body :: cases => nodesOfOption test ++ nodesOfStmts body ++ nodesOfCases cases
termination_by structural cases => cases

end

section

-- equations, made here once and not by the first proofs that unfold these
attribute [local simp] nodesOfExpr nodesOfList nodesOfOption nodesOfStmt
  nodesOfStmts nodesOfInit nodesOfCatch nodesOfBlock nodesOfCases

end

theorem nodesOfBlock_eq (block : Option (List Stmt)) : nodesOfBlock enter block = nodesOfStmts enter (block.getD []) := by
  cases block <;> rfl

end nodes

section enter

theorem nodesOfList_enter {es : List Expr} (each : ∀ e ∈ es, ∀ v ∈ nodesOfExpr false e, v ∈ nodesOfExpr true e) :
    ∀ v ∈ nodesOfList false es, v ∈ nodesOfList true es := by
  induction es with
  | nil => exact fun v none => none
  | cons e es ih =>
    simp only [nodesOfList,List.mem_append]
    exact fun v member => member.imp (each e (by simp) v) (ih (fun a inside => each a (by simp [inside])) v)

/-- A walk that enters closure bodies meets what one that does not meets. -/
theorem nodesOfExpr_enter (e : Expr) : ∀ v ∈ nodesOfExpr false e, v ∈ nodesOfExpr true e := by
  induction e using Expr.induct with
  | lit l => exact fun v member => member
  | localGet id => exact fun v member => member
  | update id op pre => exact fun v member => member
  | yieldNone delegate => exact fun v member => member
  | localSet id value ih =>
    simp only [nodesOfExpr,List.mem_cons]
    exact fun v member => member.imp_right (ih v)
  | strict op args ih =>
    simp only [nodesOfExpr,List.mem_cons]
    exact fun v member => member.imp_right (nodesOfList_enter ih v)
  | sequence items ih =>
    simp only [nodesOfExpr,List.mem_cons]
    exact fun v member => member.imp_right (nodesOfList_enter ih v)
  | arrayMut kind id args ih =>
    simp only [nodesOfExpr,List.mem_cons]
    exact fun v member => member.imp_right (nodesOfList_enter ih v)
  | logical op left right ihl ihr =>
    simp only [nodesOfExpr,List.mem_cons,List.mem_append]
    exact fun v member => member.imp_right (Or.imp (ihl v) (ihr v))
  | conditional c t e ihc iht ihe =>
    simp only [nodesOfExpr,List.mem_cons,List.mem_append]
    exact fun v member => member.imp_right (Or.imp (Or.imp (ihc v) (iht v)) (ihe v))
  | withSet object property value fallback strict iho ihv =>
    simp only [nodesOfExpr,List.mem_cons,List.mem_append]
    exact fun v member => member.imp_right (Or.imp (iho v) (ihv v))
  | closure funcId params defaults captures mutableCaptures flags body ih =>
    simp only [nodesOfExpr,List.mem_cons,List.mem_append,Bool.false_eq_true,if_false,List.not_mem_nil,false_or]
    exact fun v member => member.imp_right fun inside => .inr (nodesOfList_enter ih v inside)
  | await operand ih =>
    simp only [nodesOfExpr,List.mem_cons]
    exact fun v member => member.imp_right (ih v)
  | yieldSome value delegate ih =>
    simp only [nodesOfExpr,nodesOfOption,List.mem_cons]
    exact fun v member => member.imp_right (ih v)

theorem nodesOfOption_enter (e : Option Expr) : ∀ v ∈ nodesOfOption false e, v ∈ nodesOfOption true e := by
  cases e with
  | none => exact fun v member => member
  | some e => exact nodesOfExpr_enter e

theorem nodesOfStmts_enter_of {ss : List Stmt} (each : ∀ s ∈ ss, ∀ v ∈ nodesOfStmt false s, v ∈ nodesOfStmt true s) :
    ∀ v ∈ nodesOfStmts false ss, v ∈ nodesOfStmts true ss := by
  induction ss with
  | nil => exact fun v none => none
  | cons s ss ih =>
    simp only [nodesOfStmts,List.mem_append]
    exact fun v member => member.imp (each s (by simp) v) (ih (fun t inside => each t (by simp [inside])) v)

theorem nodesOfCases_enter {cases : List SwitchCase}
    (each : ∀ c ∈ cases, ∀ s ∈ c.body, ∀ v ∈ nodesOfStmt false s, v ∈ nodesOfStmt true s) :
    ∀ v ∈ nodesOfCases false cases, v ∈ nodesOfCases true cases := by
  induction cases with
  | nil => exact fun v none => none
  | cons c cases ih =>
    rcases c with ⟨test,body⟩
    have inside := nodesOfStmts_enter_of (each (.mk test body) (by simp))
    simp only [nodesOfCases,List.mem_append]
    exact fun v member => member.imp (Or.imp (nodesOfOption_enter test v) (inside v))
      (ih (fun d later => each d (by simp [later])) v)

theorem nodesOfStmt_enter (s : Stmt) : ∀ v ∈ nodesOfStmt false s, v ∈ nodesOfStmt true s := by
  induction s using Stmt.induct with
  | letNone id m => exact fun v member => member
  | letSome id m e =>
    simp only [nodesOfStmt,nodesOfOption,List.mem_cons]
    exact fun v member => member.imp_right (nodesOfExpr_enter e v)
  | expr e => exact nodesOfExpr_enter e
  | throwStmt e => exact nodesOfExpr_enter e
  | returnStmt value => exact nodesOfOption_enter value
  | ifStmt c t e iht ihe =>
    simp only [nodesOfStmt,nodesOfBlock_eq,List.mem_append]
    exact fun v => Or.imp (Or.imp (nodesOfExpr_enter c v) (nodesOfStmts_enter_of iht v)) (nodesOfStmts_enter_of ihe v)
  | whileStmt c b ih =>
    simp only [nodesOfStmt,List.mem_append]
    exact fun v => Or.imp (nodesOfExpr_enter c v) (nodesOfStmts_enter_of ih v)
  | doWhile b c ih =>
    simp only [nodesOfStmt,List.mem_append]
    exact fun v => Or.imp (nodesOfExpr_enter c v) (nodesOfStmts_enter_of ih v)
  | forStmt i c u b ihi ihb =>
    have start : ∀ v ∈ nodesOfInit false i, v ∈ nodesOfInit true i := by
      cases i with
      | none => exact fun v member => member
      | some s => exact ihi s rfl
    simp only [nodesOfStmt,List.mem_append]
    exact fun v => Or.imp (Or.imp (Or.imp (start v) (nodesOfOption_enter c v)) (nodesOfOption_enter u v))
      (nodesOfStmts_enter_of ihb v)
  | labeled l b ih => exact ih
  | tryStmt b h f ihb ihh ihf =>
    have handler : ∀ v ∈ nodesOfCatch false h, v ∈ nodesOfCatch true h := by
      rcases h with _ | ⟨param,body⟩
      · exact fun v member => member
      · simp only [nodesOfCatch,List.mem_append]
        exact fun v => Or.imp_right (nodesOfStmts_enter_of (ihh _ rfl) v)
    have final : ∀ v ∈ nodesOfBlock false f, v ∈ nodesOfBlock true f := by
      cases f with
      | none => exact fun v member => member
      | some body => exact nodesOfStmts_enter_of (ihf _ rfl)
    simp only [nodesOfStmt,List.mem_append]
    exact fun v => Or.imp (Or.imp (nodesOfStmts_enter_of ihb v) (handler v)) (final v)
  | switch d cases ih =>
    simp only [nodesOfStmt,List.mem_append]
    exact fun v => Or.imp (nodesOfExpr_enter d v) (nodesOfCases_enter ih v)
  | preallocateBoxes ids => exact fun v member => member
  | preallocateTdzBoxes ids => exact fun v member => member
  | releaseBoxes ids => exact fun v member => member
  | breakStmt => exact fun v member => member
  | continueStmt => exact fun v member => member
  | labeledBreak l => exact fun v member => member
  | labeledContinue l => exact fun v member => member

theorem nodesOfStmts_enter (ss : List Stmt) : ∀ v ∈ nodesOfStmts false ss, v ∈ nodesOfStmts true ss :=
  nodesOfStmts_enter_of fun s _ => nodesOfStmt_enter s

end enter

def WithSetFallback.target : WithSetFallback → Option LocalId
  | .local id | .sloppyImplicit id => some id
  | _ => none

variable {W : Type}

/-- The computation keeps `I`, however it ends. -/
def Maintains {ε α : Type} (I : State W → Prop) (m : Run (State W) ε α) : Prop :=
  Run.Always I (fun _ => True) (fun _ => True) m

namespace Maintains

variable {I : State W → Prop} {ε α β : Type} {m : Run (State W) ε α}

theorem of_final (keeps : ∀ s, I s → I (m s).2) : Maintains I m := by
  intro s holds
  have kept := keeps s holds
  rcases ran : m s with ⟨e | a,t⟩
  · rw [ran] at kept
    exact ⟨trivial,kept⟩
  · rw [ran] at kept
    exact ⟨trivial,kept⟩

theorem final (keeps : Maintains I m) {s : State W} (holds : I s) : I (m s).2 := by
  have kept := keeps s holds
  rcases ran : m s with ⟨e | a,t⟩
  · rw [ran] at kept
    exact kept.2
  · rw [ran] at kept
    exact kept.2

theorem pure (a : α) : Maintains I (pure a : Run (State W) ε α) := Run.Always.pure trivial

theorem raise (e : ε) : Maintains I (Run.raise e : Run (State W) ε α) := Run.Always.raise trivial

theorem bind {k : α → Run (State W) ε β} (first : Maintains I m) (rest : ∀ a, Maintains I (k a)) :
    Maintains I (m >>= k) :=
  Run.Always.bind first fun a _ => rest a

theorem observe {k : Except ε α → Run (State W) ε β} (first : Maintains I m)
    (rest : ∀ r, Maintains I (k r)) : Maintains I (m.observe k) :=
  Run.Always.observe first (fun a _ => rest (.ok a)) fun e _ => rest (.error e)

theorem ite {c : Prop} [Decidable c] {l : Run (State W) ε α} (yes : Maintains I m) (no : Maintains I l) :
    Maintains I (if c then m else l) :=
  Run.Always.ite (fun _ => yes) fun _ => no

theorem perform {m : Eval W α} (keeps : Maintains I m) : Maintains I (perform m) :=
  Run.Always.mapError keeps fun _ _ => trivial

theorem iterate {e : ε} {step : Run (State W) ε Bool} (round : Maintains I step) (n : Nat) :
    Maintains I (Run.iterate e step n) :=
  Run.Always.iterate round trivial n

theorem complete (r : Except Comp α) : Maintains I (complete r : Act W α) := by
  cases r with
  | ok a => exact pure a
  | error c => exact raise c

theorem loopAgain (labels : List String) (r : Except Comp Unit) : Maintains I (loopAgain labels r : Act W Bool) := by
  unfold Hir.loopAgain
  split
  · exact pure true
  · exact pure true
  · exact ite (pure true) (raise _)
  · exact pure false
  · exact raise _

theorem catchBreak (r : Except Comp Unit) : Maintains I (catchBreak r : Act W Unit) := by
  unfold Hir.catchBreak
  split
  · exact pure ()
  · exact complete r

theorem catchLabel (label : String) (r : Except Comp Unit) : Maintains I (catchLabel label r : Act W Unit) := by
  unfold Hir.catchLabel
  split
  · exact ite (pure ()) (raise _)
  · exact ite (pure ()) (raise _)
  · exact complete _

theorem finalize {mode : Mode} {finalizer : Act W Unit} (keeps : Maintains I finalizer) (r : Except Comp Unit) :
    Maintains I (finalize mode finalizer r) :=
  ite (bind keeps fun _ => complete r) (complete r)

end Maintains

/-- What an activation asks of its host besides the boxes it reads and writes. -/
inductive Host.Asks (host : Host W) : {α : Type} → Run W Signal α → Prop where
  | op (op : Op) (args : List Val) : Asks host (host.op op args)
  | closure (id : FuncId) (flags : ClosureFlags) (captures : List Val) : Asks host (host.closure id flags captures)
  | refuseWith (fallback : WithSetFallback) (property : String) : Asks host (host.refuseWith fallback property)
  | await (v : Val) : Asks host (host.await v)
  | yield (v : Val) (delegate : Bool) : Asks host (host.yield v delegate)
  | allocateBox (id : LocalId) (tdz : Bool) : Asks host (host.allocateBox id tdz)
  | releaseBox (id : LocalId) : Asks host (host.releaseBox id)

/-- The steps of an activation that keep `I`: all but the writes of guarded locals. -/
structure Steady (host : Host W) (guarded : LocalId → Prop) (I : State W → Prop) : Prop where
  read : ∀ id, Maintains I (readLocal host id)
  write : ∀ id v, ¬guarded id → Maintains I (writeLocal host id v)
  declare : ∀ id v, ¬guarded id → Maintains I (declareLocal host id v)
  ask : ∀ {α : Type} {m : Run W Signal α}, host.Asks m → Maintains I (Host.lift m)
  suspend : Maintains I (emit .suspend : Eval W Unit)
  iteration : ∀ body, Maintains I (emit (.iteration body) : Act W Unit)

/-- What is asked of a node that may write a guarded local. -/
def Settles (host : Host W) (guarded : LocalId → Prop) (I : State W → Prop) : Node → Prop
  | .bind id init => guarded id → Maintains I (evalOption host init >>= declareLocal host id)
  | .caught id => ¬guarded id
  | .expr (.localSet id value) => guarded id → Maintains I (eval host (.localSet id value))
  | .expr (.update id op pre) => guarded id → Maintains I (updateLocal host id op pre)
  | .expr (.withSet _ _ _ fallback _) => ∀ id ∈ fallback.target, ¬guarded id
  | .expr _ => True

namespace Maintains

variable {host : Host W} {guarded : LocalId → Prop} {I : State W → Prop} {enter : Bool}

theorem evalArgs {es : List Expr} (each : ∀ e ∈ es, (∀ v ∈ nodesOfExpr enter e, Settles host guarded I v) →
      Maintains I (eval host e)) (settled : ∀ v ∈ nodesOfList enter es, Settles host guarded I v) :
    Maintains I (evalArgs host es) := by
  induction es with
  | nil => exact .pure []
  | cons e es ih =>
    simp only [nodesOfList,List.mem_append] at settled
    refine .bind (each e (by simp) fun v member => settled v (.inl member)) fun v => ?_
    exact .bind (ih (fun a member => each a (by simp [member])) fun v member => settled v (.inr member)) fun vs => .pure _

theorem evalSequence {es : List Expr} (last : Val)
    (each : ∀ e ∈ es, (∀ v ∈ nodesOfExpr enter e, Settles host guarded I v) → Maintains I (eval host e))
    (settled : ∀ v ∈ nodesOfList enter es, Settles host guarded I v) : Maintains I (evalSequence host last es) := by
  induction es generalizing last with
  | nil => exact .pure last
  | cons e es ih =>
    simp only [nodesOfList,List.mem_append] at settled
    refine .bind (each e (by simp) fun v member => settled v (.inl member)) fun v => ?_
    exact ih v (fun a member => each a (by simp [member])) fun v member => settled v (.inr member)

theorem execList {mode : Mode} {n : Nat} {ss : List Stmt} {labels : List String}
    (each : ∀ s ∈ ss, (∀ v ∈ nodesOfStmt enter s, Settles host guarded I v) →
      ∀ labels, Maintains I (exec host mode n labels s))
    (settled : ∀ v ∈ nodesOfStmts enter ss, Settles host guarded I v) :
    Maintains I (execList host mode n labels ss) := by
  induction ss with
  | nil => exact pure ()
  | cons s ss ih =>
    simp only [nodesOfStmts,List.mem_append] at settled
    refine bind (each s (by simp) (fun v member => settled v (.inl member)) labels) fun _ => ?_
    exact ih (fun t member => each t (by simp [member])) fun v member => settled v (.inr member)

theorem execFrom {mode : Mode} {n : Nat} {cases : List SwitchCase}
    (each : ∀ c ∈ cases, ∀ s ∈ c.body, (∀ v ∈ nodesOfStmt enter s, Settles host guarded I v) →
      ∀ labels, Maintains I (exec host mode n labels s))
    (settled : ∀ v ∈ nodesOfCases enter cases, Settles host guarded I v) (k : Nat) :
    Maintains I (execFrom host mode n k cases) := by
  induction cases generalizing k with
  | nil => cases k <;> exact pure ()
  | cons c cases ih =>
    rcases c with ⟨test,body⟩
    simp only [nodesOfCases,List.mem_append] at settled
    have rest := ih (fun d member => each d (by simp [member])) fun v member => settled v (.inr member)
    cases k with
    | zero =>
      refine bind (execList (each (.mk test body) (by simp)) fun v member => ?_) fun _ => rest 0
      exact settled v (.inl (.inr member))
    | succ k => exact rest k

end Maintains

namespace Steady

variable {host : Host W} {guarded : LocalId → Prop} {I : State W → Prop} (steady : Steady host guarded I)
include steady

theorem applyOp (op : Op) (vs : List Val) : Maintains I (applyOp host op vs) := by
  unfold Hir.applyOp
  split
  · exact .pure _
  · exact steady.ask (.op op vs)

theorem updateLocal {id : LocalId} (free : ¬guarded id) (op : UpdateOp) (pre : Bool) :
    Maintains I (updateLocal host id op pre) := by
  refine .bind (steady.read id) fun v => .bind (steady.applyOp _ _) fun old => ?_
  exact .bind (steady.applyOp _ _) fun new => .bind (steady.write id new free) fun _ => .pure _

theorem captureLocals (ids : List LocalId) : Maintains I (captureLocals host ids) := by
  induction ids with
  | nil => exact .pure _
  | cons id ids ih =>
    have first : Maintains I (captureLocal host id) := .ite (.pure _) (steady.read id)
    exact .bind first fun v => .bind ih fun vs => .pure _

theorem withStore {fallback : WithSetFallback} (free : ∀ id ∈ fallback.target, ¬guarded id) (object v : Val)
    (property : String) (strict : Bool) : Maintains I (withStore host object property v fallback strict) := by
  have written (id : LocalId) (names : fallback.target = some id) :
      Maintains I (writeLocal host id v >>= fun _ => pure v) :=
    .bind (steady.write id v (free id names)) fun _ => .pure v
  refine .bind (steady.applyOp _ _) fun has => .ite (steady.applyOp _ _) ?_
  cases fallback with
  | «local» id => exact written id rfl
  | sloppyImplicit id => exact written id rfl
  | ignore => exact .pure v
  | throwReferenceError => exact steady.ask (.refuseWith _ property)
  | throwConstAssignment => exact steady.ask (.refuseWith _ property)

theorem suspendOn {m : Run W Signal Val} (asks : host.Asks m) : Maintains I (suspendOn m) :=
  .bind steady.suspend fun _ => steady.ask asks

section expressions

variable {enter : Bool}

/-- The invariant rule for expressions. -/
theorem eval {e : Expr} (settled : ∀ v ∈ nodesOfExpr enter e, Settles host guarded I v) : Maintains I (eval host e) := by
  induction e using Expr.induct with
  | lit l => exact .pure _
  | localGet id => exact steady.read id
  | localSet id value ih =>
    simp only [nodesOfExpr,List.mem_cons] at settled
    by_cases watched : guarded id
    · exact settled _ (.inl rfl) watched
    · exact .bind (ih fun v member => settled v (.inr member)) fun v => .bind (steady.write id v watched) fun _ => .pure v
  | update id op pre =>
    simp only [nodesOfExpr,List.mem_singleton] at settled
    by_cases watched : guarded id
    · exact settled _ rfl watched
    · exact steady.updateLocal watched op pre
  | strict op args ih =>
    simp only [nodesOfExpr,List.mem_cons] at settled
    exact .bind (Maintains.evalArgs ih fun v member => settled v (.inr member)) fun vs => steady.applyOp op vs
  | logical op left right ihl ihr =>
    simp only [nodesOfExpr,List.mem_cons,List.mem_append] at settled
    refine .bind (ihl fun v member => settled v (.inr (.inl member))) fun v => .ite (.pure v) ?_
    exact ihr fun v member => settled v (.inr (.inr member))
  | conditional c t e ihc iht ihe =>
    simp only [nodesOfExpr,List.mem_cons,List.mem_append] at settled
    refine .bind (ihc fun v member => settled v (.inr (.inl (.inl member)))) fun v => .ite ?_ ?_
    · exact iht fun v member => settled v (.inr (.inl (.inr member)))
    · exact ihe fun v member => settled v (.inr (.inr member))
  | sequence items ih =>
    simp only [nodesOfExpr,List.mem_cons] at settled
    exact Maintains.evalSequence .undefined ih fun v member => settled v (.inr member)
  | arrayMut kind id args ih =>
    simp only [nodesOfExpr,List.mem_cons] at settled
    refine .bind (steady.read id) fun receiver => ?_
    exact .bind (Maintains.evalArgs ih fun v member => settled v (.inr member)) fun vs => steady.applyOp _ _
  | withSet object property value fallback strict iho ihv =>
    simp only [nodesOfExpr,List.mem_cons,List.mem_append] at settled
    have free : ∀ id ∈ fallback.target, ¬guarded id := settled _ (.inl rfl)
    refine .bind (iho fun v member => settled v (.inr (.inl member))) fun o => ?_
    refine .bind (ihv fun v member => settled v (.inr (.inr member))) fun v => ?_
    exact steady.withStore free o v property strict
  | closure funcId params defaults captures mutableCaptures flags body ih =>
    exact .bind (steady.captureLocals captures) fun vs => steady.ask (.closure funcId flags vs)
  | await operand ih =>
    simp only [nodesOfExpr,List.mem_cons] at settled
    exact .bind (ih fun v member => settled v (.inr member)) fun v => steady.suspendOn (.await v)
  | yieldNone delegate => exact steady.suspendOn (.yield .undefined delegate)
  | yieldSome value delegate ih =>
    simp only [nodesOfExpr,nodesOfOption,List.mem_cons] at settled
    exact .bind (ih fun v member => settled v (.inr member)) fun v => steady.suspendOn (.yield v delegate)

theorem evalOption {e : Option Expr} (settled : ∀ v ∈ nodesOfOption enter e, Settles host guarded I v) :
    Maintains I (evalOption host e) := by
  cases e with
  | none => exact .pure _
  | some e => exact steady.eval settled

theorem evalTest {e : Expr} (settled : ∀ v ∈ nodesOfExpr enter e, Settles host guarded I v) :
    Maintains I (evalTest host e) :=
  .bind (steady.eval settled) fun _ => .pure _

theorem selectCase {cases : List SwitchCase} (v : Val)
    (settled : ∀ v ∈ nodesOfCases enter cases, Settles host guarded I v) : Maintains I (selectCase host v cases) := by
  induction cases with
  | nil => exact .pure none
  | cons c cases ih =>
    rcases c with ⟨_ | t,body⟩
    · simp only [nodesOfCases,List.mem_append] at settled
      exact .bind (ih fun v member => settled v (.inr member)) fun _ => .pure _
    · simp only [nodesOfCases,nodesOfOption,List.mem_append] at settled
      refine .bind (steady.eval fun v member => settled v (.inl (.inl member))) fun w => .ite (.pure _) ?_
      exact .bind (ih fun v member => settled v (.inr member)) fun _ => .pure _

end expressions

section statements

variable {enter : Bool} {mode : Mode} {n : Nat}

theorem whileLoop {labels : List String} {b : List Stmt} {test : Eval W Bool} {run : Act W Unit} {next : Eval W Unit}
    (tests : Maintains I test) (body : Maintains I run) (nexts : Maintains I next) :
    Maintains I (whileLoop n labels b test run next) := by
  refine .iterate (.bind (.perform tests) fun go => .ite ?_ (.pure false)) n
  refine .bind (steady.iteration b) fun _ => .bind (.observe body (.loopAgain labels)) fun again => ?_
  exact .ite (.bind (.perform nexts) fun _ => .pure true) (.pure false)

theorem doWhileLoop {labels : List String} {b : List Stmt} {test : Eval W Bool} {run : Act W Unit}
    (body : Maintains I run) (tests : Maintains I test) : Maintains I (doWhileLoop labels b run test n) := by
  cases n with
  | zero => exact .raise _
  | succ n =>
    refine .bind (steady.iteration b) fun _ => .bind (.observe body (.loopAgain labels)) fun again => ?_
    exact .ite (steady.whileLoop tests body (.pure ())) (.pure ())

theorem execCatch {h : Option CatchClause}
    (each : ∀ c ∈ h, ∀ s ∈ c.body, (∀ v ∈ nodesOfStmt enter s, Settles host guarded I v) →
      ∀ labels, Maintains I (exec host mode n labels s))
    (settled : ∀ v ∈ nodesOfCatch enter h, Settles host guarded I v) (r : Except Comp Unit) :
    Maintains I (execCatch host mode n h r) := by
  rcases h with _ | ⟨param,body⟩
  · exact .complete r
  simp only [nodesOfCatch,List.mem_append] at settled
  have binds (v : Val) : Maintains I (bindParam host param v) := by
    cases param with
    | none => exact .pure ()
    | some id => exact steady.declare id v (settled (.caught id) (.inl (by simp)))
  have runs : Maintains I (execList host mode n [] body) :=
    .execList (each _ rfl) fun v member => settled v (.inr member)
  rcases r with (_ | v | _ | _ | _ | _ | _) | _
  case error.throw => exact .bind (.perform (binds v)) fun _ => runs
  all_goals exact .complete _

/-- The invariant rule for statements. -/
theorem exec {s : Stmt} (settled : ∀ v ∈ nodesOfStmt enter s, Settles host guarded I v) (labels : List String) :
    Maintains I (exec host mode n labels s) := by
  have bound {id : LocalId} {init : Option Expr} (settled : ∀ v ∈ .bind id init :: nodesOfOption enter init,
      Settles host guarded I v) : Maintains I (Hir.evalOption host init >>= declareLocal host id) := by
    by_cases watched : guarded id
    · exact settled (.bind id init) (List.mem_cons_self ..) watched
    · exact .bind (steady.evalOption fun v member => settled v (List.mem_cons_of_mem _ member)) fun v =>
        steady.declare id v watched
  induction s using Stmt.induct generalizing labels with
  | letNone id m => exact .perform (bound settled)
  | letSome id m e => exact .perform (bound settled)
  | expr e => exact .perform (.bind (steady.eval settled) fun _ => .pure ())
  | returnStmt value => exact .bind (.perform (steady.evalOption settled)) fun v => .raise _
  | throwStmt e => exact .bind (.perform (steady.eval settled)) fun v => .raise _
  | ifStmt c t e iht ihe =>
    simp only [nodesOfStmt,nodesOfBlock_eq,List.mem_append] at settled
    rw [exec_if]
    refine .bind (.perform (steady.evalTest fun v member => settled v (.inl (.inl member)))) fun go => .ite ?_ ?_
    · exact .execList iht fun v member => settled v (.inl (.inr member))
    · exact .execList ihe fun v member => settled v (.inr member)
  | whileStmt c b ih =>
    simp only [nodesOfStmt,List.mem_append] at settled
    exact steady.whileLoop (steady.evalTest fun v member => settled v (.inl member))
      (.execList ih fun v member => settled v (.inr member)) (.pure ())
  | doWhile b c ih =>
    simp only [nodesOfStmt,List.mem_append] at settled
    exact steady.doWhileLoop (.execList ih fun v member => settled v (.inr member))
      (steady.evalTest fun v member => settled v (.inl member))
  | forStmt i c u b ihi ihb =>
    simp only [nodesOfStmt,List.mem_append] at settled
    have start : Maintains I (execOption host mode n i) := by
      cases i with
      | none => exact .pure ()
      | some s => exact ihi s rfl (fun v member => settled v (.inl (.inl (.inl member)))) []
    have tests : Maintains I (evalTest? host c) := by
      cases c with
      | none => exact .pure true
      | some c => exact steady.evalTest fun v member => settled v (.inl (.inl (.inr member)))
    have updates : Maintains I (evalDiscard host u) := by
      cases u with
      | none => exact .pure ()
      | some u => exact .bind (steady.eval fun v member => settled v (.inl (.inr member))) fun _ => .pure ()
    exact .bind start fun _ =>
      steady.whileLoop tests (.execList ihb fun v member => settled v (.inr member)) updates
  | labeled l b ih => exact .observe (ih settled (l :: labels)) (.catchLabel l)
  | tryStmt b h f ihb ihh ihf =>
    simp only [nodesOfStmt,List.mem_append] at settled
    have handled : Maintains I ((execList host mode n [] b).observe (Hir.execCatch host mode n h)) :=
      .observe (.execList ihb fun v member => settled v (.inl (.inl member)))
        (steady.execCatch ihh fun v member => settled v (.inl (.inr member)))
    cases f with
    | none => exact handled
    | some final =>
      exact .observe handled (.finalize (.execList (ihf _ rfl) fun v member => settled v (.inr member)))
  | switch d cases ih =>
    simp only [nodesOfStmt,List.mem_append] at settled
    have selects := steady.eval fun v member => settled v (.inl member)
    have tests (v : Val) := steady.selectCase v fun v member => settled v (.inr member)
    refine .bind (.perform (.bind selects tests)) fun k => ?_
    split
    · exact .pure ()
    · exact .observe (.execFrom ih (fun v member => settled v (.inr member)) _) .catchBreak
  | preallocateBoxes ids => exact .perform (Run.Always.forM fun id _ => steady.ask (.allocateBox id false))
  | preallocateTdzBoxes ids => exact .perform (Run.Always.forM fun id _ => steady.ask (.allocateBox id true))
  | releaseBoxes ids => exact .perform (Run.Always.forM fun id _ => steady.ask (.releaseBox id))
  | breakStmt => exact .raise _
  | continueStmt => exact .raise _
  | labeledBreak l => exact .raise _
  | labeledContinue l => exact .raise _

theorem bindParams {args : List Val} {i : Nat} {params : List Param} (free : ∀ p ∈ params, ¬guarded p.id)
    (settled : ∀ p ∈ params, ∀ v ∈ nodesOfOption enter p.default, Settles host guarded I v) :
    Maintains I (bindParams host args i params) := by
  induction params generalizing i with
  | nil => exact .pure ()
  | cons p ps ih =>
    have value : Maintains I (paramValue host args i p) := by
      refine .ite (steady.applyOp _ _) (.ite (steady.applyOp _ _) ?_)
      split
      · next d given _ => exact steady.eval fun v member => settled p (by simp) v (by rw [given]; exact member)
      · exact .pure _
    refine .bind value fun v => .bind (steady.declare p.id v (free p (by simp))) fun _ => ?_
    exact ih (fun q member => free q (by simp [member])) fun q member => settled q (by simp [member])

/-- The invariant rule for activations. -/
theorem activation {outer : Bool} {code : Code} {args : List Val} (free : ∀ p ∈ code.params, ¬guarded p.id)
    (defaults : ∀ p ∈ code.params, ∀ v ∈ nodesOfOption outer p.default, Settles host guarded I v)
    (settled : ∀ v ∈ nodesOfStmts enter code.body, Settles host guarded I v) :
    Maintains I (activation host mode n code args) :=
  .bind (.perform (steady.bindParams free defaults)) fun _ =>
    .execList (fun _ _ settled => steady.exec settled) settled

end statements

end Steady

end Perry.Hir
