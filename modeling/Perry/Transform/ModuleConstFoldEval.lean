import Perry.Effect.Unless
import Perry.Hir.Linking
import Perry.Transform.ModuleConstFold

/-! The folded code and the code it is folded from, on two hosts that answer alike. -/
namespace Perry.Transform.ModuleConstFold
open Perry.Effect Perry.Hir

section rules

variable {W : Type} {bad : State W → Prop} {R : State W → State W → Prop} {host host' : Host W}

/-- The locals that the node writes or binds. -/
def assigns : Node → List LocalId
  | .bind id _ | .caught id | .expr (.localSet id _) | .expr (.update id _ _) => [id]
  | .expr (.withSet _ _ _ fallback _) => fallback.target.toList
  | _ => []

/-- The node writes no constant, and the closure it may make is one of those that are known. -/
structure Fits (fixed : LocalId → Prop) (made : ClosureCode → Prop) (node : Node) : Prop where
  free : ∀ id ∈ assigns node,¬ fixed id
  known : ∀ c,node.closure? = some c → made c

def makes (host : Host W) (flags : ClosureFlags) (funcId : FuncId) (captures : List LocalId) : Eval W Val := do
  let vs ← captureLocals host captures
  Host.lift (host.closure funcId flags vs)

/-- Two hosts that answer alike, unless something bad happens, where a read that is folded finds the literal. -/
structure Alike (visible : Visible) (fixed : LocalId → Prop) (made : ClosureCode → Prop) (bad : State W → Prop)
    (R : State W → State W → Prop) (host host' : Host W) : Prop where
  read : ∀ id,Unless bad R (readLocal host id) (readLocal host' id)
  folded : ∀ id l,visible id = some l → Unless bad R (readLocal host id) (pure l.val)
  write : ∀ id v,¬ fixed id → Unless bad R (writeLocal host id v) (writeLocal host' id v)
  declare : ∀ id v,¬ fixed id → Unless bad R (declareLocal host id v) (declareLocal host' id v)
  op : ∀ op vs,Unless bad R (Host.lift (host.op op vs)) (Host.lift (host'.op op vs))
  closure : ∀ c flags,made c →
    Unless bad R (makes host flags c.funcId c.captures) (makes host' flags c.funcId (unfolded visible c.captures))
  refuse : ∀ fallback property,
    Unless bad R (Host.lift (host.refuseWith fallback property)) (Host.lift (host'.refuseWith fallback property))
  await : ∀ v,Unless bad R (Host.lift (host.await v)) (Host.lift (host'.await v))
  yield : ∀ v delegate,Unless bad R (Host.lift (host.yield v delegate)) (Host.lift (host'.yield v delegate))
  allocate : ∀ id tdz,Unless bad R (Host.lift (host.allocateBox id tdz)) (Host.lift (host'.allocateBox id tdz))
  release : ∀ id,Unless bad R (Host.lift (host.releaseBox id)) (Host.lift (host'.releaseBox id))
  emit : ∀ {ε} e f,Unless bad R (Hir.emit e : Run (State W) ε Unit) (Hir.emit f)

variable {visible : Visible} {fixed : LocalId → Prop} {made : ClosureCode → Prop}

theorem unless_complete {α : Type} (r : Except Comp α) : Unless bad R (complete r : Act W α) (complete r) := by
  cases r with
  | error c => exact .raise c
  | ok a => exact .pure a

theorem unless_loopAgain (labels : List String) (r : Except Comp Unit) :
    Unless bad R (loopAgain labels r : Act W Bool) (loopAgain labels r) := by
  unfold loopAgain
  split
  · exact .pure true
  · exact .pure true
  · exact .ite (.pure true) (.raise _)
  · exact .pure false
  · exact .raise _

theorem unless_catchBreak (r : Except Comp Unit) : Unless bad R (catchBreak r : Act W Unit) (catchBreak r) := by
  unfold catchBreak
  split
  · exact .pure ()
  · exact unless_complete _

theorem unless_catchLabel (label : String) (r : Except Comp Unit) : Unless bad R (catchLabel label r : Act W Unit) (catchLabel label r) := by
  unfold catchLabel
  split
  · exact .ite (.pure ()) (.raise _)
  · exact .ite (.pure ()) (.raise _)
  · exact unless_complete _

theorem unless_finalize {mode : Mode} {m l : Act W Unit} (finals : Unless bad R m l) (r : Except Comp Unit) :
    Unless bad R (finalize mode m r) (finalize mode l r) :=
  .ite (finals.bind fun _ => unless_complete r) (unless_complete r)

theorem unless_perform {α : Type} {m l : Eval W α} (same : Unless bad R m l) : Unless bad R (perform m) (perform l) := same.mapError _

theorem unless_evalArgs {es : List Expr} (each : ∀ e ∈ es,(∀ v ∈ nodesOfExpr false e,Fits fixed made v) →
      Unless bad R (eval host e) (eval host' (foldExpr visible e))) (fits : ∀ v ∈ nodesOfList false es,Fits fixed made v) :
    Unless bad R (evalArgs host es) (evalArgs host' (foldList visible es)) := by
  induction es with
  | nil => exact .pure []
  | cons e es ih =>
    simp only [nodesOfList,List.mem_append] at fits
    rw [foldList,evalArgs,evalArgs]
    refine (each e (by simp) fun v member => fits v (.inl member)).bind fun v => ?_
    exact (ih (fun a member => each a (by simp [member])) fun v member => fits v (.inr member)).bind fun vs => .pure _

theorem unless_evalSequence {es : List Expr} (last : Val) (each : ∀ e ∈ es,(∀ v ∈ nodesOfExpr false e,Fits fixed made v) →
      Unless bad R (eval host e) (eval host' (foldExpr visible e))) (fits : ∀ v ∈ nodesOfList false es,Fits fixed made v) :
    Unless bad R (evalSequence host last es) (evalSequence host' last (foldList visible es)) := by
  induction es generalizing last with
  | nil => exact .pure last
  | cons e es ih =>
    simp only [nodesOfList,List.mem_append] at fits
    rw [foldList,evalSequence,evalSequence]
    refine (each e (by simp) fun v member => fits v (.inl member)).bind fun v => ?_
    exact ih v (fun a member => each a (by simp [member])) fun v member => fits v (.inr member)

end rules

namespace Alike

variable {W : Type} {visible : Visible} {fixed : LocalId → Prop} {made : ClosureCode → Prop} {bad : State W → Prop}
  {R : State W → State W → Prop} {host host' : Host W} (alike : Alike visible fixed made bad R host host')
include alike

theorem applyOp (op : Op) (vs : List Val) : Unless bad R (applyOp host op vs) (Hir.applyOp host' op vs) := by
  unfold Hir.applyOp
  split
  · exact .pure _
  · exact alike.op op vs

theorem updateLocal {id : LocalId} (free : ¬ fixed id) (op : UpdateOp) (pre : Bool) :
    Unless bad R (updateLocal host id op pre) (Hir.updateLocal host' id op pre) := by
  refine (alike.read id).bind fun v => (alike.applyOp _ _).bind fun old => ?_
  exact (alike.applyOp _ _).bind fun new => (alike.write id new free).bind fun _ => .pure _

theorem withStore {fallback : WithSetFallback} (free : ∀ id ∈ fallback.target.toList,¬ fixed id) (object v : Val)
    (property : String) (strict : Bool) :
    Unless bad R (withStore host object property v fallback strict) (Hir.withStore host' object property v fallback strict) := by
  have written (id : LocalId) (names : fallback.target = some id) :
      Unless bad R (writeLocal host id v >>= fun _ => pure v) (writeLocal host' id v >>= fun _ => pure v) :=
    (alike.write id v (free id (by simp [names]))).bind fun _ => .pure v
  refine (alike.applyOp _ _).bind fun has => .ite (alike.applyOp _ _) ?_
  cases fallback with
  | «local» id => exact written id rfl
  | sloppyImplicit id => exact written id rfl
  | ignore => exact .pure v
  | throwReferenceError => exact alike.refuse _ property
  | throwConstAssignment => exact alike.refuse _ property

/-- The rule for expressions. -/
theorem eval_fold {e : Expr} (fits : ∀ v ∈ nodesOfExpr false e,Fits fixed made v) :
    Unless bad R (eval host e) (eval host' (foldExpr visible e)) := by
  induction e using Expr.induct with
  | lit l => exact .pure _
  | localGet id =>
    rw [foldExpr,eval]
    cases known : visible id with
    | some l => exact alike.folded id l known
    | none => exact alike.read id
  | localSet id value ih =>
    simp only [nodesOfExpr,List.mem_cons,forall_eq_or_imp] at fits
    rw [foldExpr,eval,eval]
    exact (ih fits.2).bind fun v => (alike.write id v (fits.1.free id (List.mem_singleton_self id))).bind fun _ => .pure v
  | update id op pre =>
    simp only [nodesOfExpr,List.mem_singleton,forall_eq] at fits
    exact alike.updateLocal (fits.free id (List.mem_singleton_self id)) op pre
  | strict op args ih =>
    simp only [nodesOfExpr,List.mem_cons,forall_eq_or_imp] at fits
    rw [foldExpr,eval,eval]
    exact (unless_evalArgs ih fits.2).bind fun vs => alike.applyOp op vs
  | logical op left right ihl ihr =>
    simp only [nodesOfExpr,List.mem_cons,List.mem_append] at fits
    rw [foldExpr,eval,eval]
    refine (ihl fun v member => fits v (.inr (.inl member))).bind fun v => .ite (.pure v) ?_
    exact ihr fun v member => fits v (.inr (.inr member))
  | conditional c t e ihc iht ihe =>
    simp only [nodesOfExpr,List.mem_cons,List.mem_append] at fits
    rw [foldExpr,eval,eval]
    refine (ihc fun v member => fits v (.inr (.inl (.inl member)))).bind fun v => .ite ?_ ?_
    · exact iht fun v member => fits v (.inr (.inl (.inr member)))
    · exact ihe fun v member => fits v (.inr (.inr member))
  | sequence items ih =>
    simp only [nodesOfExpr,List.mem_cons,forall_eq_or_imp] at fits
    rw [foldExpr,eval,eval]
    exact unless_evalSequence .undefined ih fits.2
  | arrayMut kind id args ih =>
    simp only [nodesOfExpr,List.mem_cons,forall_eq_or_imp] at fits
    rw [foldExpr,eval,eval]
    exact (alike.read id).bind fun receiver => (unless_evalArgs ih fits.2).bind fun vs => alike.applyOp _ _
  | withSet object property value fallback strict iho ihv =>
    simp only [nodesOfExpr,List.mem_cons,List.mem_append] at fits
    rw [foldExpr,eval,eval]
    refine (iho fun v member => fits v (.inr (.inl member))).bind fun o => ?_
    refine (ihv fun v member => fits v (.inr (.inr member))).bind fun v => ?_
    exact alike.withStore (fits _ (.inl rfl)).free o v property strict
  | closure funcId params defaults captures mutableCaptures flags body ih =>
    simp only [nodesOfExpr,List.mem_cons,forall_eq_or_imp] at fits
    rw [foldExpr,eval,eval]
    exact alike.closure ⟨funcId,params,defaults,captures,body⟩ flags (fits.1.known _ rfl)
  | await operand ih =>
    simp only [nodesOfExpr,List.mem_cons,forall_eq_or_imp] at fits
    rw [foldExpr,eval,eval]
    exact (ih fits.2).bind fun v => (alike.emit _ _).bind fun _ => alike.await v
  | yieldNone delegate => exact (Unless.pure _).bind fun v => (alike.emit _ _).bind fun _ => alike.yield v delegate
  | yieldSome value delegate ih =>
    simp only [nodesOfExpr,nodesOfOption,List.mem_cons,forall_eq_or_imp] at fits
    rw [foldExpr,eval,eval]
    exact (ih fits.2).bind fun v => (alike.emit _ _).bind fun _ => alike.yield v delegate

theorem evalOption_fold {e : Option Expr} (fits : ∀ v ∈ nodesOfOption false e,Fits fixed made v) :
    Unless bad R (evalOption host e) (evalOption host' (foldOption visible e)) := by
  cases e with
  | none => exact .pure _
  | some e => exact alike.eval_fold fits

theorem evalTest_fold {e : Expr} (fits : ∀ v ∈ nodesOfExpr false e,Fits fixed made v) :
    Unless bad R (evalTest host e) (evalTest host' (foldExpr visible e)) :=
  (alike.eval_fold fits).bind fun _ => .pure _

theorem selectCase_fold {cases : List SwitchCase} (v : Val) (fits : ∀ v ∈ nodesOfCases false cases,Fits fixed made v) :
    Unless bad R (selectCase host v cases) (selectCase host' v (foldCases visible cases)) := by
  induction cases with
  | nil => exact .pure none
  | cons c cases ih =>
    rcases c with ⟨_ | t,body⟩
    · simp only [nodesOfCases,List.mem_append] at fits
      exact (ih fun v member => fits v (.inr member)).bind fun _ => .pure _
    · simp only [nodesOfCases,nodesOfOption,List.mem_append] at fits
      refine (alike.eval_fold fun v member => fits v (.inl (.inl member))).bind fun w => .ite (.pure _) ?_
      exact (ih fun v member => fits v (.inr member)).bind fun _ => .pure _

omit alike in
theorem defaultCase_fold (cases : List SwitchCase) : defaultCase (foldCases visible cases) = defaultCase cases := by
  induction cases with
  | nil => rfl
  | cons c cases ih =>
    rcases c with ⟨_ | t,body⟩
    · rfl
    · rw [foldCases,foldOption,defaultCase,defaultCase,ih]

section statements

variable {mode : Mode} {n : Nat}

theorem whileLoop {labels : List String} {b b' : List Stmt} {test test' : Eval W Bool} {run run' : Act W Unit} {next next' : Eval W Unit}
    (tests : Unless bad R test test') (body : Unless bad R run run') (nexts : Unless bad R next next') :
    Unless bad R (whileLoop n labels b test run next) (Hir.whileLoop n labels b' test' run' next') := by
  refine .iterate ((unless_perform tests).bind fun go => .ite ?_ (.pure false)) n
  refine (alike.emit _ _).bind fun _ => (body.observe (unless_loopAgain labels)).bind fun again => ?_
  exact .ite ((unless_perform nexts).bind fun _ => .pure true) (.pure false)

theorem doWhileLoop {labels : List String} {b b' : List Stmt} {test test' : Eval W Bool} {run run' : Act W Unit}
    (body : Unless bad R run run') (tests : Unless bad R test test') :
    Unless bad R (doWhileLoop labels b run test n) (Hir.doWhileLoop labels b' run' test' n) := by
  cases n with
  | zero => exact .raise _
  | succ n =>
    refine (alike.emit _ _).bind fun _ => (body.observe (unless_loopAgain labels)).bind fun again => ?_
    exact .ite (alike.whileLoop tests body (.pure ())) (.pure ())

omit alike in
theorem execList_fold_of {ss : List Stmt} {labels : List String} (each : ∀ s ∈ ss,(∀ v ∈ nodesOfStmt false s,Fits fixed made v) →
      ∀ labels,Unless bad R (exec host mode n labels s) (exec host' mode n labels (foldStmt visible s)))
    (fits : ∀ v ∈ nodesOfStmts false ss,Fits fixed made v) :
    Unless bad R (execList host mode n labels ss) (execList host' mode n labels (foldStmts visible ss)) := by
  induction ss with
  | nil => exact .pure ()
  | cons s ss ih =>
    simp only [nodesOfStmts,List.mem_append] at fits
    refine (each s (by simp) (fun v member => fits v (.inl member)) labels).bind fun _ => ?_
    exact ih (fun t member => each t (by simp [member])) fun v member => fits v (.inr member)

omit alike in
theorem execFrom_fold {cases : List SwitchCase} (each : ∀ c ∈ cases,∀ s ∈ c.body,(∀ v ∈ nodesOfStmt false s,Fits fixed made v) →
      ∀ labels,Unless bad R (exec host mode n labels s) (exec host' mode n labels (foldStmt visible s)))
    (fits : ∀ v ∈ nodesOfCases false cases,Fits fixed made v) (k : Nat) :
    Unless bad R (execFrom host mode n k cases) (execFrom host' mode n k (foldCases visible cases)) := by
  induction cases generalizing k with
  | nil => cases k <;> exact .pure ()
  | cons c cases ih =>
    rcases c with ⟨test,body⟩
    simp only [nodesOfCases,List.mem_append] at fits
    have rest := ih (fun d member => each d (by simp [member])) fun v member => fits v (.inr member)
    cases k with
    | zero =>
      have first : ∀ v ∈ nodesOfStmts false body,Fits fixed made v := fun v member => fits v (.inl (.inr member))
      exact (execList_fold_of (each (.mk test body) (by simp)) first).bind fun _ => rest 0
    | succ k => exact rest k

theorem execCatch_fold {h : Option CatchClause} (each : ∀ c ∈ h,∀ s ∈ c.body,(∀ v ∈ nodesOfStmt false s,Fits fixed made v) →
      ∀ labels,Unless bad R (exec host mode n labels s) (exec host' mode n labels (foldStmt visible s)))
    (fits : ∀ v ∈ nodesOfCatch false h,Fits fixed made v) (r : Except Comp Unit) :
    Unless bad R (execCatch host mode n h r) (execCatch host' mode n (foldCatch visible h) r) := by
  rcases h with _ | ⟨param,body⟩
  · exact unless_complete r
  simp only [nodesOfCatch,List.mem_append] at fits
  have binds (v : Val) : Unless bad R (bindParam host param v) (bindParam host' param v) := by
    cases param with
    | none => exact .pure ()
    | some id => exact alike.declare id v ((fits (.caught id) (.inl (by simp))).free id (List.mem_singleton_self id))
  have runs : Unless bad R (execList host mode n [] body) (execList host' mode n [] (foldStmts visible body)) :=
    execList_fold_of (each _ rfl) fun v member => fits v (.inr member)
  rcases r with (_ | v | _ | _ | _ | _ | _) | _
  case error.throw => exact (unless_perform (binds v)).bind fun _ => runs
  all_goals
    rw [foldCatch,execCatch,execCatch]
    exact unless_complete _

/-- The rule for statements. -/
theorem exec_fold {s : Stmt} (fits : ∀ v ∈ nodesOfStmt false s,Fits fixed made v) (labels : List String) :
    Unless bad R (exec host mode n labels s) (exec host' mode n labels (foldStmt visible s)) := by
  have bound {id : LocalId} {init : Option Expr} (fits : ∀ v ∈ .bind id init :: nodesOfOption false init,Fits fixed made v) :
      Unless bad R (evalOption host init >>= declareLocal host id) (evalOption host' (foldOption visible init) >>= declareLocal host' id) := by
    simp only [List.mem_cons,forall_eq_or_imp] at fits
    exact (alike.evalOption_fold fits.2).bind fun v => alike.declare id v (fits.1.free id (List.mem_singleton_self id))
  induction s using Stmt.induct generalizing labels with
  | letNone id m => exact unless_perform (bound fits)
  | letSome id m e => exact unless_perform (bound fits)
  | expr e => exact unless_perform ((alike.eval_fold fits).bind fun _ => .pure ())
  | returnStmt value => exact (unless_perform (alike.evalOption_fold fits)).bind fun v => .raise _
  | throwStmt e => exact (unless_perform (alike.eval_fold fits)).bind fun v => .raise _
  | ifStmt c t e iht ihe =>
    simp only [nodesOfStmt,nodesOfBlock_eq,List.mem_append] at fits
    rw [foldStmt,exec_if,exec_if,foldBlock_getD]
    refine (unless_perform (alike.evalTest_fold fun v member => fits v (.inl (.inl member)))).bind fun go => .ite ?_ ?_
    · exact execList_fold_of iht fun v member => fits v (.inl (.inr member))
    · exact execList_fold_of ihe fun v member => fits v (.inr member)
  | whileStmt c b ih =>
    simp only [nodesOfStmt,List.mem_append] at fits
    exact alike.whileLoop (alike.evalTest_fold fun v member => fits v (.inl member))
      (execList_fold_of ih fun v member => fits v (.inr member)) (.pure ())
  | doWhile b c ih =>
    simp only [nodesOfStmt,List.mem_append] at fits
    exact alike.doWhileLoop (execList_fold_of ih fun v member => fits v (.inr member))
      (alike.evalTest_fold fun v member => fits v (.inl member))
  | forStmt i c u b ihi ihb =>
    simp only [nodesOfStmt,List.mem_append] at fits
    have start : Unless bad R (execOption host mode n i) (execOption host' mode n (foldInit visible i)) := by
      cases i with
      | none => exact .pure ()
      | some s => exact ihi s rfl (fun v member => fits v (.inl (.inl (.inl member)))) []
    have tests : Unless bad R (evalTest? host c) (evalTest? host' (foldOption visible c)) := by
      cases c with
      | none => exact .pure true
      | some c => exact alike.evalTest_fold fun v member => fits v (.inl (.inl (.inr member)))
    have updates : Unless bad R (evalDiscard host u) (evalDiscard host' (foldOption visible u)) := by
      cases u with
      | none => exact .pure ()
      | some u => exact (alike.eval_fold fun v member => fits v (.inl (.inr member))).bind fun _ => .pure ()
    exact start.bind fun _ => alike.whileLoop tests (execList_fold_of ihb fun v member => fits v (.inr member)) updates
  | labeled l b ih => exact (ih fits (l :: labels)).observe (unless_catchLabel l)
  | tryStmt b h f ihb ihh ihf =>
    simp only [nodesOfStmt,List.mem_append] at fits
    have first : ∀ v ∈ nodesOfStmts false b,Fits fixed made v := fun v member => fits v (.inl (.inl member))
    have ran : Unless bad R (execList host mode n [] b) (execList host' mode n [] (foldStmts visible b)) := execList_fold_of ihb first
    have handled := ran.observe (alike.execCatch_fold ihh fun v member => fits v (.inl (.inr member)))
    cases f with
    | none => exact handled
    | some final => exact handled.observe (unless_finalize (execList_fold_of (ihf _ rfl) fun v member => fits v (.inr member)))
  | switch d cases ih =>
    simp only [nodesOfStmt,List.mem_append] at fits
    have selects := alike.eval_fold fun v member => fits v (.inl member)
    have tests (v : Val) := alike.selectCase_fold v fun v member => fits v (.inr member)
    rw [foldStmt,exec,exec,defaultCase_fold]
    refine (unless_perform (selects.bind tests)).bind fun k => ?_
    split
    · exact .pure ()
    · exact (execFrom_fold ih (fun v member => fits v (.inr member)) _).observe unless_catchBreak
  | preallocateBoxes ids => exact unless_perform (.forM fun id _ => alike.allocate id false)
  | preallocateTdzBoxes ids => exact unless_perform (.forM fun id _ => alike.allocate id true)
  | releaseBoxes ids => exact unless_perform (.forM fun id _ => alike.release id)
  | breakStmt => exact .raise _
  | continueStmt => exact .raise _
  | labeledBreak l => exact .raise _
  | labeledContinue l => exact .raise _

theorem bindParams_fold {args : List Val} {i : Nat} {params : List Param} (free : ∀ p ∈ params,¬ fixed p.id)
    (fits : ∀ p ∈ params,∀ v ∈ nodesOfOption false p.default,Fits fixed made v) :
    Unless bad R (bindParams host args i params)
      (bindParams host' args i (params.map fun p => { p with default := foldOption visible p.default })) := by
  induction params generalizing i with
  | nil => exact .pure ()
  | cons p ps ih =>
    have value : Unless bad R (paramValue host args i p) (paramValue host' args i { p with default := foldOption visible p.default }) := by
      refine .ite (alike.applyOp _ _) (.ite (alike.applyOp _ _) ?_)
      rcases given : p.default with _ | d
      · exact .pure _
      · have default := alike.eval_fold fun v member => fits p (by simp) v (by rw [given]; exact member)
        cases args.getD i .undefined with
        | undefined => exact default
        | _ => exact .pure _
    refine value.bind fun v => (alike.declare p.id v (free p (by simp))).bind fun _ => ?_
    exact ih (fun q member => free q (by simp [member])) fun q member => fits q (by simp [member])

end statements

end Alike

end Perry.Transform.ModuleConstFold
