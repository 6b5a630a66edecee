import Perry.Transform.Fresh
import Perry.Transform.HoistOrder

/-! `hoist_awaits_in_stmts` of `perry-transform/src/async_to_generator.rs`: every
`await` that is not the whole operand of a `let`, an expression statement, a `return`
or a `throw` moves into a temporary declared before the statement, and awaited loop
headers move into the loop's body. -/
namespace Perry.Transform.HoistAwaits

open Perry.Effect Perry.Hir Perry.Transform

abbrev exprContainsAwait (e : Expr) : Bool := contains .await e

/-- The test of the lifted `&&`, `||` and `??`: whether the right operand runs. -/
def logicalGuard (op : LogicalOp) (temp : LocalId) : Expr :=
  match op with
  | .or => .unary .not (.localGet temp)
  | .and => .localGet temp
  | .coalesce => .compare .looseEq (.localGet temp) .null

/-- `lift_logical_with_await_rhs`, from the two hoisted operands. -/
def liftLogical (temp : LocalId) (op : LogicalOp) (left right : List Stmt × Expr) : List Stmt :=
  .let temp true none :: (left.1 ++ [.expr (.localSet temp left.2)] ++
    [.if (logicalGuard op temp) (right.1 ++ [.expr (.localSet temp right.2)]) none])

/-- The operands that `hoist_fetch_with_auth_inside_await` gives a binding of their own. -/
def isPromiseCall : Expr → Bool
  | .strict .call _ | .strict (.callLike _) _ => true
  | _ => false

/-- A call of the object-spread helper whose body awaits. -/
def awaitsInObjIife : Op → List Expr → Bool
  | .call,[.closure _ params _ _ _ flags body,_] =>
    !flags.isAsync && !flags.isGenerator && params.length == 1 && flags.objIife && containsStmts .await body
  | _,_ => false

/-- An `await` of a hoisted operand, whose call gets a binding of its own. -/
def awaitOperand (v : List Stmt × Expr) : Fresh (List Stmt × Expr) :=
  if isPromiseCall v.2 then do
    let id ← freshLocal
    pure (v.1 ++ [.let id false (some v.2)],.await (.localGet id))
  else pure (v.1,.await v.2)

mutual

/-- `hoist_awaits_in_expr_full`, and with `top` set `hoist_awaits_avoiding_top_level`:
the two differ only in that the latter keeps an `await` at the root. The answer is
the hoisted statements and the expression left behind. -/
def hoistAwaitsInExpr (top : Bool) : Expr → Fresh (List Stmt × Expr)
  | .lit l => pure ([],.lit l)
  | .localGet id => pure ([],.localGet id)
  | .update id op pre => pure ([],.update id op pre)
  | .closure funcId params defaults captures mutableCaptures flags body =>
    pure ([],.closure funcId params defaults captures mutableCaptures flags body)
  | .localSet id value => do
    let v ← hoistAwaitsInExpr false value
    pure (v.1,.localSet id v.2)
  | .strict op args =>
    if awaitsInObjIife op args then inlineObjIife args else do
      let vs ← hoistAwaitsInList args
      pure (vs.1,.strict op vs.2)
  | .conditional c t e =>
    if exprContainsAwait t || exprContainsAwait e then do
      let temp ← freshLocal
      let t ← hoistAwaitsInExpr false t
      let e ← hoistAwaitsInExpr false e
      pure ([.let temp true none,
        .if c (t.1 ++ [.expr (.localSet temp t.2)]) (some (e.1 ++ [.expr (.localSet temp e.2)]))],.localGet temp)
    else do
      let c ← hoistAwaitsInExpr false c
      let t ← hoistAwaitsInExpr false t
      let e ← hoistAwaitsInExpr false e
      pure (c.1 ++ t.1 ++ e.1,.conditional c.2 t.2 e.2)
  | .logical op left right =>
    if exprContainsAwait right then do
      let temp ← freshLocal
      let l ← hoistAwaitsInExpr false left
      let r ← hoistAwaitsInExpr false right
      pure (liftLogical temp op l r,.localGet temp)
    else do
      let l ← hoistAwaitsInExpr false left
      let r ← hoistAwaitsInExpr false right
      pure (l.1 ++ r.1,.logical op l.2 r.2)
  | .sequence items =>
    if containsAny .await items then liftSequence top items else do
      let vs ← hoistAwaitsInList items
      pure (vs.1,.sequence vs.2)
  | .arrayMut kind id args => do
    let vs ← hoistAwaitsInList args
    pure (vs.1,.arrayMut kind id vs.2)
  | .withSet object property value fallback strict => do
    let o ← hoistAwaitsInExpr false object
    let v ← hoistAwaitsInExpr false value
    pure (o.1 ++ v.1,.withSet o.2 property v.2 fallback strict)
  | .await operand => do
    let v ← hoistAwaitsInExpr false operand
    if top then awaitOperand v else do
      let id ← freshLocal
      let v ← awaitOperand v
      pure (v.1 ++ [.let id false (some v.2)],.localGet id)
  | .yield value delegate => do
    let v ← hoistAwaitsInOption value
    pure (v.1,.yield v.2 delegate)

def hoistAwaitsInList : List Expr → Fresh (List Stmt × List Expr)
  | [] => pure ([],[])
  | e :: es => do
    let v ← hoistAwaitsInExpr false e
    let vs ← hoistAwaitsInList es
    pure (v.1 ++ vs.1,v.2 :: vs.2)

def hoistAwaitsInOption : Option Expr → Fresh (List Stmt × Option Expr)
  | none => pure ([],none)
  | some e => do
    let v ← hoistAwaitsInExpr false e
    pure (v.1,some v.2)

/-- `lift_sequence_with_await`: the operands of a comma but the last as statements; the
last is what is left. -/
def liftSequence (top : Bool) : List Expr → Fresh (List Stmt × Expr)
  | [] => pure ([],.undefined)
  | [last] => hoistAwaitsInExpr top last
  | item :: next :: items => do
    let v ← hoistAwaitsInExpr false item
    let rest ← liftSequence top (next :: items)
    pure (v.1 ++ .expr v.2 :: rest.1,rest.2)

/-- `inline_obj_iife_with_await`, from the helper closure and its seed. -/
def inlineObjIife : List Expr → Fresh (List Stmt × Expr)
  | .closure _ (obj :: _) _ _ _ _ body :: seed :: _ => do
    let code ← replayObjIife body
    pure (.let obj false (some seed) :: code,.localGet obj)
  | _ => pure ([],.undefined)

def replayObjIife : List Stmt → Fresh (List Stmt)
  | [] => pure []
  | .return _ :: _ => pure []
  | .expr e :: ss => do
    let v ← hoistAwaitsInExpr false e
    let rest ← replayObjIife ss
    pure (v.1 ++ .expr v.2 :: rest)
  | s :: ss => do
    let rest ← replayObjIife ss
    pure (s :: rest)

end

section

-- equations, made here once and not by the first proofs that unfold these
attribute [local simp] hoistAwaitsInExpr hoistAwaitsInList hoistAwaitsInOption
  liftSequence inlineObjIife replayObjIife

end

def hoistAwaitsInOperand : Option Expr → Fresh (List Stmt × Option Expr)
  | none => pure ([],none)
  | some e => do
    let v ← hoistAwaitsInExpr true e
    pure (v.1,some v.2)

mutual

/-- A `continue` of the surrounding loop: descent stops at loops and labels. -/
def hasLoopLevelContinue : Stmt → Bool
  | .continue => true
  | .if _ t e => stmtsHaveLoopLevelContinue t || blockHasLoopLevelContinue e
  | .try b h f => stmtsHaveLoopLevelContinue b || catchHasLoopLevelContinue h || blockHasLoopLevelContinue f
  | .switch _ cases => switchCasesHaveLoopContinue cases
  | _ => false

def stmtsHaveLoopLevelContinue : List Stmt → Bool
  | [] => false
  | s :: ss => hasLoopLevelContinue s || stmtsHaveLoopLevelContinue ss

def catchHasLoopLevelContinue : Option CatchClause → Bool
  | none => false
  | some (.mk _ body) => stmtsHaveLoopLevelContinue body

def blockHasLoopLevelContinue : Option (List Stmt) → Bool
  | none => false
  | some body => stmtsHaveLoopLevelContinue body

def switchCasesHaveLoopContinue : List SwitchCase → Bool
  | [] => false
  | .mk _ body :: cases => stmtsHaveLoopLevelContinue body || switchCasesHaveLoopContinue cases

end

section

-- equations, made here once and not by the first proofs that unfold these
attribute [local simp] hasLoopLevelContinue stmtsHaveLoopLevelContinue
  catchHasLoopLevelContinue blockHasLoopLevelContinue switchCasesHaveLoopContinue

end

mutual

def hasContinueInsideTryFinally : Stmt → Bool
  | .if _ t e => stmtsHaveContinueInsideTryFinally t || blockHasContinueInsideTryFinally e
  | .try b h f =>
    f.isSome && (stmtsHaveLoopLevelContinue b || catchHasLoopLevelContinue h) ||
      stmtsHaveContinueInsideTryFinally b || catchHasContinueInsideTryFinally h ||
      blockHasContinueInsideTryFinally f
  | .switch _ cases => casesHaveContinueInsideTryFinally cases
  | _ => false

def stmtsHaveContinueInsideTryFinally : List Stmt → Bool
  | [] => false
  | s :: ss => hasContinueInsideTryFinally s || stmtsHaveContinueInsideTryFinally ss

def catchHasContinueInsideTryFinally : Option CatchClause → Bool
  | none => false
  | some (.mk _ body) => stmtsHaveContinueInsideTryFinally body

def blockHasContinueInsideTryFinally : Option (List Stmt) → Bool
  | none => false
  | some body => stmtsHaveContinueInsideTryFinally body

def casesHaveContinueInsideTryFinally : List SwitchCase → Bool
  | [] => false
  | .mk _ body :: cases => stmtsHaveContinueInsideTryFinally body || casesHaveContinueInsideTryFinally cases

end

section

-- equations, made here once and not by the first proofs that unfold these
attribute [local simp] hasContinueInsideTryFinally stmtsHaveContinueInsideTryFinally
  catchHasContinueInsideTryFinally blockHasContinueInsideTryFinally casesHaveContinueInsideTryFinally

end

/-- The body-top form of an awaited condition: leave the loop unless it holds. -/
def breakUnless (temp : LocalId) (c : List Stmt × Expr) : List Stmt :=
  c.1 ++ [.let temp true (some c.2),.if (.unary .not (.localGet temp)) [.break] none]

/-- The temporary of an awaited `for` condition. -/
def conditionTemp (taken : Option Expr) : Fresh LocalId :=
  if taken.isSome then freshLocal else pure 0

/-- A condition taken out of its `for`, as the first statements of the body. -/
def takenCondition (temp : LocalId) : Option Expr → Fresh (List Stmt)
  | none => pure []
  | some c => do
    let c ← hoistAwaitsInExpr true c
    pure (breakUnless temp c)

/-- An update taken out of its `for`, as a statement. -/
def takenUpdate : Option Expr → Fresh (List Stmt)
  | none => pure []
  | some u => do
    let u ← hoistAwaitsInExpr true u
    pure (u.1 ++ [.expr u.2])

/-- What `for` takes out of its header: awaited conditions, and awaited updates unless
some `continue` stands in a `try` with a `finally`. -/
def takeCondition (c : Option Expr) : Option Expr := if containsOption .await c then c else none

def takeUpdate (u : Option Expr) (body : List Stmt) : Option Expr :=
  if containsOption .await u && !stmtsHaveContinueInsideTryFinally body then u else none

mutual

/-- The statement with its awaits hoisted, after the statements to put before it.
`moved` is the update taken out of the innermost loop: `prefix_loop_continues` puts it
before every `continue` of that loop, and it is hoisted there with the rest. -/
def hoistAwaitsInStmt (moved : Option Expr) : Stmt → Fresh (List Stmt × Stmt)
  | .let id m init => do
    let v ← hoistAwaitsInOperand init
    pure (v.1,.let id m v.2)
  | .expr e => do
    let v ← hoistAwaitsInExpr true e
    pure (v.1,.expr v.2)
  | .return value => do
    let v ← hoistAwaitsInOperand value
    pure (v.1,.return v.2)
  | .throw e => do
    let v ← hoistAwaitsInExpr true e
    pure (v.1,.throw v.2)
  | .if c t e => do
    let c ← hoistAwaitsInExpr false c
    let t ← hoistAwaitsInStmts moved t
    let e ← hoistAwaitsInBlock moved e
    pure (c.1,.if c.2 t e)
  | .while c b =>
    if exprContainsAwait c then do
      let temp ← freshLocal
      let c ← hoistAwaitsInExpr true c
      let b ← hoistAwaitsInStmts none b
      pure ([],.while (.bool true) (breakUnless temp c ++ b))
    else do
      let c ← hoistAwaitsInExpr false c
      let b ← hoistAwaitsInStmts none b
      pure (c.1,.while c.2 b)
  | .doWhile b c =>
    if exprContainsAwait c then do
      let first ← freshLocal
      let temp ← freshLocal
      -- the new condition `first || c` suspends on the right, so it is lifted at once
      let logic ← freshLocal
      let c ← hoistAwaitsInExpr false c
      let b ← hoistAwaitsInStmts none b
      pure ([.let first true (some (.bool true))],
        .while (.bool true) (breakUnless temp (liftLogical logic .or ([],.localGet first) c,.localGet logic) ++
          .expr (.localSet first (.bool false)) :: b))
    else do
      let b ← hoistAwaitsInStmts none b
      let c ← hoistAwaitsInExpr false c
      pure (c.1,.doWhile b c.2)
  | .for i c u b => do
    let temp ← conditionTemp (takeCondition c)
    let i ← hoistAwaitsInInit i
    let c' ← hoistAwaitsInOption (if (takeCondition c).isSome then none else c)
    let u' ← hoistAwaitsInOption (if (takeUpdate u b).isSome then none else u)
    let test ← takenCondition temp (takeCondition c)
    let body ← hoistAwaitsInStmts (takeUpdate u b) b
    let last ← takenUpdate (takeUpdate u b)
    pure (i.1 ++ c'.1 ++ u'.1,.for i.2 c'.2 u'.2 (test ++ body ++ last))
  | .try b h f => do
    let b ← hoistAwaitsInStmts moved b
    let h ← hoistAwaitsInCatch moved h
    let f ← hoistAwaitsInBlock moved f
    pure ([],.try b h f)
  | .switch d cases => do
    let d ← hoistAwaitsInExpr false d
    let cases ← hoistAwaitsInCases moved cases
    pure (d.1 ++ cases.1,.switch d.2 cases.2)
  | .labeled l s => do
    let s ← hoistAwaitsInStmt none s
    pure (s.1,.labeled l s.2)
  | .continue => do
    let u ← takenUpdate moved
    pure (u,.continue)
  | s => pure ([],s)
termination_by structural s => s

def hoistAwaitsInStmts (moved : Option Expr) : List Stmt → Fresh (List Stmt)
  | [] => pure []
  | s :: ss => do
    let s ← hoistAwaitsInStmt moved s
    let ss ← hoistAwaitsInStmts moved ss
    pure (s.1 ++ s.2 :: ss)
termination_by structural ss => ss

def hoistAwaitsInInit : Option Stmt → Fresh (List Stmt × Option Stmt)
  | none => pure ([],none)
  | some s => do
    let s ← hoistAwaitsInStmt none s
    pure (s.1,some s.2)
termination_by structural i => i

def hoistAwaitsInCatch (moved : Option Expr) : Option CatchClause → Fresh (Option CatchClause)
  | none => pure none
  | some (.mk param body) => do
    let body ← hoistAwaitsInStmts moved body
    pure (some (.mk param body))
termination_by structural h => h

def hoistAwaitsInBlock (moved : Option Expr) : Option (List Stmt) → Fresh (Option (List Stmt))
  | none => pure none
  | some body => do
    let body ← hoistAwaitsInStmts moved body
    pure (some body)
termination_by structural f => f

def hoistAwaitsInCases (moved : Option Expr) : List SwitchCase → Fresh (List Stmt × List SwitchCase)
  | [] => pure ([],[])
  | .mk test body :: cases => do
    let t ← hoistAwaitsInOption test
    let body ← hoistAwaitsInStmts moved body
    let rest ← hoistAwaitsInCases moved cases
    pure (t.1 ++ rest.1,.mk t.2 body :: rest.2)
termination_by structural cases => cases

end

section

-- equations, made here once and not by the first proofs that unfold these
attribute [local simp] hoistAwaitsInStmt hoistAwaitsInStmts hoistAwaitsInInit
  hoistAwaitsInCatch hoistAwaitsInBlock hoistAwaitsInCases

end

theorem hoistAwaitsInBlock_getD (moved : Option Expr) (block : Option (List Stmt)) (next : LocalId) :
    ((hoistAwaitsInBlock moved block).run next).1.getD [] = ((hoistAwaitsInStmts moved (block.getD [])).run next).1 := by
  cases block <;> rfl

end Perry.Transform.HoistAwaits
