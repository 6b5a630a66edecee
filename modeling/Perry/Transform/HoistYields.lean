import Perry.Transform.Fresh
import Perry.Transform.HoistOrder

/-! `perry-transform/src/generator/hoist_yields.rs`: every `yield` that is not the
whole operand of a `let`, an expression statement or a `return` moves into a
temporary declared before the statement. -/
namespace Perry.Transform.HoistYields

open Perry.Effect Perry.Hir Perry.Transform

abbrev exprContainsYield (e : Expr) : Bool := contains .yield e

abbrev anyContainsYield (es : List Expr) : Bool := containsAny .yield es

/-- The test of the lifted `&&`, `||` and `??`: whether the right operand runs. -/
def logicalGuard (op : LogicalOp) (temp : LocalId) : Expr :=
  match op with
  | .and => .localGet temp
  | .or => .unary .not (.localGet temp)
  | .coalesce => .logical .or (.compare .eq (.localGet temp) .null) (.compare .eq (.localGet temp) .undefined)

mutual

/-- `hoist_yields_in_expr_full`, and with `top` set `hoist_yields_avoiding_top_level`:
the two differ only in that the latter keeps a `yield` at the root. The answer is
the hoisted statements and the expression left behind. -/
def hoistYieldsInExpr (top : Bool) : Expr → Fresh (List Stmt × Expr)
  | .lit l => pure ([],.lit l)
  | .localGet id => pure ([],.localGet id)
  | .update id op pre => pure ([],.update id op pre)
  | .closure funcId params defaults captures mutableCaptures flags body =>
    pure ([],.closure funcId params defaults captures mutableCaptures flags body)
  | .localSet id value => do
    let v ← hoistYieldsInExpr false value
    pure (v.1,.localSet id v.2)
  | .strict op args => do
    let vs ← hoistYieldsInList args
    pure (vs.1,.strict op vs.2)
  | .conditional c t e =>
    if exprContainsYield t || exprContainsYield e then do
      let temp ← freshLocal
      let c ← hoistYieldsInExpr false c
      let t ← hoistYieldsInExpr false t
      let e ← hoistYieldsInExpr false e
      pure (c.1 ++ [.let temp true none,
        .if c.2 (t.1 ++ [.expr (.localSet temp t.2)]) (some (e.1 ++ [.expr (.localSet temp e.2)]))],.localGet temp)
    else do
      let c ← hoistYieldsInExpr false c
      let t ← hoistYieldsInExpr false t
      let e ← hoistYieldsInExpr false e
      pure (c.1 ++ t.1 ++ e.1,.conditional c.2 t.2 e.2)
  | .logical op left right =>
    if exprContainsYield right then do
      let temp ← freshLocal
      let l ← hoistYieldsInExpr false left
      let r ← hoistYieldsInExpr false right
      pure (l.1 ++ [.let temp true (some l.2)] ++
        [.if (logicalGuard op temp) (r.1 ++ [.expr (.localSet temp r.2)]) none],.localGet temp)
    else do
      let l ← hoistYieldsInExpr false left
      let r ← hoistYieldsInExpr false right
      pure (l.1 ++ r.1,.logical op l.2 r.2)
  | .sequence items =>
    if anyContainsYield items then do
      let temp ← freshLocal
      let code ← liftSequence temp items
      pure (code,.localGet temp)
    else do
      let vs ← hoistYieldsInList items
      pure (vs.1,.sequence vs.2)
  | .arrayMut kind id args => do
    let vs ← hoistYieldsInList args
    pure (vs.1,.arrayMut kind id vs.2)
  | .withSet object property value fallback strict => do
    let o ← hoistYieldsInExpr false object
    let v ← hoistYieldsInExpr false value
    pure (o.1 ++ v.1,.withSet o.2 property v.2 fallback strict)
  | .await operand => do
    let v ← hoistYieldsInExpr false operand
    pure (v.1,.await v.2)
  | .yield value delegate => do
    let v ← hoistYieldsInOption value
    if top then pure (v.1,.yield v.2 delegate)
    else do
      let temp ← freshLocal
      pure (v.1 ++ [.let temp false (some (.yield v.2 delegate))],.localGet temp)

def hoistYieldsInList : List Expr → Fresh (List Stmt × List Expr)
  | [] => pure ([],[])
  | e :: es => do
    let v ← hoistYieldsInExpr false e
    let vs ← hoistYieldsInList es
    pure (v.1 ++ vs.1,v.2 :: vs.2)

def hoistYieldsInOption : Option Expr → Fresh (List Stmt × Option Expr)
  | none => pure ([],none)
  | some e => do
    let v ← hoistYieldsInExpr false e
    pure (v.1,some v.2)

/-- The operands of a comma as statements; the last one's value goes to the temporary. -/
def liftSequence (temp : LocalId) : List Expr → Fresh (List Stmt)
  | [] => pure []
  | [last] => do
    let v ← hoistYieldsInExpr true last
    pure (v.1 ++ [.let temp false (some v.2)])
  | item :: next :: items => do
    let v ← hoistYieldsInExpr true item
    let rest ← liftSequence temp (next :: items)
    pure (v.1 ++ .expr v.2 :: rest)

end

section

-- equations, made here once and not by the first proofs that unfold these
attribute [local simp] hoistYieldsInExpr hoistYieldsInList hoistYieldsInOption liftSequence

end

def hoistYieldsInOperand : Option Expr → Fresh (List Stmt × Option Expr)
  | none => pure ([],none)
  | some e => do
    let v ← hoistYieldsInExpr true e
    pure (v.1,some v.2)

mutual

/-- The statement with its yields hoisted, after the statements to put before it. -/
def hoistYieldsInStmt : Stmt → Fresh (List Stmt × Stmt)
  | .let id m init => do
    let v ← hoistYieldsInOperand init
    pure (v.1,.let id m v.2)
  | .expr e => do
    let v ← hoistYieldsInExpr true e
    pure (v.1,.expr v.2)
  | .return value => do
    let v ← hoistYieldsInOperand value
    pure (v.1,.return v.2)
  | .throw e => do
    let v ← hoistYieldsInExpr false e
    pure (v.1,.throw v.2)
  | .if c t e => do
    let c ← hoistYieldsInExpr false c
    let t ← hoistYieldsInStmts t
    let e ← hoistYieldsInBlock e
    pure (c.1,.if c.2 t e)
  | .while c b => do
    let b ← hoistYieldsInStmts b
    pure ([],.while c b)
  | .doWhile b c => do
    let b ← hoistYieldsInStmts b
    pure ([],.doWhile b c)
  | .for i c u b => do
    let i ← hoistYieldsInInit i
    let b ← hoistYieldsInStmts b
    pure (i.1,.for i.2 c u b)
  | .try b h f => do
    let b ← hoistYieldsInStmts b
    let h ← hoistYieldsInCatch h
    let f ← hoistYieldsInBlock f
    pure ([],.try b h f)
  | .switch d cases => do
    let d ← hoistYieldsInExpr false d
    let cases ← hoistYieldsInCases cases
    pure (d.1 ++ cases.1,.switch d.2 cases.2)
  | .labeled l s => do
    let s ← hoistYieldsInStmt s
    pure (s.1,.labeled l s.2)
  | s => pure ([],s)

def hoistYieldsInStmts : List Stmt → Fresh (List Stmt)
  | [] => pure []
  | s :: ss => do
    let s ← hoistYieldsInStmt s
    let ss ← hoistYieldsInStmts ss
    pure (s.1 ++ s.2 :: ss)

def hoistYieldsInInit : Option Stmt → Fresh (List Stmt × Option Stmt)
  | none => pure ([],none)
  | some s => do
    let s ← hoistYieldsInStmt s
    pure (s.1,some s.2)

def hoistYieldsInCatch : Option CatchClause → Fresh (Option CatchClause)
  | none => pure none
  | some (.mk param body) => do
    let body ← hoistYieldsInStmts body
    pure (some (.mk param body))

def hoistYieldsInBlock : Option (List Stmt) → Fresh (Option (List Stmt))
  | none => pure none
  | some body => do
    let body ← hoistYieldsInStmts body
    pure (some body)

def hoistYieldsInCases : List SwitchCase → Fresh (List Stmt × List SwitchCase)
  | [] => pure ([],[])
  | .mk test body :: cases => do
    let t ← hoistYieldsInOption test
    let body ← hoistYieldsInStmts body
    let rest ← hoistYieldsInCases cases
    pure (t.1 ++ rest.1,.mk t.2 body :: rest.2)

end

section

-- equations, made here once and not by the first proofs that unfold these
attribute [local simp] hoistYieldsInStmt hoistYieldsInStmts hoistYieldsInInit
  hoistYieldsInCatch hoistYieldsInBlock hoistYieldsInCases

end

theorem hoistYieldsInBlock_getD (block : Option (List Stmt)) (next : LocalId) :
    ((hoistYieldsInBlock block).run next).1.getD [] = ((hoistYieldsInStmts (block.getD [])).run next).1 := by
  cases block <;> rfl

end Perry.Transform.HoistYields
