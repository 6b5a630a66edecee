import Perry.Hir.Bitwise
import Perry.Hir.Module

/-! `inline/imul.rs`: functions that look like a polyfill of `Math.imul`, and the calls of them that
become `MathImul`. -/
namespace Perry.Transform.Imul

open Perry.Effect Perry.Hir

/-- `Expr::PropertySet`. -/
@[match_pattern] abbrev propertySet (object value : Expr) : Expr := .strict (.variant 28) [object,value]

/-- `Expr::MathImul`. -/
@[match_pattern] abbrev mathImul (left right : Expr) : Expr := .strict (.variant 210) [left,right]

section detection

/-- The parameter whose half-word is taken, and whether it is the upper one. -/
def isHalfExtract (e : Expr) (p0 p1 : LocalId) : Option (LocalId × Bool) :=
  match e with
  | .binary .bitAnd left (.integer mask) =>
    if mask ≠ 0xFFFF then none
    else match left with
      | .binary .ushr (.localGet id) (.integer shift) | .binary .shr (.localGet id) (.integer shift) =>
        if shift ≠ 16 then none else if id = p0 ∨ id = p1 then some (id,true) else none
      | .localGet id => if id = p0 ∨ id = p1 then some (id,false) else none
      | _ => none
  | _ => none

structure Seen where
  hiOf : Bool × Bool := (false,false)
  loOf : Bool × Bool := (false,false)

def Seen.mark (seen : Seen) (isHi first : Bool) : Seen :=
  let set (p : Bool × Bool) : Bool × Bool := if first then (true,p.2) else (p.1,true)
  if isHi then { seen with hiOf := set seen.hiOf } else { seen with loOf := set seen.loOf }

def Seen.all (seen : Seen) : Bool := seen.hiOf.1 && seen.loOf.1 && seen.hiOf.2 && seen.loOf.2

def scanHalves (p0 p1 : LocalId) : List Stmt → Seen → Option Seen
  | [],seen => some seen
  | .let _ false (some init) :: ss,seen =>
    match isHalfExtract init p0 p1 with
    | some (id,isHi) => scanHalves p0 p1 ss (seen.mark isHi (id = p0))
    | none => none
  | _,_ => none

/-- The last statement. -/
def returnsTruncated : Option Stmt → Bool
  | some (.return (some (.binary .bitOr _ (.integer n)))) => n = 0
  | _ => false

def detectMathImulPolyfill (f : Function) : Bool :=
  if f.isAsync || f.isGenerator then false
  else match f.params with
    | [p0,p1] =>
      if f.body.length ≠ 5 then false
      else match scanHalves p0.id p1.id (f.body.take 4) {} with
        | none => false
        | some seen => if seen.all then returnsTruncated f.body[4]? else false
    | _ => false

end detection

section rewriting

variable (imulIds : FuncId → Bool)

mutual

def rewriteExpr : Expr → Expr
  | .call (.funcRef id) [a,b] =>
    if imulIds id then mathImul (rewriteExpr a) (rewriteExpr b)
    else .call (.funcRef id) [rewriteExpr a,rewriteExpr b]
  | .strict op args =>
    match op with
    | .binary _ | .compare _ | .unary _ | .call | .indexGet | .indexSet | .array | .propertyGet _ | .variant 28 =>
      .strict op (rewriteArgs args)
    | _ => .strict op args
  | .logical op left right => .logical op (rewriteExpr left) (rewriteExpr right)
  | .conditional c t e => .conditional (rewriteExpr c) (rewriteExpr t) (rewriteExpr e)
  | .localSet id value => .localSet id (rewriteExpr value)
  | e => e
termination_by structural e => e

def rewriteArgs : List Expr → List Expr
  | [] => []
  | e :: es => rewriteExpr e :: rewriteArgs es
termination_by structural es => es

end

mutual

def rewriteStmt : Stmt → Stmt
  | .expr e => .expr (rewriteExpr imulIds e)
  | .return (some e) => .return (some (rewriteExpr imulIds e))
  | .throw e => .throw (rewriteExpr imulIds e)
  | .let id isMutable (some e) => .let id isMutable (some (rewriteExpr imulIds e))
  | .if c t e => .if (rewriteExpr imulIds c) (rewriteStmts t) (rewriteBlock e)
  | .while c b => .while (rewriteExpr imulIds c) (rewriteStmts b)
  | .doWhile b c => .doWhile (rewriteStmts b) (rewriteExpr imulIds c)
  | .for i c u b => .for (rewriteInit i) (c.map (rewriteExpr imulIds)) (u.map (rewriteExpr imulIds)) (rewriteStmts b)
  | s => s
termination_by structural s => s

def rewriteInit : Option Stmt → Option Stmt
  | none => none
  | some s => some (rewriteStmt s)
termination_by structural i => i

def rewriteBlock : Option (List Stmt) → Option (List Stmt)
  | none => none
  | some body => some (rewriteStmts body)
termination_by structural e => e

def rewriteStmts : List Stmt → List Stmt
  | [] => []
  | s :: ss => rewriteStmt s :: rewriteStmts ss
termination_by structural ss => ss

end

theorem rewriteBlock_getD (block : Option (List Stmt)) :
    (rewriteBlock imulIds block).getD [] = rewriteStmts imulIds (block.getD []) := by
  cases block <;> simp only [rewriteBlock,rewriteStmts,Option.getD_none,Option.getD_some]

end rewriting

end Perry.Transform.Imul
