import Perry.Hir.Module

/-! `collect_param_int_ranges` of `perry-codegen/src/collectors/param_ranges.rs`: the
meet, over all visible call sites, of the integer constants passed for a parameter. -/
namespace Perry.Codegen.ParamRanges

open Perry.Hir

structure IntRange where
  min : Int
  max : Int
  deriving DecidableEq, Repr

abbrev i64Min : Int := -9223372036854775808
abbrev i64Max : Int := 9223372036854775807

/-- `value as i64`, behind the bounds `i64::MIN as f64` and `i64::MAX as f64`: the
latter is 2^63, which the cast saturates. -/
def constantNum : Hir.Num → Option Int
  | .int n => if i64Min ≤ n ∧ n ≤ i64Max + 1 then some (min n i64Max) else none
  | .negZero => some 0
  | .nan | .other _ => none

variable (constants : LocalId → Option Hir.Num)

def constantArg : Expr → Option Int
  | .integer n => some n
  | .number n => constantNum n
  | .localGet id => (constants id).bind constantNum
  | _ => none

/-- One stop of the walk: an expression node, or a binding of a statement. -/
inductive Visit where
  | expr (e : Expr)
  | bind (id : LocalId)

def isDirectCallee : Op → Expr → Bool
  | .call,.strict (.funcRef _) [] => true
  | _,_ => false

mutual

/-- The nodes below an expression, closure bodies included. The callee of a direct
call is not a node of its own. -/
def visitExpr : Expr → List Visit
  | .lit l => [.expr (.lit l)]
  | .localGet id => [.expr (.localGet id)]
  | .localSet id value => .expr (.localSet id value) :: visitExpr value
  | .update id op pre => [.expr (.update id op pre)]
  | .strict op args => .expr (.strict op args) :: visitArgs op args
  | .logical op left right => .expr (.logical op left right) :: (visitExpr left ++ visitExpr right)
  | .conditional c t e => .expr (.conditional c t e) :: (visitExpr c ++ visitExpr t ++ visitExpr e)
  | .sequence items => .expr (.sequence items) :: visitList items
  | .arrayMut kind id args => .expr (.arrayMut kind id args) :: visitList args
  | .withSet object property value fallback strict =>
    .expr (.withSet object property value fallback strict) :: (visitExpr object ++ visitExpr value)
  | .closure funcId params defaults captures mutableCaptures flags body =>
    .expr (.closure funcId params defaults captures mutableCaptures flags body) ::
      (visitList defaults ++ visitStmts body)
  | .await operand => .expr (.await operand) :: visitExpr operand
  | .yield value delegate => .expr (.yield value delegate) :: visitOption value
termination_by structural e => e

def visitArgs (op : Op) : List Expr → List Visit
  | [] => []
  | e :: es => (if isDirectCallee op e then [] else visitExpr e) ++ visitList es
termination_by structural args => args

def visitList : List Expr → List Visit
  | [] => []
  | e :: es => visitExpr e ++ visitList es
termination_by structural es => es

def visitOption : Option Expr → List Visit
  | none => []
  | some e => visitExpr e
termination_by structural e => e

def visitStmt : Stmt → List Visit
  | .let id _ init => .bind id :: visitOption init
  | .expr e | .throw e => visitExpr e
  | .return value => visitOption value
  | .if c t e => visitExpr c ++ visitStmts t ++ visitBlock e
  | .while c b | .doWhile b c => visitExpr c ++ visitStmts b
  | .for i c u b => visitInit i ++ visitOption c ++ visitOption u ++ visitStmts b
  | .labeled _ s => visitStmt s
  | .try b h f => visitStmts b ++ visitCatch h ++ visitBlock f
  | .switch d cases => visitExpr d ++ visitCases cases
  | _ => []
termination_by structural s => s

def visitStmts : List Stmt → List Visit
  | [] => []
  | s :: ss => visitStmt s ++ visitStmts ss
termination_by structural ss => ss

def visitInit : Option Stmt → List Visit
  | none => []
  | some s => visitStmt s
termination_by structural i => i

def visitCatch : Option CatchClause → List Visit
  | none => []
  | some (.mk param body) => param.toList.map .bind ++ visitStmts body
termination_by structural h => h

def visitBlock : Option (List Stmt) → List Visit
  | none => []
  | some body => visitStmts body
termination_by structural f => f

def visitCases : List SwitchCase → List Visit
  | [] => []
  | .mk test body :: cases => visitOption test ++ visitStmts body ++ visitCases cases
termination_by structural cases => cases

end

section

-- equations, made here once and not by the first proofs that unfold these
attribute [local simp] visitExpr visitArgs visitList visitOption visitStmt
  visitStmts visitInit visitCatch visitBlock visitCases

end

theorem visitBlock_eq (block : Option (List Stmt)) : visitBlock block = visitStmts (block.getD []) := by
  cases block <;> rfl

def visitParams (params : List Param) : List Visit := params.flatMap fun p => visitOption p.default

def visitCode (code : Code) : List Visit := visitParams code.params ++ visitStmts code.body

def visitClass (c : Hir.Class) : List Visit :=
  c.functions.flatMap (fun f => visitCode f.code) ++ c.exprs.flatMap visitExpr

def visitModule (m : Module) : List Visit :=
  visitStmts m.init ++ m.functions.flatMap (fun f => visitCode f.code) ++ m.classes.flatMap visitClass

structure Scan where
  poisoned : List FuncId := []
  callSites : List (FuncId × List (Option Int)) := []
  writes : List LocalId := []
  rebinds : List LocalId := []

def Scan.record (scan : Scan) : Visit → Scan
  | .bind id => { scan with rebinds := id :: scan.rebinds }
  | .expr (.strict .call (.strict (.funcRef id) [] :: args)) =>
    { scan with callSites := (id,args.map (constantArg constants)) :: scan.callSites }
  | .expr (.strict (.funcRef id) _) => { scan with poisoned := id :: scan.poisoned }
  | .expr (.closure id ..) => { scan with poisoned := id :: scan.poisoned }
  | .expr (.localSet id _) | .expr (.update id ..) | .expr (.strict (.globalSet id) _) =>
    { scan with writes := id :: scan.writes }
  | .expr _ => scan

def scanModule (m : Module) : Scan := (visitModule m).foldl (Scan.record constants) {}

def functionShapeIsSummarizable (f : Function) : Bool :=
  !f.isExported && !f.isAsync && !f.isGenerator && !f.params.isEmpty &&
    f.params.all fun p => !p.isRest && p.default.isNone && !p.argumentsObject

/-- Functions entered by something other than a visible direct call. -/
def isPoisoned (m : Module) (scan : Scan) (f : Function) : Bool :=
  scan.poisoned.contains f.id || (m.referencesGlobalThis && m.scriptGlobalFunctions.contains f.id) ||
    m.exportedFunctions.contains f.id || m.exports.contains (.named f.name)

def sitesOf (scan : Scan) (id : FuncId) : List (List (Option Int)) :=
  scan.callSites.filterMap fun site => if site.1 = id then some site.2 else none

/-- The meet over the call sites, unless some argument is no constant. -/
def meetSites (i : Nat) : List (List (Option Int)) → IntRange → Option IntRange
  | [],range => some range
  | site :: sites,range =>
    match site[i]?.join with
    | some v => meetSites i sites ⟨min range.min v,max range.max v⟩
    | none => none

def isSummarized (m : Module) (scan : Scan) (f : Function) : Bool :=
  !isPoisoned m scan f && (m.functions.filter (·.id = f.id)).length == 1 && functionShapeIsSummarizable f &&
    !(sitesOf scan f.id).isEmpty && (sitesOf scan f.id).all (·.length == f.params.length)

/-- A reported range, and the function and argument position it is for. -/
structure Slot where
  func : FuncId
  param : LocalId
  index : Nat
  range : IntRange

def paramSlot (scan : Scan) (f : Function) (i : Nat) (p : Param) : Option Slot :=
  if scan.writes.contains p.id || scan.rebinds.contains p.id then none
  else (meetSites i (sitesOf scan f.id) ⟨i64Max,i64Min⟩).map (⟨f.id,p.id,i,·⟩)

def functionSlots (m : Module) (scan : Scan) (f : Function) : List Slot :=
  if isSummarized m scan f then (f.params.mapIdx (paramSlot scan f)).reduceOption else []

def collectSlots (m : Module) : List Slot := m.functions.flatMap (functionSlots m (scanModule constants m))

/-- The reported ranges, in the order of insertion. -/
def collectParamIntRanges (m : Module) : List (LocalId × IntRange) :=
  (collectSlots constants m).map fun slot => (slot.param,slot.range)

end Perry.Codegen.ParamRanges
