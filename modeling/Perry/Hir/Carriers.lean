import Perry.Hir.Syntax

/-! The HIR as far as it carries local and function ids.
Every variant that owns an id is a constructor here; the many variants that own none are `node`, with
the sub-expressions `walk_expr_children` visits. Function shells, classes and a module's side tables
carry ids too. An absent `else` or `finally` block is the empty list.
-/
namespace Perry.Hir.Carriers

mutual
inductive Expr where
  | node (tag : Nat) (children : List Expr)
  | localGet (id : LocalId)
  | localSet (id : LocalId) (value : Expr)
  | update (id : LocalId)
  | arrayMut (kind : ArrayMut) (id : LocalId) (args : List Expr)
  | funcRef (id : FuncId)
  | withSet (object value : Expr) (fallback : WithSetFallback)
  | classExprFresh (evaluationOwner : Option LocalId) (children : List Expr)
  | closure (funcId : FuncId) (params : List Param) (captures mutableCaptures : List LocalId)
      (body : List Stmt)

inductive Decorator where
  | mk (args : List Expr)

inductive Param where
  | mk (id : LocalId) (default : Option Expr) (decorators : List Decorator)
      (mappedParameterIds : List LocalId)

inductive Stmt where
  | let (id : LocalId) (init : Option Expr)
  | expr (e : Expr)
  | return (value : Option Expr)
  | if (condition : Expr) (thenBranch elseBranch : List Stmt)
  | while (condition : Expr) (body : List Stmt)
  | doWhile (body : List Stmt) (condition : Expr)
  | for (init : Option Stmt) (condition update : Option Expr) (body : List Stmt)
  | labeled (body : Stmt)
  | jump
  | throw (value : Expr)
  | try (body : List Stmt) (handler : Option CatchClause) (finalizer : List Stmt)
  | switch (discriminant : Expr) (cases : List SwitchCase)
  | boxes (ids : List LocalId)

inductive CatchClause where
  | mk (param : Option LocalId) (body : List Stmt)

inductive SwitchCase where
  | mk (test : Option Expr) (body : List Stmt)
end

def Param.id : Param → LocalId
  | mk id _ _ _ => id

def CatchClause.param : CatchClause → Option LocalId
  | mk param _ => param

structure Function where
  id : FuncId
  params : List Param := []
  body : List Stmt := []
  captures : List LocalId := []
  decorators : List Decorator := []

structure ClassComputedMember where
  keyExpr : Expr
  function : Function

structure ClassField where
  keyExpr : Option Expr := none
  init : Option Expr := none
  decorators : List Decorator := []

structure Class where
  extendsExpr : Option Expr := none
  fields : List ClassField := []
  constructor : Option Function := none
  methods : List Function := []
  getters : List Function := []
  setters : List Function := []
  staticAccessorFnIds : List FuncId := []
  staticFields : List ClassField := []
  staticMethods : List Function := []
  computedMembers : List ClassComputedMember := []
  decorators : List Decorator := []

structure Global where
  id : Nat
  init : Option Expr := none

/-- A module; `localTables` are the ids that key `classic_for_lexical_bindings` and
`local_source_spans`, `funcTables` those of `script_global_functions`, `exported_functions` and the
function-keyed side tables. -/
structure Module where
  classes : List Class := []
  globals : List Global := []
  functions : List Function := []
  init : List Stmt := []
  localTables : List LocalId := []
  funcTables : List FuncId := []

inductive Kind where
  | local
  | func
  deriving DecidableEq,Repr

/-- Where an id stands. -/
inductive Place where
  | expression
  | statement
  | closureParam
  | closureCapture
  | functionParam
  | functionArguments
  | functionId
  | globalId
  | withFallback
  | classExprOwner
  | closureArguments
  | functionCapture
  | memberFunctionId
  | staticAccessor
  | sideTable
  deriving DecidableEq,Repr

/-- An id in the module; `inClosureDecorator` when it stands in a decorator of a closure's
parameter. -/
structure Occurrence where
  kind : Kind
  place : Place
  id : Nat
  inClosureDecorator : Bool := false
  deriving DecidableEq,Repr

def Occurrence.hide (occurrence : Occurrence) : Occurrence :=
  { occurrence with inClosureDecorator := true }

def localsAt (place : Place) (ids : List LocalId) : List Occurrence := ids.map (⟨.local,place,·,false⟩)

def funcsAt (place : Place) (ids : List FuncId) : List Occurrence := ids.map (⟨.func,place,·,false⟩)

def fallbackIds : WithSetFallback → List LocalId
  | .local id => [id]
  | .sloppyImplicit id => [id]
  | _ => []

mutual
def Expr.occurrences : Expr → List Occurrence
  | .node _ children => exprsOccurrences children
  | .localGet id => localsAt .expression [id]
  | .localSet id value => localsAt .expression [id] ++ value.occurrences
  | .update id => localsAt .expression [id]
  | .arrayMut _ id args => localsAt .expression [id] ++ exprsOccurrences args
  | .funcRef id => funcsAt .expression [id]
  | .withSet object value fallback =>
    localsAt .withFallback (fallbackIds fallback) ++ object.occurrences ++ value.occurrences
  | .classExprFresh owner children =>
    localsAt .classExprOwner owner.toList ++ exprsOccurrences children
  | .closure funcId params captures mutableCaptures body =>
    funcsAt .expression [funcId] ++ paramsOccurrences true params ++
      localsAt .closureCapture captures ++ localsAt .closureCapture mutableCaptures ++
      stmtsOccurrences body

def exprsOccurrences : List Expr → List Occurrence
  | [] => []
  | e :: rest => e.occurrences ++ exprsOccurrences rest

def optExprOccurrences : Option Expr → List Occurrence
  | none => []
  | some e => e.occurrences

def decoratorsOccurrences : List Decorator → List Occurrence
  | [] => []
  | .mk args :: rest => exprsOccurrences args ++ decoratorsOccurrences rest

/-- The ids of a parameter list, of a closure or of a function. -/
def paramsOccurrences (closure : Bool) : List Param → List Occurrence
  | [] => []
  | .mk id default decorators mapped :: rest =>
    localsAt (if closure then .closureParam else .functionParam) [id] ++
      optExprOccurrences default ++
      (if closure then (decoratorsOccurrences decorators).map Occurrence.hide
        else decoratorsOccurrences decorators) ++
      localsAt (if closure then .closureArguments else .functionArguments) mapped ++
      paramsOccurrences closure rest

def Stmt.occurrences : Stmt → List Occurrence
  | .let id init => localsAt .statement [id] ++ optExprOccurrences init
  | .expr e => e.occurrences
  | .return value => optExprOccurrences value
  | .if condition thenBranch elseBranch =>
    condition.occurrences ++ stmtsOccurrences thenBranch ++ stmtsOccurrences elseBranch
  | .while condition body => condition.occurrences ++ stmtsOccurrences body
  | .doWhile body condition => stmtsOccurrences body ++ condition.occurrences
  | .for init condition update body =>
    optStmtOccurrences init ++ optExprOccurrences condition ++ optExprOccurrences update ++
      stmtsOccurrences body
  | .labeled body => body.occurrences
  | .jump => []
  | .throw value => value.occurrences
  | .try body handler finalizer =>
    stmtsOccurrences body ++ handlerOccurrences handler ++ stmtsOccurrences finalizer
  | .switch discriminant cases => discriminant.occurrences ++ casesOccurrences cases
  | .boxes ids => localsAt .statement ids

def stmtsOccurrences : List Stmt → List Occurrence
  | [] => []
  | s :: rest => s.occurrences ++ stmtsOccurrences rest

def optStmtOccurrences : Option Stmt → List Occurrence
  | none => []
  | some s => s.occurrences

def handlerOccurrences : Option CatchClause → List Occurrence
  | none => []
  | some (.mk param body) => localsAt .statement param.toList ++ stmtsOccurrences body

def casesOccurrences : List SwitchCase → List Occurrence
  | [] => []
  | .mk test body :: rest => optExprOccurrences test ++ stmtsOccurrences body ++ casesOccurrences rest
end

section

-- equations, made here once and not by the first proofs that unfold these
attribute [local simp] Expr.occurrences exprsOccurrences optExprOccurrences decoratorsOccurrences paramsOccurrences
  Stmt.occurrences stmtsOccurrences optStmtOccurrences handlerOccurrences casesOccurrences

end

def Function.occurrences (place : Place) (func : Function) : List Occurrence :=
  funcsAt place [func.id] ++ paramsOccurrences false func.params ++
    decoratorsOccurrences func.decorators ++ localsAt .functionCapture func.captures ++
    stmtsOccurrences func.body

def ClassField.occurrences (field : ClassField) : List Occurrence :=
  optExprOccurrences field.init ++ optExprOccurrences field.keyExpr ++
    decoratorsOccurrences field.decorators

def Class.members (c : Class) : List Function :=
  c.methods ++ c.staticMethods ++ c.computedMembers.map (·.function) ++ c.constructor.toList ++
    c.getters ++ c.setters

def Class.occurrences (c : Class) : List Occurrence :=
  c.members.flatMap (·.occurrences .memberFunctionId) ++
    c.computedMembers.flatMap (·.keyExpr.occurrences) ++
    (c.fields ++ c.staticFields).flatMap (·.occurrences) ++ decoratorsOccurrences c.decorators ++
    optExprOccurrences c.extendsExpr ++ funcsAt .staticAccessor c.staticAccessorFnIds

def Global.occurrences (global : Global) : List Occurrence :=
  localsAt .globalId [global.id] ++ optExprOccurrences global.init

def Module.occurrences (module : Module) : List Occurrence :=
  module.functions.flatMap (·.occurrences .functionId) ++ stmtsOccurrences module.init ++
    module.globals.flatMap (·.occurrences) ++
    module.classes.flatMap (·.occurrences) ++ localsAt .sideTable module.localTables ++
    funcsAt .sideTable module.funcTables

end Perry.Hir.Carriers
