import Perry.Hir.Carriers
import Mathlib.Tactic

/-! The scans that find the largest id of a module, before the generator transform allocates above it.
The two scans descend alike and differ in the ids they read off a node. They are bounds exactly when
the ids at the places they skip are no larger than an id at a place they read.
-/
namespace Perry.Transform.IdScan

open Perry.Hir (LocalId FuncId)
open Perry.Hir.Carriers

/-- The ids a scan reads off a node before it descends. -/
structure OwnIds where
  expr : Expr → List Nat
  stmt : Stmt → List Nat

def maxIds (current : Nat) (ids : List Nat) : Nat := ids.foldl max current

mutual
def scanExpr (own : OwnIds) (current : Nat) : Expr → Nat
  | .node tag children =>
    scanExprs own (maxIds current (own.expr (.node tag children))) children
  | .localGet id => maxIds current (own.expr (.localGet id))
  | .localSet id value => scanExpr own (maxIds current (own.expr (.localSet id value))) value
  | .update id => maxIds current (own.expr (.update id))
  | .arrayMut kind id args =>
    scanExprs own (maxIds current (own.expr (.arrayMut kind id args))) args
  | .funcRef id => maxIds current (own.expr (.funcRef id))
  | .withSet object value fallback =>
    scanExpr own (scanExpr own (maxIds current (own.expr (.withSet object value fallback))) object) value
  | .classExprFresh owner children =>
    scanExprs own (maxIds current (own.expr (.classExprFresh owner children))) children
  | .closure funcId params captures mutableCaptures body =>
    scanDefaults own (scanStmts own (maxIds current
      (own.expr (.closure funcId params captures mutableCaptures body))) body) params

def scanExprs (own : OwnIds) (current : Nat) : List Expr → Nat
  | [] => current
  | e :: rest => scanExprs own (scanExpr own current e) rest

def scanOptExpr (own : OwnIds) (current : Nat) : Option Expr → Nat
  | none => current
  | some e => scanExpr own current e

/-- The walker visits the defaults of a closure's parameters, and nothing else of them. -/
def scanDefaults (own : OwnIds) (current : Nat) : List Param → Nat
  | [] => current
  | .mk _ default _ _ :: rest => scanDefaults own (scanOptExpr own current default) rest

def scanStmt (own : OwnIds) (current : Nat) : Stmt → Nat
  | .let id init => scanOptExpr own (maxIds current (own.stmt (.let id init))) init
  | .expr e => scanExpr own current e
  | .return value => scanOptExpr own current value
  | .if condition thenBranch elseBranch =>
    scanStmts own (scanStmts own (scanExpr own current condition) thenBranch) elseBranch
  | .while condition body => scanStmts own (scanExpr own current condition) body
  | .doWhile body condition => scanExpr own (scanStmts own current body) condition
  | .for init condition update body =>
    scanStmts own (scanOptExpr own (scanOptExpr own (scanOptStmt own current init) condition) update)
      body
  | .labeled body => scanStmt own current body
  | .jump => current
  | .throw value => scanExpr own current value
  | .try body handler finalizer =>
    scanStmts own (scanHandler own
      (maxIds (scanStmts own current body) (own.stmt (.try body handler finalizer))) handler) finalizer
  | .switch discriminant cases => scanCases own (scanExpr own current discriminant) cases
  | .boxes ids => maxIds current (own.stmt (.boxes ids))

def scanStmts (own : OwnIds) (current : Nat) : List Stmt → Nat
  | [] => current
  | s :: rest => scanStmts own (scanStmt own current s) rest

def scanOptStmt (own : OwnIds) (current : Nat) : Option Stmt → Nat
  | none => current
  | some s => scanStmt own current s

def scanHandler (own : OwnIds) (current : Nat) : Option CatchClause → Nat
  | none => current
  | some (.mk _ body) => scanStmts own current body

def scanCases (own : OwnIds) (current : Nat) : List SwitchCase → Nat
  | [] => current
  | .mk test body :: rest => scanCases own (scanStmts own (scanOptExpr own current test) body) rest
end

section

-- equations, made here once and not by the first proofs that unfold these
attribute [local simp] scanExpr scanExprs scanOptExpr scanDefaults
  scanStmt scanStmts scanOptStmt scanHandler scanCases

end

def localIds : OwnIds where
  expr
    | .localGet id => [id]
    | .localSet id _ => [id]
    | .update id => [id]
    | .arrayMut _ id _ => [id]
    | .closure _ params captures mutableCaptures _ =>
      params.map (·.id) ++ captures ++ mutableCaptures
    | _ => []
  stmt
    | .let id _ => [id]
    | .try _ handler _ => (handler.bind (·.param)).toList
    | .boxes ids => ids
    | _ => []

def funcIds : OwnIds where
  expr
    | .funcRef id => [id]
    | .closure funcId _ _ _ _ => [funcId]
    | _ => []
  stmt _ := []

def scanExprForMaxLocal : Nat → Expr → Nat := scanExpr localIds
def scanExprForMaxFunc : Nat → Expr → Nat := scanExpr funcIds
def scanStmtsForMaxLocal : Nat → List Stmt → Nat := scanStmts localIds
def scanStmtsForMaxFunc : Nat → List Stmt → Nat := scanStmts funcIds

section Shells

variable (own : OwnIds)

def scanDecorators (current : Nat) (decorators : List Decorator) : Nat :=
  decorators.foldl (fun current (.mk args) => scanExprs own current args) current

/-- The local scan reads a function's parameters and their `arguments` mapping, the function scan
has no id of its own there. -/
def scanParams (ofParam : Param → List Nat) (current : Nat) (params : List Param) : Nat :=
  params.foldl (fun current param => match param with
    | .mk id default decorators mapped =>
      scanDecorators own (scanOptExpr own
        (maxIds current (ofParam (.mk id default decorators mapped))) default) decorators) current

def scanFunctionShell (ofParam : Param → List Nat) (current : Nat) (func : Function) : Nat :=
  scanDecorators own (scanParams own ofParam current func.params) func.decorators

def scanFunction (ofParam : Param → List Nat) (current : Nat) (func : Function) : Nat :=
  scanStmts own (scanFunctionShell own ofParam current func) func.body

def scanField (current : Nat) (field : ClassField) : Nat :=
  scanDecorators own (scanOptExpr own (scanOptExpr own current field.init) field.keyExpr)
    field.decorators

def scanClass (ofParam : Param → List Nat) (current : Nat) (c : Hir.Carriers.Class) : Nat :=
  let current := c.members.foldl (scanFunction own ofParam) current
  let current := c.computedMembers.foldl (fun current member => scanExpr own current member.keyExpr)
    current
  let current := (c.fields ++ c.staticFields).foldl (scanField own) current
  scanOptExpr own (scanDecorators own current c.decorators) c.extendsExpr

end Shells

def localsOfParam : Param → List LocalId
  | .mk id _ _ mapped => id :: mapped

def computeMaxLocalId (module : Hir.Carriers.Module) : LocalId :=
  let current := module.functions.foldl (scanFunction localIds localsOfParam) 0
  let current := scanStmtsForMaxLocal current module.init
  let current := module.globals.foldl (fun current global =>
    scanOptExpr localIds (max current global.id) global.init) current
  module.classes.foldl (scanClass localIds localsOfParam) current

def computeMaxFuncId (module : Hir.Carriers.Module) : FuncId :=
  let current := module.functions.foldl (fun current func =>
    scanFunction funcIds (fun _ => []) (max current func.id) func) 0
  let current := scanStmtsForMaxFunc current module.init
  let current := module.globals.foldl (fun current global => scanOptExpr funcIds current global.init)
    current
  module.classes.foldl (scanClass funcIds fun _ => []) current

/-- The places a scan reads. -/
def readPlace : Place → Bool
  | .expression => true
  | .statement => true
  | .closureParam => true
  | .closureCapture => true
  | .functionParam => true
  | .functionArguments => true
  | .functionId => true
  | .globalId => true
  | _ => false

def scanned (occurrence : Occurrence) : Bool :=
  readPlace occurrence.place && !occurrence.inClosureDecorator

def ownIds : Kind → OwnIds
  | .local => localIds
  | .func => funcIds

/-- The ids of one kind that a scan reads are at most the bound. -/
def Bounded (kind : Kind) (bound : Nat) (occurrences : List Occurrence) : Prop :=
  ∀ occurrence ∈ occurrences, occurrence.kind = kind → scanned occurrence = true →
    occurrence.id ≤ bound

section Bounds

variable {kind : Kind} {bound : Nat}

@[simp] theorem maxIds_le (current : Nat) (ids : List Nat) :
    maxIds current ids ≤ bound ↔ current ≤ bound ∧ ∀ id ∈ ids, id ≤ bound := by
  induction ids generalizing current with
  | nil => simp [maxIds]
  | cons id rest step =>
    have folded : maxIds current (id :: rest) = maxIds (max current id) rest := rfl
    rw [folded,step]
    simp only [List.forall_mem_cons,max_le_iff]
    tauto

@[simp] theorem bounded_nil : Bounded kind bound [] := by simp [Bounded]

@[simp] theorem bounded_append (front back : List Occurrence) :
    Bounded kind bound (front ++ back) ↔ Bounded kind bound front ∧ Bounded kind bound back := by
  simp only [Bounded,List.mem_append,or_imp,forall_and]

@[simp] theorem bounded_localsAt (place : Place) (ids : List LocalId) :
    Bounded kind bound (localsAt place ids) ↔
      (kind = .local → readPlace place = true → ∀ id ∈ ids, id ≤ bound) := by
  simp only [Bounded,localsAt,List.mem_map,forall_exists_index,and_imp,forall_apply_eq_imp_iff₂,
    scanned,Bool.not_false,Bool.and_true]
  grind

@[simp] theorem bounded_funcsAt (place : Place) (ids : List FuncId) :
    Bounded kind bound (funcsAt place ids) ↔
      (kind = .func → readPlace place = true → ∀ id ∈ ids, id ≤ bound) := by
  simp only [Bounded,funcsAt,List.mem_map,forall_exists_index,and_imp,forall_apply_eq_imp_iff₂,
    scanned,Bool.not_false,Bool.and_true]
  grind

@[simp] theorem bounded_hidden (occurrences : List Occurrence) :
    Bounded kind bound (occurrences.map Occurrence.hide) := by
  intro occurrence member _ read
  obtain ⟨shown,_,rfl⟩ := List.mem_map.mp member
  simp [scanned,Occurrence.hide] at read

@[simp] theorem bounded_flatMap {α : Type*} (items : List α) (occurrences : α → List Occurrence) :
    Bounded kind bound (items.flatMap occurrences) ↔
      ∀ item ∈ items, Bounded kind bound (occurrences item) := by
  simp only [Bounded,List.mem_flatMap,forall_exists_index,and_imp]
  grind

/-- The ids in the defaults of a closure's parameters. -/
def defaultsOccurrences : List Param → List Occurrence
  | [] => []
  | .mk _ default _ _ :: rest => optExprOccurrences default ++ defaultsOccurrences rest

theorem bounded_closureParams (params : List Param) :
    Bounded kind bound (paramsOccurrences true params) ↔
      (kind = .local → ∀ id ∈ params.map (·.id), id ≤ bound) ∧
        Bounded kind bound (defaultsOccurrences params) := by
  induction params with
  | nil => simp [paramsOccurrences,defaultsOccurrences]
  | cons param rest step =>
    obtain ⟨id,default,decorators,mapped⟩ := param
    simp only [paramsOccurrences,defaultsOccurrences,if_true,bounded_append,bounded_localsAt,
      bounded_hidden,readPlace,step,List.map_cons,List.forall_mem_cons,Param.id,
      Bool.false_eq_true]
    simp
    tauto

def handlerBodyOccurrences : Option CatchClause → List Occurrence
  | none => []
  | some (.mk _ body) => stmtsOccurrences body

theorem bounded_handler (handler : Option CatchClause) :
    Bounded kind bound (handlerOccurrences handler) ↔
      (kind = .local → ∀ id ∈ (handler.bind (·.param)).toList, id ≤ bound) ∧
        Bounded kind bound (handlerBodyOccurrences handler) := by
  match handler with
  | none => simp [handlerOccurrences,handlerBodyOccurrences]
  | some (.mk param body) =>
    simp [handlerOccurrences,handlerBodyOccurrences,CatchClause.param,readPlace]

end Bounds

mutual
theorem scanExpr_le (kind : Kind) (bound : Nat) : ∀ (e : Expr) (current : Nat),
    scanExpr (ownIds kind) current e ≤ bound ↔ current ≤ bound ∧ Bounded kind bound e.occurrences
  | .node tag children, current => by
    rw [scanExpr,scanExprs_le kind bound children]
    cases kind <;> simp [ownIds,localIds,funcIds,Expr.occurrences]
  | .localGet id, current => by
    cases kind <;> simp [scanExpr,ownIds,localIds,funcIds,Expr.occurrences,readPlace]
  | .localSet id value, current => by
    rw [scanExpr,scanExpr_le kind bound value]
    cases kind <;> simp [ownIds,localIds,funcIds,Expr.occurrences,readPlace,and_assoc]
  | .update id, current => by
    cases kind <;> simp [scanExpr,ownIds,localIds,funcIds,Expr.occurrences,readPlace]
  | .arrayMut kind' id args, current => by
    rw [scanExpr,scanExprs_le kind bound args]
    cases kind <;> simp [ownIds,localIds,funcIds,Expr.occurrences,readPlace,and_assoc]
  | .funcRef id, current => by
    cases kind <;> simp [scanExpr,ownIds,localIds,funcIds,Expr.occurrences,readPlace]
  | .withSet object value fallback, current => by
    rw [scanExpr,scanExpr_le kind bound value,scanExpr_le kind bound object]
    cases kind <;> simp [ownIds,localIds,funcIds,Expr.occurrences,readPlace,and_assoc]
  | .classExprFresh owner children, current => by
    rw [scanExpr,scanExprs_le kind bound children]
    cases kind <;> simp [ownIds,localIds,funcIds,Expr.occurrences,readPlace]
  | .closure funcId params captures mutableCaptures body, current => by
    rw [scanExpr,scanDefaults_le kind bound params,scanStmts_le kind bound body]
    simp only [Expr.occurrences,bounded_append,bounded_closureParams,maxIds_le]
    cases kind with
    | «local» =>
      simp only [ownIds,localIds,List.forall_mem_append,bounded_localsAt,bounded_funcsAt,readPlace]
      simp
      tauto
    | func =>
      simp [ownIds,funcIds,readPlace]
      tauto

theorem scanExprs_le (kind : Kind) (bound : Nat) : ∀ (es : List Expr) (current : Nat),
    scanExprs (ownIds kind) current es ≤ bound ↔
      current ≤ bound ∧ Bounded kind bound (exprsOccurrences es)
  | [], current => by simp [scanExprs,exprsOccurrences]
  | e :: rest, current => by
    rw [scanExprs,scanExprs_le kind bound rest,scanExpr_le kind bound e]
    simp [exprsOccurrences,and_assoc]

theorem scanOptExpr_le (kind : Kind) (bound : Nat) : ∀ (e : Option Expr) (current : Nat),
    scanOptExpr (ownIds kind) current e ≤ bound ↔
      current ≤ bound ∧ Bounded kind bound (optExprOccurrences e)
  | none, current => by simp [scanOptExpr,optExprOccurrences]
  | some e, current => by
    rw [scanOptExpr,scanExpr_le kind bound e,optExprOccurrences]

theorem scanDefaults_le (kind : Kind) (bound : Nat) : ∀ (params : List Param) (current : Nat),
    scanDefaults (ownIds kind) current params ≤ bound ↔
      current ≤ bound ∧ Bounded kind bound (defaultsOccurrences params)
  | [], current => by simp [scanDefaults,defaultsOccurrences]
  | .mk id default decorators mapped :: rest, current => by
    rw [scanDefaults,scanDefaults_le kind bound rest,scanOptExpr_le kind bound default]
    simp [defaultsOccurrences,and_assoc]

theorem scanStmt_le (kind : Kind) (bound : Nat) : ∀ (s : Stmt) (current : Nat),
    scanStmt (ownIds kind) current s ≤ bound ↔ current ≤ bound ∧ Bounded kind bound s.occurrences
  | .let id init, current => by
    rw [scanStmt,scanOptExpr_le kind bound init]
    cases kind <;> simp [ownIds,localIds,funcIds,Stmt.occurrences,readPlace,and_assoc]
  | .expr e, current => by rw [scanStmt,scanExpr_le kind bound e,Stmt.occurrences]
  | .return value, current => by rw [scanStmt,scanOptExpr_le kind bound value,Stmt.occurrences]
  | .if condition thenBranch elseBranch, current => by
    rw [scanStmt,scanStmts_le kind bound elseBranch,scanStmts_le kind bound thenBranch,
      scanExpr_le kind bound condition]
    simp [Stmt.occurrences,and_assoc]
  | .while condition body, current => by
    rw [scanStmt,scanStmts_le kind bound body,scanExpr_le kind bound condition]
    simp [Stmt.occurrences,and_assoc]
  | .doWhile body condition, current => by
    rw [scanStmt,scanExpr_le kind bound condition,scanStmts_le kind bound body]
    simp [Stmt.occurrences,and_assoc]
  | .for init condition update body, current => by
    rw [scanStmt,scanStmts_le kind bound body,scanOptExpr_le kind bound update,
      scanOptExpr_le kind bound condition,scanOptStmt_le kind bound init]
    simp [Stmt.occurrences,and_assoc]
  | .labeled body, current => by rw [scanStmt,scanStmt_le kind bound body,Stmt.occurrences]
  | .jump, current => by simp [scanStmt,Stmt.occurrences]
  | .throw value, current => by rw [scanStmt,scanExpr_le kind bound value,Stmt.occurrences]
  | .try body handler finalizer, current => by
    rw [scanStmt,scanStmts_le kind bound finalizer,scanHandler_le kind bound handler,maxIds_le,
      scanStmts_le kind bound body]
    simp only [Stmt.occurrences,bounded_append,bounded_handler]
    cases kind with
    | «local» =>
      simp [ownIds,localIds]
      tauto
    | func =>
      simp [ownIds,funcIds]
      tauto
  | .switch discriminant cases, current => by
    rw [scanStmt,scanCases_le kind bound cases,scanExpr_le kind bound discriminant]
    simp [Stmt.occurrences,and_assoc]
  | .boxes ids, current => by
    cases kind <;> simp [scanStmt,ownIds,localIds,funcIds,Stmt.occurrences,readPlace]

theorem scanStmts_le (kind : Kind) (bound : Nat) : ∀ (ss : List Stmt) (current : Nat),
    scanStmts (ownIds kind) current ss ≤ bound ↔
      current ≤ bound ∧ Bounded kind bound (stmtsOccurrences ss)
  | [], current => by simp [scanStmts,stmtsOccurrences]
  | s :: rest, current => by
    rw [scanStmts,scanStmts_le kind bound rest,scanStmt_le kind bound s]
    simp [stmtsOccurrences,and_assoc]

theorem scanOptStmt_le (kind : Kind) (bound : Nat) : ∀ (s : Option Stmt) (current : Nat),
    scanOptStmt (ownIds kind) current s ≤ bound ↔
      current ≤ bound ∧ Bounded kind bound (optStmtOccurrences s)
  | none, current => by simp [scanOptStmt,optStmtOccurrences]
  | some s, current => by
    rw [scanOptStmt,scanStmt_le kind bound s,optStmtOccurrences]

theorem scanHandler_le (kind : Kind) (bound : Nat) : ∀ (handler : Option CatchClause) (current : Nat),
    scanHandler (ownIds kind) current handler ≤ bound ↔
      current ≤ bound ∧ Bounded kind bound (handlerBodyOccurrences handler)
  | none, current => by simp [scanHandler,handlerBodyOccurrences]
  | some (.mk param body), current => by
    rw [scanHandler,scanStmts_le kind bound body,handlerBodyOccurrences]

theorem scanCases_le (kind : Kind) (bound : Nat) : ∀ (cases : List SwitchCase) (current : Nat),
    scanCases (ownIds kind) current cases ≤ bound ↔
      current ≤ bound ∧ Bounded kind bound (casesOccurrences cases)
  | [], current => by simp [scanCases,casesOccurrences]
  | .mk test body :: rest, current => by
    rw [scanCases,scanCases_le kind bound rest,scanStmts_le kind bound body,
      scanOptExpr_le kind bound test]
    simp [casesOccurrences,and_assoc]
end

section Modules

theorem scanDecorators_le (kind : Kind) (bound current : Nat) (decorators : List Decorator) :
    scanDecorators (ownIds kind) current decorators ≤ bound ↔
      current ≤ bound ∧ Bounded kind bound (decoratorsOccurrences decorators) := by
  induction decorators generalizing current with
  | nil => simp [scanDecorators,decoratorsOccurrences]
  | cons decorator rest step =>
    obtain ⟨args⟩ := decorator
    have folded : scanDecorators (ownIds kind) current (.mk args :: rest) =
        scanDecorators (ownIds kind) (scanExprs (ownIds kind) current args) rest := rfl
    rw [folded,step,scanExprs_le kind bound args]
    simp [decoratorsOccurrences,and_assoc]

/-- What each scan reads off a parameter of a function. -/
def ofParam : Kind → Param → List Nat
  | .local => localsOfParam
  | .func => fun _ => []

theorem scanParams_le (kind : Kind) (bound current : Nat) (params : List Param) :
    scanParams (ownIds kind) (ofParam kind) current params ≤ bound ↔
      current ≤ bound ∧ Bounded kind bound (paramsOccurrences false params) := by
  induction params generalizing current with
  | nil => simp [scanParams,paramsOccurrences]
  | cons param rest step =>
    obtain ⟨id,default,decorators,mapped⟩ := param
    have folded : scanParams (ownIds kind) (ofParam kind) current (.mk id default decorators mapped :: rest) =
        scanParams (ownIds kind) (ofParam kind) (scanDecorators (ownIds kind) (scanOptExpr (ownIds kind)
          (maxIds current (ofParam kind (.mk id default decorators mapped))) default) decorators)
          rest := rfl
    rw [folded,step,scanDecorators_le,scanOptExpr_le kind bound default,maxIds_le]
    simp only [paramsOccurrences,bounded_append,bounded_localsAt]
    cases kind with
    | «local» =>
      simp [ofParam,localsOfParam,readPlace]
      tauto
    | func =>
      simp [ofParam]
      tauto

theorem scanFunction_le (kind : Kind) (bound current : Nat) (func : Function) :
    scanFunction (ownIds kind) (ofParam kind) current func ≤ bound ↔
      current ≤ bound ∧ Bounded kind bound (paramsOccurrences false func.params ++
        decoratorsOccurrences func.decorators ++ stmtsOccurrences func.body) := by
  rw [scanFunction,scanStmts_le kind bound func.body,scanFunctionShell,scanDecorators_le,scanParams_le]
  simp [and_assoc]

theorem scanField_le (kind : Kind) (bound current : Nat) (field : ClassField) :
    scanField (ownIds kind) current field ≤ bound ↔
      current ≤ bound ∧ Bounded kind bound field.occurrences := by
  rw [scanField,scanDecorators_le,scanOptExpr_le kind bound field.keyExpr,
    scanOptExpr_le kind bound field.init]
  simp [ClassField.occurrences,and_assoc]

/-- A fold of scans is bounded when each item's ids are. -/
theorem foldl_le {α : Type*} {kind : Kind} {bound : Nat} {scan : Nat → α → Nat}
    {occurrences : α → List Occurrence}
    (item_le : ∀ current item, scan current item ≤ bound ↔
      current ≤ bound ∧ Bounded kind bound (occurrences item)) (items : List α) (current : Nat) :
    items.foldl scan current ≤ bound ↔
      current ≤ bound ∧ Bounded kind bound (items.flatMap occurrences) := by
  induction items generalizing current with
  | nil => simp
  | cons item rest step =>
    rw [List.foldl_cons,step,item_le,List.flatMap_cons,bounded_append,and_assoc]

theorem bounded_memberFunction (kind : Kind) (bound : Nat) (func : Function) :
    Bounded kind bound (func.occurrences .memberFunctionId) ↔
      Bounded kind bound (paramsOccurrences false func.params ++
        decoratorsOccurrences func.decorators ++ stmtsOccurrences func.body) := by
  simp [Function.occurrences,readPlace]

theorem scanClass_le (kind : Kind) (bound current : Nat) (c : Hir.Carriers.Class) :
    scanClass (ownIds kind) (ofParam kind) current c ≤ bound ↔
      current ≤ bound ∧ Bounded kind bound c.occurrences := by
  rw [scanClass,scanOptExpr_le kind bound c.extendsExpr,scanDecorators_le,
    foldl_le (scanField_le kind bound),
    foldl_le fun current member => scanExpr_le kind bound member.keyExpr current,
    foldl_le (scanFunction_le kind bound)]
  simp only [Hir.Carriers.Class.occurrences,bounded_append,bounded_flatMap,bounded_memberFunction,bounded_funcsAt,
    readPlace]
  simp
  tauto

theorem computeMaxLocalId_le (module : Hir.Carriers.Module) (bound : Nat) :
    computeMaxLocalId module ≤ bound ↔ Bounded .local bound module.occurrences := by
  have functions : ∀ current (func : Function),
      scanFunction localIds localsOfParam current func ≤ bound ↔
        current ≤ bound ∧ Bounded .local bound (func.occurrences .functionId) := by
    intro current func
    rw [show scanFunction localIds localsOfParam current func =
      scanFunction (ownIds .local) (ofParam .local) current func from rfl,scanFunction_le]
    simp [Function.occurrences,readPlace]
  have globals : ∀ current (global : Global),
      scanOptExpr localIds (max current global.id) global.init ≤ bound ↔
        current ≤ bound ∧ Bounded .local bound global.occurrences := by
    intro current global
    rw [show scanOptExpr localIds = scanOptExpr (ownIds .local) from rfl,
      scanOptExpr_le .local bound global.init]
    simp [Global.occurrences,readPlace,and_assoc]
  have classes : ∀ current (c : Hir.Carriers.Class), scanClass localIds localsOfParam current c ≤ bound ↔
      current ≤ bound ∧ Bounded .local bound c.occurrences := scanClass_le .local bound
  have init := scanStmts_le .local bound module.init
  rw [computeMaxLocalId,foldl_le classes,foldl_le globals,scanStmtsForMaxLocal]
  rw [show scanStmts localIds = scanStmts (ownIds .local) from rfl,init,foldl_le functions]
  simp only [Hir.Carriers.Module.occurrences,bounded_append,bounded_localsAt,bounded_funcsAt,readPlace]
  simp [and_assoc]

theorem computeMaxFuncId_le (module : Hir.Carriers.Module) (bound : Nat) :
    computeMaxFuncId module ≤ bound ↔ Bounded .func bound module.occurrences := by
  have functions : ∀ current (func : Function),
      scanFunction funcIds (fun _ => []) (max current func.id) func ≤ bound ↔
        current ≤ bound ∧ Bounded .func bound (func.occurrences .functionId) := by
    intro current func
    rw [show scanFunction funcIds (fun _ => []) (max current func.id) func =
      scanFunction (ownIds .func) (ofParam .func) (max current func.id) func from rfl,scanFunction_le]
    simp [Function.occurrences,readPlace,and_assoc]
  have globals : ∀ current (global : Global), scanOptExpr funcIds current global.init ≤ bound ↔
        current ≤ bound ∧ Bounded .func bound global.occurrences := by
    intro current global
    rw [show scanOptExpr funcIds = scanOptExpr (ownIds .func) from rfl,
      scanOptExpr_le .func bound global.init]
    simp [Global.occurrences]
  have classes : ∀ current (c : Hir.Carriers.Class), scanClass funcIds (fun _ => []) current c ≤ bound ↔
      current ≤ bound ∧ Bounded .func bound c.occurrences := scanClass_le .func bound
  have init := scanStmts_le .func bound module.init
  rw [computeMaxFuncId,foldl_le classes,foldl_le globals,scanStmtsForMaxFunc]
  rw [show scanStmts funcIds = scanStmts (ownIds .func) from rfl,init,foldl_le functions]
  simp only [Hir.Carriers.Module.occurrences,bounded_append,bounded_localsAt,bounded_funcsAt,readPlace]
  simp [and_assoc]

end Modules

/-- The largest id of a kind that the scans report. -/
def computeMaxId (module : Hir.Carriers.Module) : Kind → Nat
  | .local => computeMaxLocalId module
  | .func => computeMaxFuncId module

theorem computeMaxId_le (module : Hir.Carriers.Module) (kind : Kind) (bound : Nat) :
    computeMaxId module kind ≤ bound ↔ Bounded kind bound module.occurrences := by
  cases kind with
  | «local» => exact computeMaxLocalId_le module bound
  | func => exact computeMaxFuncId_le module bound

/-- A reported maximum is zero or the id of a place the scan reads. -/
theorem computeMaxId_attained (module : Hir.Carriers.Module) (kind : Kind) :
    computeMaxId module kind = 0 ∨ ∃ occurrence ∈ module.occurrences, occurrence.kind = kind ∧
      scanned occurrence = true ∧ occurrence.id = computeMaxId module kind := by
  by_contra missed
  push Not at missed
  obtain ⟨positive,absent⟩ := missed
  have bounded := (computeMaxId_le module kind _).mp le_rfl
  have smaller : Bounded kind (computeMaxId module kind - 1) module.occurrences := by
    intro occurrence member same read
    have bound := bounded occurrence member same read
    have different := absent occurrence member same read
    omega
  have := (computeMaxId_le module kind _).mpr smaller
  omega

/-- No id of the module is above the maximum of its kind, so that what the transform allocates above
it is not in use. -/
def FreshIdsSound (module : Hir.Carriers.Module) : Prop :=
  ∀ occurrence ∈ module.occurrences, occurrence.id ≤ computeMaxId module occurrence.kind

/-- The scans are bounds exactly when no id at a place they skip is above all those they read. -/
theorem freshIdsSound_iff (module : Hir.Carriers.Module) : FreshIdsSound module ↔
    ∀ skipped ∈ module.occurrences, scanned skipped = false → skipped.id = 0 ∨
      ∃ read ∈ module.occurrences, scanned read = true ∧ read.kind = skipped.kind ∧
        skipped.id ≤ read.id := by
  constructor
  · intro sound skipped member _
    have bound := sound skipped member
    rcases computeMaxId_attained module skipped.kind with zero | ⟨read,inside,same,seen,maximal⟩
    · exact Or.inl (by omega)
    · exact Or.inr ⟨read,inside,seen,same,by omega⟩
  · intro covered occurrence member
    have bounded := (computeMaxId_le module occurrence.kind _).mp le_rfl
    cases seen : scanned occurrence with
    | true => exact bounded occurrence member rfl seen
    | false =>
      rcases covered occurrence member seen with zero | ⟨read,inside,read_seen,same,above⟩
      · omega
      · exact above.trans (bounded read inside same read_seen)

/-- A class declared after the last function: the id of its method is above the reported maximum,
and is the first id the transform allocates. -/
theorem memberFunctionId_collides :
    let module : Hir.Carriers.Module := { functions := [{ id := 1 }],classes := [{ methods := [{ id := 2 }] }] }
    computeMaxFuncId module = 1 ∧ ⟨.func,.memberFunctionId,computeMaxFuncId module + 1,false⟩ ∈
      module.occurrences ∧ ¬ FreshIdsSound module := by
  have reported : computeMaxFuncId
      { functions := [{ id := 1 }],classes := [{ methods := [{ id := 2 }] }] } = 1 := by rfl
  refine ⟨reported,by rw [reported]; decide,?_⟩
  intro sound
  have bound : 2 ≤ _ := sound ⟨.func,.memberFunctionId,2,false⟩ (by decide)
  rw [computeMaxId,reported] at bound
  omega

end Perry.Transform.IdScan
