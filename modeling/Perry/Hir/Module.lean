import Perry.Effect.Triple
import Perry.Hir.Semantics

/-! Modules, and what can happen when one runs: which of its code is entered, with
which arguments, by direct calls or by whoever holds a function's value. Types,
decorators and heritage expressions are left out: lowering repeats the latter two
as statements of `init`. -/
namespace Perry.Hir

open Perry.Effect

structure Param where
  id : LocalId
  default : Option Expr := none
  isRest : Bool := false
  argumentsObject : Bool := false

structure Function where
  id : FuncId
  name : String
  params : List Param
  body : List Stmt
  isAsync : Bool := false
  isGenerator : Bool := false
  isExported : Bool := false

structure ClassComputedMember where
  keyExpr : Expr
  function : Function

structure ClassField where
  keyExpr : Option Expr
  init : Option Expr

structure Class where
  constructor : Option Function
  methods : List Function := []
  staticMethods : List Function := []
  getters : List Function := []
  setters : List Function := []
  computedMembers : List ClassComputedMember := []
  fields : List ClassField := []
  staticFields : List ClassField := []

/-- Re-exports name functions of other modules. -/
inductive Export where
  | named (localName : String)
  | reExport
  deriving DecidableEq

structure Module where
  exports : List Export := []
  classes : List Class := []
  functions : List Function
  scriptGlobalFunctions : List FuncId := []
  referencesGlobalThis : Bool := false
  init : List Stmt
  exportedFunctions : List FuncId := []

/-- What one activation runs. -/
structure Code where
  params : List Param
  body : List Stmt

def Function.code (f : Function) : Code := ⟨f.params,f.body⟩

def Code.ofExpr (e : Expr) : Code := ⟨[],[.expr e]⟩

def Class.functions (c : Class) : List Function :=
  c.constructor.toList ++ c.methods ++ c.staticMethods ++ c.getters ++ c.setters ++
    c.computedMembers.map (·.function)

def Class.exprs (c : Class) : List Expr :=
  c.computedMembers.map (·.keyExpr) ++
    (c.fields ++ c.staticFields).flatMap fun field => field.keyExpr.toList ++ field.init.toList

def Class.code (c : Class) : List Code := c.functions.map (·.code) ++ c.exprs.map Code.ofExpr

section parts

mutual

/-- The expression and all its subexpressions; closure bodies are not entered. -/
def Expr.parts : Expr → List Expr
  | .lit l => [.lit l]
  | .localGet id => [.localGet id]
  | .localSet id value => .localSet id value :: value.parts
  | .update id op pre => [.update id op pre]
  | .strict op args => .strict op args :: partsOfList args
  | .logical op left right => .logical op left right :: (left.parts ++ right.parts)
  | .conditional c t e => .conditional c t e :: (c.parts ++ t.parts ++ e.parts)
  | .sequence items => .sequence items :: partsOfList items
  | .arrayMut kind id args => .arrayMut kind id args :: partsOfList args
  | .withSet object property value fallback strict =>
    .withSet object property value fallback strict :: (object.parts ++ value.parts)
  | .closure funcId params defaults captures mutableCaptures flags body =>
    [.closure funcId params defaults captures mutableCaptures flags body]
  | .await operand => .await operand :: operand.parts
  | .yield value delegate => .yield value delegate :: partsOfOption value

def partsOfList : List Expr → List Expr
  | [] => []
  | e :: es => e.parts ++ partsOfList es

def partsOfOption : Option Expr → List Expr
  | none => []
  | some e => e.parts

end

section

-- equations, made here once and not by the first proofs that unfold these
attribute [local simp] Expr.parts partsOfList partsOfOption

end

mutual

def Stmt.parts : Stmt → List Expr
  | .let _ _ init => partsOfOption init
  | .expr e => e.parts
  | .return value => partsOfOption value
  | .if c t e => c.parts ++ partsOfStmts t ++ partsOfBlock e
  | .while c b => c.parts ++ partsOfStmts b
  | .doWhile b c => partsOfStmts b ++ c.parts
  | .for i c u b => partsOfInit i ++ partsOfOption c ++ partsOfOption u ++ partsOfStmts b
  | .labeled _ s => s.parts
  | .throw e => e.parts
  | .try b h f => partsOfStmts b ++ partsOfCatch h ++ partsOfBlock f
  | .switch d cases => d.parts ++ partsOfCases cases
  | _ => []

def partsOfStmts : List Stmt → List Expr
  | [] => []
  | s :: ss => s.parts ++ partsOfStmts ss

def partsOfInit : Option Stmt → List Expr
  | none => []
  | some s => s.parts

def partsOfCatch : Option CatchClause → List Expr
  | none => []
  | some (.mk _ body) => partsOfStmts body

def partsOfBlock : Option (List Stmt) → List Expr
  | none => []
  | some body => partsOfStmts body

def partsOfCases : List SwitchCase → List Expr
  | [] => []
  | .mk test body :: cases => partsOfOption test ++ partsOfStmts body ++ partsOfCases cases

end

section

-- equations, made here once and not by the first proofs that unfold these
attribute [local simp] Stmt.parts partsOfStmts partsOfInit partsOfCatch partsOfBlock partsOfCases

end

theorem partsOfBlock_eq (block : Option (List Stmt)) : partsOfBlock block = partsOfStmts (block.getD []) := by
  cases block <;> rfl

def Code.parts (code : Code) : List Expr :=
  (code.params.flatMap fun p => partsOfOption p.default) ++ partsOfStmts code.body

end parts

section activation

variable {W : Type} (host : Host W)

/-- The value a parameter is bound to: a rest parameter and the hidden binding of an
`arguments` object gather, and a default replaces `undefined`. -/
def paramValue (args : List Val) (i : Nat) (p : Param) : Eval W Val :=
  if p.isRest then applyOp host .array (args.drop i)
  else if p.argumentsObject then applyOp host .array args
  else match p.default,args.getD i .undefined with
    | some d,.undefined => eval host d
    | _,v => pure v

def bindParams (args : List Val) : Nat → List Param → Eval W Unit
  | _,[] => pure ()
  | i,p :: ps => do
    let v ← paramValue host args i p
    declareLocal host p.id v
    bindParams args (i + 1) ps

/-- One activation, from its arguments. -/
def activation (mode : Mode) (n : Nat) (code : Code) (args : List Val) : Act W Unit := do
  perform (bindParams host args 0 code.params)
  execList host mode n [] code.body

/-- The host that records what it is asked. -/
def Host.watched : Host (W × List Request) where
  boxed := host.boxed
  readBox id := pass [] (host.readBox id)
  writeBox id v := pass [.box id v] (host.writeBox id v)
  declareBox id v := pass [.box id v] (host.declareBox id v)
  allocateBox id tdz := pass [] (host.allocateBox id tdz)
  releaseBox id := pass [] (host.releaseBox id)
  op op args := pass [.op op args] (host.op op args)
  closure id flags captures := pass [.closure id captures] (host.closure id flags captures)
  refuseWith fallback property := pass [] (host.refuseWith fallback property)
  await v := pass [.await v] (host.await v)
  yield v delegate := pass [.yield v] (host.yield v delegate)
where
  pass {α : Type} (asked : List Request) (m : Run W Signal α) : Run (W × List Request) Signal α :=
    fun w => ((m w.1).1,((m w.1).2,asked ++ w.2))

/-- The values a signal carries. -/
def Signal.values : Signal → List Val
  | .throw v | .close v => [v]
  | .halt => []

/-- The values a host operation can end with. -/
def Ends {α : Type} (m : Run W Signal α) (result : α → List Val) (v : Val) : Prop :=
  ∃ w, match (m w).1 with
    | .ok a => v ∈ result a
    | .error s => v ∈ s.values

/-- The values the host can hand to an activation. -/
inductive Host.Hands (v : Val) : Prop where
  | readBox (id : LocalId) (ends : Ends (host.readBox id) ([·]) v)
  | writeBox (id : LocalId) (w : Val) (ends : Ends (host.writeBox id w) (fun _ => []) v)
  | declareBox (id : LocalId) (w : Val) (ends : Ends (host.declareBox id w) (fun _ => []) v)
  | allocateBox (id : LocalId) (tdz : Bool) (ends : Ends (host.allocateBox id tdz) (fun _ => []) v)
  | releaseBox (id : LocalId) (ends : Ends (host.releaseBox id) (fun _ => []) v)
  | op (op : Op) (args : List Val) (ends : Ends (host.op op args) ([·]) v)
  | closure (id : FuncId) (flags : ClosureFlags) (captures : List Val)
      (ends : Ends (host.closure id flags captures) ([·]) v)
  | refuseWith (fallback : WithSetFallback) (property : String)
      (ends : Ends (host.refuseWith fallback property) ([·]) v)
  | await (w : Val) (ends : Ends (host.await w) ([·]) v)
  | yield (w : Val) (delegate : Bool) (ends : Ends (host.yield w delegate) ([·]) v)

/-- Reads of these locals are folded to their values. -/
structure Host.Folds (constants : LocalId → Option Num) : Prop where
  boxed : ∀ id n, constants id = some n → host.boxed id = true
  reads : ∀ id n w, constants id = some n → host.readBox id w = (.ok (.num n),w)

end activation

/-- The values a request hands to the host; the callee of a call is only called. -/
def Request.handed : Request → List Val
  | .op .call (_ :: args) => args
  | .op _ args => args
  | .closure _ captures => captures
  | .await v | .yield v | .box _ v => [v]

def handedAtEnd : Except Comp Unit → List Val
  | .error (.return v) | .error (.throw v) | .error (.close v) => [v]
  | _ => []

/-- Functions that other code can name. -/
def Module.offers (m : Module) (f : Function) : Prop :=
  f.isExported = true ∨ f.id ∈ m.exportedFunctions ∨ .named f.name ∈ m.exports ∨
    (m.referencesGlobalThis = true ∧ f.id ∈ m.scriptGlobalFunctions)

inductive Occurrence where
  /-- Something outside the activations holds the function's value. -/
  | know (id : FuncId)
  | enter (code : Code) (args : List Val)
  | run (code : Code) (args : List Val) (ended : Except Comp Unit) (asked : List Request) (trace : List Event)

/-- What can happen when the module runs. The host stands for everything but the
module's own code; it hands out no function value it has not been given. -/
inductive Module.Happens (m : Module) (constants : LocalId → Option Num) : Occurrence → Prop where
  | start : Happens m constants (.enter ⟨[],m.init⟩ [])
  | offered (f : Function) (member : f ∈ m.functions) (offers : m.offers f) : Happens m constants (.know f.id)
  | called (f : Function) (args : List Val) (member : f ∈ m.functions) (known : Happens m constants (.know f.id))
      (given : ∀ id, .func id ∈ args → Happens m constants (.know id)) : Happens m constants (.enter f.code args)
  | member (c : Class) (code : Code) (args : List Val) (member : c ∈ m.classes) (inside : code ∈ c.code)
      (given : ∀ id, .func id ∈ args → Happens m constants (.know id)) : Happens m constants (.enter code args)
  | closure (code : Code) (args args' : List Val) (funcId : FuncId) (params : List Param) (defaults : List Expr)
      (captures mutableCaptures : List LocalId) (flags : ClosureFlags) (body : List Stmt)
      (entered : Happens m constants (.enter code args))
      (inside : .closure funcId (params.map (·.id)) defaults captures mutableCaptures flags body ∈ code.parts)
      (aligned : params.filterMap (·.default) = defaults)
      (given : ∀ id, .func id ∈ args' → Happens m constants (.know id)) :
      Happens m constants (.enter ⟨params,body⟩ args')
  | built (code : Code) (args : List Val) (funcId : FuncId) (params : List LocalId) (defaults : List Expr)
      (captures mutableCaptures : List LocalId) (flags : ClosureFlags) (body : List Stmt)
      (entered : Happens m constants (.enter code args))
      (inside : .closure funcId params defaults captures mutableCaptures flags body ∈ code.parts) :
      Happens m constants (.know funcId)
  | run {W : Type} (host : Host W) (mode : Mode) (n : Nat) (code : Code) (args : List Val) (store : LocalId → Val)
      (world : W) (entered : Happens m constants (.enter code args)) (folds : host.Folds constants)
      (honest : ∀ id, host.Hands (.func id) → Happens m constants (.know id))
      (stored : ∀ x id, store x = .func id → Happens m constants (.know id)) :
      Happens m constants (.run code args
        (activation host.watched mode n code args ⟨store,(world,[]),[]⟩).1
        (activation host.watched mode n code args ⟨store,(world,[]),[]⟩).2.world.2
        (activation host.watched mode n code args ⟨store,(world,[]),[]⟩).2.trace)
  | calls (code : Code) (args args' : List Val) (ended : Except Comp Unit) (asked : List Request) (trace : List Event)
      (f : Function) (ran : Happens m constants (.run code args ended asked trace)) (member : f ∈ m.functions)
      (request : .op .call (.func f.id :: args') ∈ asked) : Happens m constants (.enter f.code args')
  | hands (code : Code) (args : List Val) (ended : Except Comp Unit) (asked : List Request) (trace : List Event)
      (id : FuncId) (ran : Happens m constants (.run code args ended asked trace))
      (handed : .func id ∈ asked.flatMap Request.handed ++ handedAtEnd ended) : Happens m constants (.know id)

end Perry.Hir
