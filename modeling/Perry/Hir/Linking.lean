import Perry.Hir.Nodes

/-! A module as a whole: its code, entered by an environment that answers whatever the code asks and may enter it again while it
does, and the cells of some module-level locals, shared by every activation. -/
namespace Perry.Hir
open Perry.Effect

section entries

/-- What a read is expected to find; no computation depends on it. -/
abbrev Watch := LocalId → Option Val

/-- A part of the module that can be entered. -/
structure Entry where
  params : List Param
  watch : Watch
  body : List (Stmt × Watch)

/-- What the HIR keeps of a closure. -/
structure ClosureCode where
  funcId : FuncId
  params : List LocalId
  defaults : List Expr
  captures : List LocalId
  body : List Stmt

def Node.closure? : Node → Option ClosureCode
  | .expr (.closure funcId params defaults captures _ _ body) => some ⟨funcId,params,defaults,captures,body⟩
  | _ => none

/-- The closures made anywhere in the statements, those in closure bodies too. -/
def closuresOf (stmts : List Stmt) : List ClosureCode := (nodesOfStmts true stmts).filterMap Node.closure?

def closuresOfExprs (es : List Expr) : List ClosureCode := (nodesOfList true es).filterMap Node.closure?

/-- What the HIR does not keep of a parameter of a closure. -/
structure ParamShape where
  hasDefault : Bool := false
  isRest : Bool := false
  argumentsObject : Bool := false

def shapeParams : List LocalId → List ParamShape → List Expr → List Param
  | [],_,_ => []
  | id :: ids,[],defaults => ⟨id,none,false,false⟩ :: shapeParams ids [] defaults
  | id :: ids,shape :: shapes,defaults =>
    if shape.hasDefault then ⟨id,defaults.head?,shape.isRest,shape.argumentsObject⟩ :: shapeParams ids shapes defaults.tail
    else ⟨id,none,shape.isRest,shape.argumentsObject⟩ :: shapeParams ids shapes defaults

end entries

section environments

/-- The cells, what else there is, and whether a watched read came before the cell was filled or found another value. -/
structure World (R : Type) where
  cells : LocalId → Option Val
  rest : R
  early : Bool
  strayed : Bool

inductive Ask where
  | read (id : LocalId)
  | write (id : LocalId) (v : Val)
  | declare (id : LocalId) (v : Val)
  | allocate (id : LocalId) (tdz : Bool)
  | release (id : LocalId)
  | op (op : Op) (args : List Val)
  | closure (id : FuncId) (flags : ClosureFlags) (captured : List (LocalId × Val))
  | refuse (fallback : WithSetFallback) (property : String)
  | await (v : Val)
  | yield (v : Val) (delegate : Bool)

/-- How the environment answers: it may enter the module any number of times before it does. -/
inductive Script (R : Type) where
  | answer (result : Except Signal Val) (rest : R)
  | enter (entry : Nat) (args : List Val) (store : LocalId → Val) (rest : R)
    (next : Except Comp Unit → (LocalId → Option Val) → R → Script R)

/-- It sees the cells, as an importing module does, and changes what else there is. -/
structure Environment (R : Type) where
  boxed : LocalId → Bool
  shapes : FuncId → List ParamShape
  referenceError : LocalId → Val
  respond : Ask → (LocalId → Option Val) → R → Script R
  main : R → Script R

end environments

section runs

variable {R : Type}

/-- How an entry of the module is run. -/
abbrev Entering (R : Type) := Nat → List Val → (LocalId → Val) → Run (World R) Comp Unit

def Script.play (enter : Entering R) : Script R → Run (World R) Signal Val
  | .answer result rest => fun w => (result,{ w with rest })
  | .enter entry args store rest next => fun w =>
    let ended := enter entry args store { w with rest }
    ((next ended.1 ended.2.cells ended.2.rest).play enter) ended.2

variable (celled : LocalId → Bool) (captures : FuncId → List LocalId) (env : Environment R) (enter : Entering R)

def Environment.ask (request : Ask) : Run (World R) Signal Val := fun w => (env.respond request w.cells w.rest).play enter w

def Environment.tell (request : Ask) : Run (World R) Signal Unit := do
  let _ ← env.ask enter request
  pure ()

def readCell (watch : Watch) (id : LocalId) : Run (World R) Signal Val := fun w =>
  match w.cells id with
  | some v => (.ok v,{ w with strayed := w.strayed || (watch id).any (· ≠ v) })
  | none => (.error (.throw (env.referenceError id)),{ w with early := w.early || (watch id).isSome })

def writeCell (id : LocalId) (v : Val) : Run (World R) Signal Unit :=
  Run.update fun w => { w with cells := Function.update w.cells id (some v) }

/-- A cell is there before its declaration, so there is nothing to allocate. A closure reaches a cell without capturing it. -/
def Environment.host (watch : Watch) : Host (World R) where
  boxed id := celled id || env.boxed id
  readBox id := if celled id then readCell env watch id else env.ask enter (.read id)
  writeBox id v := if celled id then writeCell id v else env.tell enter (.write id v)
  declareBox id v := if celled id then writeCell id v else env.tell enter (.declare id v)
  allocateBox id tdz := if celled id then pure () else env.tell enter (.allocate id tdz)
  releaseBox id := if celled id then pure () else env.tell enter (.release id)
  op op args := env.ask enter (.op op args)
  closure id flags vs := env.ask enter (.closure id flags (((captures id).zip vs).filter fun captured => !celled captured.1))
  refuseWith fallback property := env.ask enter (.refuse fallback property)
  await v := env.ask enter (.await v)
  yield v delegate := env.ask enter (.yield v delegate)

/-- One activation of an entry. -/
def Entry.activate (mode : Mode) (n : Nat) (entry : Entry) (args : List Val) : Act (World R) Unit := do
  perform (bindParams (env.host celled captures enter entry.watch) args 0 entry.params)
  entry.body.forM fun part => exec (env.host celled captures enter part.2) mode n [] part.1

/-- Activations are nested at most `depth` deep. -/
def entering (mode : Mode) (n : Nat) (entries : List Entry) : Nat → Entering R
  | 0,_,_,_ => Run.raise .timeout
  | depth + 1,i,args,store => fun w =>
    match entries[i]? with
    | none => (.error .halt,w)
    | some entry =>
      let ended := entry.activate celled captures env (entering mode n entries depth) mode n args ⟨store,w,[]⟩
      (ended.1,ended.2.world)

/-- A run of the module, from empty cells. -/
def launch (mode : Mode) (n : Nat) (entries : List Entry) (depth : Nat) (rest : R) : Except Signal Val × World R :=
  (env.main rest).play (entering celled captures env mode n entries depth) ⟨fun _ => none,rest,false,false⟩

end runs

end Perry.Hir
