import Perry.Effect.Run
import Perry.Hir.Syntax

/-! A definitional interpreter for the HIR. Everything outside one activation
(calls, property access, the heap, captured locals, suspension) belongs to an
arbitrary host, so that two programs have the same observable behaviour exactly
when they drive every host through the same worlds to the same results. -/
namespace Perry.Hir

open Perry.Effect

inductive Val where
  | undefined
  | null
  | bool (b : Bool)
  | num (n : Num)
  | bigInt (n : Int)
  | str (s : String)
  | func (id : FuncId)
  | ref (address : Nat)
  deriving DecidableEq, Repr

/-- The largest integer up to which doubles hold every integer. -/
def maxExact : Nat := 9007199254740992

/-- The integer nearest to `m` with at most 53 significant bits, ties to even. -/
def roundNat (m : Nat) : Nat :=
  let shift := m.log2 + 1 - 53
  let unit := Nat.pow 2 shift
  let kept := m / unit
  let rest := m % unit
  if unit < 2 * rest ∨ (unit = 2 * rest ∧ kept % 2 = 1) then (kept + 1) * unit else kept * unit

/-- Conversion of an integer literal to a double. -/
def Num.ofInt (n : Int) : Num :=
  if n.natAbs ≤ maxExact then .int n
  else if 0 ≤ n then .int (roundNat n.natAbs) else .int (-(roundNat n.natAbs : Int))

def Lit.val : Lit → Val
  | .undefined => .undefined
  | .null => .null
  | .bool b => .bool b
  | .number n => .num n
  | .integer n => .num (.ofInt n)
  | .bigInt n => .bigInt n
  | .string s => .str s

namespace Val

def int (n : Int) : Val := .num (.int n)

def truthy : Val → Bool
  | .undefined | .null => false
  | .bool b => b
  | .num (.int n) => n != 0
  | .num (.other _) => true
  | .num _ => false
  | .bigInt n => n != 0
  | .str s => s != ""
  | .func _ | .ref _ => true

def nullish : Val → Bool
  | .undefined | .null => true
  | _ => false

/-- `===`. -/
def strictEq : Val → Val → Bool
  | .num .nan,_ => false
  | .num .negZero,.num n => n == .int 0 || n == .negZero
  | .num n,.num .negZero => n == .int 0
  | v,w => v == w

end Val

def CompareOp.decideInt : CompareOp → Int → Int → Bool
  | .eq,a,b | .looseEq,a,b => a = b
  | .ne,a,b | .looseNe,a,b => a ≠ b
  | .lt,a,b => a < b
  | .le,a,b => a ≤ b
  | .gt,a,b => b < a
  | .ge,a,b => b ≤ a

/-- An integer result that a double holds exactly. -/
def exactInt (n : Int) : Option Val := if n.natAbs ≤ maxExact then some (.int n) else none

/-- The operators whose result on these operands needs no host. -/
def Op.pure? : Op → List Val → Option Val
  | .unary .not,[v] => some (.bool !v.truthy)
  | .compare op,[.num (.int a),.num (.int b)] => some (.bool (op.decideInt a b))
  | .compare .eq,[v,w] => some (.bool (v.strictEq w))
  | .compare .ne,[v,w] => some (.bool !(v.strictEq w))
  | .compare .looseEq,[v,.null] => some (.bool v.nullish)
  | .compare .looseNe,[v,.null] => some (.bool !v.nullish)
  | .binary .add,[.num (.int a),.num (.int b)] => exactInt (a + b)
  | .binary .sub,[.num (.int a),.num (.int b)] => exactInt (a - b)
  | .funcRef id,[] => some (.func id)
  | .toNumeric,[.num n] => some (.num n)
  | .toNumeric,[.bigInt n] => some (.bigInt n)
  | _,_ => none

section

-- equations, made here once and not by the first proofs that unfold these
attribute [local simp] Op.pure?

end

/-- How a host operation ends when it does not return: it throws, it resumes the
activation by a generator's `return(v)`, or it never comes back. -/
inductive Signal where
  | throw (v : Val)
  | close (v : Val)
  | halt
  deriving DecidableEq, Repr

/-- The environment of an activation. A local that some closure captures is
`boxed`: its cell is part of the world, where calls may read and write it. -/
structure Host (W : Type) where
  boxed : LocalId → Bool
  readBox : LocalId → Run W Signal Val
  writeBox : LocalId → Val → Run W Signal Unit
  declareBox : LocalId → Val → Run W Signal Unit
  allocateBox : LocalId → Bool → Run W Signal Unit
  releaseBox : LocalId → Run W Signal Unit
  op : Op → List Val → Run W Signal Val
  closure : FuncId → ClosureFlags → List Val → Run W Signal Val
  refuseWith : WithSetFallback → String → Run W Signal Val
  await : Val → Run W Signal Val
  yield : Val → Bool → Run W Signal Val

/-- What a host was asked to do. -/
inductive Request where
  | op (op : Op) (args : List Val)
  | closure (id : FuncId) (captures : List Val)
  | await (v : Val)
  | yield (v : Val)
  | box (id : LocalId) (v : Val)
  deriving DecidableEq, Repr

/-- The host that records every request, latest first, and answers each with the
length of the record; no local is boxed. -/
def Host.recording : Host (List Request) where
  boxed _ := false
  readBox _ := pure .undefined
  writeBox _ _ := pure ()
  declareBox _ _ := pure ()
  allocateBox _ _ := pure ()
  releaseBox _ := pure ()
  op op args := fun w => (.ok (.num (.int w.length)),.op op args :: w)
  closure id _ captures := fun w => (.ok (.num (.int w.length)),.closure id captures :: w)
  refuseWith _ _ := Run.raise .halt
  await v := fun w => (.ok (.num (.int w.length)),.await v :: w)
  yield v _ := fun w => (.ok (.num (.int w.length)),.yield v :: w)

/-- What an activation does to its own locals, in order; no computation reads it. -/
inductive Event where
  | declare (id : LocalId) (v : Val)
  | read (id : LocalId)
  | write (id : LocalId) (v : Val)
  | suspend
  | iteration (body : List Stmt)

/-- A local that is not boxed holds `undefined` until it is assigned. -/
structure State (W : Type) where
  store : LocalId → Val
  world : W
  trace : List Event := []

inductive Comp where
  | return (v : Val)
  | throw (v : Val)
  | close (v : Val)
  | break (label : Option String)
  | continue (label : Option String)
  | halt
  | timeout
  deriving DecidableEq, Repr

def Signal.comp : Signal → Comp
  | .throw v => .throw v
  | .close v => .close v
  | .halt => .halt

/-- What an expression computes: it ends abruptly only when the host makes it. -/
abbrev Eval (W α : Type) : Type := Run (State W) Signal α

/-- What a statement computes. -/
abbrev Act (W α : Type) : Type := Run (State W) Comp α

variable {W : Type}

/-- A host operation, seen from an activation. -/
def Host.lift {α : Type} (m : Run W Signal α) : Eval W α := fun st =>
  match m st.world with
  | (.ok a,w) => (.ok a,{ st with world := w })
  | (.error s,w) => (.error s,{ st with world := w })

def emit {ε : Type} (e : Event) : Run (State W) ε Unit :=
  Run.update fun st => { st with trace := e :: st.trace }

def setStore (id : LocalId) (v : Val) : Eval W Unit :=
  Run.update fun st => { st with store := Function.update st.store id v }

/-- An evaluation as part of a statement. -/
def perform {α : Type} (m : Eval W α) : Act W α := m.mapError Signal.comp

theorem perform_pure {α : Type} (a : α) : perform (pure a : Eval W α) = pure a := rfl

theorem perform_bind {α β : Type} (m : Eval W α) (k : α → Eval W β) :
    perform (m >>= k) = perform m >>= fun a => perform (k a) := Run.mapError_bind _ m k

theorem perform_ok {α : Type} {m : Eval W α} {a : α} {s t : State W} (ran : m s = (.ok a,t)) :
    perform m s = (.ok a,t) := by
  rw [perform,Run.mapError,ran]

/-- End as an observed computation did. -/
def complete {α : Type} : Except Comp α → Act W α
  | .ok a => pure a
  | .error c => Run.raise c

section eval

variable (host : Host W)

def loadStore (id : LocalId) : Eval W Val := fun st => (.ok (st.store id),st)

def fetchLocal (id : LocalId) : Eval W Val :=
  if host.boxed id then Host.lift (host.readBox id) else loadStore id

def readLocal (id : LocalId) : Eval W Val := do
  emit (.read id)
  fetchLocal host id

def storeLocal (id : LocalId) (v : Val) : Eval W Unit :=
  if host.boxed id then Host.lift (host.writeBox id v) else setStore id v

def writeLocal (id : LocalId) (v : Val) : Eval W Unit := do
  emit (.write id v)
  storeLocal host id v

def declareLocal (id : LocalId) (v : Val) : Eval W Unit := do
  emit (.declare id v)
  if host.boxed id then Host.lift (host.declareBox id v) else setStore id v

def applyOp (op : Op) (vs : List Val) : Eval W Val :=
  match op.pure? vs with
  | some v => pure v
  | none => Host.lift (host.op op vs)

def LogicalOp.stops : LogicalOp → Val → Bool
  | .and,v => !v.truthy
  | .or,v => v.truthy
  | .coalesce,v => !v.nullish

def UpdateOp.binary : UpdateOp → BinaryOp
  | .increment => .add
  | .decrement => .sub

/-- A write through `with`: the binding is looked up once the value is known. -/
def withStore (object : Val) (property : String) (v : Val) (fallback : WithSetFallback)
    (strict : Bool) : Eval W Val := do
  let has ← applyOp host (.withHas property) [object]
  if has.truthy then applyOp host (.withPut property strict) [object,v]
  else match fallback with
    | .local id | .sloppyImplicit id => do writeLocal host id v; pure v
    | .ignore => pure v
    | _ => Host.lift (host.refuseWith fallback property)

def updateLocal (id : LocalId) (op : UpdateOp) (pre : Bool) : Eval W Val := do
  let v ← readLocal host id
  let old ← applyOp host .toNumeric [v]
  let new ← applyOp host (.binary op.binary) [old,.int 1]
  writeLocal host id new
  pure (if pre then new else old)

/-- The value a closure copies; a boxed local is shared instead. -/
def captureLocal (id : LocalId) : Eval W Val :=
  if host.boxed id then pure .undefined else readLocal host id

def captureLocals : List LocalId → Eval W (List Val)
  | [] => pure []
  | id :: ids => do
    let v ← captureLocal host id
    let vs ← captureLocals ids
    pure (v :: vs)

def suspendOn (m : Run W Signal Val) : Eval W Val := do
  emit .suspend
  Host.lift m

mutual

def eval : Expr → Eval W Val
  | .lit l => pure l.val
  | .localGet id => readLocal host id
  | .localSet id value => do
    let v ← eval value
    writeLocal host id v
    pure v
  | .update id op pre => updateLocal host id op pre
  | .strict op args => do
    let vs ← evalArgs args
    applyOp host op vs
  | .logical op left right => do
    let v ← eval left
    if op.stops v then pure v else eval right
  | .conditional c t e => do
    let v ← eval c
    if v.truthy then eval t else eval e
  | .sequence items => evalSequence .undefined items
  | .arrayMut kind id args => do
    let receiver ← readLocal host id
    let vs ← evalArgs args
    applyOp host (.arrayMut kind) (receiver :: vs)
  | .withSet object property value fallback strict => do
    let o ← eval object
    let v ← eval value
    withStore host o property v fallback strict
  | .closure funcId _ _ captures _ flags _ => do
    let vs ← captureLocals host captures
    Host.lift (host.closure funcId flags vs)
  | .await operand => do
    let v ← eval operand
    suspendOn (host.await v)
  | .yield value delegate => do
    let v ← evalOption value
    suspendOn (host.yield v delegate)

def evalArgs : List Expr → Eval W (List Val)
  | [] => pure []
  | e :: es => do
    let v ← eval e
    let vs ← evalArgs es
    pure (v :: vs)

def evalSequence (last : Val) : List Expr → Eval W Val
  | [] => pure last
  | e :: es => do
    let v ← eval e
    evalSequence v es

def evalOption : Option Expr → Eval W Val
  | none => pure .undefined
  | some e => eval e

end

section

-- equations, made here once and not by the first proofs that unfold these
attribute [local simp] eval evalArgs evalSequence evalOption

end

end eval

/-- Which abrupt completions run a `finally` block on their way out: all of them
as the language defines it, only exceptions in the code generator's target. -/
inductive Mode where
  | ecma
  | target
  deriving DecidableEq, Repr

def Mode.finalizes : Mode → Except Comp Unit → Bool
  | _,.error .halt | _,.error .timeout => false
  | .ecma,_ => true
  | .target,.ok _ => true
  | .target,.error (.throw _) => true
  | .target,.error (.close _) => true
  | .target,_ => false

/-- Whether a loop with these labels goes on after its body ended so. -/
def loopAgain (labels : List String) : Except Comp Unit → Act W Bool
  | .ok _ => pure true
  | .error (.continue none) => pure true
  | .error (.continue (some l)) =>
    if l ∈ labels then pure true else Run.raise (.continue (some l))
  | .error (.break none) => pure false
  | .error c => Run.raise c

def catchBreak : Except Comp Unit → Act W Unit
  | .error (.break none) => pure ()
  | r => complete r

/-- A label ends every jump to it that no loop under it took. -/
def catchLabel (label : String) : Except Comp Unit → Act W Unit
  | .error (.break (some l)) => if l = label then pure () else Run.raise (.break (some l))
  | .error (.continue (some l)) => if l = label then pure () else Run.raise (.continue (some l))
  | r => complete r

/-- The end of a `try` whose body and handler ended as given. -/
def finalize (mode : Mode) (finalizer : Act W Unit) (r : Except Comp Unit) : Act W Unit :=
  if mode.finalizes r then do
    finalizer
    complete r
  else complete r

section exec

variable (host : Host W) (mode : Mode) (n : Nat)

def evalTest (e : Expr) : Eval W Bool := do
  let v ← eval host e
  pure v.truthy

def evalTest? : Option Expr → Eval W Bool
  | none => pure true
  | some e => evalTest host e

def evalDiscard : Option Expr → Eval W Unit
  | none => pure ()
  | some e => do
    let _ ← eval host e
    pure ()

/-- The position of the case a switch enters: tests are evaluated in order up to
the first match, and the default applies when there is none. -/
def selectCase (v : Val) : List SwitchCase → Eval W (Option Nat)
  | [] => pure none
  | .mk none _ :: cases => do
    let k ← selectCase v cases
    pure (k.map (· + 1))
  | .mk (some t) _ :: cases => do
    let w ← eval host t
    if v.strictEq w then pure (some 0) else do
      let k ← selectCase v cases
      pure (k.map (· + 1))

def defaultCase : List SwitchCase → Option Nat
  | [] => none
  | .mk none _ :: _ => some 0
  | .mk (some _) _ :: cases => (defaultCase cases).map (· + 1)

def bindParam : Option LocalId → Val → Eval W Unit
  | none,_ => pure ()
  | some id,v => declareLocal host id v

def whileLoop (labels : List String) (body : List Stmt) (test : Eval W Bool) (run : Act W Unit)
    (next : Eval W Unit) : Act W Unit :=
  Run.iterate .timeout (do
    let go ← perform test
    if go then
      emit (.iteration body)
      let again ← run.observe (loopAgain labels)
      if again then do perform next; pure true else pure false
    else pure false) n

/-- The body once, then a `while` loop with what is left of the bound. -/
def doWhileLoop (labels : List String) (body : List Stmt) (run : Act W Unit) (test : Eval W Bool) :
    Nat → Act W Unit
  | 0 => Run.raise .timeout
  | n + 1 => do
    emit (.iteration body)
    let again ← run.observe (loopAgain labels)
    if again then whileLoop n labels body test run (pure ()) else pure ()

mutual

/-- One statement; `labels` are those of an enclosing chain of labels that ends
here, and `n` bounds the iterations of every loop. -/
def exec (labels : List String) : Stmt → Act W Unit
  | .let id _ init => perform do
    let v ← evalOption host init
    declareLocal host id v
  | .expr e => perform do
    let _ ← eval host e
    pure ()
  | .return value => do
    let v ← perform (evalOption host value)
    Run.raise (.return v)
  | .if c t e => do
    let v ← perform (evalTest host c)
    -- the guard of a lowered for-of stands between a label and its loop
    if v then execList labels t else execElse labels e
  | .while c b => whileLoop n labels b (evalTest host c) (execList [] b) (pure ())
  | .doWhile b c => doWhileLoop labels b (execList [] b) (evalTest host c) n
  | .for i c u b => do
    execOption i
    whileLoop n labels b (evalTest? host c) (execList [] b) (evalDiscard host u)
  | .labeled l s => (exec (l :: labels) s).observe (catchLabel l)
  | .break => Run.raise (.break none)
  | .continue => Run.raise (.continue none)
  | .labeledBreak l => Run.raise (.break (some l))
  | .labeledContinue l => Run.raise (.continue (some l))
  | .throw e => do
    let v ← perform (eval host e)
    Run.raise (.throw v)
  | .try b h f => execFinally f ((execList [] b).observe (execCatch h))
  | .switch d cases => do
    let k ← perform do
      let v ← eval host d
      selectCase host v cases
    match k.or (defaultCase cases) with
    | none => pure ()
    | some k => (execFrom k cases).observe catchBreak
  | .preallocateBoxes ids => perform (ids.forM fun id => Host.lift (host.allocateBox id false))
  | .preallocateTdzBoxes ids => perform (ids.forM fun id => Host.lift (host.allocateBox id true))
  | .releaseBoxes ids => perform (ids.forM fun id => Host.lift (host.releaseBox id))

def execList (labels : List String) : List Stmt → Act W Unit
  | [] => pure ()
  | s :: ss => do
    exec labels s
    execList labels ss

def execElse (labels : List String) : Option (List Stmt) → Act W Unit
  | none => pure ()
  | some e => execList labels e

def execOption : Option Stmt → Act W Unit
  | none => pure ()
  | some s => exec [] s

def execCatch : Option CatchClause → Except Comp Unit → Act W Unit
  | some (.mk param body) => fun
    | .error (.throw v) => do
      perform (bindParam host param v)
      execList [] body
    | r => complete r
  | none => complete

def execFinally : Option (List Stmt) → Act W Unit → Act W Unit
  | none => fun run => run
  | some f => fun run => run.observe (finalize mode (execList [] f))

def execFrom : Nat → List SwitchCase → Act W Unit
  | _,[] => pure ()
  | 0,.mk _ body :: cases => do
    execList [] body
    execFrom 0 cases
  | k + 1,_ :: cases => execFrom k cases

end

section

-- equations, made here once and not by the first proofs that unfold these
attribute [local simp] exec execList execElse execOption execCatch execFinally execFrom

end

@[simp] theorem execList_singleton (labels : List String) (s : Stmt) :
    execList host mode n labels [s] = exec host mode n labels s := by
  simp only [execList]
  exact bind_pure _

/-- A branch that is left out is empty. -/
theorem execElse_eq (labels : List String) (e : Option (List Stmt)) :
    execElse host mode n labels e = execList host mode n labels (e.getD []) := by
  cases e <;> rfl

theorem exec_if (labels : List String) (c : Expr) (t : List Stmt) (e : Option (List Stmt)) :
    exec host mode n labels (.if c t e) = perform (evalTest host c) >>= fun v =>
      if v then execList host mode n labels t else execList host mode n labels (e.getD []) := by
  rw [← execElse_eq]
  rfl

theorem execList_pair (labels : List String) (s t : Stmt) :
    execList host mode n labels [s,t] = exec host mode n labels s >>= fun _ => exec host mode n labels t := by
  rw [execList,execList_singleton]

theorem execList_append (labels : List String) (ss ts : List Stmt) :
    execList host mode n labels (ss ++ ts) =
      execList host mode n labels ss >>= fun _ => execList host mode n labels ts := by
  induction ss with
  | nil => rfl
  | cons s ss ih => simp only [List.cons_append,execList,ih,bind_assoc]

end exec

end Perry.Hir
