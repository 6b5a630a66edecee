import Mathlib.Data.BitVec
import Perry.Hir.Module

/-! `collectors/clamp_detect.rs`: the functions whose result callers read as an
`i32`. The check walks the `return` statements it reaches through `if`s alone. -/
namespace Perry.Codegen.ReturnsInteger

open Perry.Effect Perry.Hir

/-- The declared return type, `other` by position in the source enumeration. -/
inductive Ty where
  | number
  | other (tag : Nat)
  deriving DecidableEq, Repr

structure Function extends Hir.Function where
  returnType : Ty
  wasPlainAsync : Bool := false

/-- `Expr::MathImul`. -/
@[match_pattern] abbrev mathImul (left right : Expr) : Expr := .strict (.variant 210) [left,right]

/-- The operators whose result the language reads as a signed 32-bit integer. -/
def signed : BinaryOp → Bool
  | .bitAnd | .bitOr | .bitXor | .shl | .shr => true
  | _ => false

def returnsIntExpr : Expr → Bool
  | .integer _ => true
  | .binary op _ _ => signed op
  | mathImul _ _ => true
  | _ => false

mutual

def returnsIntStmt : Stmt → Bool
  | .return (some e) => returnsIntExpr e
  | .if _ t e => returnsIntStmts t && returnsIntBlock e
  | _ => true

def returnsIntStmts : List Stmt → Bool
  | [] => true
  | s :: ss => returnsIntStmt s && returnsIntStmts ss

def returnsIntBlock : Option (List Stmt) → Bool
  | none => true
  | some body => returnsIntStmts body

end

section

-- equations, made here once and not by the first proofs that unfold these
attribute [local simp] returnsIntStmt returnsIntStmts returnsIntBlock

end

def returnsInteger (f : Function) : Bool :=
  if f.isAsync || f.isGenerator || f.wasPlainAsync then false
  else if f.returnType ≠ .number then false
  else returnsIntStmts f.body

/-- A number that is an integer in the `i32` range. -/
def Int32 (v : Val) : Prop := ∃ k : Int, -2 ^ 31 ≤ k ∧ k < 2 ^ 31 ∧ v = .int k

/-- The value of a call that completes normally. -/
def returned : Except Comp Unit → Option Val
  | .ok _ => some .undefined
  | .error (.return v) => some v
  | _ => none

section semantics

variable {W : Type} (host : Host W)

/-- What a bitwise operator does with its operands: both become numbers or both
become BigInts. -/
def toNumerics (v w : Val) : Eval W (Val × Val) := do
  let a ← applyOp host .toNumeric [v]
  let b ← applyOp host .toNumeric [w]
  pure (a,b)

def bothBigInts : Val × Val → Bool
  | (.bigInt _,.bigInt _) => true
  | _ => false

/-- The bitwise operators and `Math.imul` as the language defines them: what two BigInts do not
answer is a signed 32-bit integer, and operands of two kinds are refused. -/
structure Coerces : Prop where
  bitwise : ∀ op v w, signed op = true → ∃ answer : Val × Val → Eval W Val,
    applyOp host (.binary op) [v,w] = toNumerics host v w >>= answer ∧
      ∀ p s r t, bothBigInts p = false → answer p s = (.ok r,t) → Int32 r
  imul : ∀ v w s r t, applyOp host (.variant 210) [v,w] s = (.ok r,t) → Int32 r

variable (mode : Mode) (n : Nat)

/-- The run of the statements from `s` comes to evaluate `e` in `t`, to return it, and
only `if` statements stand around that `return`. -/
inductive Reaches : List Stmt → State W → Expr → State W → Prop
  | here (e ss s) : Reaches (.return (some e) :: ss) s e s
  | next (stmt ss s t e u) (ran : exec host mode n [] stmt s = (.ok (),t)) (rest : Reaches ss t e u) :
      Reaches (stmt :: ss) s e u
  | taken (c t e ss s u x v) (tested : perform (evalTest host c) s = (.ok true,u)) (inside : Reaches t u x v) :
      Reaches (.if c t e :: ss) s x v
  | skipped (c t e ss s u x v) (tested : perform (evalTest host c) s = (.ok false,u)) (inside : Reaches (e.getD []) u x v) :
      Reaches (.if c t e :: ss) s x v

/-- A literal is in range, and the operands of an operator are not two BigInts. -/
def Fits (s : State W) : Expr → Prop
  | .integer k => -2 ^ 31 ≤ k ∧ k < 2 ^ 31
  | .binary _ l r => ∀ v w p t u, evalArgs host [l,r] s = (.ok [v,w],t) →
      toNumerics host v w t = (.ok p,u) → bothBigInts p = false
  | _ => True

/-- The run from `s` leaves through a `return` the check looked at. -/
def LeavesChecked (body : List Stmt) (s : State W) : Prop :=
  ∃ e t, Reaches host mode n body s e t ∧ Fits host t e

end semantics

section returns

variable {W : Type} {host : Host W} {mode : Mode} {n : Nat}

theorem returnsIntBlock_eq (block : Option (List Stmt)) : returnsIntBlock block = returnsIntStmts (block.getD []) := by
  cases block <;> rfl

theorem checked {ss : List Stmt} {s t : State W} {e : Expr} (returns : returnsIntStmts ss = true)
    (reaches : Reaches host mode n ss s e t) : returnsIntExpr e = true := by
  induction reaches with
  | here e ss s =>
    simp only [returnsIntStmts,returnsIntStmt,Bool.and_eq_true] at returns
    exact returns.1
  | next stmt ss s t e u ran rest ih =>
    simp only [returnsIntStmts,Bool.and_eq_true] at returns
    exact ih returns.2
  | taken c t e ss s u x v tested inside ih =>
    simp only [returnsIntStmts,returnsIntStmt,Bool.and_eq_true] at returns
    exact ih returns.1.1
  | skipped c t e ss s u x v tested inside ih =>
    simp only [returnsIntStmts,returnsIntStmt,Bool.and_eq_true] at returns
    exact ih ((returnsIntBlock_eq e).symm.trans returns.1.2)

/-- To evaluate `e` and return it. -/
def returning (host : Host W) (e : Expr) : Act W Unit :=
  perform (eval host e) >>= fun v => Run.raise (.return v)

/-- A run that reaches a `return` does nothing but return. -/
theorem leaves {ss : List Stmt} {s t : State W} {e : Expr} (reaches : Reaches host mode n ss s e t) :
    ∀ k : Unit → Act W Unit, (execList host mode n [] ss >>= k) s = returning host e t := by
  induction reaches with
  | here e ss s =>
    intro k
    simp only [execList,exec,evalOption,bind_assoc,Run.raise_bind]
    rfl
  | next stmt ss s t e u ran rest ih =>
    intro k
    rw [execList,bind_assoc,Run.bind_ok ran]
    exact ih k
  | taken c t e ss s u x v tested inside ih =>
    intro k
    simp only [execList,exec,bind_assoc]
    rw [Run.bind_ok tested]
    exact ih _
  | skipped c t e ss s u x v tested inside ih =>
    intro k
    simp only [execList,exec_if,bind_assoc]
    rw [Run.bind_ok tested]
    exact ih _

theorem int32_literal {k : Int} (low : -2 ^ 31 ≤ k) (high : k < 2 ^ 31) : Int32 (Lit.integer k).val := by
  have exact : k.natAbs ≤ maxExact := by
    unfold maxExact
    omega
  exact ⟨k,low,high,congrArg Val.num (if_pos exact)⟩

theorem evalArgs_pair {α : Type} (l r : Expr) (k : List Val → Eval W α) :
    evalArgs host [l,r] >>= k = eval host l >>= fun v => eval host r >>= fun w => k [v,w] := by
  simp only [evalArgs,bind_assoc,pure_bind]

/-- What the check admits evaluates to a signed 32-bit integer. -/
theorem int32_eval (coerces : Coerces host) {e : Expr} (admitted : returnsIntExpr e = true) {s t : State W} {r : Val}
    (fits : Fits host s e) (value : eval host e s = (.ok r,t)) : Int32 r := by
  unfold returnsIntExpr at admitted
  split at admitted
  · next k =>
    cases value
    exact int32_literal fits.1 fits.2
  · next op left right =>
    rw [eval,evalArgs_pair] at value
    obtain ⟨v,u,first,value⟩ := Run.bind_eq_ok.mp value
    obtain ⟨w,x,second,value⟩ := Run.bind_eq_ok.mp value
    have operands : (evalArgs host [left,right] >>= pure) s = _ := congrFun (evalArgs_pair left right pure) s
    rw [bind_pure,Run.bind_ok first,Run.bind_ok second] at operands
    obtain ⟨answer,asks,answers⟩ := coerces.bitwise op v w admitted
    rw [asks] at value
    obtain ⟨p,y,converted,value⟩ := Run.bind_eq_ok.mp value
    exact answers p y r t (fits v w p x y operands converted) value
  · next left right =>
    rw [eval,evalArgs_pair] at value
    obtain ⟨v,u,_,value⟩ := Run.bind_eq_ok.mp value
    obtain ⟨w,x,_,value⟩ := Run.bind_eq_ok.mp value
    exact coerces.imul v w x r t value
  · cases admitted

/-- A computation that completes does so after its evaluations have. -/
theorem returned_perform {α : Type} {m : Eval W α} {k : α → Act W Unit} {s : State W} {v : Val}
    (completed : returned ((perform m >>= k) s).1 = some v) :
    ∃ a t, m s = (.ok a,t) ∧ returned (k a t).1 = some v := by
  rw [Run.bind_apply,perform,Run.mapError] at completed
  cases value : m s with
  | mk result t =>
    rw [value] at completed
    cases result with
    | error signal => cases signal <;> cases completed
    | ok a => exact ⟨a,t,rfl,completed⟩

/-- A body that leaves through a `return` the check looked at returns a signed 32-bit
integer. -/
theorem int32_body (coerces : Coerces host) {body : List Stmt} (returns : returnsIntStmts body = true) {s : State W}
    (leaves : LeavesChecked host mode n body s) {v : Val}
    (completed : returned (execList host mode n [] body s).1 = some v) : Int32 v := by
  obtain ⟨e,t,reaches,fits⟩ := leaves
  have run := ReturnsInteger.leaves reaches pure
  rw [bind_pure] at run
  rw [run,returning] at completed
  obtain ⟨r,u,value,ended⟩ := returned_perform completed
  cases ended
  exact int32_eval coerces (checked returns reaches) fits value

/-- A call of an admitted function that completes normally returns a signed 32-bit integer,
if it leaves the body through a `return` the check looked at. -/
theorem returnsInteger_run (coerces : Coerces host) {f : Function} (admitted : returnsInteger f = true)
    (args : List Val) (s : State W)
    (leaves : ∀ t, bindParams host args 0 f.params s = (.ok (),t) → LeavesChecked host mode n f.body t)
    {v : Val} (completed : returned (activation host mode n f.code args s).1 = some v) : Int32 v := by
  have returns : returnsIntStmts f.body = true := by
    unfold returnsInteger at admitted
    split at admitted
    · cases admitted
    · split at admitted
      · cases admitted
      · exact admitted
  obtain ⟨u,t,bound,completed⟩ := returned_perform completed
  exact int32_body coerces returns (leaves t bound) completed

end returns

section samples

/-- `ToInt32` of an integral number. -/
def toInt32 : Val → Option (BitVec 32)
  | .num (.int n) => some (.ofInt 32 n)
  | .num _ => some 0
  | _ => none

def signedBits (op : BinaryOp) (a b : BitVec 32) : Option (BitVec 32) :=
  match op with
  | .bitAnd => some (a &&& b)
  | .bitOr => some (a ||| b)
  | .bitXor => some (a ^^^ b)
  | .shl => some (a <<< (b.toNat % 32))
  | .shr => some (a.sshiftRight (b.toNat % 32))
  | _ => none

def primitive : Val → Val
  | .num n => .num n
  | .bigInt n => .bigInt n
  | .bool b => .int b.toInt
  | .null => .int 0
  | _ => .num .nan

/-- A host that knows bitwise operators of numbers. -/
def bitwiseHost : Host Unit where
  boxed _ := false
  readBox _ := pure .undefined
  writeBox _ _ := pure ()
  declareBox _ _ := pure ()
  allocateBox _ _ := pure ()
  releaseBox _ := pure ()
  op
    | .toNumeric,[v] => pure (primitive v)
    | .binary op,[v,w] => answer (bits (signedBits op) (primitive v,primitive w))
    | .variant 210,[v,w] => answer (bits (fun a b => some (a * b)) (primitive v,primitive w))
    | _,_ => Run.raise .halt
  closure _ _ _ := Run.raise .halt
  refuseWith _ _ := Run.raise .halt
  await _ := Run.raise .halt
  yield _ _ := Run.raise .halt
where
  bits (f : BitVec 32 → BitVec 32 → Option (BitVec 32)) (p : Val × Val) : Option (BitVec 32) := do
    let a ← toInt32 p.1
    let b ← toInt32 p.2
    f a b
  answer : Option (BitVec 32) → Run Unit Signal Val
    | some c => pure (.int c.toInt)
    | none => Run.raise .halt

theorem int32_answer {c : Option (BitVec 32)} {s t : State Unit} {r : Val}
    (answered : Host.lift (bitwiseHost.answer c) s = (.ok r,t)) : Int32 r := by
  cases c with
  | none => cases answered
  | some c =>
    cases answered
    exact ⟨c.toInt,by simpa using c.le_toInt,by simpa using c.toInt_lt,rfl⟩

theorem coerces_bitwiseHost : Coerces bitwiseHost where
  bitwise op v w isSigned := by
    refine ⟨fun p => Host.lift (bitwiseHost.answer (bitwiseHost.bits (signedBits op) p)),?_,?_⟩
    · cases op <;> cases isSigned <;> cases v <;> cases w <;> rfl
    · exact fun _ _ _ _ _ answered => int32_answer answered
  imul v w s r t answered := int32_answer answered

/-- `function f(x) { if (x) return x | 0; return 1; }` -/
def truncates : Function where
  id := 1
  name := "f"
  params := [{ id := 0 }]
  body := [.if (.localGet 0) [.return (some (.binary .bitOr (.localGet 0) (.integer 0)))] none,
    .return (some (.integer 1))]
  returnType := .number

theorem returnsInteger_run_truncates :
    returned (activation bitwiseHost .ecma 1 truncates.code [.int 5] ⟨fun _ => .undefined,(),[]⟩).1 =
      some (.int 5) ∧ Int32 (.int 5) := by
  have completed : returned (activation bitwiseHost .ecma 1 truncates.code [.int 5]
      ⟨fun _ => .undefined,(),[]⟩).1 = some (.int 5) := rfl
  refine ⟨completed,returnsInteger_run coerces_bitwiseHost rfl [.int 5] _ ?_ completed⟩
  rintro t ⟨⟩
  refine ⟨_,_,.taken _ _ _ _ _ _ _ _ rfl (.here _ _ _),?_⟩
  rintro v w p t u ⟨⟩ ⟨⟩
  rfl

/-- `function g() { while (true) { return 0.5; } }` -/
def halves : Function where
  id := 2
  name := "g"
  params := []
  body := [.while (.bool true) [.return (some (.number (.other 0x3FE0000000000000)))]]
  returnType := .number

/-- The check does not look into loops. -/
theorem returnsInteger_halves : returnsInteger halves = true ∧
    ∃ v, returned (activation bitwiseHost .ecma 1 halves.code [] ⟨fun _ => .undefined,(),[]⟩).1 = some v ∧
      ¬Int32 v := by
  refine ⟨rfl,_,rfl,?_⟩
  rintro ⟨k,_,_,same⟩
  cases same

end samples

end Perry.Codegen.ReturnsInteger
