import Mathlib.Data.List.Basic

/-! The HIR the transform and collector passes walk: `Stmt` and `Expr` of
`perry-hir/src/ir`, with the expression variants no pass singles out gathered
under the strict operators. Types, names of bindings, spans and byte offsets are
left out: no modelled pass reads them. -/
namespace Perry.Hir

abbrev LocalId := Nat
abbrev FuncId := Nat

inductive BinaryOp where
  | add | sub | mul | div | mod | pow | bitAnd | bitOr | bitXor | shl | shr | ushr
  deriving DecidableEq, Repr

inductive UnaryOp where
  | neg | not | bitNot | pos
  deriving DecidableEq, Repr

inductive CompareOp where
  | eq | ne | looseEq | looseNe | lt | le | gt | ge
  deriving DecidableEq, Repr

inductive LogicalOp where
  | and | or | coalesce
  deriving DecidableEq, Repr

inductive UpdateOp where
  | increment | decrement
  deriving DecidableEq, Repr

/-- An IEEE double: an integral value other than `-0`, one of the two special
values the language compares specially, or any other double by its bits. -/
inductive Num where
  | int (n : Int)
  | negZero
  | nan
  | other (bits : Nat)
  deriving DecidableEq, Repr

inductive Lit where
  | undefined
  | null
  | bool (b : Bool)
  | number (n : Num)
  | integer (n : Int)
  | bigInt (n : Int)
  | string (s : String)
  deriving DecidableEq, Repr

/-- The mutation intrinsics that name their receiver by a bare `LocalId`. -/
inductive ArrayMut where
  | push | pushSpread | unshift | splice | copyWithin | pop | shift | setAdd
  deriving DecidableEq, Repr

/-- Operators that evaluate every operand, left to right, before acting.
`callLike` stands for `CallSpread`, `NativeMethodCall`, `StaticMethodCall`,
`SuperMethodCall` and the two `Fetch…WithAuth` calls, `variant` for every other
variant, both by position in the source enumeration. -/
inductive Op where
  | binary (op : BinaryOp)
  | unary (op : UnaryOp)
  | compare (op : CompareOp)
  | call
  | callLike (tag : Nat)
  | funcRef (id : FuncId)
  | globalSet (id : Nat)
  | object (keys : List String)
  | array
  | propertyGet (property : String)
  | indexGet
  | indexSet
  | indexUpdate (op : BinaryOp) (pre : Bool)
  | arrayMut (kind : ArrayMut)
  | withHas (property : String)
  | withPut (property : String) (strict : Bool)
  | toNumeric
  | variant (tag : Nat)
  deriving DecidableEq, Repr

/-- What a dynamic `with` write does when the object does not bind the name. -/
inductive WithSetFallback where
  | local (id : LocalId)
  | throwReferenceError
  | throwConstAssignment
  | ignore
  | sloppyImplicit (id : LocalId)
  deriving DecidableEq, Repr

structure ClosureFlags where
  isAsync : Bool := false
  isGenerator : Bool := false
  objIife : Bool := false
  deriving DecidableEq, Repr

mutual
inductive Expr where
  | lit (l : Lit)
  | localGet (id : LocalId)
  | localSet (id : LocalId) (value : Expr)
  | update (id : LocalId) (op : UpdateOp) (pre : Bool)
  | strict (op : Op) (args : List Expr)
  | logical (op : LogicalOp) (left right : Expr)
  | conditional (condition thenExpr elseExpr : Expr)
  | sequence (items : List Expr)
  | arrayMut (kind : ArrayMut) (id : LocalId) (args : List Expr)
  | withSet (object : Expr) (property : String) (value : Expr) (fallback : WithSetFallback)
      (strict : Bool)
  | closure (funcId : FuncId) (params : List LocalId) (defaults : List Expr)
      (captures mutableCaptures : List LocalId) (flags : ClosureFlags) (body : List Stmt)
  | await (operand : Expr)
  | yield (value : Option Expr) (delegate : Bool)

inductive Stmt where
  | let (id : LocalId) (isMutable : Bool) (init : Option Expr)
  | expr (e : Expr)
  | return (value : Option Expr)
  | if (condition : Expr) (thenBranch : List Stmt) (elseBranch : Option (List Stmt))
  | while (condition : Expr) (body : List Stmt)
  | doWhile (body : List Stmt) (condition : Expr)
  | for (init : Option Stmt) (condition update : Option Expr) (body : List Stmt)
  | labeled (label : String) (body : Stmt)
  | break
  | continue
  | labeledBreak (label : String)
  | labeledContinue (label : String)
  | throw (value : Expr)
  | try (body : List Stmt) (handler : Option CatchClause) (finalizer : Option (List Stmt))
  | switch (discriminant : Expr) (cases : List SwitchCase)
  | preallocateBoxes (ids : List LocalId)
  | preallocateTdzBoxes (ids : List LocalId)
  | releaseBoxes (ids : List LocalId)

inductive CatchClause where
  | mk (param : Option LocalId) (body : List Stmt)

inductive SwitchCase where
  | mk (test : Option Expr) (body : List Stmt)
end

namespace SwitchCase

def test : SwitchCase → Option Expr
  | mk test _ => test

def body : SwitchCase → List Stmt
  | mk _ body => body

@[simp] theorem test_mk (t : Option Expr) (b : List Stmt) : (mk t b).test = t := rfl

@[simp] theorem body_mk (t : Option Expr) (b : List Stmt) : (mk t b).body = b := rfl

end SwitchCase

namespace CatchClause

def param : CatchClause → Option LocalId
  | mk param _ => param

def body : CatchClause → List Stmt
  | mk _ body => body

@[simp] theorem param_mk (p : Option LocalId) (b : List Stmt) : (mk p b).param = p := rfl

@[simp] theorem body_mk (p : Option LocalId) (b : List Stmt) : (mk p b).body = b := rfl

end CatchClause

namespace Expr

@[match_pattern] abbrev undefined : Expr := .lit .undefined
@[match_pattern] abbrev null : Expr := .lit .null
@[match_pattern] abbrev bool (b : Bool) : Expr := .lit (.bool b)
@[match_pattern] abbrev number (n : Num) : Expr := .lit (.number n)
@[match_pattern] abbrev integer (n : Int) : Expr := .lit (.integer n)
@[match_pattern] abbrev binary (op : BinaryOp) (left right : Expr) : Expr :=
  .strict (.binary op) [left,right]
@[match_pattern] abbrev unary (op : UnaryOp) (operand : Expr) : Expr := .strict (.unary op) [operand]
@[match_pattern] abbrev compare (op : CompareOp) (left right : Expr) : Expr :=
  .strict (.compare op) [left,right]
@[match_pattern] abbrev call (callee : Expr) (args : List Expr) : Expr := .strict .call (callee :: args)
@[match_pattern] abbrev funcRef (id : FuncId) : Expr := .strict (.funcRef id) []

end Expr

section induction

variable {P : Expr → Prop}

/-- Structural induction on expressions, with the operands of an operator
covered by a hypothesis on each member. Closure bodies are not entered. -/
theorem Expr.induct (lit : ∀ l, P (.lit l)) (localGet : ∀ id, P (.localGet id))
    (localSet : ∀ id value, P value → P (.localSet id value))
    (update : ∀ id op pre, P (.update id op pre))
    (strict : ∀ op args, (∀ a ∈ args, P a) → P (.strict op args))
    (logical : ∀ op left right, P left → P right → P (.logical op left right))
    (conditional : ∀ c t e, P c → P t → P e → P (.conditional c t e))
    (sequence : ∀ items, (∀ a ∈ items, P a) → P (.sequence items))
    (arrayMut : ∀ kind id args, (∀ a ∈ args, P a) → P (.arrayMut kind id args))
    (withSet : ∀ object property value fallback strict, P object → P value →
      P (.withSet object property value fallback strict))
    (closure : ∀ funcId params defaults captures mutableCaptures flags body,
      (∀ a ∈ defaults, P a) →
      P (.closure funcId params defaults captures mutableCaptures flags body))
    (await : ∀ operand, P operand → P (.await operand))
    (yieldNone : ∀ delegate, P (.yield none delegate))
    (yieldSome : ∀ value delegate, P value → P (.yield (some value) delegate)) (e : Expr) : P e := by
  induction bound : sizeOf e using Nat.strongRecOn generalizing e with
  | _ n ih =>
    subst bound
    have members (args : List Expr) (small : sizeOf args < sizeOf e) : ∀ a ∈ args, P a :=
      fun a member => ih _ (Nat.lt_trans (List.sizeOf_lt_of_mem member) small) a rfl
    cases e with
    | lit l => exact lit l
    | localGet id => exact localGet id
    | localSet id value => exact localSet id value (ih _ (by simp only [Expr.localSet.sizeOf_spec]; omega) _ rfl)
    | update id op pre => exact update id op pre
    | strict op args => exact strict op args (members args (by simp only [Expr.strict.sizeOf_spec]; omega))
    | logical op left right =>
      exact logical op left right (ih _ (by simp only [Expr.logical.sizeOf_spec]; omega) _ rfl) (ih _ (by simp only [Expr.logical.sizeOf_spec]; omega) _ rfl)
    | conditional c t e =>
      exact conditional c t e (ih _ (by simp only [Expr.conditional.sizeOf_spec]; omega) _ rfl) (ih _ (by simp only [Expr.conditional.sizeOf_spec]; omega) _ rfl)
        (ih _ (by simp only [Expr.conditional.sizeOf_spec]; omega) _ rfl)
    | sequence items => exact sequence items (members items (by simp only [Expr.sequence.sizeOf_spec]; omega))
    | arrayMut kind id args => exact arrayMut kind id args (members args (by simp only [Expr.arrayMut.sizeOf_spec]; omega))
    | withSet object property value fallback strict =>
      exact withSet object property value fallback strict (ih _ (by simp only [Expr.withSet.sizeOf_spec]; omega) _ rfl)
        (ih _ (by simp only [Expr.withSet.sizeOf_spec]; omega) _ rfl)
    | closure funcId params defaults captures mutableCaptures flags body =>
      exact closure funcId params defaults captures mutableCaptures flags body
        (members defaults (by simp only [Expr.closure.sizeOf_spec]; omega))
    | await operand => exact await operand (ih _ (by simp only [Expr.await.sizeOf_spec]; omega) _ rfl)
    | yield value delegate =>
      cases value with
      | none => exact yieldNone delegate
      | some value => exact yieldSome value delegate (ih _ (by simp only [Expr.yield.sizeOf_spec,Option.some.sizeOf_spec]; omega) _ rfl)

end induction

section induction

variable {P : Stmt → Prop}

/-- Structural induction on statements, with a hypothesis on each member of
every statement list a compound statement owns. -/
theorem Stmt.induct (letNone : ∀ id m, P (.let id m none)) (letSome : ∀ id m e, P (.let id m (some e)))
    (expr : ∀ e, P (.expr e)) (returnStmt : ∀ value, P (.return value))
    (ifStmt : ∀ c t e, (∀ s ∈ t, P s) → (∀ s ∈ e.getD [], P s) → P (.if c t e))
    (whileStmt : ∀ c b, (∀ s ∈ b, P s) → P (.while c b))
    (doWhile : ∀ b c, (∀ s ∈ b, P s) → P (.doWhile b c))
    (forStmt : ∀ i c u b, (∀ s ∈ i, P s) → (∀ s ∈ b, P s) → P (.for i c u b))
    (labeled : ∀ l b, P b → P (.labeled l b))
    (breakStmt : P .break) (continueStmt : P .continue)
    (labeledBreak : ∀ l, P (.labeledBreak l)) (labeledContinue : ∀ l, P (.labeledContinue l))
    (throwStmt : ∀ e, P (.throw e))
    (tryStmt : ∀ b h f, (∀ s ∈ b, P s) → (∀ c ∈ h, ∀ s ∈ c.body, P s) →
      (∀ l ∈ f, ∀ s ∈ l, P s) → P (.try b h f))
    (switch : ∀ d cases, (∀ c ∈ cases, ∀ s ∈ c.body, P s) → P (.switch d cases))
    (preallocateBoxes : ∀ ids, P (.preallocateBoxes ids))
    (preallocateTdzBoxes : ∀ ids, P (.preallocateTdzBoxes ids))
    (releaseBoxes : ∀ ids, P (.releaseBoxes ids)) (s : Stmt) : P s := by
  induction bound : sizeOf s using Nat.strongRecOn generalizing s with
  | _ n ih =>
    subst bound
    have members (b : List Stmt) (small : sizeOf b < sizeOf s) : ∀ t ∈ b, P t :=
      fun t member => ih _ (Nat.lt_trans (List.sizeOf_lt_of_mem member) small) t rfl
    cases s with
    | «let» id m init =>
      cases init with
      | none => exact letNone id m
      | some e => exact letSome id m e
    | expr e => exact expr e
    | «return» value => exact returnStmt value
    | «if» c t e =>
      refine ifStmt c t e (members t (by simp only [Stmt.if.sizeOf_spec]; omega)) ?_
      cases e with
      | none => exact fun s member => nomatch member
      | some e => exact members e (by simp only [Stmt.if.sizeOf_spec,Option.some.sizeOf_spec]; omega)
    | «while» c b => exact whileStmt c b (members b (by simp only [Stmt.while.sizeOf_spec]; omega))
    | doWhile b c => exact doWhile b c (members b (by simp only [Stmt.doWhile.sizeOf_spec]; omega))
    | «for» i c u b =>
      refine forStmt i c u b ?_ (members b (by simp only [Stmt.for.sizeOf_spec]; omega))
      intro s member
      cases i with
      | none => cases member
      | some t =>
        cases member
        exact ih _ (by simp only [Stmt.for.sizeOf_spec,Option.some.sizeOf_spec]; omega) _ rfl
    | labeled l b => exact labeled l b (ih _ (by simp only [Stmt.labeled.sizeOf_spec]; omega) _ rfl)
    | «break» => exact breakStmt
    | «continue» => exact continueStmt
    | labeledBreak l => exact labeledBreak l
    | labeledContinue l => exact labeledContinue l
    | throw e => exact throwStmt e
    | «try» b h f =>
      refine tryStmt b h f (members b (by simp only [Stmt.try.sizeOf_spec]; omega)) ?_ ?_
      · intro c member
        cases h with
        | none => cases member
        | some d =>
          cases member
          cases c with
          | mk p l => exact members l (by simp only [Stmt.try.sizeOf_spec,Option.some.sizeOf_spec,CatchClause.mk.sizeOf_spec]; omega)
      · intro l member
        cases f with
        | none => cases member
        | some k =>
          cases member
          exact members _ (by simp only [Stmt.try.sizeOf_spec,Option.some.sizeOf_spec]; omega)
    | switch d cases =>
      refine switch d cases ?_
      intro c member
      have small := List.sizeOf_lt_of_mem member
      cases c with
      | mk t b => exact members b (by simp only [SwitchCase.mk.sizeOf_spec,Stmt.switch.sizeOf_spec] at small ⊢; omega)
    | preallocateBoxes ids => exact preallocateBoxes ids
    | preallocateTdzBoxes ids => exact preallocateTdzBoxes ids
    | releaseBoxes ids => exact releaseBoxes ids

end induction

end Perry.Hir
