import Mathlib.Data.List.Dedup
import Perry.Hir.Nodes

/-! `collectors/not_bigint_locals.rs`: the locals each write of which gives no BigInt, as the greatest
set that judges its own writes so. -/
namespace Perry.Codegen.NotBigInt

open Perry.Hir

/-- `HirType`, as far as the collector reads it. -/
inductive Ty where
  | any
  | number
  | int32
  | boolean
  | string
  | stringLiteral (text : String)
  | bigInt
  | named (name : String)
  | array (elem : Ty)
  | generic (base : String) (typeArgs : List Ty)

def Ty.isNumber : Ty → Bool
  | .number | .int32 => true
  | _ => false

def isTypedArrayClass (name : String) : Bool :=
  name ∈ ["Int8Array","Uint8Array","Uint8ClampedArray","Int16Array","Uint16Array","Int32Array","Uint32Array","Float16Array",
    "Float32Array","Float64Array","BigInt64Array","BigUint64Array"]

def isNumericTypedArrayClass (name : String) : Bool :=
  isTypedArrayClass name && !(name == "BigInt64Array" || name == "BigUint64Array")

def Ty.isNotBigInt : Ty → Bool
  | .number | .int32 | .boolean | .string | .stringLiteral _ => true
  | _ => false

def Ty.holdsNumbers : Ty → Bool
  | .named name => isNumericTypedArrayClass name
  | .array elem => elem.isNumber
  | .generic "Array" [elem] => elem.isNumber
  | _ => false

/-- Declared types: `binding_types`, those of the parameters, and those that the `let` statements of
the list give a local (`Stmt` leaves them out). -/
structure Types where
  bindingTypes : LocalId → Option Ty := fun _ => none
  params : List (LocalId × Ty) := []
  declared : LocalId → List Ty := fun _ => []

/-- A parameter's type counts where `binding_types` has none. -/
def Types.lookup (types : Types) (id : LocalId) : Option Ty :=
  (types.bindingTypes id).or ((types.params.find? fun p => p.1 == id).map (·.2))

section judgement

/-- `Math.floor`, `ceil`, `round`, `trunc`, `abs`, `min`, `max` and `imul`. -/
def mathTags : List Nat := [195,196,197,198,200,206,207,210]

/-- `TypeOf`, `Void`, `InstanceOf`, `In`, `PrivateBrandCheck`, `DateNow`, `StringCoerce`, `BooleanCoerce`, `IsNaN`,
`IsUndefinedOrBareNan`, `IsFinite`, `NumberIsNaN`, `NumberIsFinite`, `NumberIsInteger` and `WtfString`. -/
def producerTags : List Nat := [39,40,41,42,43,423,555,557,558,559,560,561,562,563,7]

@[match_pattern] abbrev bufferIndexGet (buffer index : Expr) : Expr := .strict (.variant 322) [buffer,index]

@[match_pattern] abbrev uint8ArrayGet (array index : Expr) : Expr := .strict (.variant 327) [array,index]

@[match_pattern] abbrev numberCoerce (operand : Expr) : Expr := .strict (.variant 553) [operand]

variable (numeric : LocalId → Bool)

/-- `uint8array_get_reads_a_byte`: the key is a number at run time. -/
def readsAByte : Expr → Bool
  | .lit (.integer _) | .lit (.number _) => true
  | uint8ArrayGet _ index => readsAByte index
  | bufferIndexGet _ _ | numberCoerce _ => true
  -- `Uint8ArrayLength` and `BufferLength`
  | .strict (.variant 326) _ | .strict (.variant 316) _ => true
  | .strict (.variant tag) _ => tag ∈ mathTags
  | .unary op operand => (op == .neg || op == .pos || op == .bitNot) && readsAByte operand
  | .binary op left right =>
    match op with
    | .bitAnd | .bitOr | .bitXor | .shl | .shr | .ushr => true
    | .sub | .mul | .div | .mod | .pow | .add => readsAByte left && readsAByte right
  | .localGet id | .update id _ _ => numeric id
  | _ => false

variable (types : LocalId → Option Ty) (set : LocalId → Bool)

def typeIsNotBigInt : Option Ty → Bool
  | some t => t.isNotBigInt
  | none => false

def indexReceiverIsNumeric : Expr → Bool
  | .localGet id =>
    match types id with
    | some t => t.holdsNumbers
    | none => false
  | _ => false

def exprNotBigInt : Expr → Bool
  | .lit (.bigInt _) => false
  | .lit _ => true
  | .strict (.compare _) _ => true
  | uint8ArrayGet _ index => readsAByte numeric index
  | bufferIndexGet _ _ | numberCoerce _ => true
  | .strict (.variant tag) _ => tag ∈ producerTags
  | .strict .indexGet [object,_] => indexReceiverIsNumeric types object
  | .unary op operand =>
    match op with
    | .not | .pos => true
    | .neg | .bitNot => exprNotBigInt operand
  | .binary _ left right => exprNotBigInt left || exprNotBigInt right
  | .conditional _ t e => exprNotBigInt t && exprNotBigInt e
  | .logical _ left right => exprNotBigInt left && exprNotBigInt right
  | .localSet _ rhs => exprNotBigInt rhs
  | .localGet id | .update id _ _ => set id || typeIsNotBigInt (types id)
  | _ => false

end judgement

section fixpoint

variable {α : Type} (keep : List α → α → Bool)

/-- Drop what the rest does not keep, until all is kept. -/
def prune : Nat → List α → List α
  | 0,s => s
  | n + 1,s => if (s.filter (keep s)).length = s.length then s else prune n (s.filter (keep s))

variable {keep}

theorem prune_subset (n : Nat) (s : List α) : prune keep n s ⊆ s := by
  induction n generalizing s with
  | zero => exact List.Subset.refl s
  | succ n ih =>
    rw [prune]
    split_ifs with stable
    · exact List.Subset.refl s
    · exact List.Subset.trans (ih (s.filter (keep s))) (List.filter_subset_self s)

/-- One round for each element is enough. -/
theorem prune_kept {n : Nat} {s : List α} (enough : s.length ≤ n) : ∀ a ∈ prune keep n s,keep (prune keep n s) a = true := by
  induction n generalizing s with
  | zero =>
    intro a member
    rw [List.eq_nil_of_length_eq_zero (Nat.le_zero.mp enough)] at member
    cases member
  | succ n ih =>
    rw [prune]
    split_ifs with stable
    · exact List.length_filter_eq_length_iff.mp stable
    · apply ih
      have fewer := List.length_filter_le (keep s) s
      omega

end fixpoint

section collector

variable (types : Types) (stmts : List Stmt)

def boundId : Node → Option LocalId
  | .bind id _ => some id
  | _ => none

def writeOf (id : LocalId) : Node → Option (Option Expr)
  | .bind x init => if x = id then some init else none
  | .expr (.localSet x rhs) => if x = id then some (some rhs) else none
  | _ => none

/-- The `let` bindings of the list, closures included. -/
def candidates : List LocalId := ((nodesOfStmts true stmts).filterMap boundId).dedup

/-- Every initialiser and every assigned expression. -/
def writes (id : LocalId) : List (Option Expr) := (nodesOfStmts true stmts).filterMap (writeOf id)

/-- `collect_numeric_typed_locals`. -/
def numericTypedLocals (id : LocalId) : Bool :=
  (types.bindingTypes id).any Ty.isNumber || types.params.any (fun p => p.1 == id && p.2.isNumber) ||
    (((nodesOfStmts false stmts).filterMap boundId).contains id && (types.declared id).any Ty.isNumber)

def writeNotBigInt (set : List LocalId) : Option Expr → Bool
  | none => true
  | some rhs => exprNotBigInt (numericTypedLocals types stmts) types.lookup (set.contains ·) rhs

def collectNotBigIntLocals : List LocalId :=
  prune (fun set id => (writes stmts id).all (writeNotBigInt types stmts set)) (candidates stmts).length (candidates stmts)

variable {types stmts} {id : LocalId}

theorem collected_bound (collected : id ∈ collectNotBigIntLocals types stmts) : id ∈ candidates stmts := prune_subset _ _ collected

theorem collected_writes (collected : id ∈ collectNotBigIntLocals types stmts) {write : Option Expr} (member : write ∈ writes stmts id) :
    writeNotBigInt types stmts (collectNotBigIntLocals types stmts) write = true := by
  have kept : (writes stmts id).all (writeNotBigInt types stmts (collectNotBigIntLocals types stmts)) = true :=
    prune_kept (Nat.le_refl _) id collected
  exact List.all_eq_true.mp kept write member

end collector

end Perry.Codegen.NotBigInt
