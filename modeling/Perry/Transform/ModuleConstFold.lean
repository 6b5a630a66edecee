import Mathlib.Logic.Function.Basic
import Perry.Hir.Nodes

/-! `module_const_fold.rs`: reads of module-level constants become their literals. -/
namespace Perry.Transform.ModuleConstFold
open Perry.Hir

/-- A constant and the position of its declaration. -/
structure Constant where
  literal : Lit
  index : Nat
  deriving DecidableEq,Repr

abbrev Constants := LocalId → Option Constant

section scan

def isFoldableLiteral : Lit → Bool
  | .integer _ | .number _ | .string _ | .bool _ => true
  | _ => false

/-- The literals that `init` declares immutable, from one position on. -/
def candidates : Nat → List Stmt → Constants → Constants
  | _,[],consts => consts
  | index,.let id false (some (.lit l)) :: stmts,consts =>
    candidates (index + 1) stmts (if isFoldableLiteral l then Function.update consts id (some ⟨l,index⟩) else consts)
  | index,_ :: stmts,consts => candidates (index + 1) stmts consts

/-- `for_each_function` -/
def eachFunction (m : Module) : List Function := m.functions ++ m.classes.flatMap Class.functions

/-- The walk does not enter the bodies of closures. -/
def collectWrittenInStmts (stmts : List Stmt) : List LocalId :=
  (nodesOfStmts false stmts).filterMap fun
    | .expr (.localSet id _) | .expr (.update id _ _) => some id
    | _ => none

def written (m : Module) : List LocalId := ((eachFunction m).flatMap fun f => collectWrittenInStmts f.body) ++ collectWrittenInStmts m.init

/-- `consts` and `decl_index`, once the scan has taken away what is written. -/
def constants (m : Module) : Constants := fun id => if id ∈ written m then none else candidates 0 m.init (fun _ => none) id

end scan

/-- The constants whose reads are folded. -/
abbrev Visible := LocalId → Option Lit

section folding

variable (visible : Visible)

def unfolded (captures : List LocalId) : List LocalId := captures.filter fun id => (visible id).isNone

mutual

def foldExpr : Expr → Expr
  | .lit l => .lit l
  | .localGet id =>
    match visible id with
    | some l => .lit l
    | none => .localGet id
  | .localSet id value => .localSet id (foldExpr value)
  | .update id op pre => .update id op pre
  | .strict op args => .strict op (foldList args)
  | .logical op left right => .logical op (foldExpr left) (foldExpr right)
  | .conditional c t e => .conditional (foldExpr c) (foldExpr t) (foldExpr e)
  | .sequence items => .sequence (foldList items)
  | .arrayMut kind id args => .arrayMut kind id (foldList args)
  | .withSet object property value fallback strict => .withSet (foldExpr object) property (foldExpr value) fallback strict
  | .closure funcId params defaults captures mutableCaptures flags body =>
    .closure funcId params (foldList defaults) (unfolded visible captures) (unfolded visible mutableCaptures) flags (foldStmts body)
  | .await operand => .await (foldExpr operand)
  | .yield value delegate => .yield (foldOption value) delegate
termination_by structural e => e

def foldList : List Expr → List Expr
  | [] => []
  | e :: es => foldExpr e :: foldList es
termination_by structural es => es

def foldOption : Option Expr → Option Expr
  | none => none
  | some e => some (foldExpr e)
termination_by structural e => e

/-- The nested statement lists of a statement, and its expressions. -/
def foldStmt : Stmt → Stmt
  | .let id isMutable init => .let id isMutable (foldOption init)
  | .expr e => .expr (foldExpr e)
  | .return value => .return (foldOption value)
  | .if c t e => .if (foldExpr c) (foldStmts t) (foldBlock e)
  | .while c b => .while (foldExpr c) (foldStmts b)
  | .doWhile b c => .doWhile (foldStmts b) (foldExpr c)
  | .for i c u b => .for (foldInit i) (foldOption c) (foldOption u) (foldStmts b)
  | .labeled l s => .labeled l (foldStmt s)
  | .throw e => .throw (foldExpr e)
  | .try b h f => .try (foldStmts b) (foldCatch h) (foldBlock f)
  | .switch d cases => .switch (foldExpr d) (foldCases cases)
  | s => s
termination_by structural s => s

def foldStmts : List Stmt → List Stmt
  | [] => []
  | s :: ss => foldStmt s :: foldStmts ss
termination_by structural ss => ss

-- a loop starts with a declaration or an expression, which have expressions only
def foldInit : Option Stmt → Option Stmt
  | none => none
  | some s => some (foldStmt s)
termination_by structural i => i

def foldCatch : Option CatchClause → Option CatchClause
  | none => none
  | some (.mk param body) => some (.mk param (foldStmts body))
termination_by structural h => h

def foldBlock : Option (List Stmt) → Option (List Stmt)
  | none => none
  | some body => some (foldStmts body)
termination_by structural f => f

def foldCases : List SwitchCase → List SwitchCase
  | [] => []
  | .mk test body :: cases => .mk (foldOption test) (foldStmts body) :: foldCases cases
termination_by structural cases => cases

end

section

-- equations, made here once and not by the first proofs that unfold these
attribute [local simp] foldExpr foldList foldOption foldStmt foldStmts foldInit foldCatch foldBlock foldCases

end

theorem foldBlock_getD (block : Option (List Stmt)) :
    (foldBlock visible block).getD [] = foldStmts visible (block.getD []) := by
  cases block <;> simp only [foldBlock,foldStmts,Option.getD_none,Option.getD_some]

def foldFunction (f : Function) : Function := { f with body := foldStmts visible f.body }

def foldClass (c : Hir.Class) : Hir.Class where
  constructor := c.constructor.map (foldFunction visible)
  methods := c.methods.map (foldFunction visible)
  staticMethods := c.staticMethods.map (foldFunction visible)
  getters := c.getters.map (foldFunction visible)
  setters := c.setters.map (foldFunction visible)
  computedMembers := c.computedMembers.map fun member => { member with function := foldFunction visible member.function }
  fields := c.fields
  staticFields := c.staticFields

end folding

section nothing

/-- `captures` stay as they are where nothing is visible. -/
theorem unfolded_nothing (ids : List LocalId) : unfolded (fun _ => none) ids = ids := List.filter_eq_self.mpr fun _ _ => rfl

mutual

/-- Where nothing is visible nothing changes. -/
theorem foldExpr_nothing : ∀ e : Expr,foldExpr (fun _ => none) e = e
  | .lit _ | .localGet _ | .update .. => rfl
  | .localSet id value => by rw [foldExpr,foldExpr_nothing value]
  | .strict op args => by rw [foldExpr,foldList_nothing args]
  | .logical op left right => by rw [foldExpr,foldExpr_nothing left,foldExpr_nothing right]
  | .conditional c t e => by rw [foldExpr,foldExpr_nothing c,foldExpr_nothing t,foldExpr_nothing e]
  | .sequence items => by rw [foldExpr,foldList_nothing items]
  | .arrayMut kind id args => by rw [foldExpr,foldList_nothing args]
  | .withSet object property value fallback strict => by rw [foldExpr,foldExpr_nothing object,foldExpr_nothing value]
  | .closure funcId params defaults captures mutableCaptures flags body => by
    rw [foldExpr,foldList_nothing defaults,foldStmts_nothing body,unfolded_nothing,unfolded_nothing]
  | .await operand => by rw [foldExpr,foldExpr_nothing operand]
  | .yield value delegate => by rw [foldExpr,foldOption_nothing value]
termination_by structural e => e

theorem foldList_nothing : ∀ es : List Expr,foldList (fun _ => none) es = es
  | [] => rfl
  | e :: es => by rw [foldList,foldExpr_nothing e,foldList_nothing es]
termination_by structural es => es

theorem foldOption_nothing : ∀ e : Option Expr,foldOption (fun _ => none) e = e
  | none => rfl
  | some e => by rw [foldOption,foldExpr_nothing e]
termination_by structural e => e

theorem foldStmt_nothing : ∀ s : Stmt,foldStmt (fun _ => none) s = s
  | .let id isMutable init => by rw [foldStmt,foldOption_nothing init]
  | .expr e => by rw [foldStmt,foldExpr_nothing e]
  | .return value => by rw [foldStmt,foldOption_nothing value]
  | .if c t e => by rw [foldStmt,foldExpr_nothing c,foldStmts_nothing t,foldBlock_nothing e]
  | .while c b => by rw [foldStmt,foldExpr_nothing c,foldStmts_nothing b]
  | .doWhile b c => by rw [foldStmt,foldExpr_nothing c,foldStmts_nothing b]
  | .for i c u b => by rw [foldStmt,foldInit_nothing i,foldOption_nothing c,foldOption_nothing u,foldStmts_nothing b]
  | .labeled l s => by rw [foldStmt,foldStmt_nothing s]
  | .throw e => by rw [foldStmt,foldExpr_nothing e]
  | .try b h f => by rw [foldStmt,foldStmts_nothing b,foldCatch_nothing h,foldBlock_nothing f]
  | .switch d cases => by rw [foldStmt,foldExpr_nothing d,foldCases_nothing cases]
  | .break | .continue | .labeledBreak _ | .labeledContinue _ => rfl
  | .preallocateBoxes _ | .preallocateTdzBoxes _ | .releaseBoxes _ => rfl
termination_by structural s => s

theorem foldStmts_nothing : ∀ ss : List Stmt,foldStmts (fun _ => none) ss = ss
  | [] => rfl
  | s :: ss => by rw [foldStmts,foldStmt_nothing s,foldStmts_nothing ss]
termination_by structural ss => ss

theorem foldInit_nothing : ∀ i : Option Stmt,foldInit (fun _ => none) i = i
  | none => rfl
  | some s => by rw [foldInit,foldStmt_nothing s]
termination_by structural i => i

theorem foldCatch_nothing : ∀ h : Option CatchClause,foldCatch (fun _ => none) h = h
  | none => rfl
  | some (.mk param body) => by rw [foldCatch,foldStmts_nothing body]
termination_by structural h => h

theorem foldBlock_nothing : ∀ f : Option (List Stmt),foldBlock (fun _ => none) f = f
  | none => rfl
  | some body => by rw [foldBlock,foldStmts_nothing body]
termination_by structural f => f

theorem foldCases_nothing : ∀ cases : List SwitchCase,foldCases (fun _ => none) cases = cases
  | [] => rfl
  | .mk test body :: cases => by rw [foldCases,foldOption_nothing test,foldStmts_nothing body,foldCases_nothing cases]
termination_by structural cases => cases

end

end nothing
section run

def everywhere (consts : Constants) : Visible := fun id => (consts id).map (·.literal)

/-- The constants declared before a position of `init`. -/
def declaredBefore (consts : Constants) (index : Nat) : Visible := fun id =>
  (consts id).bind fun c => if c.index < index then some c.literal else none

-- the source returns early where no constant is left, and there is nothing to fold
def run (m : Module) : Module :=
  { m with
    functions := m.functions.map (foldFunction (everywhere (constants m)))
    classes := m.classes.map (foldClass (everywhere (constants m)))
    init := m.init.mapIdx fun index s => foldStmt (declaredBefore (constants m) index) s }

end run

end Perry.Transform.ModuleConstFold
