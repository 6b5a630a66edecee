import Perry.Transform.Fresh

/-! `perry-transform/src/finally_inline.rs`: a clone of every `finally` block an
abrupt `return`, `break` or `continue` skips is placed right before it. -/
namespace Perry.Transform.FinallyInline

open Perry.Effect Perry.Hir Perry.Transform

/-- `label_depths`: the loop depth recorded for each label in scope. -/
abbrev LabelDepths := String → Option Nat

/-- One open try-with-finally, innermost first on the stack. Its clone is
processed under the stack that was open when it was pushed, which is the
`outer_slice` of the source at every place the clone is inlined. -/
structure EnclosingFinally where
  body : List Stmt
  loopDepthAtPush : Nat
  clone : Nat → LabelDepths → Fresh (List Stmt)

/-- The clones of these blocks, innermost first, each processed at its depth. -/
def inlineFinallies (depth : EnclosingFinally → Nat) (labels : LabelDepths) :
    List EnclosingFinally → Fresh (List Stmt)
  | [] => pure []
  | f :: fs => do
    let first ← f.clone (depth f) labels
    let rest ← inlineFinallies depth labels fs
    pure (first ++ rest)

def crossedAt (threshold : Nat) (enclosing : List EnclosingFinally) : List EnclosingFinally :=
  enclosing.takeWhile fun f => threshold ≤ f.loopDepthAtPush

def inlineFinalliesForBreak (enclosing : List EnclosingFinally) (loopDepth : Nat)
    (labels : LabelDepths) : Fresh (List Stmt) :=
  inlineFinallies (fun _ => loopDepth) labels (crossedAt loopDepth enclosing)

def inlineFinalliesForLabeled (enclosing : List EnclosingFinally) (label : String)
    (labels : LabelDepths) : Fresh (List Stmt) :=
  match labels label with
  | none => pure []
  | some depth => inlineFinallies EnclosingFinally.loopDepthAtPush labels (crossedAt depth enclosing)

/-- The statement put back where the source keeps only one. -/
def firstOf : List Stmt → Stmt
  | [] => .break
  | s :: _ => s

def isLoop : Stmt → Bool
  | .for .. | .while .. | .doWhile .. => true
  | _ => false

section process

variable (walk : Expr → Fresh Expr)

def walkOption : Option Expr → Fresh (Option Expr)
  | none => pure none
  | some e => do
    let e ← walk e
    pure (some e)

/-- A `for` initialiser is a `let` or an expression; `process_stmts` visits its
operand after `walk_stmt_exprs` already did. -/
def walkInit : Option Stmt → Fresh (Option Stmt)
  | some (.let id m init) => do
    let init ← walkOption walk init
    pure (some (.let id m init))
  | some (.expr e) => do
    let e ← walk e
    pure (some (.expr e))
  | init => pure init

def walkTests : List SwitchCase → Fresh (List (Option Expr))
  | [] => pure []
  | .mk test _ :: cases => do
    let test ← walkOption walk test
    let tests ← walkTests cases
    pure (test :: tests)

mutual

def processStmt (enclosing : List EnclosingFinally) (loopDepth : Nat) (labels : LabelDepths) :
    Stmt → Fresh (List Stmt)
  | .let id m init => do
    let init ← walkOption walk init
    pure [.let id m init]
  | .expr e => do
    let e ← walk e
    pure [.expr e]
  | .throw e => do
    let e ← walk e
    pure [.throw e]
  | .return value => do
    let value ← walkOption walk value
    if enclosing.isEmpty then pure [.return value]
    else match value with
      | some e => do
        let id ← freshLocal
        let clones ← inlineFinallies (fun _ => loopDepth) labels enclosing
        pure (.let id false (some e) :: (clones ++ [.return (some (.localGet id))]))
      | none => do
        let clones ← inlineFinallies (fun _ => loopDepth) labels enclosing
        pure (clones ++ [.return none])
  | .break => do
    let clones ← inlineFinalliesForBreak enclosing loopDepth labels
    pure (clones ++ [.break])
  | .continue => do
    let clones ← inlineFinalliesForBreak enclosing loopDepth labels
    pure (clones ++ [.continue])
  | .labeledBreak l => do
    let clones ← inlineFinalliesForLabeled enclosing l labels
    pure (clones ++ [.labeledBreak l])
  | .labeledContinue l => do
    let clones ← inlineFinalliesForLabeled enclosing l labels
    pure (clones ++ [.labeledContinue l])
  | .try body handler finalizer => do
    let extended := pushFinally enclosing loopDepth finalizer
    let body ← processStmts extended loopDepth labels body
    let handler ← processCatch extended loopDepth labels handler
    let finalizer ← processBlock enclosing loopDepth labels finalizer
    pure [.try body handler finalizer]
  | .if c t e => do
    let c ← walk c
    let t ← processStmts enclosing loopDepth labels t
    let e ← processBlock enclosing loopDepth labels e
    pure [.if c t e]
  | .while c b => do
    let c ← walk c
    let b ← processStmts enclosing (loopDepth + 1) labels b
    pure [.while c b]
  | .doWhile b c => do
    let c ← walk c
    let b ← processStmts enclosing (loopDepth + 1) labels b
    pure [.doWhile b c]
  | .for i c u b => do
    let i ← walkInit walk i
    let c ← walkOption walk c
    let u ← walkOption walk u
    let i ← walkInit walk i
    let b ← processStmts enclosing (loopDepth + 1) labels b
    pure [.for i c u b]
  | .labeled l s => do
    let threshold := if isLoop s then loopDepth + 1 else loopDepth
    let single ← processStmt enclosing loopDepth (Function.update labels l (some threshold)) s
    pure [.labeled l (firstOf single)]
  | .switch d cases => do
    let d ← walk d
    let tests ← walkTests walk cases
    let bodies ← processCases enclosing loopDepth labels cases
    pure [.switch d (List.zipWith SwitchCase.mk tests bodies)]
  | s => pure [s]

def processStmts (enclosing : List EnclosingFinally) (loopDepth : Nat) (labels : LabelDepths) :
    List Stmt → Fresh (List Stmt)
  | [] => pure []
  | s :: ss => do
    let first ← processStmt enclosing loopDepth labels s
    let rest ← processStmts enclosing loopDepth labels ss
    pure (first ++ rest)

def pushFinally (enclosing : List EnclosingFinally) (loopDepth : Nat) :
    Option (List Stmt) → List EnclosingFinally
  | none => enclosing
  | some body =>
    { body, loopDepthAtPush := loopDepth
      clone := fun depth labels => processStmts enclosing depth labels body } :: enclosing

def processCatch (enclosing : List EnclosingFinally) (loopDepth : Nat) (labels : LabelDepths) :
    Option CatchClause → Fresh (Option CatchClause)
  | none => pure none
  | some (.mk param body) => do
    let body ← processStmts enclosing loopDepth labels body
    pure (some (.mk param body))

def processBlock (enclosing : List EnclosingFinally) (loopDepth : Nat) (labels : LabelDepths) :
    Option (List Stmt) → Fresh (Option (List Stmt))
  | none => pure none
  | some body => do
    let body ← processStmts enclosing loopDepth labels body
    pure (some body)

def processCases (enclosing : List EnclosingFinally) (loopDepth : Nat) (labels : LabelDepths) :
    List SwitchCase → Fresh (List (List Stmt))
  | [] => pure []
  | .mk _ body :: cases => do
    let body ← processStmts enclosing loopDepth labels body
    let bodies ← processCases enclosing loopDepth labels cases
    pure (body :: bodies)

end

section

-- equations, made here once and not by the first proofs that unfold these
attribute [local simp] processStmt processStmts pushFinally processCatch processBlock processCases

end

end process

/-- `process_expr_closure_bodies`, down to closures nested `depth` deep. -/
def processExprClosureBodies : Nat → Expr → Fresh Expr
  | 0 => pure
  | depth + 1 => onClosures fun body =>
    processStmts (processExprClosureBodies depth) [] 0 (fun _ => none) body

/-- The pass on one function body, whose closures nest at most `depth` deep. -/
def inlineFinallyIntoReturns (depth : Nat) (body : List Stmt) : Fresh (List Stmt) :=
  processStmts (processExprClosureBodies depth) [] 0 (fun _ => none) body

theorem invisible_processExprClosureBodies (depth : Nat) : Invisible (processExprClosureBodies depth) := by
  cases depth with
  | zero => exact invisible_pure
  | succ depth => exact invisible_onClosures _

end Perry.Transform.FinallyInline
