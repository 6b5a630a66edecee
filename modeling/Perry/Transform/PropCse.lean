import Mathlib.Algebra.GroupWithZero.Nat
import Perry.Transform.Fresh

/-! `prop_cse.rs`: over a run of `if (COND) { … }` statements whose bodies diverge,
a repeated `local.property` read is taken once, by a fresh `const` in front of the
guard whose first unconditional read it is. -/
namespace Perry.Transform.PropCse

open Perry.Effect Perry.Hir

/-- A hoistable read: `LocalGet(id).property`. -/
abbrev ReadKey := LocalId × String

def readOf (key : ReadKey) : Expr := .strict (.propertyGet key.2) [.localGet key.1]

/-- `Expr::TypeOf`. -/
@[match_pattern] abbrev typeOf (operand : Expr) : Expr := .strict (.variant 39) [operand]

/-- `WtfString`, `ClassRef` and `This`; what they carry is a literal operand. -/
def isLeaf (tag : Nat) (args : List Expr) : Bool :=
  (tag == 7 || tag == 51 || tag == 69) && args.all fun
    | .lit _ => true
    | _ => false

def guardExprIsAnalyzable : Expr → Bool
  | .lit _ => true
  | .localGet _ => true
  | .strict (.funcRef _) [] => true
  | .strict (.propertyGet _) [.localGet _] => true
  | .compare op left right =>
    (op == .eq || op == .ne) && guardExprIsAnalyzable left && guardExprIsAnalyzable right
  | .logical _ left right => guardExprIsAnalyzable left && guardExprIsAnalyzable right
  | .unary op operand => op == .not && guardExprIsAnalyzable operand
  | typeOf operand => guardExprIsAnalyzable operand
  | .strict (.variant tag) args => isLeaf tag args
  | _ => false

mutual

def divergesStmt : Stmt → Bool
  | .return _ | .throw _ | .break | .continue | .labeledBreak _ | .labeledContinue _ => true
  | .if _ t (some e) => alwaysDiverges t && alwaysDiverges e
  | _ => false

/-- Every path through the statements leaves the list they stand in. -/
def alwaysDiverges : List Stmt → Bool
  | [] => false
  | [s] => divergesStmt s
  | _ :: s :: ss => alwaysDiverges (s :: ss)

end

/-- The condition of a guard. -/
def divergingGuard : Stmt → Option Expr
  | .if c t none => if alwaysDiverges t && guardExprIsAnalyzable c then some c else none
  | _ => none

/-- The first read the expression makes on every path. -/
def firstUnconditionalRead : Expr → Option ReadKey
  | .strict (.propertyGet property) [.localGet id] => some (id,property)
  | .compare _ left right => (firstUnconditionalRead left).or (firstUnconditionalRead right)
  | .logical _ left _ => firstUnconditionalRead left
  | .unary _ operand => firstUnconditionalRead operand
  | typeOf operand => firstUnconditionalRead operand
  | _ => none

def countReadsOf (key : ReadKey) : Expr → Nat
  | .strict (.propertyGet property) [.localGet id] => if id = key.1 ∧ property = key.2 then 1 else 0
  | .compare _ left right => countReadsOf key left + countReadsOf key right
  | .logical _ left right => countReadsOf key left + countReadsOf key right
  | .unary _ operand => countReadsOf key operand
  | typeOf operand => countReadsOf key operand
  | _ => 0

def substituteReads (key : ReadKey) (tmp : LocalId) : Expr → Expr
  | .strict (.propertyGet property) [.localGet id] =>
    if id = key.1 ∧ property = key.2 then .localGet tmp else .strict (.propertyGet property) [.localGet id]
  | .compare op left right => .compare op (substituteReads key tmp left) (substituteReads key tmp right)
  | .logical op left right => .logical op (substituteReads key tmp left) (substituteReads key tmp right)
  | .unary op operand => .unary op (substituteReads key tmp operand)
  | typeOf operand => typeOf (substituteReads key tmp operand)
  | e => e

section

-- equations, made here once and not by the first proofs that unfold these
attribute [local simp] guardExprIsAnalyzable divergesStmt alwaysDiverges divergingGuard firstUnconditionalRead
  countReadsOf substituteReads

end

def substituteIn (key : ReadKey) (tmp : LocalId) : Stmt → Stmt
  | .if c t e => .if (substituteReads key tmp c) t e
  | s => s

/-- The occurrences from a guard to the end of the run. -/
def usesOf (key : ReadKey) (run : List Stmt) : Nat :=
  (run.map fun s => ((divergingGuard s).map (countReadsOf key)).getD 0).sum

/-- The key of a guard that is hoisted in front of it. -/
def hoisted (claimed : List ReadKey) (candidate : Option ReadKey) (run : List Stmt) : Option ReadKey :=
  candidate.filter fun key => decide (key ∉ claimed ∧ 2 ≤ usesOf key run)

/-- The rest of a run from one of its guards on, with the candidates the guards had
at first. -/
def rewriteFrom (claimed : List ReadKey) : List (Option ReadKey) → List Stmt → Fresh (List Stmt)
  | candidate :: candidates,s :: rest =>
    match hoisted claimed candidate (s :: rest) with
    | none => do
      let rest ← rewriteFrom claimed candidates rest
      pure (s :: rest)
    | some key => do
      let id ← freshLocal
      let rest ← rewriteFrom (key :: claimed) candidates (rest.map (substituteIn key id))
      pure (.let id false (some (readOf key)) :: substituteIn key id s :: rest)
  | _,run => pure run

def candidates (run : List Stmt) : List (Option ReadKey) :=
  run.map fun s => (divergingGuard s).bind firstUnconditionalRead

def rewriteRun (run : List Stmt) : Fresh (List Stmt) := rewriteFrom [] (candidates run) run

/-- A maximal run is rewritten when it has two guards. -/
def closeRun (run : List Stmt) : Fresh (List Stmt) :=
  if 2 ≤ run.length then rewriteRun run else pure run

/-- The statement list, behind a run of guards. -/
def rewriteRuns (run : List Stmt) : List Stmt → Fresh (List Stmt)
  | [] => closeRun run
  | s :: ss =>
    if (divergingGuard s).isSome then rewriteRuns (run ++ [s]) ss
    else do
      let run ← closeRun run
      let ss ← rewriteRuns [] ss
      pure (run ++ s :: ss)

mutual

/-- The statement lists nested directly inside the statement, rewritten. -/
def cseNested : Stmt → Fresh Stmt
  | .if c t e => do
    let t ← cseEach t >>= rewriteRuns []
    let e ← cseBlock e
    pure (.if c t e)
  | .while c b => do
    let b ← cseEach b >>= rewriteRuns []
    pure (.while c b)
  | .doWhile b c => do
    let b ← cseEach b >>= rewriteRuns []
    pure (.doWhile b c)
  | .for i c u b => do
    let b ← cseEach b >>= rewriteRuns []
    pure (.for i c u b)
  | .labeled l s => do
    let s ← cseNested s
    pure (.labeled l s)
  | .switch d cases => do
    let cases ← cseCases cases
    pure (.switch d cases)
  | .try b h f => do
    let b ← cseEach b >>= rewriteRuns []
    let h ← cseCatch h
    let f ← cseBlock f
    pure (.try b h f)
  | s => pure s

def cseEach : List Stmt → Fresh (List Stmt)
  | [] => pure []
  | s :: ss => do
    let s ← cseNested s
    let ss ← cseEach ss
    pure (s :: ss)

def cseCases : List SwitchCase → Fresh (List SwitchCase)
  | [] => pure []
  | .mk test body :: cases => do
    let body ← cseEach body >>= rewriteRuns []
    let cases ← cseCases cases
    pure (.mk test body :: cases)

def cseCatch : Option CatchClause → Fresh (Option CatchClause)
  | none => pure none
  | some (.mk param body) => do
    let body ← cseEach body >>= rewriteRuns []
    pure (some (.mk param body))

def cseBlock : Option (List Stmt) → Fresh (Option (List Stmt))
  | none => pure none
  | some body => do
    let body ← cseEach body >>= rewriteRuns []
    pure (some body)

end

section

-- equations, made here once and not by the first proofs that unfold these
attribute [local simp] cseNested cseEach cseCases cseCatch cseBlock

end

def cseStmts (ss : List Stmt) : Fresh (List Stmt) := cseEach ss >>= rewriteRuns []

end Perry.Transform.PropCse
