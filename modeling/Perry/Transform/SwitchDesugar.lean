import Perry.Effect.Escape
import Perry.Hir.Quiet
import Perry.Transform.FinallyExits

/-! The switch desugaring of `generator/break_continue.rs`: the matching case becomes an
index, fallthrough a comparison with it, and `break` a flag that guards what follows. -/
namespace Perry.Transform.SwitchDesugar

open Perry.Effect Perry.Hir Perry.Transform

mutual

/-- `stmt_may_break_switch`. -/
def stmtMayBreakSwitch : Stmt → Bool
  | .break => true
  | .if _ t e => stmtsMayBreakSwitch t || blockMayBreakSwitch e
  | .try b h f => stmtsMayBreakSwitch b || catchMayBreakSwitch h || blockMayBreakSwitch f
  | _ => false

def stmtsMayBreakSwitch : List Stmt → Bool
  | [] => false
  | s :: ss => stmtMayBreakSwitch s || stmtsMayBreakSwitch ss

def catchMayBreakSwitch : Option CatchClause → Bool
  | none => false
  | some (.mk _ body) => stmtsMayBreakSwitch body

def blockMayBreakSwitch : Option (List Stmt) → Bool
  | none => false
  | some body => stmtsMayBreakSwitch body

end

section

-- equations, made here once and not by the first proofs that unfold these
attribute [local simp] stmtMayBreakSwitch stmtsMayBreakSwitch catchMayBreakSwitch blockMayBreakSwitch

end

def notDone (done : LocalId) : Expr := .unary .not (.localGet done)

mutual

/-- `guard_switch_breaks`. -/
def guardSwitchBreaks (done : LocalId) : List Stmt → List Stmt
  | [] => []
  | .break :: _ => [.expr (.localSet done (.bool true))]
  | s :: rest =>
    if stmtMayBreakSwitch s && !rest.isEmpty then
      [rewriteSwitchBreaksInStmt done s,.if (notDone done) (guardSwitchBreaks done rest) none]
    else rewriteSwitchBreaksInStmt done s :: guardSwitchBreaks done rest

/-- `rewrite_switch_breaks_in_stmt`. -/
def rewriteSwitchBreaksInStmt (done : LocalId) : Stmt → Stmt
  | .if c t e => .if c (guardSwitchBreaks done t) (guardBlock done e)
  | .try b h f => .try (guardSwitchBreaks done b) (guardCatch done h) (guardBlock done f)
  | s => s

def guardCatch (done : LocalId) : Option CatchClause → Option CatchClause
  | none => none
  | some (.mk param body) => some (.mk param (guardSwitchBreaks done body))

def guardBlock (done : LocalId) : Option (List Stmt) → Option (List Stmt)
  | none => none
  | some body => some (guardSwitchBreaks done body)

end

section

-- equations, made here once and not by the first proofs that unfold these
attribute [local simp] guardSwitchBreaks rewriteSwitchBreaksInStmt guardCatch guardBlock

end

section chain

variable (d idx done : LocalId) (unmatched : Int)

def idxIsUnmatched : Expr := .compare .eq (.localGet idx) (.number (.int unmatched))

def setIdx (i : Int) : Stmt := .expr (.localSet idx (.number (.int i)))

/-- The tests of the clauses from position `i` on, each under its own temporary. -/
def testStmts : Nat → List SwitchCase → Fresh (List Stmt)
  | _,[] => pure []
  | i,.mk none _ :: cases => testStmts (i + 1) cases
  | i,.mk (some test) _ :: cases => do
    let t ← freshLocal
    let rest ← testStmts (i + 1) cases
    pure (.if (idxIsUnmatched idx unmatched)
      [.expr (.localSet t test),.if (.compare .eq (.localGet d) (.localGet t)) [setIdx idx i] none] none :: rest)

/-- The bodies from position `i` on, in positional order. -/
def bodyStmts : Nat → List SwitchCase → List Stmt
  | _,[] => []
  | i,.mk _ body :: cases =>
    .if (.logical .and (notDone done) (.compare .le (.localGet idx) (.number (.int i))))
      (guardSwitchBreaks done body) none :: bodyStmts (i + 1) cases

end chain

/-- `desugar_switch_to_ifs`. -/
def desugarSwitchToIfs (discriminant : Expr) (cases : List SwitchCase) : Fresh (List Stmt) := do
  let unmatched := (cases.length : Int) + 1
  let start := (cases.findIdx? fun c => c.test.isNone).getD cases.length
  let d ← freshLocal
  let idx ← freshLocal
  let done ← freshLocal
  let tests ← testStmts d idx unmatched 0 cases
  pure (.expr (.localSet d discriminant) :: setIdx idx unmatched :: tests ++
    .if (idxIsUnmatched idx unmatched) [setIdx idx start] none ::
    .expr (.localSet done (.bool false)) :: bodyStmts idx done 0 cases)

section syntactic

variable {done : LocalId}

theorem stmtsMayBreakSwitch_eq_false {ss : List Stmt} :
    stmtsMayBreakSwitch ss = false ↔ ∀ s ∈ ss, stmtMayBreakSwitch s = false := by
  induction ss with
  | nil => simp [stmtsMayBreakSwitch]
  | cons s ss ih => simp [stmtsMayBreakSwitch,ih]

theorem blockMayBreakSwitch_eq (block : Option (List Stmt)) :
    blockMayBreakSwitch block = stmtsMayBreakSwitch (block.getD []) := by
  cases block <;> rfl

theorem guardBlock_getD (done : LocalId) (block : Option (List Stmt)) :
    (guardBlock done block).getD [] = guardSwitchBreaks done (block.getD []) := by
  cases block <;> rfl

theorem guard_cons {s : Stmt} {rest : List Stmt} (other : s ≠ .break) : guardSwitchBreaks done (s :: rest) =
    if stmtMayBreakSwitch s && !rest.isEmpty then
      [rewriteSwitchBreaksInStmt done s,.if (notDone done) (guardSwitchBreaks done rest) none]
    else rewriteSwitchBreaksInStmt done s :: guardSwitchBreaks done rest := by
  rw [guardSwitchBreaks]
  exact other

private theorem guard_of_each {ss : List Stmt} (each : ∀ s ∈ ss, stmtMayBreakSwitch s = false →
    rewriteSwitchBreaksInStmt done s = s) (calm : stmtsMayBreakSwitch ss = false) : guardSwitchBreaks done ss = ss := by
  induction ss with
  | nil => rfl
  | cons s ss ih =>
    simp only [stmtsMayBreakSwitch,Bool.or_eq_false_iff] at calm
    have other : s ≠ .break := by
      rintro rfl
      cases calm.1
    rw [guard_cons other,calm.1,each s (by simp) calm.1,ih (fun t member => each t (by simp [member])) calm.2]
    rfl

/-- A statement without a break for the switch is left as it is. -/
theorem rewrite_of_calm {s : Stmt} (calm : stmtMayBreakSwitch s = false) : rewriteSwitchBreaksInStmt done s = s := by
  induction s using Stmt.induct with
  | ifStmt c t e iht ihe =>
    simp only [stmtMayBreakSwitch,Bool.or_eq_false_iff] at calm
    have otherwise : guardBlock done e = e := by
      cases e with
      | none => rfl
      | some e => exact congrArg some (guard_of_each ihe calm.2)
    rw [rewriteSwitchBreaksInStmt,guard_of_each iht calm.1,otherwise]
  | tryStmt b h f ihb ihh ihf =>
    simp only [stmtMayBreakSwitch,Bool.or_eq_false_iff] at calm
    have handler : guardCatch done h = h := by
      cases h with
      | none => rfl
      | some c =>
        obtain ⟨param,body⟩ := c
        have kept : guardSwitchBreaks done body = body := guard_of_each (ihh _ rfl) calm.1.2
        rw [guardCatch,kept]
    have finalizer : guardBlock done f = f := by
      cases f with
      | none => rfl
      | some body => rw [guardBlock,guard_of_each (ihf _ rfl) calm.2]
    rw [rewriteSwitchBreaksInStmt,guard_of_each ihb calm.1.1,handler,finalizer]
  | _ => rfl

theorem guard_of_calm {ss : List Stmt} (calm : stmtsMayBreakSwitch ss = false) : guardSwitchBreaks done ss = ss :=
  guard_of_each (fun _ _ calm => rewrite_of_calm calm) calm

end syntactic

end Perry.Transform.SwitchDesugar
