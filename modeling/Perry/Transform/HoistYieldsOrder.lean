import Perry.Transform.HoistYields

/-! The order condition of yield hoisting on statements, and what hoisting leaves of the
expressions it does not move. -/
namespace Perry.Transform.HoistYields

open Perry.Effect Perry.Hir Perry.Transform

section order

variable (boxed : LocalId → Bool)

mutual

/-- Every expression hoisted from keeps its order, and so do the tests of a switch. -/
def keepsOrderStmt : Stmt → Bool
  | .let _ _ init => keepsOrderOption .yield boxed init
  | .expr e => keepsOrder .yield boxed e
  | .return value => keepsOrderOption .yield boxed value
  | .throw e => keepsOrder .yield boxed e
  | .if c t e => keepsOrder .yield boxed c && keepsOrderStmts t && keepsOrderBlock e
  | .while _ b => keepsOrderStmts b
  | .doWhile b _ => keepsOrderStmts b
  | .for i _ _ b => keepsOrderInit i && keepsOrderStmts b
  | .try b h f => keepsOrderStmts b && keepsOrderCatch h && keepsOrderBlock f
  | .switch d cases => keepsOrder .yield boxed d && keepsOrderTests .yield boxed d cases && keepsOrderBodies cases
  | .labeled _ s => keepsOrderStmt s
  | _ => true

def keepsOrderStmts : List Stmt → Bool
  | [] => true
  | s :: ss => keepsOrderStmt s && keepsOrderStmts ss

def keepsOrderInit : Option Stmt → Bool
  | none => true
  | some s => keepsOrderStmt s

def keepsOrderCatch : Option CatchClause → Bool
  | none => true
  | some (.mk _ body) => keepsOrderStmts body

def keepsOrderBlock : Option (List Stmt) → Bool
  | none => true
  | some body => keepsOrderStmts body

def keepsOrderBodies : List SwitchCase → Bool
  | [] => true
  | .mk _ body :: cases => keepsOrderStmts body && keepsOrderBodies cases

end

section

-- equations, made here once and not by the first proofs that unfold these
attribute [local simp] keepsOrderStmt keepsOrderStmts keepsOrderInit
  keepsOrderCatch keepsOrderBlock keepsOrderBodies

end

theorem keepsOrderBlock_eq (block : Option (List Stmt)) :
    keepsOrderBlock boxed block = keepsOrderStmts boxed (block.getD []) := by
  cases block <;> rfl

end order

private theorem hoistYieldsInList_of_each {es : List Expr} (free : anyContainsYield es = false)
    (each : ∀ e ∈ es, exprContainsYield e = false →
      ∀ top next, (hoistYieldsInExpr top e).run next = (([],e),next)) (next : LocalId) :
    (hoistYieldsInList es).run next = (([],es),next) := by
  induction es with
  | nil => rfl
  | cons e es ih =>
    simp only [containsAny,Bool.or_eq_false_iff] at free
    simp only [hoistYieldsInList,Fresh.bind_run,Fresh.pure_run,each e (by simp) free.1,
      ih free.2 fun a member => each a (by simp [member]),List.nil_append]

/-- An expression that does not yield is left alone. -/
theorem hoistYieldsInExpr_of_free {e : Expr} (free : exprContainsYield e = false) (top : Bool)
    (next : LocalId) : (hoistYieldsInExpr top e).run next = (([],e),next) := by
  induction e using Expr.induct generalizing top next with
  | lit l => rfl
  | localGet id => rfl
  | localSet id value ih =>
    simp only [hoistYieldsInExpr,Fresh.bind_run,Fresh.pure_run,ih free]
  | update id op pre => rfl
  | strict op args ih =>
    simp only [hoistYieldsInExpr,Fresh.bind_run,Fresh.pure_run,hoistYieldsInList_of_each free ih]
  | logical op left right ihl ihr =>
    simp only [contains,Bool.or_eq_false_iff] at free
    simp only [hoistYieldsInExpr,free.2,Bool.false_eq_true,if_false,Fresh.bind_run,Fresh.pure_run,ihl free.1,
      ihr free.2,List.nil_append]
  | conditional c t e ihc iht ihe =>
    simp only [contains,Bool.or_eq_false_iff] at free
    simp only [hoistYieldsInExpr,free.2,free.1.2,Bool.or_self,Bool.false_eq_true,if_false,Fresh.bind_run,
      Fresh.pure_run,ihc free.1.1,iht free.1.2,ihe free.2,List.nil_append]
  | sequence items ih =>
    simp only [contains] at free
    simp only [hoistYieldsInExpr,free,Bool.false_eq_true,if_false,Fresh.bind_run,Fresh.pure_run,
      hoistYieldsInList_of_each free ih]
  | arrayMut kind id args ih =>
    simp only [hoistYieldsInExpr,Fresh.bind_run,Fresh.pure_run,hoistYieldsInList_of_each free ih]
  | withSet object property value fallback strict iho ihv =>
    simp only [contains,Bool.or_eq_false_iff] at free
    simp only [hoistYieldsInExpr,Fresh.bind_run,Fresh.pure_run,iho free.1,ihv free.2,List.nil_append]
  | closure funcId params defaults captures mutableCaptures flags body ih => rfl
  | await operand ih =>
    simp only [contains,Bool.or_eq_false_iff] at free
    simp only [hoistYieldsInExpr,Fresh.bind_run,Fresh.pure_run,ih free.2]
  | yieldNone delegate => cases free
  | yieldSome value delegate ih => cases free

theorem hoistYieldsInList_of_free {es : List Expr} (free : anyContainsYield es = false) (next : LocalId) :
    (hoistYieldsInList es).run next = (([],es),next) :=
  hoistYieldsInList_of_each free (fun _ _ free top next => hoistYieldsInExpr_of_free free top next) next

variable {W : Type} {host : Host W}

/-- The operands left behind by settled expressions are inert, and as many as before. -/
private theorem settled_residuals {es : List Expr} {used : List LocalId} {next : LocalId}
    (settled : settlesList .yield host.boxed es = some used) (temps : ∀ id, next ≤ id → host.boxed id = false)
    (each : ∀ e ∈ es, ∀ {used next}, settles .yield host.boxed e = some used →
      (∀ id, next ≤ id → host.boxed id = false) →
      Settled (span used next ((hoistYieldsInExpr false e).run next).2)
        (eval host ((hoistYieldsInExpr false e).run next).1.2) fun _ => True) :
    Settled (span used next ((hoistYieldsInList es).run next).2)
      (evalArgs host ((hoistYieldsInList es).run next).1.2) fun vs => vs.length = es.length := by
  induction es generalizing used next with
  | nil =>
    cases settled
    exact Settled.pure rfl
  | cons e es ih =>
    obtain ⟨l,r,hl,hr,rfl⟩ := settlesList_cons settled
    have grows := (hoistYieldsInExpr false e).grows next
    have first := each e (by simp) hl temps
    have rest := ih hr (fun id large => temps id (Nat.le_trans grows large)) fun a member => each a (by simp [member])
    simp only [hoistYieldsInList,Fresh.bind_run,Fresh.pure_run,evalArgs]
    refine (first.wider (span_mono (List.subset_append_left _ _) (Nat.le_refl _)
      ((hoistYieldsInList es).grows _))).bind fun v _ => ?_
    refine (rest.wider (span_mono (List.subset_append_right _ _) grows (Nat.le_refl _))).map ?_ fun _ _ => rfl
    intro vs sized
    simp [sized]

/-- What hoisting leaves of an expression that settles is inert. -/
theorem settled_residual {e : Expr} {used : List LocalId} {next : LocalId}
    (settled : settles .yield host.boxed e = some used) (temps : ∀ id, next ≤ id → host.boxed id = false) :
    Settled (span used next ((hoistYieldsInExpr false e).run next).2)
      (eval host ((hoistYieldsInExpr false e).run next).1.2) fun _ => True := by
  induction e using Expr.induct generalizing used next with
  | lit l => exact Settled.pure trivial
  | localGet id => exact settled_localGet settled
  | yieldNone delegate => exact Settled.read (temps next (Nat.le_refl _)) (.inr ⟨Nat.le_refl _,Nat.lt_succ_self _⟩)
  | yieldSome value delegate ih =>
    have grows := (hoistYieldsInExpr false value).grows next
    exact Settled.read (temps _ grows) (.inr ⟨grows,Nat.lt_succ_self _⟩)
  | logical op left right ihl ihr =>
    rcases settles_logical settled with ⟨some,_⟩ | ⟨plain,l,r,hl,hr,rfl⟩
    · simp only [hoistYieldsInExpr,if_pos some,Fresh.bind_run,Fresh.pure_run,freshLocal_run]
      refine Settled.read (temps next (Nat.le_refl _)) (.inr ⟨Nat.le_refl _,?_⟩)
      exact Nat.le_trans ((hoistYieldsInExpr false left).grows _) ((hoistYieldsInExpr false right).grows _)
    · simp only [hoistYieldsInExpr,plain,Bool.false_eq_true,if_false,Fresh.bind_run,Fresh.pure_run,eval]
      have grows := (hoistYieldsInExpr false left).grows next
      have first := ihl hl temps
      have second := ihr hr fun id large => temps id (Nat.le_trans grows large)
      refine (first.wider (span_mono (List.subset_append_left _ _) (Nat.le_refl _)
        ((hoistYieldsInExpr false right).grows _))).bind fun v _ => ?_
      exact Settled.ite (Settled.pure trivial)
        (second.wider (span_mono (List.subset_append_right _ _) grows (Nat.le_refl _)))
  | conditional c t e ihc iht ihe =>
    rcases settles_conditional settled with ⟨some,_⟩ | ⟨plain,i,j,k,hi,hj,hk,rfl⟩
    · simp only [hoistYieldsInExpr,if_pos some,Fresh.bind_run,Fresh.pure_run,freshLocal_run]
      refine Settled.read (temps next (Nat.le_refl _)) (.inr ⟨Nat.le_refl _,?_⟩)
      exact Nat.le_trans ((hoistYieldsInExpr false c).grows _)
        (Nat.le_trans ((hoistYieldsInExpr false t).grows _) ((hoistYieldsInExpr false e).grows _))
    · simp only [hoistYieldsInExpr,plain,Bool.false_eq_true,if_false,Fresh.bind_run,Fresh.pure_run,eval]
      have growsCond := (hoistYieldsInExpr false c).grows next
      have growsThen := (hoistYieldsInExpr false t).grows ((hoistYieldsInExpr false c).run next).2
      have growsElse := (hoistYieldsInExpr false e).grows
        ((hoistYieldsInExpr false t).run ((hoistYieldsInExpr false c).run next).2).2
      have cond := ihc hi temps
      have yes := iht hj fun id large => temps id (Nat.le_trans growsCond large)
      have no := ihe hk fun id large => temps id (Nat.le_trans growsCond (Nat.le_trans growsThen large))
      rw [List.append_assoc]
      refine (cond.wider (span_mono (List.subset_append_left _ _) (Nat.le_refl _)
        (Nat.le_trans growsThen growsElse))).bind fun v _ => ?_
      exact Settled.ite (yes.wider (span_mono (by simp) growsCond growsElse))
        (no.wider (span_mono (by simp) (Nat.le_trans growsCond growsThen) (Nat.le_refl _)))
  | sequence items ih =>
    rcases settles_sequence settled with ⟨some,_⟩ | ⟨plain,inner⟩
    · simp only [hoistYieldsInExpr,if_pos some,Fresh.bind_run,Fresh.pure_run,freshLocal_run]
      exact Settled.read (temps next (Nat.le_refl _)) (.inr ⟨Nat.le_refl _,(liftSequence next items).grows _⟩)
    · simp only [hoistYieldsInExpr,plain,Bool.false_eq_true,if_false,Fresh.bind_run,Fresh.pure_run,eval,
        evalSequence_eq]
      exact (settled_residuals inner temps ih).map (fun _ _ => trivial) fun _ _ => rfl
  | strict op args ih =>
    obtain ⟨always,inner⟩ := settles_strict settled
    simp only [hoistYieldsInExpr,Fresh.bind_run,Fresh.pure_run,eval]
    refine (settled_residuals inner temps ih).map (g := fun vs => (op.pure? vs).getD .undefined)
      (fun _ _ => trivial) fun vs sized => ?_
    exact applyOp_of_alwaysPure (by rwa [sized])
  | localSet id value ih => cases settled
  | update id op pre => cases settled
  | arrayMut kind id args ih => cases settled
  | withSet object property value fallback strict iho ihv => cases settled
  | closure funcId params defaults captures mutableCaptures flags body ih => cases settled
  | await operand ih => cases settled

end Perry.Transform.HoistYields
