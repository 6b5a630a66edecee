import Perry.Hir.Nodes

/-! The expressions and bindings that stand directly in statements: a walk over the statements is the
walk over each of them. -/
namespace Perry.Hir

section roots

mutual

/-- What the statement evaluates or binds, closure bodies apart. -/
def rootsOfStmt : Stmt → List Node
  | .let id _ init => [.bind id init]
  | .expr e | .throw e => [.expr e]
  | .return value => value.toList.map .expr
  | .if c t e => .expr c :: (rootsOfStmts t ++ rootsOfBlock e)
  | .while c b | .doWhile b c => .expr c :: rootsOfStmts b
  | .for i c u b => rootsOfInit i ++ (c.toList ++ u.toList).map .expr ++ rootsOfStmts b
  | .labeled _ s => rootsOfStmt s
  | .try b h f => rootsOfStmts b ++ rootsOfCatch h ++ rootsOfBlock f
  | .switch d cases => .expr d :: rootsOfCases cases
  | _ => []
termination_by structural s => s

def rootsOfStmts : List Stmt → List Node
  | [] => []
  | s :: ss => rootsOfStmt s ++ rootsOfStmts ss
termination_by structural ss => ss

def rootsOfInit : Option Stmt → List Node
  | none => []
  | some s => rootsOfStmt s
termination_by structural i => i

def rootsOfCatch : Option CatchClause → List Node
  | none => []
  | some (.mk param body) => param.toList.map .caught ++ rootsOfStmts body
termination_by structural h => h

def rootsOfBlock : Option (List Stmt) → List Node
  | none => []
  | some body => rootsOfStmts body
termination_by structural f => f

def rootsOfCases : List SwitchCase → List Node
  | [] => []
  | .mk test body :: cases => test.toList.map .expr ++ rootsOfStmts body ++ rootsOfCases cases
termination_by structural cases => cases

end

theorem rootsOfBlock_eq (block : Option (List Stmt)) : rootsOfBlock block = rootsOfStmts (block.getD []) := by
  cases block <;> rfl

variable (enter : Bool)

/-- The walk from one root. -/
def Node.nodes : Node → List Node
  | .bind id init => .bind id init :: nodesOfOption enter init
  | .caught id => [.caught id]
  | .expr e => nodesOfExpr enter e

variable {enter}

theorem nodes_of_option (e : Option Expr) : (e.toList.map Node.expr).flatMap (Node.nodes enter) = nodesOfOption enter e := by
  cases e with
  | none => rfl
  | some e => exact List.append_nil _

theorem nodes_of_list {ss : List Stmt} (each : ∀ s ∈ ss,(rootsOfStmt s).flatMap (Node.nodes enter) = nodesOfStmt enter s) :
    (rootsOfStmts ss).flatMap (Node.nodes enter) = nodesOfStmts enter ss := by
  induction ss with
  | nil => rfl
  | cons s ss ih => rw [rootsOfStmts,nodesOfStmts,List.flatMap_append,each s (by simp),ih fun t member => each t (by simp [member])]

theorem nodes_of_cases {cases : List SwitchCase}
    (each : ∀ c ∈ cases,∀ s ∈ c.body,(rootsOfStmt s).flatMap (Node.nodes enter) = nodesOfStmt enter s) :
    (rootsOfCases cases).flatMap (Node.nodes enter) = nodesOfCases enter cases := by
  induction cases with
  | nil => rfl
  | cons c cases ih =>
    rcases c with ⟨test,body⟩
    have first : (rootsOfStmts body).flatMap (Node.nodes enter) = nodesOfStmts enter body := nodes_of_list (each (.mk test body) (by simp))
    rw [rootsOfCases,nodesOfCases,List.flatMap_append,List.flatMap_append,nodes_of_option,first,ih fun d member => each d (by simp [member])]

theorem nodes_of_roots (s : Stmt) : (rootsOfStmt s).flatMap (Node.nodes enter) = nodesOfStmt enter s := by
  induction s using Stmt.induct with
  | letNone id m => rfl
  | letSome id m e => exact List.append_nil _
  | expr e => exact List.append_nil _
  | throwStmt e => exact List.append_nil _
  | returnStmt value => exact nodes_of_option value
  | ifStmt c t e iht ihe =>
    rw [rootsOfStmt,nodesOfStmt,rootsOfBlock_eq,nodesOfBlock_eq,List.flatMap_cons,List.flatMap_append,nodes_of_list iht,
      nodes_of_list ihe,List.append_assoc]
    rfl
  | whileStmt c b ih =>
    rw [rootsOfStmt,nodesOfStmt,List.flatMap_cons,nodes_of_list ih]
    rfl
  | doWhile b c ih =>
    rw [rootsOfStmt,nodesOfStmt,List.flatMap_cons,nodes_of_list ih]
    rfl
  | forStmt i c u b ihi ihb =>
    have start : (rootsOfInit i).flatMap (Node.nodes enter) = nodesOfInit enter i := by
      cases i with
      | none => rfl
      | some s => exact ihi s rfl
    rw [rootsOfStmt,nodesOfStmt,List.flatMap_append,List.flatMap_append,start,List.map_append,List.flatMap_append,
      nodes_of_option,nodes_of_option,nodes_of_list ihb,← List.append_assoc]
  | labeled l b ih => exact ih
  | tryStmt b h f ihb ihh ihf =>
    have handler : (rootsOfCatch h).flatMap (Node.nodes enter) = nodesOfCatch enter h := by
      rcases h with _ | ⟨param,body⟩
      · rfl
      · have caught : (rootsOfStmts body).flatMap (Node.nodes enter) = nodesOfStmts enter body := nodes_of_list (ihh (.mk param body) rfl)
        rw [rootsOfCatch,nodesOfCatch,List.flatMap_append,caught]
        cases param with
        | none => rfl
        | some id => rfl
    have final : (rootsOfBlock f).flatMap (Node.nodes enter) = nodesOfBlock enter f := by
      cases f with
      | none => rfl
      | some body => exact nodes_of_list (ihf _ rfl)
    rw [rootsOfStmt,nodesOfStmt,List.flatMap_append,List.flatMap_append,nodes_of_list ihb,handler,final]
  | switch d cases ih =>
    rw [rootsOfStmt,nodesOfStmt,List.flatMap_cons,nodes_of_cases ih]
    rfl
  | _ => rfl

theorem nodesOfStmts_roots (ss : List Stmt) : (rootsOfStmts ss).flatMap (Node.nodes enter) = nodesOfStmts enter ss :=
  nodes_of_list fun s _ => nodes_of_roots s

/-- A node below a statement is below one of its roots, which lie wholly inside. -/
theorem mem_nodesOfStmts {ss : List Stmt} {v : Node} (member : v ∈ nodesOfStmts false ss) :
    ∃ root : Node,v ∈ root.nodes false ∧ root.nodes false ⊆ nodesOfStmts false ss ∧ root.nodes true ⊆ nodesOfStmts true ss := by
  rw [← nodesOfStmts_roots] at member
  obtain ⟨root,stands,below⟩ := List.mem_flatMap.mp member
  refine ⟨root,below,?_,?_⟩
  · rw [← nodesOfStmts_roots]
    exact fun u inside => List.mem_flatMap.mpr ⟨root,stands,inside⟩
  · rw [← nodesOfStmts_roots]
    exact fun u inside => List.mem_flatMap.mpr ⟨root,stands,inside⟩

theorem list_below {c : Expr} {es : List Expr} (each : ∀ e ∈ es,.expr c ∈ nodesOfExpr false e → nodesOfExpr true c ⊆ nodesOfExpr true e)
    (member : .expr c ∈ nodesOfList false es) : nodesOfExpr true c ⊆ nodesOfList true es := by
  induction es with
  | nil => cases member
  | cons e es ih =>
    simp only [nodesOfList,List.mem_append] at member ⊢
    rcases member with first | rest
    · exact List.subset_append_of_subset_left _ (each e (by simp) first)
    · exact List.subset_append_of_subset_right _ (ih (fun a inside => each a (by simp [inside])) rest)

/-- What is below a node that a walk outside closures meets is below the whole. -/
theorem nodesOfExpr_below {c e : Expr} (member : .expr c ∈ nodesOfExpr false e) : nodesOfExpr true c ⊆ nodesOfExpr true e := by
  have own {e : Expr} (same : Node.expr c = .expr e) : nodesOfExpr true c ⊆ nodesOfExpr true e := by
    cases same
    exact List.Subset.refl _
  induction e using Expr.induct with
  | lit l => exact own (List.mem_singleton.mp member)
  | localGet id => exact own (List.mem_singleton.mp member)
  | update id op pre => exact own (List.mem_singleton.mp member)
  | localSet id value ih =>
    simp only [nodesOfExpr,List.mem_cons] at member
    exact member.elim own fun inside => List.subset_cons_of_subset _ (ih inside)
  | strict op args ih =>
    simp only [nodesOfExpr,List.mem_cons] at member
    exact member.elim own fun inside => List.subset_cons_of_subset _ (list_below ih inside)
  | logical op left right ihl ihr =>
    simp only [nodesOfExpr,List.mem_cons,List.mem_append] at member
    rcases member with same | first | second
    · exact own same
    · exact List.subset_cons_of_subset _ (List.subset_append_of_subset_left _ (ihl first))
    · exact List.subset_cons_of_subset _ (List.subset_append_of_subset_right _ (ihr second))
  | conditional c t e ihc iht ihe =>
    simp only [nodesOfExpr,List.mem_cons,List.mem_append] at member
    rcases member with same | (first | second) | third
    · exact own same
    · exact List.subset_cons_of_subset _ (List.subset_append_of_subset_left _ (List.subset_append_of_subset_left _ (ihc first)))
    · exact List.subset_cons_of_subset _ (List.subset_append_of_subset_left _ (List.subset_append_of_subset_right _ (iht second)))
    · exact List.subset_cons_of_subset _ (List.subset_append_of_subset_right _ (ihe third))
  | sequence items ih =>
    simp only [nodesOfExpr,List.mem_cons] at member
    exact member.elim own fun inside => List.subset_cons_of_subset _ (list_below ih inside)
  | arrayMut kind id args ih =>
    simp only [nodesOfExpr,List.mem_cons] at member
    exact member.elim own fun inside => List.subset_cons_of_subset _ (list_below ih inside)
  | withSet object property value fallback strict iho ihv =>
    simp only [nodesOfExpr,List.mem_cons,List.mem_append] at member
    rcases member with same | first | second
    · exact own same
    · exact List.subset_cons_of_subset _ (List.subset_append_of_subset_left _ (iho first))
    · exact List.subset_cons_of_subset _ (List.subset_append_of_subset_right _ (ihv second))
  | closure funcId params defaults captures mutableCaptures flags body ih =>
    simp only [nodesOfExpr,List.mem_cons,Bool.false_eq_true,if_false,List.nil_append] at member
    exact member.elim own fun inside =>
      List.subset_cons_of_subset _ (List.subset_append_of_subset_right _ (list_below ih inside))
  | await operand ih =>
    simp only [nodesOfExpr,List.mem_cons] at member
    exact member.elim own fun inside => List.subset_cons_of_subset _ (ih inside)
  | yieldNone delegate => exact own (List.mem_singleton.mp member)
  | yieldSome value delegate ih =>
    simp only [nodesOfExpr,nodesOfOption,List.mem_cons] at member
    exact member.elim own fun inside => List.subset_cons_of_subset _ (ih inside)

end roots

end Perry.Hir
