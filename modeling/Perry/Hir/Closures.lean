import Perry.Hir.Roots

/-! The closures that running code builds run too. What they hold stands inside the code that was
there at the start. -/
namespace Perry.Hir

/-- The parameters that a closure binds. -/
def Node.params : Node → List LocalId
  | .expr (.closure _ params _ _ _ _ _) => params
  | _ => []

/-- The nodes of a closure's body. -/
def Node.inner : Node → List Node
  | .expr (.closure _ _ _ _ _ _ body) => nodesOfStmts true body
  | _ => []

/-- The nodes of the code's parameter defaults and body. -/
def Code.nodes (enter : Bool) (code : Code) : List Node :=
  (code.params.flatMap fun p => nodesOfOption enter p.default) ++ nodesOfStmts enter code.body

/-- Code that runs: some is there at the start, and every closure that running code builds follows. -/
inductive Enters (starts : List Code) : Code → Prop where
  | start (code : Code) (member : code ∈ starts) : Enters starts code
  | closure (code : Code) (funcId : FuncId) (params : List Param) (defaults : List Expr) (captures mutableCaptures : List LocalId)
      (flags : ClosureFlags) (body : List Stmt) (entered : Enters starts code)
      (inside : .expr (.closure funcId (params.map (·.id)) defaults captures mutableCaptures flags body) ∈ code.nodes false)
      (aligned : params.filterMap (·.default) = defaults) : Enters starts ⟨params,body⟩

section inside

theorem nodes_below {c : Expr} {root : Node} (member : .expr c ∈ root.nodes false) : nodesOfExpr true c ⊆ root.nodes true := by
  have option {e : Option Expr} (member : .expr c ∈ nodesOfOption false e) : nodesOfExpr true c ⊆ nodesOfOption true e := by
    cases e with
    | none => cases member
    | some e => exact nodesOfExpr_below member
  cases root with
  | bind id init =>
    rcases List.mem_cons.mp member with same | inside
    · cases same
    · exact List.subset_cons_of_subset _ (option inside)
  | caught id => cases List.mem_singleton.mp member
  | expr e => exact nodesOfExpr_below member

theorem mem_nodesOfList {e : Expr} {es : List Expr} (member : e ∈ es) : nodesOfExpr true e ⊆ nodesOfList true es := by
  induction es with
  | nil => cases member
  | cons a es ih =>
    rcases List.mem_cons.mp member with rfl | rest
    · exact List.subset_append_left ..
    · exact List.subset_append_of_subset_right _ (ih rest)

theorem Code.below {code : Code} {c : Expr} (member : .expr c ∈ code.nodes false) : nodesOfExpr true c ⊆ code.nodes true := by
  rcases List.mem_append.mp member with default | body
  · obtain ⟨p,held,inside⟩ := List.mem_flatMap.mp default
    refine List.Subset.trans ?_ fun v below => List.mem_append_left _ (List.mem_flatMap.mpr ⟨p,held,below⟩)
    cases given : p.default with
    | none =>
      rw [given] at inside
      cases inside
    | some e =>
      rw [given] at inside
      exact nodesOfExpr_below inside
  · obtain ⟨root,stands,_,below⟩ := mem_nodesOfStmts body
    exact List.subset_append_of_subset_right _ (List.Subset.trans (nodes_below stands) below)

/-- Code that lies inside other code. -/
structure Code.Inside (code outer : Code) : Prop where
  nodes : code.nodes true ⊆ outer.nodes true
  params : ∀ p ∈ code.params,p.id ∈ outer.params.map (·.id) ++ (outer.nodes true).flatMap Node.params

theorem Enters.inside {starts : List Code} {code : Code} (entered : Enters starts code) : ∃ outer ∈ starts,code.Inside outer := by
  induction entered with
  | start code member =>
    exact ⟨code,member,List.Subset.refl _,fun p held => List.mem_append_left _ (List.mem_map_of_mem held)⟩
  | closure code funcId params defaults captures mutableCaptures flags body _ inside aligned ih =>
    obtain ⟨outer,member,within⟩ := ih
    have below := List.Subset.trans (Code.below inside) within.nodes
    simp only [nodesOfExpr,if_true] at below
    obtain ⟨node,rest⟩ := List.cons_subset.mp below
    obtain ⟨bodies,defaulted⟩ := List.append_subset.mp rest
    refine ⟨outer,member,List.append_subset.mpr ⟨fun v default => ?_,bodies⟩,fun p held => ?_⟩
    · obtain ⟨p,held,stands⟩ := List.mem_flatMap.mp default
      cases given : p.default with
      | none =>
        rw [given] at stands
        cases stands
      | some d =>
        rw [given] at stands
        have listed : d ∈ defaults := aligned ▸ List.mem_filterMap.mpr ⟨p,held,given⟩
        exact defaulted (mem_nodesOfList listed stands)
    · exact List.mem_append_right _ (List.mem_flatMap.mpr ⟨_,node,List.mem_map_of_mem held⟩)

end inside

section opening

/-- The node is among the nodes, or in the body of a closure among them. -/
def Opens (nodes : List Node) (v : Node) : Prop := v ∈ nodes ∨ ∃ c ∈ nodes,v ∈ c.inner

variable {v : Node}

theorem Opens.mono {nodes more : List Node} (subset : nodes ⊆ more) (opens : Opens nodes v) : Opens more v :=
  opens.imp (fun member => subset member) fun ⟨c,member,inside⟩ => ⟨c,subset member,inside⟩

theorem opens_list {es : List Expr} (each : ∀ e ∈ es,v ∈ nodesOfExpr true e → Opens (nodesOfExpr false e) v)
    (member : v ∈ nodesOfList true es) : Opens (nodesOfList false es) v := by
  induction es with
  | nil => cases member
  | cons e es ih =>
    rcases List.mem_append.mp member with first | rest
    · exact (each e (by simp) first).mono (List.subset_append_left ..)
    · exact (ih (fun a inside => each a (by simp [inside])) rest).mono (List.subset_append_right ..)

/-- A walk that enters closures meets what a walk outside them meets, and what is inside them. -/
theorem opens_expr (e : Expr) (member : v ∈ nodesOfExpr true e) : Opens (nodesOfExpr false e) v := by
  have cons {e : Expr} {below above : List Node} (rest : v ∈ above → Opens below v) (member : v ∈ .expr e :: above) :
      Opens (.expr e :: below) v := by
    rcases List.mem_cons.mp member with rfl | inside
    · exact .inl (List.mem_cons_self ..)
    · exact (rest inside).mono (List.subset_cons_self ..)
  have append {a b c d : List Node} (left : v ∈ a → Opens c v) (right : v ∈ b → Opens d v) (member : v ∈ a ++ b) :
      Opens (c ++ d) v := by
    rcases List.mem_append.mp member with first | second
    · exact (left first).mono (List.subset_append_left ..)
    · exact (right second).mono (List.subset_append_right ..)
  induction e using Expr.induct with
  | lit l => exact .inl member
  | localGet id => exact .inl member
  | update id op pre => exact .inl member
  | localSet id value ih => exact cons ih member
  | strict op args ih => exact cons (opens_list ih) member
  | logical op left right ihl ihr => exact cons (append ihl ihr) member
  | conditional c t e ihc iht ihe => exact cons (append (append ihc iht) ihe) member
  | sequence items ih => exact cons (opens_list ih) member
  | arrayMut kind id args ih => exact cons (opens_list ih) member
  | withSet object property value fallback strict iho ihv => exact cons (append iho ihv) member
  | closure funcId params defaults captures mutableCaptures flags body ih =>
    simp only [nodesOfExpr,if_true,List.mem_cons,List.mem_append] at member
    simp only [nodesOfExpr,Bool.false_eq_true,if_false,List.nil_append]
    rcases member with rfl | inside | default
    · exact .inl (List.mem_cons_self ..)
    · exact .inr ⟨_,List.mem_cons_self ..,inside⟩
    · exact (opens_list ih default).mono (List.subset_cons_self ..)
  | await operand ih => exact cons ih member
  | yieldNone delegate => exact .inl member
  | yieldSome value delegate ih => exact cons ih member

theorem opens_stmts {ss : List Stmt} (member : v ∈ nodesOfStmts true ss) : Opens (nodesOfStmts false ss) v := by
  rw [← nodesOfStmts_roots] at member ⊢
  obtain ⟨root,stands,below⟩ := List.mem_flatMap.mp member
  refine Opens.mono (fun u inside => List.mem_flatMap.mpr ⟨root,stands,inside⟩) ?_
  cases root with
  | bind id init =>
    rcases List.mem_cons.mp below with rfl | inside
    · exact .inl (List.mem_cons_self ..)
    · cases init with
      | none => cases inside
      | some e => exact (opens_expr e inside).mono (List.subset_cons_self ..)
  | caught id => exact .inl below
  | expr e => exact opens_expr e below

end opening

end Perry.Hir
