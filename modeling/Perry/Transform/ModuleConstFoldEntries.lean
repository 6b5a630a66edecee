import Mathlib.Data.List.Nodup
import Perry.Hir.Linking
import Perry.Transform.ModuleConstFold

/-! What of a module can be entered, and which constants are folded where; the entries of the folded module. -/
namespace Perry.Transform.ModuleConstFold
open Perry.Hir

section closures

variable (visible : Visible)

def foldClosure (c : ClosureCode) : ClosureCode :=
  ⟨c.funcId,c.params,foldList visible c.defaults,unfolded visible c.captures,foldStmts visible c.body⟩

variable {visible} {vs ws vs' ws' : List Node}

theorem refolded_cons {v w : Node} (plain : v.closure? = none) (plain' : w.closure? = none)
    (below : ws.filterMap Node.closure? = (vs.filterMap Node.closure?).map (foldClosure visible)) :
    (w :: ws).filterMap Node.closure? = ((v :: vs).filterMap Node.closure?).map (foldClosure visible) := by
  rw [List.filterMap_cons_none plain,List.filterMap_cons_none plain',below]

theorem refolded_append (first : ws.filterMap Node.closure? = (vs.filterMap Node.closure?).map (foldClosure visible))
    (second : ws'.filterMap Node.closure? = (vs'.filterMap Node.closure?).map (foldClosure visible)) :
    (ws ++ ws').filterMap Node.closure? = ((vs ++ vs').filterMap Node.closure?).map (foldClosure visible) := by
  rw [List.filterMap_append,List.filterMap_append,List.map_append,first,second]

variable (visible)

mutual

theorem closures_foldExpr : ∀ e : Expr,
    (nodesOfExpr true (foldExpr visible e)).filterMap Node.closure? =
      ((nodesOfExpr true e).filterMap Node.closure?).map (foldClosure visible)
  | .lit _ | .update .. => rfl
  | .localGet id => by
    rw [foldExpr]
    split <;> rfl
  | .localSet id value => by
    rw [foldExpr,nodesOfExpr,nodesOfExpr]
    exact refolded_cons rfl rfl (closures_foldExpr value)
  | .strict op args => by
    rw [foldExpr,nodesOfExpr,nodesOfExpr]
    exact refolded_cons rfl rfl (closures_foldList args)
  | .logical op left right => by
    rw [foldExpr,nodesOfExpr,nodesOfExpr]
    exact refolded_cons rfl rfl (refolded_append (closures_foldExpr left) (closures_foldExpr right))
  | .conditional c t e => by
    rw [foldExpr,nodesOfExpr,nodesOfExpr]
    exact refolded_cons rfl rfl
      (refolded_append (refolded_append (closures_foldExpr c) (closures_foldExpr t)) (closures_foldExpr e))
  | .sequence items => by
    rw [foldExpr,nodesOfExpr,nodesOfExpr]
    exact refolded_cons rfl rfl (closures_foldList items)
  | .arrayMut kind id args => by
    rw [foldExpr,nodesOfExpr,nodesOfExpr]
    exact refolded_cons rfl rfl (closures_foldList args)
  | .withSet object property value fallback strict => by
    rw [foldExpr,nodesOfExpr,nodesOfExpr]
    exact refolded_cons rfl rfl (refolded_append (closures_foldExpr object) (closures_foldExpr value))
  | .closure funcId params defaults captures mutableCaptures flags body => by
    rw [foldExpr,nodesOfExpr,nodesOfExpr,if_pos rfl,if_pos rfl]
    simp only [List.filterMap_cons,Node.closure?,List.filterMap_append,List.map_cons,List.map_append,closures_foldStmts body,
      closures_foldList defaults]
    rfl
  | .await operand => by
    rw [foldExpr,nodesOfExpr,nodesOfExpr]
    exact refolded_cons rfl rfl (closures_foldExpr operand)
  | .yield value delegate => by
    rw [foldExpr,nodesOfExpr,nodesOfExpr]
    exact refolded_cons rfl rfl (closures_foldOption value)
termination_by structural e => e

theorem closures_foldList : ∀ es : List Expr,
    (nodesOfList true (foldList visible es)).filterMap Node.closure? =
      ((nodesOfList true es).filterMap Node.closure?).map (foldClosure visible)
  | [] => rfl
  | e :: es => by
    rw [foldList,nodesOfList,nodesOfList]
    exact refolded_append (closures_foldExpr e) (closures_foldList es)
termination_by structural es => es

theorem closures_foldOption : ∀ e : Option Expr,
    (nodesOfOption true (foldOption visible e)).filterMap Node.closure? =
      ((nodesOfOption true e).filterMap Node.closure?).map (foldClosure visible)
  | none => rfl
  | some e => by rw [foldOption,nodesOfOption,nodesOfOption,closures_foldExpr e]
termination_by structural e => e

theorem closures_foldStmt : ∀ s : Stmt,
    (nodesOfStmt true (foldStmt visible s)).filterMap Node.closure? =
      ((nodesOfStmt true s).filterMap Node.closure?).map (foldClosure visible)
  | .let id isMutable init => by
    rw [foldStmt,nodesOfStmt,nodesOfStmt]
    exact refolded_cons rfl rfl (closures_foldOption init)
  | .expr e => closures_foldExpr e
  | .return value => closures_foldOption value
  | .if c t e => by
    rw [foldStmt,nodesOfStmt,nodesOfStmt]
    exact refolded_append (refolded_append (closures_foldExpr c) (closures_foldStmts t)) (closures_foldBlock e)
  | .while c b => by
    rw [foldStmt,nodesOfStmt,nodesOfStmt]
    exact refolded_append (closures_foldExpr c) (closures_foldStmts b)
  | .doWhile b c => by
    rw [foldStmt,nodesOfStmt,nodesOfStmt]
    exact refolded_append (closures_foldExpr c) (closures_foldStmts b)
  | .for i c u b => by
    rw [foldStmt,nodesOfStmt,nodesOfStmt]
    simp only [List.filterMap_append,List.map_append,closures_foldInit i,closures_foldOption c,closures_foldOption u,closures_foldStmts b]
  | .labeled l s => closures_foldStmt s
  | .throw e => closures_foldExpr e
  | .try b h f => by
    rw [foldStmt,nodesOfStmt,nodesOfStmt]
    exact refolded_append (refolded_append (closures_foldStmts b) (closures_foldCatch h)) (closures_foldBlock f)
  | .switch d cases => by
    rw [foldStmt,nodesOfStmt,nodesOfStmt]
    exact refolded_append (closures_foldExpr d) (closures_foldCases cases)
  | .break | .continue | .labeledBreak _ | .labeledContinue _ => rfl
  | .preallocateBoxes _ | .preallocateTdzBoxes _ | .releaseBoxes _ => rfl
termination_by structural s => s

theorem closures_foldStmts : ∀ ss : List Stmt,
    (nodesOfStmts true (foldStmts visible ss)).filterMap Node.closure? =
      ((nodesOfStmts true ss).filterMap Node.closure?).map (foldClosure visible)
  | [] => rfl
  | s :: ss => by
    rw [foldStmts,nodesOfStmts,nodesOfStmts]
    exact refolded_append (closures_foldStmt s) (closures_foldStmts ss)
termination_by structural ss => ss

theorem closures_foldInit : ∀ i : Option Stmt,
    (nodesOfInit true (foldInit visible i)).filterMap Node.closure? =
      ((nodesOfInit true i).filterMap Node.closure?).map (foldClosure visible)
  | none => rfl
  | some s => closures_foldStmt s
termination_by structural i => i

theorem closures_foldCatch : ∀ h : Option CatchClause,
    (nodesOfCatch true (foldCatch visible h)).filterMap Node.closure? =
      ((nodesOfCatch true h).filterMap Node.closure?).map (foldClosure visible)
  | none => rfl
  | some (.mk param body) => by
    have caught : (param.toList.map Node.caught).filterMap Node.closure? = [] := by cases param <;> rfl
    rw [foldCatch,nodesOfCatch,nodesOfCatch,List.filterMap_append,List.filterMap_append,caught,closures_foldStmts body]
    rfl
termination_by structural h => h

theorem closures_foldBlock : ∀ f : Option (List Stmt),
    (nodesOfBlock true (foldBlock visible f)).filterMap Node.closure? =
      ((nodesOfBlock true f).filterMap Node.closure?).map (foldClosure visible)
  | none => rfl
  | some body => closures_foldStmts body
termination_by structural f => f

theorem closures_foldCases : ∀ cases : List SwitchCase,
    (nodesOfCases true (foldCases visible cases)).filterMap Node.closure? =
      ((nodesOfCases true cases).filterMap Node.closure?).map (foldClosure visible)
  | [] => rfl
  | .mk test body :: cases => by
    rw [foldCases,nodesOfCases,nodesOfCases]
    exact refolded_append (refolded_append (closures_foldOption test) (closures_foldStmts body)) (closures_foldCases cases)
termination_by structural cases => cases

end

end closures

section nesting

/-- What is below a closure among the nodes is among them. -/
def Nested (nodes : List Node) : Prop :=
  ∀ v ∈ nodes,∀ c,v.closure? = some c → ∀ u ∈ nodesOfStmts true c.body ++ nodesOfList true c.defaults,u ∈ nodes

theorem Nested.nil : Nested [] := fun _ none => nomatch none

theorem Nested.append {ns ms : List Node} (first : Nested ns) (second : Nested ms) : Nested (ns ++ ms) := by
  intro v member c made u below
  rcases List.mem_append.mp member with left | right
  · exact List.mem_append_left _ (first v left c made u below)
  · exact List.mem_append_right _ (second v right c made u below)

theorem Nested.cons {v : Node} {ns : List Node} (other : v.closure? = none) (rest : Nested ns) : Nested (v :: ns) := by
  intro w member c made u below
  rcases List.mem_cons.mp member with rfl | later
  · rw [other] at made
    cases made
  · exact List.mem_cons_of_mem v (rest w later c made u below)

mutual

theorem nested_nodesOfExpr : ∀ e : Expr,Nested (nodesOfExpr true e)
  | .lit _ | .localGet _ | .update .. => .cons rfl .nil
  | .localSet _ value => .cons rfl (nested_nodesOfExpr value)
  | .strict _ args => .cons rfl (nested_nodesOfList args)
  | .logical _ left right => .cons rfl ((nested_nodesOfExpr left).append (nested_nodesOfExpr right))
  | .conditional c t e => .cons rfl (((nested_nodesOfExpr c).append (nested_nodesOfExpr t)).append (nested_nodesOfExpr e))
  | .sequence items => .cons rfl (nested_nodesOfList items)
  | .arrayMut _ _ args => .cons rfl (nested_nodesOfList args)
  | .withSet object _ value _ _ => .cons rfl ((nested_nodesOfExpr object).append (nested_nodesOfExpr value))
  | .closure _ _ defaults _ _ _ body => by
    intro v member c made u below
    rcases List.mem_cons.mp member with rfl | inside
    · cases made
      exact List.mem_cons_of_mem _ below
    · exact List.mem_cons_of_mem _ ((nested_nodesOfStmts body).append (nested_nodesOfList defaults) v inside c made u below)
  | .await operand => .cons rfl (nested_nodesOfExpr operand)
  | .yield value _ => .cons rfl (nested_nodesOfOption value)
termination_by structural e => e

theorem nested_nodesOfList : ∀ es : List Expr,Nested (nodesOfList true es)
  | [] => .nil
  | e :: es => (nested_nodesOfExpr e).append (nested_nodesOfList es)
termination_by structural es => es

theorem nested_nodesOfOption : ∀ e : Option Expr,Nested (nodesOfOption true e)
  | none => .nil
  | some e => nested_nodesOfExpr e
termination_by structural e => e

theorem nested_nodesOfStmt : ∀ s : Stmt,Nested (nodesOfStmt true s)
  | .let _ _ init => .cons rfl (nested_nodesOfOption init)
  | .expr e | .throw e => nested_nodesOfExpr e
  | .return value => nested_nodesOfOption value
  | .if c t e => ((nested_nodesOfExpr c).append (nested_nodesOfStmts t)).append (nested_nodesOfBlock e)
  | .while c b | .doWhile b c => (nested_nodesOfExpr c).append (nested_nodesOfStmts b)
  | .for i c u b =>
    (((nested_nodesOfInit i).append (nested_nodesOfOption c)).append (nested_nodesOfOption u)).append (nested_nodesOfStmts b)
  | .labeled _ s => nested_nodesOfStmt s
  | .try b h f => ((nested_nodesOfStmts b).append (nested_nodesOfCatch h)).append (nested_nodesOfBlock f)
  | .switch d cases => (nested_nodesOfExpr d).append (nested_nodesOfCases cases)
  | .break | .continue | .labeledBreak _ | .labeledContinue _ => .nil
  | .preallocateBoxes _ | .preallocateTdzBoxes _ | .releaseBoxes _ => .nil
termination_by structural s => s

theorem nested_nodesOfStmts : ∀ ss : List Stmt,Nested (nodesOfStmts true ss)
  | [] => .nil
  | s :: ss => (nested_nodesOfStmt s).append (nested_nodesOfStmts ss)
termination_by structural ss => ss

theorem nested_nodesOfInit : ∀ i : Option Stmt,Nested (nodesOfInit true i)
  | none => .nil
  | some s => nested_nodesOfStmt s
termination_by structural i => i

theorem nested_nodesOfCatch : ∀ h : Option CatchClause,Nested (nodesOfCatch true h)
  | none => .nil
  | some (.mk param body) => by
    have caught : Nested (param.toList.map .caught) := by
      cases param with
      | none => exact .nil
      | some id => exact .cons rfl .nil
    exact caught.append (nested_nodesOfStmts body)
termination_by structural h => h

theorem nested_nodesOfBlock : ∀ f : Option (List Stmt),Nested (nodesOfBlock true f)
  | none => .nil
  | some body => nested_nodesOfStmts body
termination_by structural f => f

theorem nested_nodesOfCases : ∀ cases : List SwitchCase,Nested (nodesOfCases true cases)
  | [] => .nil
  | .mk test body :: cases => ((nested_nodesOfOption test).append (nested_nodesOfStmts body)).append (nested_nodesOfCases cases)
termination_by structural cases => cases

end

end nesting

section pieces

/-- An entry, and the constants whose reads are folded in its parts. -/
structure Piece where
  params : List Param
  defaults : Visible
  body : List (Stmt × Visible)

def watching (visible : Visible) : Watch := fun id => (visible id).map Lit.val

def Piece.entry (p : Piece) : Entry := ⟨p.params,watching p.defaults,p.body.map fun part => (part.1,watching part.2)⟩

def foldParam (visible : Visible) (p : Param) : Param := { p with default := foldOption visible p.default }

def Piece.fold (p : Piece) : Piece :=
  { p with
    params := p.params.map (foldParam p.defaults)
    body := p.body.map fun part => (foldStmt part.2 part.1,part.2) }

/-- The closures made in an entry, and the constants whose reads are folded in them. -/
def Piece.closures (p : Piece) : List (ClosureCode × Visible) :=
  ((closuresOfExprs (p.params.filterMap (·.default))).map fun c => (c,p.defaults)) ++
    p.body.flatMap fun part => (closuresOf [part.1]).map fun c => (c,part.2)

def nothing : Visible := fun _ => none

def initPiece (consts : Constants) (init : List Stmt) : Piece :=
  ⟨[],nothing,init.mapIdx fun index s => (s,declaredBefore consts index)⟩

/-- The defaults of a function's parameters are left alone. -/
def functionPiece (consts : Constants) (f : Function) : Piece := ⟨f.params,nothing,f.body.map fun s => (s,everywhere consts)⟩

def exprPiece (e : Expr) : Piece := ⟨[],nothing,[(.expr e,nothing)]⟩

def closurePiece (shapes : FuncId → List ParamShape) (made : ClosureCode × Visible) : Piece :=
  ⟨shapeParams made.1.params (shapes made.1.funcId) made.1.defaults,made.2,made.1.body.map fun s => (s,made.2)⟩

def roots (consts : Constants) (m : Module) : List Piece :=
  initPiece consts m.init :: ((eachFunction m).map (functionPiece consts) ++ (m.classes.flatMap Class.exprs).map exprPiece)

def madeClosures (consts : Constants) (m : Module) : List (ClosureCode × Visible) := (roots consts m).flatMap Piece.closures

/-- What can be entered: `init`, the functions, the expressions of the classes and every closure. -/
def pieces (shapes : FuncId → List ParamShape) (consts : Constants) (m : Module) : List Piece :=
  roots consts m ++ (madeClosures consts m).map (closurePiece shapes)

end pieces

section membership

theorem mem_nodesOfList {enter : Bool} {v : Node} {es : List Expr} : v ∈ nodesOfList enter es ↔ ∃ e ∈ es,v ∈ nodesOfExpr enter e := by
  induction es with
  | nil => simp [nodesOfList]
  | cons e es ih => simp [nodesOfList,ih]

theorem mem_nodesOfStmts {enter : Bool} {v : Node} {ss : List Stmt} : v ∈ nodesOfStmts enter ss ↔ ∃ s ∈ ss,v ∈ nodesOfStmt enter s := by
  induction ss with
  | nil => simp [nodesOfStmts]
  | cons s ss ih => simp [nodesOfStmts,ih]

theorem mem_closuresOf {c : ClosureCode} {ss : List Stmt} : c ∈ closuresOf ss ↔ ∃ v ∈ nodesOfStmts true ss,v.closure? = some c :=
  List.mem_filterMap

theorem mem_closuresOfExprs {c : ClosureCode} {es : List Expr} :
    c ∈ closuresOfExprs es ↔ ∃ v ∈ nodesOfList true es,v.closure? = some c := List.mem_filterMap

theorem mem_shapeParams {ids : List LocalId} {shapes : List ParamShape} {defaults : List Expr} {p : Param}
    (member : p ∈ shapeParams ids shapes defaults) : p.id ∈ ids ∧ ∀ e,p.default = some e → e ∈ defaults := by
  induction ids generalizing shapes defaults with
  | nil => cases member
  | cons id ids ih =>
    cases shapes with
    | nil =>
      rcases List.mem_cons.mp member with rfl | later
      · exact ⟨List.mem_cons_self ..,nofun⟩
      · exact (ih later).imp_left (List.mem_cons_of_mem id)
    | cons shape shapes =>
      rw [shapeParams] at member
      split at member
      · rcases List.mem_cons.mp member with rfl | later
        · exact ⟨List.mem_cons_self ..,fun e first => List.mem_of_mem_head? first⟩
        · exact ⟨List.mem_cons_of_mem id (ih later).1,fun e given => List.mem_of_mem_tail ((ih later).2 e given)⟩
      · rcases List.mem_cons.mp member with rfl | later
        · exact ⟨List.mem_cons_self ..,nofun⟩
        · exact (ih later).imp_left (List.mem_cons_of_mem id)

variable {p : Piece} {c : ClosureCode} {v : Node}

theorem closures_of_body {part : Stmt × Visible} (member : part ∈ p.body) (node : v ∈ nodesOfStmt true part.1) (made : v.closure? = some c) :
    (c,part.2) ∈ p.closures := by
  apply List.mem_append_right
  refine List.mem_flatMap.mpr ⟨part,member,List.mem_map.mpr ⟨c,?_,rfl⟩⟩
  exact mem_closuresOf.mpr ⟨v,mem_nodesOfStmts.mpr ⟨part.1,List.mem_singleton_self _,node⟩,made⟩

theorem closures_of_default {q : Param} {e : Expr} (member : q ∈ p.params) (default : q.default = some e) (node : v ∈ nodesOfExpr true e)
    (made : v.closure? = some c) : (c,p.defaults) ∈ p.closures := by
  apply List.mem_append_left
  refine List.mem_map.mpr ⟨c,mem_closuresOfExprs.mpr ⟨v,mem_nodesOfList.mpr ⟨e,?_,node⟩,made⟩,rfl⟩
  exact List.mem_filterMap.mpr ⟨q,member,default⟩

/-- A closure in a closure of the entry is one of the entry. -/
theorem closures_below {visible : Visible} (member : (c,visible) ∈ p.closures) {c' : ClosureCode}
    (node : v ∈ nodesOfStmts true c.body ++ nodesOfList true c.defaults) (made : v.closure? = some c') : (c',visible) ∈ p.closures := by
  rcases List.mem_append.mp member with default | body
  · obtain ⟨d,found,same⟩ := List.mem_map.mp default
    obtain ⟨rfl,rfl⟩ := Prod.mk.inj same
    obtain ⟨u,inside,kind⟩ := mem_closuresOfExprs.mp found
    apply List.mem_append_left
    refine List.mem_map.mpr ⟨c',mem_closuresOfExprs.mpr ⟨v,?_,made⟩,rfl⟩
    exact nested_nodesOfList _ u inside d kind v node
  · obtain ⟨part,inPart,found⟩ := List.mem_flatMap.mp body
    obtain ⟨d,known,same⟩ := List.mem_map.mp found
    obtain ⟨rfl,rfl⟩ := Prod.mk.inj same
    obtain ⟨u,inside,kind⟩ := mem_closuresOf.mp known
    apply List.mem_append_right
    refine List.mem_flatMap.mpr ⟨part,inPart,List.mem_map.mpr ⟨c',mem_closuresOf.mpr ⟨v,?_,made⟩,rfl⟩⟩
    exact nested_nodesOfStmts _ u inside d kind v node

theorem closures_closurePiece {shapes : FuncId → List ParamShape} {visible visible' : Visible} (member : (c,visible) ∈ p.closures)
    {c' : ClosureCode} (inside : (c',visible') ∈ (closurePiece shapes (c,visible)).closures) : (c',visible') ∈ p.closures := by
  rcases List.mem_append.mp inside with default | body
  · obtain ⟨d,found,same⟩ := List.mem_map.mp default
    obtain ⟨rfl,rfl⟩ := Prod.mk.inj same
    obtain ⟨u,node,made⟩ := mem_closuresOfExprs.mp found
    obtain ⟨e,given,node⟩ := mem_nodesOfList.mp node
    obtain ⟨q,param,default⟩ := List.mem_filterMap.mp given
    have written := (mem_shapeParams param).2 e default
    exact closures_below member (List.mem_append_right _ (mem_nodesOfList.mpr ⟨e,written,node⟩)) made
  · obtain ⟨part,inPart,found⟩ := List.mem_flatMap.mp body
    obtain ⟨d,known,same⟩ := List.mem_map.mp found
    obtain ⟨rfl,rfl⟩ := Prod.mk.inj same
    obtain ⟨s,inBody,rfl⟩ := List.mem_map.mp inPart
    obtain ⟨u,node,made⟩ := mem_closuresOf.mp known
    obtain ⟨_,single,below⟩ := mem_nodesOfStmts.mp node
    obtain rfl := List.mem_singleton.mp single
    exact closures_below member (List.mem_append_left _ (mem_nodesOfStmts.mpr ⟨_,inBody,below⟩)) made

/-- Every closure that any entry makes is known. -/
theorem closures_pieces {shapes : FuncId → List ParamShape} {consts : Constants} {m : Module} (member : p ∈ pieces shapes consts m)
    {made : ClosureCode × Visible} (inside : made ∈ p.closures) : made ∈ madeClosures consts m := by
  rcases List.mem_append.mp member with root | closure
  · exact List.mem_flatMap.mpr ⟨p,root,inside⟩
  · obtain ⟨⟨c,visible⟩,known,rfl⟩ := List.mem_map.mp closure
    obtain ⟨root,isRoot,found⟩ := List.mem_flatMap.mp known
    exact List.mem_flatMap.mpr ⟨root,isRoot,closures_closurePiece found inside⟩

end membership

section constants

variable {consts : Constants} {m : Module}

/-- What is folded is a constant. -/
def Within (consts : Constants) (visible : Visible) : Prop := ∀ id l,visible id = some l → ∃ c,consts id = some c ∧ c.literal = l

theorem within_nothing : Within consts nothing := fun _ _ none => nomatch none

theorem within_everywhere : Within consts (everywhere consts) := by
  intro id l known
  rw [everywhere,Option.map_eq_some_iff] at known
  exact known

theorem within_declaredBefore (index : Nat) : Within consts (declaredBefore consts index) := by
  intro id l known
  rw [declaredBefore,Option.bind_eq_some_iff] at known
  obtain ⟨c,found,earlier⟩ := known
  split_ifs at earlier
  exact ⟨c,found,Option.some.inj earlier⟩

theorem within_roots {p : Piece} (root : p ∈ roots consts m) : Within consts p.defaults ∧ ∀ part ∈ p.body,Within consts part.2 := by
  rcases List.mem_cons.mp root with rfl | other
  · refine ⟨within_nothing,fun part member => ?_⟩
    obtain ⟨index,-,rfl⟩ := List.mem_mapIdx.mp member
    exact within_declaredBefore index
  · rcases List.mem_append.mp other with function | expr
    · obtain ⟨f,-,rfl⟩ := List.mem_map.mp function
      refine ⟨within_nothing,fun part member => ?_⟩
      obtain ⟨s,-,rfl⟩ := List.mem_map.mp member
      exact within_everywhere
    · obtain ⟨e,-,rfl⟩ := List.mem_map.mp expr
      refine ⟨within_nothing,fun part member => ?_⟩
      rw [List.mem_singleton.mp member]
      exact within_nothing

theorem within_pieces {shapes : FuncId → List ParamShape} {p : Piece} (member : p ∈ pieces shapes consts m) :
    Within consts p.defaults ∧ ∀ part ∈ p.body,Within consts part.2 := by
  rcases List.mem_append.mp member with root | closure
  · exact within_roots root
  · obtain ⟨⟨c,visible⟩,known,rfl⟩ := List.mem_map.mp closure
    obtain ⟨root,isRoot,found⟩ := List.mem_flatMap.mp known
    obtain ⟨defaults,body⟩ := within_roots isRoot
    have within : Within consts visible := by
      rcases List.mem_append.mp found with default | inBody
      · obtain ⟨d,-,same⟩ := List.mem_map.mp default
        rw [← (Prod.mk.inj same).2]
        exact defaults
      · obtain ⟨part,inPart,found⟩ := List.mem_flatMap.mp inBody
        obtain ⟨d,-,same⟩ := List.mem_map.mp found
        rw [← (Prod.mk.inj same).2]
        exact body part inPart
    refine ⟨within,fun part member => ?_⟩
    obtain ⟨s,-,rfl⟩ := List.mem_map.mp member
    exact within

/-- A constant is declared where it is said to be. -/
theorem candidates_declared {start : Nat} {stmts : List Stmt} {known : Constants} {id : LocalId} {c : Constant}
    (found : candidates start stmts known id = some c) :
    known id = some c ∨ ∃ offset,c.index = start + offset ∧ stmts[offset]? = some (.let id false (some (.lit c.literal))) := by
  have later {index : Nat} {s : Stmt} {stmts : List Stmt} {offset : Nat} (place : c.index = index + 1 + offset)
      (there : stmts[offset]? = some (.let id false (some (.lit c.literal)))) :
      ∃ offset,c.index = index + offset ∧ (s :: stmts)[offset]? = some (.let id false (some (.lit c.literal))) :=
    ⟨offset + 1,by omega,there⟩
  fun_induction candidates start stmts known with
  | case1 => exact .inl found
  | case2 index here l stmts known ih =>
    rcases ih found with before | ⟨offset,place,there⟩
    · split_ifs at before
      · by_cases same : id = here
        · subst same
          rw [Function.update_self] at before
          obtain rfl := Option.some.inj before
          exact .inr ⟨0,rfl,rfl⟩
        · rw [Function.update_of_ne same] at before
          exact .inl before
      · exact .inl before
    · exact .inr (later place there)
  | case3 index s stmts known _ ih =>
    rcases ih found with before | ⟨offset,place,there⟩
    · exact .inl before
    · exact .inr (later place there)

end constants

section captures

variable {consts : Constants} {m : Module}

/-- The captures of the closure that has this id. -/
def capturesOf (consts : Constants) (m : Module) (id : FuncId) : List LocalId :=
  match (madeClosures consts m).find? fun made => made.1.funcId = id with
  | some made => made.1.captures
  | none => []

theorem capturesOf_made {made : ClosureCode × Visible} (member : made ∈ madeClosures consts m)
    (agree : ∀ other ∈ madeClosures consts m,other.1.funcId = made.1.funcId → other.1.captures = made.1.captures) :
    capturesOf consts m made.1.funcId = made.1.captures := by
  rw [capturesOf]
  cases found : (madeClosures consts m).find? fun other => other.1.funcId = made.1.funcId with
  | none =>
    have absent := List.find?_eq_none.mp found made member
    simp at absent
  | some other =>
    have same : other.1.funcId = made.1.funcId := by simpa using List.find?_some found
    exact agree other (List.mem_of_find?_eq_some found) same

end captures

section commutation

variable (visible : Visible)

theorem foldList_eq_map (es : List Expr) : foldList visible es = es.map (foldExpr visible) := by
  induction es with
  | nil => rfl
  | cons e es ih => rw [foldList,ih,List.map_cons]

theorem foldStmts_eq_map (ss : List Stmt) : foldStmts visible ss = ss.map (foldStmt visible) := by
  induction ss with
  | nil => rfl
  | cons s ss ih => rw [foldStmts,ih,List.map_cons]

theorem shapeParams_fold (ids : List LocalId) (shapes : List ParamShape) (defaults : List Expr) :
    shapeParams ids shapes (foldList visible defaults) = (shapeParams ids shapes defaults).map (foldParam visible) := by
  induction ids generalizing shapes defaults with
  | nil => rfl
  | cons id ids ih =>
    cases shapes with
    | nil => rw [shapeParams,shapeParams,ih]; rfl
    | cons shape shapes =>
      have tails : (foldList visible defaults).tail = foldList visible defaults.tail := by cases defaults <;> rfl
      have heads : (foldList visible defaults).head? = foldOption visible defaults.head? := by cases defaults <;> rfl
      rw [shapeParams,shapeParams,tails,heads,ih,ih]
      split <;> rfl

theorem functions_foldClass (c : Hir.Class) : (foldClass visible c).functions = c.functions.map (foldFunction visible) := by
  rw [Class.functions,Class.functions,foldClass]
  simp only [List.map_append,List.map_map,Option.toList_map]
  rfl

theorem exprs_foldClass (c : Hir.Class) : (foldClass visible c).exprs = c.exprs := by
  rw [Class.exprs,Class.exprs,foldClass,List.map_map]
  rfl

theorem closures_fold (p : Piece) : p.fold.closures = p.closures.map fun made => (foldClosure made.2 made.1,made.2) := by
  have defaults (ps : List Param) : (ps.map (foldParam p.defaults)).filterMap (·.default) = foldList p.defaults (ps.filterMap (·.default)) := by
    rw [foldList_eq_map,List.filterMap_map,List.map_filterMap]
    congr 1
    funext q
    rcases q with ⟨id,_ | e,isRest,argumentsObject⟩ <;> rfl
  have stmt (visible : Visible) (s : Stmt) : closuresOf [foldStmt visible s] = (closuresOf [s]).map (foldClosure visible) :=
    closures_foldStmts visible [s]
  have exprs (es : List Expr) : closuresOfExprs (foldList p.defaults es) = (closuresOfExprs es).map (foldClosure p.defaults) :=
    closures_foldList p.defaults es
  rw [Piece.closures,Piece.closures,Piece.fold,defaults,exprs,List.map_append,List.flatMap_map,List.map_flatMap]
  simp only [stmt,List.map_map,Function.comp_def]

end commutation

section folded

variable (m : Module)

theorem eachFunction_run : eachFunction (run m) = (eachFunction m).map (foldFunction (everywhere (constants m))) := by
  rw [eachFunction,eachFunction,run,List.map_append,List.flatMap_map,List.map_flatMap]
  simp only [functions_foldClass]

theorem roots_run : roots (constants m) (run m) = (roots (constants m) m).map Piece.fold := by
  have start : initPiece (constants m) (run m).init = (initPiece (constants m) m.init).fold := by
    have body : (run m).init.mapIdx (fun index s => (s,declaredBefore (constants m) index)) =
        (m.init.mapIdx fun index s => (s,declaredBefore (constants m) index)).map fun part => (foldStmt part.2 part.1,part.2) := by
      apply List.ext_getElem?
      intro index
      simp only [run,List.getElem?_mapIdx,List.getElem?_map,Option.map_map]
      rfl
    rw [initPiece,initPiece,Piece.fold,body]
    rfl
  have function (f : Function) :
      functionPiece (constants m) (foldFunction (everywhere (constants m)) f) = (functionPiece (constants m) f).fold := by
    have params : f.params.map (foldParam nothing) = f.params := by
      apply List.map_id''
      intro p
      have same : foldOption nothing p.default = p.default := foldOption_nothing p.default
      rw [foldParam,same]
    rw [functionPiece,functionPiece,Piece.fold,params,foldFunction,foldStmts_eq_map,List.map_map,List.map_map]
    rfl
  have expr (e : Expr) : exprPiece e = (exprPiece e).fold := by
    have same : foldExpr nothing e = e := foldExpr_nothing e
    rw [exprPiece,Piece.fold,List.map_cons,foldStmt,same]
    rfl
  have exprs : (run m).classes.flatMap Class.exprs = m.classes.flatMap Class.exprs := by
    rw [run,List.flatMap_map]
    simp only [exprs_foldClass]
  rw [roots,roots,start,exprs,eachFunction_run,List.map_cons,List.map_append,List.map_map,List.map_map,List.map_map]
  congr 2
  · exact List.map_congr_left fun f _ => function f
  · exact List.map_congr_left fun e _ => expr e

theorem madeClosures_run :
    madeClosures (constants m) (run m) = (madeClosures (constants m) m).map fun made => (foldClosure made.2 made.1,made.2) := by
  rw [madeClosures,madeClosures,roots_run,List.flatMap_map,List.map_flatMap]
  simp only [closures_fold]

theorem pieces_run (shapes : FuncId → List ParamShape) :
    pieces shapes (constants m) (run m) = (pieces shapes (constants m) m).map Piece.fold := by
  have closed (made : ClosureCode × Visible) :
      closurePiece shapes (foldClosure made.2 made.1,made.2) = (closurePiece shapes made).fold := by
    rw [closurePiece,closurePiece,Piece.fold,foldClosure,shapeParams_fold,foldStmts_eq_map]
    simp only [List.map_map]
    rfl
  rw [pieces,pieces,roots_run,madeClosures_run,List.map_append,List.map_map,List.map_map]
  congr 2
  funext made
  exact closed made

end folded

end Perry.Transform.ModuleConstFold
