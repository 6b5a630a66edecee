import Perry.Codegen.NotBigIntSound
import Perry.Hir.Bitwise
import Perry.Hir.Closures

/-! No local of the collected set ever holds a BigInt, in the statements' own run or in that of a
closure they build, unless a write the collector does not see gives it one. -/
namespace Perry.Codegen.NotBigInt

open Perry.Effect Perry.Hir

section unseen

/-- The locals that a node gives a value the collector does not look at. -/
def unseenAt : Node → List LocalId
  | .caught id => [id]
  | .expr (.withSet _ _ _ fallback _) => fallback.target.toList
  | .expr (.closure _ params _ _ _ _ _) => params
  | _ => []

def unseen (stmts : List Stmt) : List LocalId := (nodesOfStmts true stmts).flatMap unseenAt

variable {stmts : List Stmt} {code : Code}

/-- The code that runs: the statements themselves, and what is inside them. -/
theorem nodes_entered (entered : Enters [⟨[],stmts⟩] code) : code.nodes true ⊆ nodesOfStmts true stmts := by
  obtain ⟨outer,member,within⟩ := entered.inside
  obtain rfl := List.mem_singleton.mp member
  exact within.nodes

theorem params_entered (entered : Enters [⟨[],stmts⟩] code) : ∀ p ∈ code.params,p.id ∈ unseen stmts := by
  obtain ⟨outer,member,within⟩ := entered.inside
  obtain rfl := List.mem_singleton.mp member
  intro p held
  obtain ⟨v,inside,binds⟩ := List.mem_flatMap.mp (within.params p held)
  refine List.mem_flatMap.mpr ⟨v,inside,?_⟩
  cases v with
  | expr e =>
    cases e with
    | closure funcId params defaults captures mutableCaptures flags body => exact binds
    | _ => cases binds
  | _ => cases binds

end unseen

section runs

variable (types : Types) (stmts : List Stmt) (elements : Val → Prop)

/-- A local holds the value in some execution. Each activation runs against a host of its own; what
the host keeps for the locals of the statements, some activation has put there. -/
inductive Held : LocalId → Val → Prop where
  | run {W : Type} (host : Host W) (mode : Mode) (n : Nat) (code : Code) (args : List Val) (store : LocalId → Val) (world : W)
      (entered : Enters [⟨[],stmts⟩] code) (lawful : Lawful elements host)
      (shared : ∀ x w v w',x ∈ candidates stmts → host.readBox x w = (.ok v,w') → v ≠ .undefined → Held x v)
      (captured : ∀ x ∈ candidates stmts,host.boxed x = false → store x ≠ .undefined → Held x (store x))
      (boxClaims : ∀ x w v w',host.readBox x w = (.ok v,w') → Claims elements types x v)
      (storeClaims : ∀ x,host.boxed x = false → Claims elements types x (store x))
      (typed : Typed elements types (activation host mode n code args ⟨store,world,[]⟩).2.trace) (x : LocalId) (v : Val)
      (holds : (∃ e ∈ (activation host mode n code args ⟨store,world,[]⟩).2.trace,given e = some (x,v)) ∨
        host.boxed x = false ∧ (activation host mode n code args ⟨store,world,[]⟩).2.store x = v) : Held x v

variable {types stmts elements}

/-- The nodes of the statements are judged, if what the collector does not see is not its own. -/
theorem judged_nodes (apart : ∀ id ∈ unseen stmts,id ∉ candidates stmts) : ∀ v ∈ nodesOfStmts true stmts,
    Judged types (collectNotBigIntLocals types stmts).contains (numericTypedLocals types stmts) v := by
  intro v member
  have free {id : LocalId} (unseen : id ∈ unseenAt v) : ¬(collectNotBigIntLocals types stmts).contains id = true := by
    intro collected
    exact apart id (List.mem_flatMap.mpr ⟨v,member,unseen⟩) (collected_bound (List.contains_iff_mem.mp collected))
  have written {id : LocalId} {write : Option Expr} (writes : writeOf id v = some write)
      (collected : (collectNotBigIntLocals types stmts).contains id = true) :
      writeNotBigInt types stmts (collectNotBigIntLocals types stmts) write = true :=
    collected_writes (List.contains_iff_mem.mp collected) (List.mem_filterMap.mpr ⟨v,member,writes⟩)
  cases v with
  | bind id init =>
    intro collected e given
    cases given
    exact written (if_pos rfl) collected
  | caught id => exact free (List.mem_singleton.mpr rfl)
  | expr e =>
    cases e with
    | localSet id rhs => exact fun collected => written (if_pos rfl) collected
    | withSet object property value fallback strict => exact fun id target => free (Option.mem_toList.mpr target)
    | _ => trivial

section settled

variable {W : Type} {host : Host W} {code : Code} {set : LocalId → Bool} {numeric : LocalId → Bool}
  (lawful : Lawful elements host) (boxes : Boxes host elements types (set · = true))
  (known : ∀ id v,numeric id = true → Claims elements types id v → Key v)
include lawful boxes known

theorem settles_bind {id : LocalId} {init : Option Expr} (judged : ∀ v ∈ (Node.bind id init).nodes false,Judged types set numeric v) :
    ∀ v ∈ (Node.bind id init).nodes false,Settles host (set · = true) (Holds host elements types (set · = true)) v := by
  have declared {v : Val} (plain : set id = true → Plain v) :
      Maintains (Holds host elements types (set · = true)) (declareLocal host id v) :=
    .of_final fun s holds => holds_assign rfl (host.declareBox id v) holds fun watched _ => plain watched
  obtain ⟨bound,inner⟩ := List.forall_mem_cons.mp judged
  cases init with
  | none =>
    intro v member
    obtain rfl := List.mem_singleton.mp member
    intro _
    change Maintains _ (pure Val.undefined >>= declareLocal host id)
    rw [pure_bind]
    exact declared fun _ => trivial
  | some e =>
    obtain ⟨settled,gives⟩ := judged_eval lawful boxes known e inner
    refine List.forall_mem_cons.mpr ⟨fun watched => ?_,settled⟩
    apply Gives.maintains (Q := fun _ => True)
    apply gives.bind
    · exact fun v => steady_untyped.declare id v not_false
    · intro v promised
      exact Gives.of_maintains (declared fun _ => promised.2 (bound watched e rfl)) fun _ _ _ _ _ _ => trivial

theorem settles_root {root : Node} (judged : ∀ v ∈ root.nodes false,Judged types set numeric v) :
    ∀ v ∈ root.nodes false,Settles host (set · = true) (Holds host elements types (set · = true)) v := by
  cases root with
  | bind id init => exact settles_bind lawful boxes known judged
  | caught id =>
    intro v member
    obtain rfl := List.mem_singleton.mp member
    exact judged (.caught id) member
  | expr e => exact (judged_eval lawful boxes known e judged).1

end settled

/-- What one activation keeps. -/
theorem run_good {W : Type} {host : Host W} {code : Code} (entered : Enters [⟨[],stmts⟩] code) (lawful : Lawful elements host)
    (apart : ∀ id ∈ unseen stmts,id ∉ candidates stmts)
    (boxes : Boxes host elements types ((collectNotBigIntLocals types stmts).contains · = true)) (mode : Mode) (n : Nat) (args : List Val) :
    Maintains (Holds host elements types ((collectNotBigIntLocals types stmts).contains · = true)) (activation host mode n code args) := by
  have judged : ∀ v ∈ nodesOfStmts true stmts,
      Judged types (collectNotBigIntLocals types stmts).contains (numericTypedLocals types stmts) v := judged_nodes apart
  have known : ∀ id v,numericTypedLocals types stmts id = true → Claims elements types id v → Key v := fun id v numeric claims => claims.key numeric
  have within : code.nodes true ⊆ nodesOfStmts true stmts := nodes_entered entered
  refine steady_holds.activation ?_ (fun p member v (inside : v ∈ nodesOfOption false p.default) => ?_)
    fun v (inside : v ∈ nodesOfStmts false code.body) => ?_
  · intro p member collected
    exact apart p.id (params_entered entered p member) (collected_bound (List.contains_iff_mem.mp collected))
  · have defaults : nodesOfOption true p.default ⊆ nodesOfStmts true stmts := fun v stands =>
      within (List.mem_append_left _ (List.mem_flatMap.mpr ⟨p,member,stands⟩))
    cases given : p.default with
    | none =>
      rw [given] at inside
      cases inside
    | some d =>
      rw [given] at inside defaults
      exact (judged_eval lawful boxes known d fun u below => judged u (defaults (nodesOfExpr_enter d u below))).1 v inside
  · obtain ⟨root,stands,below,_⟩ := mem_nodesOfStmts inside
    exact settles_root lawful boxes known (fun u under => judged u (within (List.mem_append_right _ (nodesOfStmts_enter code.body u (below under))))) v stands

/-- Where no `with` write, catch clause or closure parameter names a local that the statements bind,
no collected local ever holds a BigInt. -/
theorem collected_never_bigInt (apart : ∀ id ∈ unseen stmts,id ∉ candidates stmts) {id : LocalId}
    (collected : id ∈ collectNotBigIntLocals types stmts) {v : Val} (held : Held types stmts elements id v) (n : Int) : v ≠ .bigInt n := by
  have plain : Plain v := by
    induction held with
    | run host mode n code args store world entered lawful shared captured boxClaims storeClaims typed x v holds ihShared ihCaptured =>
      have boxes : Boxes host elements types ((collectNotBigIntLocals types stmts).contains · = true) := by
        refine ⟨fun x w v w' watched asked => ?_,boxClaims⟩
        have inside := List.contains_iff_mem.mp watched
        by_cases empty : v = .undefined
        · subst empty
          trivial
        · exact ihShared x w v w' (collected_bound inside) asked empty inside
      have start : Holds host elements types ((collectNotBigIntLocals types stmts).contains · = true) ⟨store,world,[]⟩ := by
        refine fun _ => ⟨fun e none => absurd none List.not_mem_nil,fun x watched own => ?_,storeClaims⟩
        have inside := List.contains_iff_mem.mp watched
        by_cases empty : store x = .undefined
        · change Plain (store x)
          rw [empty]
          trivial
        · exact ihCaptured x (collected_bound inside) own empty inside
      have good := (run_good entered lawful apart boxes mode n args).final start typed
      have watched := List.contains_iff_mem.mpr collected
      rcases holds with ⟨e,member,gives⟩ | ⟨own,held⟩
      · exact good.given e member x v gives watched
      · exact held ▸ good.held x watched own
  rintro rfl
  exact plain

section examples

/-- A host that computes the bitwise operators of numbers and looks `with` names up in an empty object. -/
def bitwise : Host Unit where
  boxed _ := false
  readBox _ := Run.raise .halt
  writeBox _ _ := Run.raise .halt
  declareBox _ _ := Run.raise .halt
  allocateBox _ _ := Run.raise .halt
  releaseBox _ := Run.raise .halt
  op op vs := fun w =>
    match op,vs with
    | .binary op,[.num a,.num b] =>
      match BinaryOp.bits op a.toInt32 b.toInt32 with
      | some k => (.ok (.int k),w)
      | none => (.error .halt,w)
    | .withHas _,_ => (.ok (.bool false),w)
    | _,_ => (.error .halt,w)
  closure _ _ _ := Run.raise .halt
  refuseWith _ _ := Run.raise .halt
  await _ := Run.raise .halt
  yield _ _ := Run.raise .halt

theorem bitwise_number {op : BinaryOp} {v w r : Val} (answered : Answers bitwise (.binary op) [v,w] r) : ∃ k : Int,r = .int k := by
  obtain ⟨_,answered⟩ := answered
  cases v with
  | num a =>
    cases w with
    | num b =>
      change (match BinaryOp.bits op a.toInt32 b.toInt32 with | some k => ((.ok (.int k),()) : Except Signal Val × Unit) | none => (.error .halt,())).1 = .ok r at answered
      split at answered
      · rename_i k _
        cases answered
        exact ⟨k,rfl⟩
      · cases answered
    | _ => cases answered
  | _ => cases answered

theorem bitwise_lawful (elements : Val → Prop) : Lawful elements bitwise where
  binary op v w r _ answered := by
    obtain ⟨k,rfl⟩ := bitwise_number answered
    trivial
  arithmetic op v w r _ answered := by
    obtain ⟨k,rfl⟩ := bitwise_number answered
    trivial
  unary op v r _ answered := by
    obtain ⟨_,answered⟩ := answered
    cases answered
  toNumeric v r answered := by
    obtain ⟨_,answered⟩ := answered
    cases answered
  compare op vs r answered := by
    obtain ⟨_,answered⟩ := answered
    cases answered
  produced tag _ vs r answered := by
    obtain ⟨_,answered⟩ := answered
    cases answered
  math tag _ vs r answered := by
    obtain ⟨_,answered⟩ := answered
    cases answered
  numberCoerce vs r answered := by
    obtain ⟨_,answered⟩ := answered
    cases answered
  bufferByte vs r answered := by
    obtain ⟨_,answered⟩ := answered
    cases answered
  byte array key r _ answered := by
    obtain ⟨_,answered⟩ := answered
    cases answered
  element array key r _ answered := by
    obtain ⟨_,answered⟩ := answered
    cases answered

/-- Without declared types, the statements' own run holds what it leaves. -/
theorem held_at_end (stmts : List Stmt) (x : LocalId) :
    Held {} stmts (fun _ => False) x ((activation bitwise .ecma 0 ⟨[],stmts⟩ [] ⟨fun _ => .undefined,(),[]⟩).2.store x) := by
  have untyped (x : LocalId) (v : Val) : Claims (fun _ => False) {} x v := by
    refine .inr fun t declares => ?_
    rcases declares with binding | param | declared
    · cases binding
    · cases param
    · cases declared
  refine .run bitwise .ecma 0 ⟨[],stmts⟩ [] (fun _ => .undefined) () (.start _ (List.mem_singleton.mpr rfl)) (bitwise_lawful _) ?_ ?_ ?_ ?_ ?_ x _ (.inr ⟨rfl,rfl⟩)
  · intro x w v w' _ asked
    cases asked
  · exact fun x _ _ assigned => absurd rfl assigned
  · exact fun x w v _ _ => untyped x v
  · exact fun x _ => untyped x .undefined
  · exact fun e _ x v _ => untyped x v

/-- `let l = 0; l = l ^ 5`. -/
def accumulator : List Stmt :=
  [.let 1 true (some (.integer 0)),.expr (.localSet 1 (.binary .bitXor (.localGet 1) (.integer 5)))]

theorem accumulator_never_bigInt : Held {} accumulator (fun _ => False) 1 (.int 5) ∧ Val.int 5 ≠ .bigInt 5 :=
  ⟨held_at_end accumulator 1,collected_never_bigInt (by decide) (by decide) (held_at_end accumulator 1) 5⟩

/-- `let x = 0; with (o) { x = 6n }`. -/
def withWrite : List Stmt :=
  [.let 1 true (some (.integer 0)),.expr (.withSet (.localGet 2) "x" (.lit (.bigInt 6)) (.local 1) false)]

/-- The write through `with` is not collected. -/
theorem withWrite_bigInt : 1 ∈ collectNotBigIntLocals {} withWrite ∧ Held {} withWrite (fun _ => False) 1 (.bigInt 6) :=
  ⟨by decide,held_at_end withWrite 1⟩

end examples

end runs

end Perry.Codegen.NotBigInt
