import Perry.Transform.ModuleConstFoldEntries
import Perry.Transform.ModuleConstFoldEval

/-! A module and the module it is folded to run alike, unless a read that is folded comes before the declaration. -/
namespace Perry.Transform.ModuleConstFold
open Perry.Effect Perry.Hir

section relation

variable {R : Type}

def Early (w : World R) : Prop := w.early = true

/-- The same cells and the same outside; each cell is empty or holds its constant, and no read has found anything else. -/
structure Same (consts : Constants) (w w' : World R) : Prop where
  cells : w.cells = w'.cells
  rest : w.rest = w'.rest
  strayed : w.strayed = false
  held : ∀ id c,consts id = some c → w.cells id = none ∨ w.cells id = some c.literal.val

structure Related (consts : Constants) (s t : State (World R)) : Prop where
  store : s.store = t.store
  world : Same consts s.world t.world

variable {consts : Constants}

theorem lift_apply {W α : Type} (m : Run W Signal α) (s : State W) :
    Host.lift m s = ((m s.world).1,{ s with world := (m s.world).2 }) := by
  rw [Host.lift]
  rcases m s.world with ⟨_ | _,_⟩ <;> rfl

theorem unless_lift {α : Type} {m l : Run (World R) Signal α} (same : Unless Early (Same consts) m l) :
    Unless (fun s => Early s.world) (Related consts) (Host.lift m) (Host.lift l) where
  stays s met := by
    rw [lift_apply]
    exact same.stays s.world met
  agree s t related := by
    rw [lift_apply,lift_apply]
    exact (same.agree s.world t.world related.world).imp_right fun both => ⟨both.1,related.store,both.2⟩

theorem unless_emit {ε : Type} (e f : Event) :
    Unless (fun s => Early s.world) (Related consts) (emit e : Run (State (World R)) ε Unit) (emit f) :=
  ⟨fun _ met => met,fun _ _ related => .inr ⟨rfl,related.store,related.world⟩⟩

theorem unless_setStore (id : LocalId) (v : Val) :
    Unless (fun s => Early s.world) (Related consts) (setStore id v : Eval (World R) Unit) (setStore id v) where
  stays _ met := met
  agree s t related := by
    refine .inr ⟨rfl,?_,related.world⟩
    show Function.update s.store id v = Function.update t.store id v
    rw [related.store]

theorem unless_loadStore (id : LocalId) :
    Unless (fun s => Early s.world) (Related consts) (loadStore id : Eval (World R) Val) (loadStore id) :=
  ⟨fun _ met => met,fun _ _ related => .inr ⟨congrArg Except.ok (congrFun related.store id),related⟩⟩

end relation

section environment

variable {R : Type} {consts : Constants} {enter enter' : Entering R}

/-- An environment that enters the same entries answers the same. -/
theorem unless_play (entered : ∀ entry args store,Unless Early (Same consts) (enter entry args store) (enter' entry args store))
    (script : Script R) : Unless Early (Same consts) (script.play enter) (script.play enter') := by
  induction script with
  | answer result rest => exact ⟨fun _ met => met,fun _ _ same => .inr ⟨rfl,same.cells,rfl,same.strayed,same.held⟩⟩
  | enter entry args store rest next ih =>
    constructor
    · intro w met
      exact (ih _ _ _).stays _ ((entered entry args store).stays { w with rest } met)
    · intro w w' same
      have start : Same consts { w with rest } { w' with rest } := ⟨same.cells,rfl,same.strayed,same.held⟩
      rw [Script.play,Script.play]
      rcases (entered entry args store).agree _ _ start with met | ⟨ended,same⟩
      · exact .inl ((ih _ _ _).stays _ met)
      · dsimp only
        rw [← ended,← same.cells,← same.rest]
        exact (ih _ _ _).agree _ _ same

variable (env : Environment R) (entered : ∀ entry args store,Unless Early (Same consts) (enter entry args store) (enter' entry args store))
include entered

theorem unless_ask (request : Ask) : Unless Early (Same consts) (env.ask enter request) (env.ask enter' request) where
  stays w met := (unless_play entered _).stays w met
  agree w w' same := by
    rw [Environment.ask,Environment.ask,← same.cells,← same.rest]
    exact (unless_play entered _).agree w w' same

theorem unless_tell (request : Ask) : Unless Early (Same consts) (env.tell enter request) (env.tell enter' request) :=
  (unless_ask env entered request).bind fun _ => .pure ()

end environment

section hosts

variable {R : Type} {consts : Constants} {visible : Visible}

def isConstant (consts : Constants) (id : LocalId) : Bool := (consts id).isSome

theorem isConstant_of {id : LocalId} {l : Lit} (within : Within consts visible) (known : visible id = some l) : isConstant consts id = true := by
  obtain ⟨c,found,-⟩ := within id l known
  rw [isConstant,found,Option.isSome_some]

theorem watching_any (within : Within consts visible) {id : LocalId} {c : Constant} (found : consts id = some c) :
    (watching visible id).any (· ≠ c.literal.val) = false := by
  rw [watching]
  cases known : visible id with
  | none => rfl
  | some l =>
    obtain ⟨c',found',rfl⟩ := within id l known
    obtain rfl : c = c' := Option.some.inj (found.symm.trans found')
    simp

variable (env : Environment R)

theorem stays_readCell (watch : Watch) (id : LocalId) (w : World R) (met : Early w) : Early (readCell env watch id w).2 := by
  rw [readCell]
  split
  · exact met
  · exact Bool.or_eq_true_iff.mpr (.inl met)

theorem unless_readCell (within : Within consts visible) {id : LocalId} (constant : isConstant consts id = true) :
    Unless Early (Same consts) (readCell env (watching visible) id) (readCell env (watching visible) id) where
  stays := stays_readCell env _ id
  agree w w' same := by
    obtain ⟨c,found⟩ := Option.isSome_iff_exists.mp constant
    rw [readCell,readCell,← same.cells]
    rcases same.held id c found with empty | filled
    · rw [empty]
      exact .inr ⟨rfl,rfl,same.rest,same.strayed,same.held⟩
    · rw [filled]
      exact .inr ⟨rfl,rfl,same.rest,by simp only [same.strayed,watching_any within found,Bool.or_false],same.held⟩

/-- A read of a cell that is filled finds the literal. -/
theorem unless_folded (within : Within consts visible) {id : LocalId} {l : Lit} (known : visible id = some l) :
    Unless Early (Same consts) (readCell env (watching visible) id) (pure l.val) where
  stays := stays_readCell env _ id
  agree w w' same := by
    obtain ⟨c,found,rfl⟩ := within id l known
    rw [readCell]
    rcases same.held id c found with empty | filled
    · rw [empty]
      left
      show (w.early || (watching visible id).isSome) = true
      rw [watching,known]
      exact Bool.or_true _
    · rw [filled]
      exact .inr ⟨rfl,same.cells,same.rest,by simp only [same.strayed,watching_any within found,Bool.or_false],same.held⟩

variable {captures captures' : FuncId → List LocalId} {enter enter' : Entering R}

/-- The host of the code that is folded so. -/
abbrev hostOf (consts : Constants) (captures : FuncId → List LocalId) (enter : Entering R) (visible : Visible) : Host (World R) :=
  env.host (isConstant consts) captures enter (watching visible)

/-- The captures of a closure are known, and so are those that are left of them. -/
def Made (captures captures' : FuncId → List LocalId) (visible : Visible) (c : ClosureCode) : Prop :=
  captures c.funcId = c.captures ∧ captures' c.funcId = unfolded visible c.captures

/-- What of the captures a closure is made from. -/
def named (consts : Constants) (captured : List LocalId) (vs : List Val) : List (LocalId × Val) :=
  (captured.zip vs).filter fun capture => !isConstant consts capture.1

theorem capture_cons (id : LocalId) (ids : List LocalId) {host : Host (World R)} :
    (captureLocals host (id :: ids) >>= fun vs => pure (named consts (id :: ids) vs)) =
      captureLocal host id >>= fun v => (captureLocals host ids >>= fun vs => pure (named consts ids vs)) >>= fun rest =>
        pure (if isConstant consts id then rest else (id,v) :: rest) := by
  have flipped (v : Val) (rest : List (LocalId × Val)) :
      (if (!isConstant consts id) = true then (id,v) :: rest else rest) = if isConstant consts id then rest else (id,v) :: rest := by
    cases isConstant consts id <;> rfl
  rw [captureLocals]
  simp only [bind_assoc,pure_bind,named,List.zip_cons_cons,List.filter_cons,flipped]

theorem makes_eq (flags : ClosureFlags) {funcId : FuncId} {captured : List LocalId} (known : captures funcId = captured) :
    makes (hostOf env consts captures enter visible) flags funcId captured =
      (captureLocals (hostOf env consts captures enter visible) captured >>= fun vs => pure (named consts captured vs)) >>= fun capture =>
        Host.lift (env.ask enter (.closure funcId flags capture)) := by
  rw [makes,bind_assoc]
  simp only [pure_bind,named,Environment.host,known]

variable (within : Within consts visible)
  (entered : ∀ entry args store,Unless Early (Same consts) (enter entry args store) (enter' entry args store))

include within entered

theorem unless_readLocal (id : LocalId) : Unless (fun s => Early s.world) (Related consts)
    (readLocal (hostOf env consts captures enter visible) id) (readLocal (hostOf env consts captures' enter' visible) id) := by
  refine (unless_emit _ _).bind fun _ => .ite (unless_lift ?_) (unless_loadStore id)
  by_cases constant : isConstant consts id = true
  · simp only [Environment.host,constant,if_true]
    exact unless_readCell env within constant
  · simp only [Environment.host,constant]
    exact unless_ask env entered (.read id)

theorem unless_named (captured : List LocalId) : Unless (fun s => Early s.world) (Related consts)
    (captureLocals (hostOf env consts captures enter visible) captured >>= fun vs => pure (named consts captured vs))
    (captureLocals (hostOf env consts captures' enter' visible) (unfolded visible captured) >>= fun vs =>
      pure (named consts (unfolded visible captured) vs)) := by
  induction captured with
  | nil => exact .pure []
  | cons id ids ih =>
    cases known : visible id with
    | some l =>
      have constant := isConstant_of within known
      have skipped : unfolded visible (id :: ids) = unfolded visible ids := by
        rw [unfolded,List.filter_cons,known]
        rfl
      have boxed : (hostOf env consts captures enter visible).boxed id = true := by
        show (isConstant consts id || env.boxed id) = true
        rw [constant,Bool.true_or]
      have shared : captureLocal (hostOf env consts captures enter visible) id = pure .undefined := if_pos boxed
      rw [skipped,capture_cons,shared,pure_bind]
      simp only [constant,if_true,bind_pure]
      exact ih
    | none =>
      have kept : unfolded visible (id :: ids) = id :: unfolded visible ids := by
        rw [unfolded,List.filter_cons,known]
        rfl
      have first : Unless (fun s => Early s.world) (Related consts) (captureLocal (hostOf env consts captures enter visible) id)
          (captureLocal (hostOf env consts captures' enter' visible) id) :=
        .ite (.pure _) (unless_readLocal env within entered id)
      rw [kept,capture_cons,capture_cons]
      exact first.bind fun v => ih.bind fun rest => .pure _

theorem alike_hosts : Alike visible (fun id => isConstant consts id = true) (Made captures captures' visible) (fun s => Early s.world)
    (Related consts) (hostOf env consts captures enter visible) (hostOf env consts captures' enter' visible) where
  read := unless_readLocal env within entered
  folded id l known := by
    have boxed : (hostOf env consts captures enter visible).boxed id = true := by
      show (isConstant consts id || env.boxed id) = true
      rw [isConstant_of within known,Bool.true_or]
    have cell : (hostOf env consts captures enter visible).readBox id = readCell env (watching visible) id := by
      simp only [Environment.host,isConstant_of within known,if_true]
    have noted : Unless (fun s => Early s.world) (Related consts) (emit (.read id) : Eval (World R) Unit) (pure ()) :=
      ⟨fun _ met => met,fun _ _ related => .inr ⟨rfl,related.store,related.world⟩⟩
    have found : Unless (fun s => Early s.world) (Related consts) (fetchLocal (hostOf env consts captures enter visible) id)
        (Host.lift (pure l.val)) := by
      rw [fetchLocal,if_pos boxed,cell]
      exact unless_lift (unless_folded env within known)
    exact noted.bind fun _ => found
  write id v free := by
    refine (unless_emit _ _).bind fun _ => .ite (unless_lift ?_) (unless_setStore id v)
    simp only [Environment.host,free]
    exact unless_tell env entered (.write id v)
  declare id v free := by
    refine (unless_emit _ _).bind fun _ => .ite (unless_lift ?_) (unless_setStore id v)
    simp only [Environment.host,free]
    exact unless_tell env entered (.declare id v)
  op op vs := unless_lift (unless_ask env entered (.op op vs))
  closure c flags made := by
    rw [makes_eq env flags made.1,makes_eq env flags made.2]
    exact (unless_named env within entered c.captures).bind fun capture =>
      unless_lift (unless_ask env entered (.closure c.funcId flags capture))
  refuse fallback property := unless_lift (unless_ask env entered (.refuse fallback property))
  await v := unless_lift (unless_ask env entered (.await v))
  yield v delegate := unless_lift (unless_ask env entered (.yield v delegate))
  allocate id tdz := by
    simp only [Environment.host]
    exact unless_lift (.ite (.pure ()) (unless_tell env entered (.allocate id tdz)))
  release id := by
    simp only [Environment.host]
    exact unless_lift (.ite (.pure ()) (unless_tell env entered (.release id)))
  emit := unless_emit

end hosts

section runs

variable {R : Type} {consts : Constants} (env : Environment R) {captures captures' : FuncId → List LocalId} {mode : Mode} {n : Nat}

/-- What is asked of an entry: it writes no constant but by the declaration, and the captures of its closures are known. -/
structure Sited (consts : Constants) (captures captures' : FuncId → List LocalId) (p : Piece) : Prop where
  defaults : Within consts p.defaults
  params : ∀ q ∈ p.params,¬ isConstant consts q.id = true
  values : ∀ q ∈ p.params,∀ v ∈ nodesOfOption false q.default,
    Fits (fun id => isConstant consts id = true) (Made captures captures' p.defaults) v
  visible : ∀ part ∈ p.body,Within consts part.2
  body : ∀ part ∈ p.body,(∀ v ∈ nodesOfStmt false part.1,Fits (fun id => isConstant consts id = true) (Made captures captures' part.2) v) ∨
    ∃ id c,consts id = some c ∧ part.1 = .let id false (some (.lit c.literal))

theorem unless_writeCell {id : LocalId} {c : Constant} (found : consts id = some c) :
    Unless Early (Same consts) (writeCell id c.literal.val : Run (World R) Signal Unit) (writeCell id c.literal.val) where
  stays _ met := met
  agree w w' same := by
    refine .inr ⟨rfl,?_,same.rest,same.strayed,fun other c' found' => ?_⟩
    · show Function.update w.cells id _ = Function.update w'.cells id _
      rw [same.cells]
    · show Function.update w.cells id (some c.literal.val) other = none ∨ Function.update w.cells id (some c.literal.val) other = _
      by_cases here : other = id
      · subst here
        obtain rfl : c = c' := Option.some.inj (found.symm.trans found')
        exact .inr (Function.update_self _ _ _)
      · rw [Function.update_of_ne here]
        exact same.held other c' found'

/-- The declaration of a constant. -/
theorem unless_declaration {enter enter' : Entering R} {visible : Visible} {id : LocalId} {c : Constant} (found : consts id = some c) :
    Unless (fun s => Early s.world) (Related consts)
      (exec (hostOf env consts captures enter visible) mode n [] (.let id false (some (.lit c.literal))))
      (exec (hostOf env consts captures' enter' visible) mode n [] (.let id false (some (.lit c.literal)))) := by
  have constant : isConstant consts id = true := by rw [isConstant,found,Option.isSome_some]
  have declares (host : Host (World R)) :
      exec host mode n [] (.let id false (some (.lit c.literal))) = perform (declareLocal host id c.literal.val) := rfl
  rw [declares,declares]
  refine unless_perform ((unless_emit _ _).bind fun _ => .ite (unless_lift ?_) (unless_setStore id _))
  simp only [Environment.host,constant,if_true]
  exact unless_writeCell found

theorem activate_fold {enter enter' : Entering R}
    (entered : ∀ entry args store,Unless Early (Same consts) (enter entry args store) (enter' entry args store)) {p : Piece}
    (sited : Sited consts captures captures' p) (args : List Val) : Unless (fun s => Early s.world) (Related consts)
      (p.entry.activate (isConstant consts) captures env enter mode n args)
      (p.fold.entry.activate (isConstant consts) captures' env enter' mode n args) := by
  have bound : Unless (fun s => Early s.world) (Related consts) (bindParams _ args 0 _) (bindParams _ args 0 _) :=
    (alike_hosts env sited.defaults entered).bindParams_fold sited.params sited.values
  rw [Entry.activate,Entry.activate]
  refine (unless_perform bound).bind fun _ => ?_
  simp only [Piece.entry,Piece.fold,List.map_map]
  refine .forM_map fun part member => ?_
  rcases sited.body part member with fits | ⟨id,c,found,declared⟩
  · exact (alike_hosts env (sited.visible part member) entered).exec_fold fits []
  · simp only [Function.comp_apply,declared]
    exact unless_declaration env found

theorem entering_fold {ps : List Piece} (sited : ∀ p ∈ ps,Sited consts captures captures' p) (depth entry : Nat) (args : List Val)
    (store : LocalId → Val) : Unless Early (Same consts)
      (entering (isConstant consts) captures env mode n (ps.map Piece.entry) depth entry args store)
      (entering (isConstant consts) captures' env mode n ((ps.map Piece.fold).map Piece.entry) depth entry args store) := by
  induction depth generalizing entry args store with
  | zero => exact .raise _
  | succ depth ih =>
    have first : (ps.map Piece.entry)[entry]? = ps[entry]?.map Piece.entry := List.getElem?_map
    have second : ((ps.map Piece.fold).map Piece.entry)[entry]? = ps[entry]?.map fun p => p.fold.entry := by
      rw [List.map_map,List.getElem?_map]
      rfl
    rw [entering,entering,first,second]
    cases found : ps[entry]? with
    | none => exact ⟨fun _ met => met,fun _ _ same => .inr ⟨rfl,same⟩⟩
    | some p =>
      have active := @activate_fold R consts env captures captures' mode n _ _ ih p (sited p (List.mem_of_getElem? found)) args
      exact ⟨fun w met => active.stays ⟨store,w,[]⟩ met,fun w w' same =>
        (active.agree ⟨store,w,[]⟩ ⟨store,w',[]⟩ ⟨rfl,same⟩).imp_right fun both => ⟨both.1,both.2.world⟩⟩

end runs

section modules

variable (shapes : FuncId → List ParamShape) (m : Module)

def Piece.assigned (p : Piece) : List LocalId :=
  p.params.flatMap (fun q => q.id :: (nodesOfOption false q.default).flatMap assigns) ++
    p.body.flatMap fun part => (nodesOfStmt false part.1).flatMap assigns

/-- Some code writes or binds the local, and it is not its declaration. -/
def WrittenElsewhere (id : LocalId) : Prop :=
  (∃ index s,m.init[index]? = some s ∧ id ∈ (nodesOfStmt false s).flatMap assigns ∧
    ∀ c,candidates 0 m.init (fun _ => none) id = some c → c.index ≠ index) ∨
  ∃ p ∈ (pieces shapes (constants m) m).tail,id ∈ p.assigned

/-- Writes of what `init` declares as a literal are all seen by the scan. -/
def Seen : Prop := ∀ id c,candidates 0 m.init (fun _ => none) id = some c → WrittenElsewhere shapes m id → id ∈ written m

/-- Closures of one function id, such as clones of one body, capture the same and have the same of it folded. -/
def CapturesAgree : Prop := ∀ made ∈ madeClosures (constants m) m,∀ other ∈ madeClosures (constants m) m,other.1.funcId = made.1.funcId →
  other.1.captures = made.1.captures ∧ unfolded other.2 other.1.captures = unfolded made.2 made.1.captures

/-- A run of a module with the constants of another, or of its own. -/
def runModule {R : Type} (consts : Constants) (env : Environment R) (mode : Mode) (n depth : Nat) (rest : R) : Except Signal Val × World R :=
  launch (isConstant consts) (capturesOf consts m) env mode n ((pieces env.shapes consts m).map Piece.entry) depth rest

end modules

section sound

variable {shapes : FuncId → List ParamShape} {m : Module}

theorem constants_some {id : LocalId} {c : Constant} (found : constants m id = some c) :
    id ∉ written m ∧ candidates 0 m.init (fun _ => none) id = some c := by
  rw [constants] at found
  split_ifs at found with seen
  exact ⟨seen,found⟩

theorem not_writtenElsewhere (seen : Seen shapes m) {id : LocalId} (constant : isConstant (constants m) id = true) :
    ¬ WrittenElsewhere shapes m id := by
  obtain ⟨c,found⟩ := Option.isSome_iff_exists.mp constant
  obtain ⟨unwritten,declared⟩ := constants_some found
  exact fun elsewhere => unwritten (seen id c declared elsewhere)

theorem made_of (agree : CapturesAgree m) {made : ClosureCode × Visible} (member : made ∈ madeClosures (constants m) m) :
    Made (capturesOf (constants m) m) (capturesOf (constants m) (run m)) made.2 made.1 := by
  refine ⟨capturesOf_made member fun other inside same => (agree made member other inside same).1,?_⟩
  have member' : (foldClosure made.2 made.1,made.2) ∈ madeClosures (constants m) (run m) := by
    rw [madeClosures_run]
    exact List.mem_map_of_mem member
  refine capturesOf_made member' fun folded refolded same => ?_
  rw [madeClosures_run] at refolded
  obtain ⟨other,inside,rfl⟩ := List.mem_map.mp refolded
  exact (agree made member other inside same).2

theorem fits_of {visible : Visible} {v : Node} (free : ∀ id ∈ assigns v,¬ isConstant (constants m) id = true)
    (known : ∀ c,v.closure? = some c → (c,visible) ∈ madeClosures (constants m) m) (agree : CapturesAgree m) :
    Fits (fun id => isConstant (constants m) id = true) (Made (capturesOf (constants m) m) (capturesOf (constants m) (run m)) visible) v :=
  ⟨free,fun c made => made_of agree (known c made)⟩

/-- A statement of `init` that writes a constant is its declaration. -/
theorem declaration_of (seen : Seen shapes m) {index : Nat} {s : Stmt} (there : m.init[index]? = some s) {id : LocalId}
    (written : id ∈ (nodesOfStmt false s).flatMap assigns) (constant : isConstant (constants m) id = true) :
    ∃ c,constants m id = some c ∧ s = .let id false (some (.lit c.literal)) := by
  obtain ⟨c,found⟩ := Option.isSome_iff_exists.mp constant
  obtain ⟨-,candidate⟩ := constants_some found
  have here : c.index = index := by
    by_contra other
    refine not_writtenElsewhere seen constant (.inl ⟨index,s,there,written,fun c' found' => ?_⟩)
    rw [← Option.some.inj (candidate.symm.trans found')]
    exact other
  rcases candidates_declared candidate with none | ⟨offset,place,declared⟩
  · cases none
  · rw [Nat.zero_add,here] at place
    rw [← place,there] at declared
    exact ⟨c,found,Option.some.inj declared⟩

/-- Every entry of the module is as it is asked to be. -/
theorem sited_pieces (seen : Seen shapes m) (agree : CapturesAgree m) {p : Piece} (member : p ∈ pieces shapes (constants m) m) :
    Sited (constants m) (capturesOf (constants m) m) (capturesOf (constants m) (run m)) p := by
  have inBody {part : Stmt × Visible} (inside : part ∈ p.body) {v : Node} (node : v ∈ nodesOfStmt false part.1) (c : ClosureCode)
      (made : v.closure? = some c) : (c,part.2) ∈ madeClosures (constants m) m :=
    closures_pieces member (closures_of_body inside (nodesOfStmt_enter part.1 v node) made)
  have inDefault {q : Param} (param : q ∈ p.params) {v : Node} (node : v ∈ nodesOfOption false q.default) (c : ClosureCode)
      (made : v.closure? = some c) : (c,p.defaults) ∈ madeClosures (constants m) m := by
    cases default : q.default with
    | none =>
      rw [default] at node
      cases node
    | some e =>
      rw [default] at node
      exact closures_pieces member (closures_of_default param default (nodesOfExpr_enter e v node) made)
  obtain ⟨defaults,visible⟩ := within_pieces member
  rcases List.mem_cons.mp member with rfl | routine
  · refine ⟨defaults,nofun,nofun,visible,fun part inside => ?_⟩
    obtain ⟨index,small,rfl⟩ := List.mem_mapIdx.mp inside
    by_cases free : ∀ id ∈ (nodesOfStmt false m.init[index]).flatMap assigns,¬ isConstant (constants m) id = true
    · exact .inl fun v node => fits_of (fun id assigned => free id (List.mem_flatMap.mpr ⟨v,node,assigned⟩)) (inBody inside node) agree
    · simp only [not_forall,not_not] at free
      obtain ⟨id,written,constant⟩ := free
      obtain ⟨c,found,declared⟩ := declaration_of seen (List.getElem?_eq_getElem small) written constant
      exact .inr ⟨id,c,found,declared⟩
  · have free (id : LocalId) (assigned : id ∈ p.assigned) : ¬ isConstant (constants m) id = true := fun constant =>
      not_writtenElsewhere seen constant (.inr ⟨p,routine,assigned⟩)
    refine ⟨defaults,fun q param => free q.id ?_,fun q param v node => fits_of (fun id assigned => free id ?_) (inDefault param node) agree,
      visible,fun part inside => .inl fun v node => fits_of (fun id assigned => free id ?_) (inBody inside node) agree⟩
    · exact List.mem_append_left _ (List.mem_flatMap.mpr ⟨q,param,List.mem_cons_self ..⟩)
    · exact List.mem_append_left _ (List.mem_flatMap.mpr ⟨q,param,List.mem_cons_of_mem _ (List.mem_flatMap.mpr ⟨v,node,assigned⟩)⟩)
    · exact List.mem_append_right _ (List.mem_flatMap.mpr ⟨part,inside,List.mem_flatMap.mpr ⟨v,node,assigned⟩⟩)

/-- A module and the folded one run alike, to equal results and effects, as long as no read that is folded comes before the
declaration; no constant is written, and every read that is folded finds the literal. -/
theorem run_preserves {R : Type} (env : Environment R) (mode : Mode) (n depth : Nat) (rest : R) (seen : Seen env.shapes m)
    (agree : CapturesAgree m) : (∀ id,isConstant (constants m) id = true → ¬ WrittenElsewhere env.shapes m id) ∧
      ((runModule m (constants m) env mode n depth rest).2.early = false →
        (runModule m (constants m) env mode n depth rest).2.strayed = false ∧
        (runModule (run m) (constants m) env mode n depth rest).1 = (runModule m (constants m) env mode n depth rest).1 ∧
        (runModule (run m) (constants m) env mode n depth rest).2.cells = (runModule m (constants m) env mode n depth rest).2.cells ∧
        (runModule (run m) (constants m) env mode n depth rest).2.rest = (runModule m (constants m) env mode n depth rest).2.rest) := by
  refine ⟨fun id => not_writtenElsewhere seen,fun calm => ?_⟩
  have sited : ∀ p ∈ pieces env.shapes (constants m) m,Sited (constants m) (capturesOf (constants m) m) (capturesOf (constants m) (run m)) p :=
    fun p => sited_pieces seen agree
  have entered := @entering_fold R (constants m) env _ _ mode n _ sited depth
  have folded : runModule (run m) (constants m) env mode n depth rest = (env.main rest).play (entering (isConstant (constants m))
      (capturesOf (constants m) (run m)) env mode n (((pieces env.shapes (constants m) m).map Piece.fold).map Piece.entry) depth)
      ⟨fun _ => none,rest,false,false⟩ := by
    rw [runModule,launch,pieces_run]
  have start : Same (constants m) (⟨fun _ => none,rest,false,false⟩ : World R) ⟨fun _ => none,rest,false,false⟩ :=
    ⟨rfl,rfl,rfl,fun _ _ _ => .inl rfl⟩
  rw [folded]
  rcases (unless_play entered (env.main rest)).agree _ _ start with met | ⟨ended,same⟩
  · exact absurd (met.symm.trans calm) nofun
  · exact ⟨same.strayed,ended.symm,same.cells.symm,same.rest.symm⟩

/-- A constant and a call of a function that reads it, in either order. -/
def reading (early : Bool) : Module where
  functions := [⟨0,"f",[],[.return (some (.localGet 3))],false,false,false⟩]
  init := if early then [.expr (.call (.funcRef 0) []),.let 3 false (some (.integer 5))]
    else [.let 3 false (some (.integer 5)),.expr (.call (.funcRef 0) [])]

def answerOf : Except Comp Unit → (LocalId → Option Val) → Unit → Script Unit
  | .ok _,_,_ => .answer (.ok .undefined) ()
  | .error (.return v),_,_ => .answer (.ok v) ()
  | .error (.throw v),_,_ => .answer (.error (.throw v)) ()
  | .error _,_,_ => .answer (.error .halt) ()

/-- Calls run the function they name, and nothing else happens. -/
def calling : Environment Unit where
  boxed _ := false
  shapes _ := []
  referenceError _ := .str "ReferenceError"
  respond
    | .op .call (.func id :: args),_,_ => .enter (id + 1) args (fun _ => .undefined) () answerOf
    | _,_,_ => .answer (.ok .undefined) ()
  main _ := .enter 0 [] (fun _ => .undefined) () answerOf

theorem capturesAgree_reading (early : Bool) : CapturesAgree (reading early) := by
  intro made member
  cases early <;> cases member

theorem seen_reading (early : Bool) : Seen shapes (reading early) := by
  intro id c found elsewhere
  have declared : c.index = if early then 1 else 0 := by
    cases early <;>
    · change Function.update (fun _ => none) 3 (some _) id = some c at found
      rw [Function.update_apply] at found
      split_ifs at found
      rw [← Option.some.inj found]
      rfl
  rcases elsewhere with ⟨index,s,there,assigned,apart⟩ | ⟨p,routine,assigned⟩
  · have other := apart c found
    rw [declared] at other
    cases early <;> rcases index with _ | _ | index
    · exact absurd rfl other
    · cases there
      cases assigned
    · cases there
    · cases there
      cases assigned
    · exact absurd rfl other
    · cases there
  · cases early <;>
    · obtain rfl := List.mem_singleton.mp routine
      cases assigned

/-- The call comes after the declaration. -/
theorem run_preserves_reading : (runModule (run (reading false)) (constants (reading false)) calling .ecma 9 9 ()).1 =
    (runModule (reading false) (constants (reading false)) calling .ecma 9 9 ()).1 :=
  ((run_preserves calling .ecma 9 9 () (seen_reading false) (capturesAgree_reading false)).2 rfl).2.1

/-- The function is called before the declaration and must throw; once folded it does not. -/
theorem run_hides_deadZone : ¬ ∀ (m : Module) (env : Environment Unit) (mode : Mode) (n depth : Nat),Seen env.shapes m → CapturesAgree m →
    (runModule (run m) (constants m) env mode n depth ()).1 = (runModule m (constants m) env mode n depth ()).1 := by
  intro claim
  have same := claim (reading true) calling .ecma 9 9 (seen_reading true) (capturesAgree_reading true)
  have before : (runModule (reading true) (constants (reading true)) calling .ecma 9 9 ()).1 = .error (.throw (.str "ReferenceError")) := rfl
  have after : (runModule (run (reading true)) (constants (reading true)) calling .ecma 9 9 ()).1 = .ok .undefined := rfl
  rw [before,after] at same
  cases same

end sound

end Perry.Transform.ModuleConstFold
