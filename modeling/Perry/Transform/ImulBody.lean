import Perry.Hir.Quiet
import Perry.Transform.Imul

/-! The body of an accepted function: four constants that hold the half-words of the arguments, then
an operand the recogniser does not look at, cut to a word. -/
namespace Perry.Transform.Imul

open Perry.Effect Perry.Hir

variable {W : Type} {host : Host W}

section shape

/-- What stands under the outer `| 0`. -/
def operand (f : Function) : Expr :=
  match f.body[4]? with
  | some (Stmt.return (some (Expr.binary _ left _))) => left
  | _ => .undefined

def isConst : Stmt → Bool
  | .let _ false (some _) => true
  | _ => false

theorem scanHalves_consts {p0 p1 : LocalId} {ss : List Stmt} {seen last : Seen} (scanned : scanHalves p0 p1 ss seen = some last) :
    ∀ s ∈ ss,isConst s = true := by
  induction ss,seen using scanHalves.induct p0 p1 with
  | case1 seen =>
    intro s member
    cases member
  | case2 id init ss seen param isHi found ih =>
    rw [scanHalves,found] at scanned
    intro s member
    rcases List.mem_cons.mp member with rfl | rest
    · rfl
    · exact ih scanned s rest
  | case3 id init ss seen missing =>
    rw [scanHalves,missing] at scanned
    cases scanned
  | case4 ss seen nonempty other =>
    rw [scanHalves] at scanned
    · cases scanned
    · exact nonempty
    · exact other

theorem returnsTruncated_operand {f : Function} (last : returnsTruncated f.body[4]? = true) :
    f.body[4]? = some (.return (some (.binary .bitOr (operand f) (.integer 0)))) := by
  unfold operand
  unfold returnsTruncated at last
  split at last
  · rename_i left n found
    rw [found,of_decide_eq_true last]
  · cases last

theorem detect_params {f : Function} (accepted : detectMathImulPolyfill f = true) :
    ∃ p0 p1 seen,f.params = [p0,p1] ∧ scanHalves p0.id p1.id (f.body.take 4) {} = some seen := by
  unfold detectMathImulPolyfill at accepted
  split at accepted
  · cases accepted
  · split at accepted
    · rename_i p0 p1 params
      split_ifs at accepted
      split at accepted
      · cases accepted
      · rename_i seen scanned
        exact ⟨p0,p1,seen,params,scanned⟩
    · cases accepted

theorem detect_body {f : Function} (accepted : detectMathImulPolyfill f = true) :
    (∀ s ∈ f.body.take 4,isConst s = true) ∧
      f.body = f.body.take 4 ++ [.return (some (.binary .bitOr (operand f) (.integer 0)))] := by
  unfold detectMathImulPolyfill at accepted
  split at accepted
  · cases accepted
  · split at accepted
    · split_ifs at accepted with five
      split at accepted
      · cases accepted
      · rename_i seen scanned
        split_ifs at accepted with all
        refine ⟨scanHalves_consts scanned,?_⟩
        rw [not_not] at five
        have last := returnsTruncated_operand accepted
        obtain ⟨inside,found⟩ := List.getElem?_eq_some_iff.mp last
        conv_lhs => rw [← List.take_append_drop 4 f.body]
        rw [List.drop_eq_getElem_cons inside,found,List.drop_of_length_le (by omega)]
    · cases accepted

end shape

section body

variable (host)

def runConst : Stmt → Eval W Unit
  | .let id _ init => do
    let v ← evalOption host init
    declareLocal host id v
  | _ => pure ()

/-- The parameters and the four constants are bound. -/
def prologue (f : Function) (args : List Val) : Eval W Unit := do
  bindParams host args 0 f.params
  (f.body.take 4).forM (runConst host)

/-- What the body of an accepted function computes. -/
def result (f : Function) (args : List Val) : Eval W Val := do
  prologue host f args
  eval host (.binary .bitOr (operand f) (.integer 0))

variable (mode : Mode) (n : Nat)

theorem execList_consts {ss : List Stmt} (consts : ∀ s ∈ ss,isConst s = true) :
    execList host mode n [] ss = perform (ss.forM (runConst host)) := by
  induction ss with
  | nil => rfl
  | cons s ss ih =>
    have first : exec host mode n [] s = perform (runConst host s) := by
      have const := consts s (List.mem_cons_self ..)
      unfold isConst at const
      split at const
      · rfl
      · cases const
    rw [execList,first,ih fun t member => consts t (List.mem_cons_of_mem s member)]
    exact (perform_bind (runConst host s) fun _ => ss.forM (runConst host)).symm

theorem activation_result {f : Function} (accepted : detectMathImulPolyfill f = true) (args : List Val) :
    activation host mode n f.code args = perform (result host f args) >>= fun v => Run.raise (.return v) := by
  obtain ⟨consts,shape⟩ := detect_body accepted
  rw [activation,result,prologue]
  change perform (bindParams host args 0 f.params) >>= (fun _ => execList host mode n [] f.body) = _
  rw [shape,execList_append,execList_consts host mode n consts,execList_singleton,← shape]
  simp only [perform_bind,bind_assoc,exec,evalOption]

/-- An activation starts with none of its locals bound. -/
def start (w : W) : State W := ⟨fun _ => .undefined,w,[]⟩

end body

section halves

/-- A constant that is bound to a half-word of a parameter. -/
structure Half where
  bound : LocalId
  param : LocalId
  isHi : Bool

def Half.word (h : Half) : Val → Val
  | .num a => .int (a.half h.isHi)
  | v => v

def bindHalf (store : LocalId → Val) (h : Half) : LocalId → Val := Function.update store h.bound (h.word (store h.param))

def asHalf (p0 p1 : LocalId) : Stmt → Option Half
  | .let id false (some init) => (isHalfExtract init p0 p1).map fun (param,isHi) => ⟨id,param,isHi⟩
  | _ => none

/-- The half-words that an accepted function binds. -/
def halvesOf (f : Function) : List Half :=
  match f.params with
  | [p0,p1] => (f.body.take 4).filterMap (asHalf p0.id p1.id)
  | _ => []

/-- The locals the operand finds. -/
def boundStore (f : Function) (a b : Hir.Num) : LocalId → Val :=
  match f.params with
  | [p0,p1] => (halvesOf f).foldl bindHalf (Function.update (Function.update (fun _ => .undefined) p0.id (.num a)) p1.id (.num b))
  | _ => fun _ => .undefined

variable {p0 p1 : LocalId}

theorem isHalfExtract_cases {e : Expr} {param : LocalId} {isHi : Bool} (found : isHalfExtract e p0 p1 = some (param,isHi)) :
    (param = p0 ∨ param = p1) ∧
      (isHi = false ∧ e = .binary .bitAnd (.localGet param) (.integer 0xFFFF) ∨
        isHi = true ∧ ∃ op,(op = .ushr ∨ op = .shr) ∧
          e = .binary .bitAnd (.binary op (.localGet param) (.integer 16)) (.integer 0xFFFF)) := by
  unfold isHalfExtract at found
  split at found
  · split_ifs at found with mask
    rw [not_not] at mask
    subst mask
    split at found
    · split_ifs at found with shift inside
      cases found
      rw [not_not] at shift
      subst shift
      exact ⟨inside,.inr ⟨rfl,.ushr,.inl rfl,rfl⟩⟩
    · split_ifs at found with shift inside
      cases found
      rw [not_not] at shift
      subst shift
      exact ⟨inside,.inr ⟨rfl,.shr,.inr rfl,rfl⟩⟩
    · split_ifs at found with inside
      cases found
      exact ⟨inside,.inl ⟨rfl,rfl⟩⟩
    · cases found
  · cases found

theorem yields_binary {op : BinaryOp} {left right : Expr} {s : State W} {v w r : Val} (first : Yields (eval host left) s (.ok v))
    (second : ∀ trace,Yields (eval host right) { s with trace := trace } (.ok w))
    (computed : applyOp host (.binary op) [v,w] = pure r) : Yields (eval host (.binary op left right)) s (.ok r) := by
  obtain ⟨one,ran⟩ := first
  obtain ⟨two,ran'⟩ := second one
  refine ⟨two,?_⟩
  simp only [eval,evalArgs,bind_assoc,pure_bind]
  rw [Run.bind_ok ran,Run.bind_ok ran',computed]
  rfl

theorem yields_lit (l : Lit) (s : State W) : Yields (eval host (.lit l)) s (.ok l.val) := Yields.pure l.val s

variable (operators : Operators host)
include operators

/-- A half-word is what its expression evaluates to. -/
theorem yields_half {e : Expr} {h : Half} (found : isHalfExtract e p0 p1 = some (h.param,h.isHi)) (unboxed : host.boxed h.param = false)
    {s : State W} {a : Hir.Num} (held : s.store h.param = .num a) : Yields (eval host e) s (.ok (.int (a.half h.isHi))) := by
  obtain ⟨_,shape⟩ := isHalfExtract_cases found
  have read := yields_temp unboxed s
  rw [held] at read
  have mask (trace : List Event) : Yields (eval host (.integer 0xFFFF)) { s with trace := trace } (.ok (.int 0xFFFF)) :=
    yields_lit _ _
  have places (trace : List Event) : Yields (eval host (.integer 16)) { s with trace := trace } (.ok (.int 16)) :=
    yields_lit _ _
  rcases shape with ⟨low,rfl⟩ | ⟨high,op,shifts,rfl⟩
  · rw [low]
    apply yields_binary read mask
    apply operators.bitwise .bitAnd a (.int 0xFFFF)
    change some (a.toInt32 &&& 0xFFFF#32).toInt = some (a.half false : Int)
    rw [toInt_of_small (by rw [and_mask]; omega),and_mask]
    rfl
  · rw [high]
    obtain ⟨k,shifted,word⟩ : ∃ k,BinaryOp.bits op a.toInt32 (Hir.Num.int 16).toInt32 = some k ∧
        ((Hir.Num.int k).toInt32 &&& 0xFFFF#32).toInt = a.half true := by
      rcases shifts with rfl | rfl
      · refine ⟨_,rfl,?_⟩
        change ((Hir.Num.int (a.toInt32 >>> 16).toNat).toInt32 &&& 0xFFFF#32).toInt = _
        rw [toInt32_toNat,toInt_of_small (by rw [and_mask]; omega),ushiftRight_half]
        rfl
      · refine ⟨_,rfl,?_⟩
        change ((Hir.Num.int (a.toInt32.sshiftRight 16).toInt).toInt32 &&& 0xFFFF#32).toInt = _
        rw [toInt32_toInt,sshiftRight_half,toInt_of_small (by rw [and_mask]; omega),ushiftRight_half]
        rfl
    have inner := yields_binary read places (operators.bitwise op a (.int 16) k shifted)
    apply yields_binary inner mask
    apply operators.bitwise .bitAnd (.int k) (.int 0xFFFF)
    exact congrArg some word

/-- Each constant takes its half-word; the parameters stay numbers even where a constant names one. -/
theorem forM_consts {ss : List Stmt} {seen last : Seen} (scanned : scanHalves p0 p1 ss seen = some last)
    (unboxed : host.boxed p0 = false ∧ host.boxed p1 = false) (plain : ∀ h ∈ ss.filterMap (asHalf p0 p1),host.boxed h.bound = false)
    (s : State W) (numbers : (∃ a,s.store p0 = .num a) ∧ ∃ b,s.store p1 = .num b) :
    ∃ trace,ss.forM (runConst host) s =
      (.ok (),{ s with store := (ss.filterMap (asHalf p0 p1)).foldl bindHalf s.store, trace := trace }) := by
  induction ss,seen using scanHalves.induct p0 p1 generalizing s with
  | case1 seen => exact ⟨s.trace,rfl⟩
  | case2 id init ss seen param isHi found ih =>
    rw [scanHalves,found] at scanned
    have half : asHalf p0 p1 (.let id false (some init)) = some ⟨id,param,isHi⟩ := by rw [asHalf,found]; rfl
    rw [List.filterMap_cons_some half] at plain ⊢
    obtain ⟨a,held⟩ : ∃ a,s.store param = .num a := by
      rcases (isHalfExtract_cases found).1 with rfl | rfl
      · exact numbers.1
      · exact numbers.2
    have free : host.boxed param = false := by
      rcases (isHalfExtract_cases found).1 with rfl | rfl
      · exact unboxed.1
      · exact unboxed.2
    obtain ⟨trace,ran⟩ := yields_half (h := ⟨id,param,isHi⟩) operators found free held
    have bound := declareLocal_unboxed (plain _ (List.mem_cons_self ..)) (.int (a.half isHi)) { s with trace := trace }
    have number (p : LocalId) (known : ∃ b,s.store p = .num b) :
        ∃ b,bindHalf s.store ⟨id,param,isHi⟩ p = .num b := by
      rw [bindHalf]
      by_cases same : p = id
      · subst same
        rw [Function.update_self,held]
        exact ⟨_,rfl⟩
      · rwa [Function.update_of_ne same]
    obtain ⟨trace',rest⟩ := ih scanned (fun h member => plain h (List.mem_cons_of_mem _ member))
      { s with store := bindHalf s.store ⟨id,param,isHi⟩, trace := .declare id (.int (a.half isHi)) :: trace }
      ⟨number p0 numbers.1,number p1 numbers.2⟩
    refine ⟨trace',?_⟩
    change (runConst host (.let id false (some init)) >>= fun _ => ss.forM (runConst host)) s = _
    have first : runConst host (.let id false (some init)) s =
        (.ok (),{ s with store := bindHalf s.store ⟨id,param,isHi⟩, trace := .declare id (.int (a.half isHi)) :: trace }) := by
      rw [runConst,evalOption,Run.bind_ok ran,bindHalf,held]
      exact bound
    rw [Run.bind_ok first]
    exact rest
  | case3 id init ss seen missing =>
    rw [scanHalves,missing] at scanned
    cases scanned
  | case4 ss seen nonempty other =>
    rw [scanHalves] at scanned
    · cases scanned
    · exact nonempty
    · exact other

/-- Ordinary parameters, and no closure under the operand that shares a local of the function. -/
structure Plain (host : Host W) (f : Function) : Prop where
  params : ∀ p ∈ f.params,p.isRest = false ∧ p.argumentsObject = false ∧ host.boxed p.id = false
  consts : ∀ h ∈ halvesOf f,host.boxed h.bound = false

omit operators in
theorem bindParam_number {p : Param} (flat : p.isRest = false ∧ p.argumentsObject = false) {args : List Val} {i : Nat} {a : Hir.Num}
    (given : args.getD i .undefined = .num a) : paramValue host args i p = pure (.num a) := by
  rw [paramValue,flat.1,flat.2,given]
  cases p.default <;> rfl

/-- In an ordinary function the four constants hold half-words of the arguments when the operand is
evaluated. -/
theorem prologue_bound {f : Function} (accepted : detectMathImulPolyfill f = true) (plain : Plain host f) (a b : Hir.Num) (w : W) :
    ∃ trace,prologue host f [.num a,.num b] (start w) = (.ok (),⟨boundStore f a b,w,trace⟩) := by
  obtain ⟨p0,p1,seen,params,scanned⟩ := detect_params accepted
  have flat0 := plain.params p0 (by rw [params]; simp)
  have flat1 := plain.params p1 (by rw [params]; simp)
  have consts := plain.consts
  rw [halvesOf,params] at consts
  rw [boundStore,halvesOf,prologue,params]
  have one := declareLocal_unboxed flat0.2.2 (.num a) (start w)
  have two := declareLocal_unboxed flat1.2.2 (.num b)
    { start w with store := Function.update (start w).store p0.id (.num a), trace := .declare p0.id (.num a) :: (start w).trace }
  have bound : bindParams host [.num a,.num b] 0 [p0,p1] (start w) = (.ok (),
      ⟨Function.update (Function.update (fun _ => .undefined) p0.id (.num a)) p1.id (.num b),w,
        [.declare p1.id (.num b),.declare p0.id (.num a)]⟩) := by
    rw [bindParams,bindParam_number ⟨flat0.1,flat0.2.1⟩ rfl,pure_bind,Run.bind_ok one,
      bindParams,bindParam_number ⟨flat1.1,flat1.2.1⟩ rfl,pure_bind,Run.bind_ok two]
    rfl
  rw [Run.bind_ok bound]
  apply forM_consts operators scanned ⟨flat0.2.2,flat1.2.2⟩ consts
  constructor
  · by_cases same : p0.id = p1.id
    · rw [same]
      exact ⟨b,Function.update_self ..⟩
    · exact ⟨a,(Function.update_of_ne same ..).trans (Function.update_self ..)⟩
  · exact ⟨b,Function.update_self ..⟩

end halves

section examples

def upper (id : LocalId) : Expr := .binary .bitAnd (.binary .ushr (.localGet id) (.integer 16)) (.integer 0xFFFF)

def lower (id : LocalId) : Expr := .binary .bitAnd (.localGet id) (.integer 0xFFFF)

/-- A function of the accepted shape: of the parameters 0 and 1 it binds the upper half-words to 2
and 4 and the lower ones to 3 and 5. -/
def halfwise (inner : Expr) : Function where
  id := 0
  name := "imul"
  params := [{ id := 0 },{ id := 1 }]
  body := [.let 2 false (some (upper 0)),.let 3 false (some (lower 0)),.let 4 false (some (upper 1)),
    .let 5 false (some (lower 1)),.return (some (.binary .bitOr inner (.integer 0)))]

theorem halfwise_accepted (inner : Expr) : detectMathImulPolyfill (halfwise inner) = true := rfl

/-- `al * bl + (((ah * bl + al * bh) << 16) >>> 0)`. -/
def polyfill : Function :=
  halfwise (.binary .add (.binary .mul (.localGet 3) (.localGet 5))
    (.binary .ushr (.binary .shl (.binary .add (.binary .mul (.localGet 2) (.localGet 5))
      (.binary .mul (.localGet 3) (.localGet 4))) (.integer 16)) (.integer 0)))

theorem boundStore_halfwise (inner : Expr) (a b : Hir.Num) :
    boundStore (halfwise inner) a b 2 = .int (a.half true) ∧ boundStore (halfwise inner) a b 3 = .int (a.half false) ∧
      boundStore (halfwise inner) a b 4 = .int (b.half true) ∧ boundStore (halfwise inner) a b 5 = .int (b.half false) :=
  ⟨rfl,rfl,rfl,rfl⟩

end examples

end Perry.Transform.Imul
