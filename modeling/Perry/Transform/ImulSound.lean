import Perry.Transform.ImulBody

/-! The recogniser looks at the four half-words and at the outer `| 0`. The body is `Math.imul`, and
a call of it may be replaced, exactly when the operand in between is the product by half-words. -/
namespace Perry.Transform.Imul

open Perry.Effect Perry.Hir

variable {W : Type} {host : Host W}

section truncation

variable (operators : Operators host)
include operators

theorem or_zero (v : Val) (s u : State W) (r : Val) :
    applyOp host (.binary .bitOr) [v,.int 0] s = (.ok r,u) ↔
      ∃ x,applyOp host .toNumeric [v] s = (.ok (.num x),u) ∧ r = .int x.toInt32.toInt := by
  have word (x : Hir.Num) : applyOp host (.binary .bitOr) [.num x,.int 0] = pure (.int x.toInt32.toInt) := by
    apply operators.bitwise .bitOr x (.int 0)
    change some (x.toInt32 ||| 0#32).toInt = _
    rw [BitVec.or_zero]
  have split : applyOp host (.binary .bitOr) [v,.int 0] =
      applyOp host .toNumeric [v] >>= fun w => applyOp host (.binary .bitOr) [w,.int 0] := by
    rw [operators.converts .bitOr v (.int 0) rfl,numerics]
    simp only [bind_assoc]
    rfl
  rw [split]
  constructor
  · intro ran
    rcases first : applyOp host .toNumeric [v] s with ⟨e | w,t⟩
    · rw [Run.bind_error first] at ran
      cases ran
    · rw [Run.bind_ok first] at ran
      rcases operators.numeric v s w t first with ⟨x,rfl⟩ | ⟨k,rfl⟩
      · rw [word x] at ran
        cases ran
        exact ⟨x,rfl,rfl⟩
      · exact absurd ran (operators.mixed .bitOr k (.int 0) t r u rfl)
  · rintro ⟨x,first,rfl⟩
    rw [Run.bind_ok first,word x]
    rfl

/-- `| 0` takes the operand to a number and cuts it to a word. -/
theorem truncated_iff (e : Expr) (s u : State W) (c : BitVec 32) :
    eval host (.binary .bitOr e (.integer 0)) s = (.ok (.int c.toInt),u) ↔
      ∃ v t x,eval host e s = (.ok v,t) ∧ applyOp host .toNumeric [v] t = (.ok (.num x),u) ∧ x.toInt32 = c := by
  have split : eval host (.binary .bitOr e (.integer 0)) = eval host e >>= fun v => applyOp host (.binary .bitOr) [v,.int 0] := by
    simp only [eval,evalArgs,bind_assoc,pure_bind]
    rfl
  rw [split]
  constructor
  · intro ran
    rcases value : eval host e s with ⟨f | v,t⟩
    · rw [Run.bind_error value] at ran
      cases ran
    · rw [Run.bind_ok value] at ran
      obtain ⟨x,first,same⟩ := (or_zero operators v t u _).mp ran
      refine ⟨v,t,x,rfl,first,?_⟩
      have equal : c.toInt = x.toInt32.toInt := by injection same with same; injection same
      exact (BitVec.toInt_inj.mp equal).symm
  · rintro ⟨v,t,x,value,first,rfl⟩
    rw [Run.bind_ok value]
    exact (or_zero operators v t u _).mpr ⟨x,first,rfl⟩

end truncation

section calls

variable (host)

def Num.Integral : Hir.Num → Prop
  | .int _ | .negZero => True
  | _ => False

/-- The product of two words by half-words. -/
def schoolbook (a b : Hir.Num) : Nat :=
  a.half false * b.half false + (a.half true * b.half false + a.half false * b.half true) * 65536

theorem schoolbook_word (a b : Hir.Num) : BitVec.ofNat 32 (schoolbook a b) = a.toInt32 * b.toInt32 :=
  ofNat_halves a.toInt32 b.toInt32

/-- The operand is the product by half-words, and finding it changes nothing. -/
def Schoolbook (f : Function) : Prop :=
  ∀ a b w,Num.Integral a → Num.Integral b → ∃ s v t x u,prologue host f [.num a,.num b] (start w) = (.ok (),s) ∧
    eval host (operand f) s = (.ok v,t) ∧ applyOp host .toNumeric [v] t = (.ok (.num x),u) ∧ u.world = w ∧
    x.toInt32 = .ofNat 32 (schoolbook a b)

/-- The body answers what `Math.imul` does. -/
def ReturnsImul (mode : Mode) (n : Nat) (f : Function) : Prop :=
  ∀ a b w,Num.Integral a → Num.Integral b →
    (activation host mode n f.code [.num a,.num b] (start w)).1 = .error (.return (.int (a.toInt32 * b.toInt32).toInt))

/-- What a call gives when the body of the callee ended so. -/
def answer (r : Except Comp Unit × State W) : Except Signal Val × W :=
  match r.1 with
  | .ok _ => (.ok .undefined,r.2.world)
  | .error (.return v) => (.ok v,r.2.world)
  | .error (.throw v) => (.error (.throw v),r.2.world)
  | .error _ => (.error .halt,r.2.world)

def imulIds (fs : List Function) (id : FuncId) : Bool := fs.any fun f => detectMathImulPolyfill f && f.id == id

/-- A call of an accepted function on integers runs its body. Calls on other operands are left out:
there the two operations may as well be one. -/
structure Calls (mode : Mode) (n : Nat) (fs : List Function) : Prop where
  runs : ∀ f ∈ fs,detectMathImulPolyfill f = true → ∀ a b w,Num.Integral a → Num.Integral b →
    host.op .call [.func f.id,.num a,.num b] w = answer (activation host mode n f.code [.num a,.num b] (start w))
  others : ∀ f ∈ fs,detectMathImulPolyfill f = true → ∀ v w,
    (¬∃ a b,v = .num a ∧ w = .num b ∧ Num.Integral a ∧ Num.Integral b) →
      host.op .call [.func f.id,v,w] = host.op (.variant 210) [v,w]

/-- Equal locals and worlds. -/
abbrev Same : State W → State W → Prop := AgreesOn (fun _ => True) fun _ => none

end calls

section answers

variable {mode : Mode} {n : Nat} {f : Function} {fs : List Function}

theorem returned_iff (accepted : detectMathImulPolyfill f = true) (args : List Val) (s u : State W) (v : Val) :
    activation host mode n f.code args s = (.error (.return v),u) ↔ result host f args s = (.ok v,u) := by
  rw [activation_result host mode n accepted args,Run.bind_apply,perform,Run.mapError]
  rcases result host f args s with ⟨e | w,t⟩
  · cases e <;> simp [Signal.comp]
  · simp [Run.raise]

variable (operators : Operators host)
include operators

theorem result_iff (args : List Val) (s u : State W) (c : BitVec 32) :
    result host f args s = (.ok (.int c.toInt),u) ↔ ∃ t v q x,prologue host f args s = (.ok (),t) ∧
      eval host (operand f) t = (.ok v,q) ∧ applyOp host .toNumeric [v] q = (.ok (.num x),u) ∧ x.toInt32 = c := by
  rw [result]
  constructor
  · intro ran
    rcases bound : prologue host f args s with ⟨e | _,t⟩
    · rw [Run.bind_error bound] at ran
      cases ran
    · rw [Run.bind_ok bound] at ran
      obtain ⟨v,q,x,rest⟩ := (truncated_iff operators (operand f) t u c).mp ran
      exact ⟨t,v,q,x,rfl,rest⟩
  · rintro ⟨t,v,q,x,bound,rest⟩
    rw [Run.bind_ok bound]
    exact (truncated_iff operators (operand f) t u c).mpr ⟨v,q,x,rest⟩

theorem Schoolbook.returns (schoolbook : Schoolbook host f) (accepted : detectMathImulPolyfill f = true) (mode : Mode) (n : Nat)
    {a b : Hir.Num} (left : Num.Integral a) (right : Num.Integral b) (w : W) :
    ∃ u,activation host mode n f.code [.num a,.num b] (start w) =
      (.error (.return (.int (a.toInt32 * b.toInt32).toInt)),u) ∧ u.world = w := by
  obtain ⟨s,v,t,x,u,bound,value,number,kept,word⟩ := schoolbook a b w left right
  rw [schoolbook_word] at word
  refine ⟨u,?_,kept⟩
  rw [returned_iff accepted,result_iff operators]
  exact ⟨s,v,t,x,bound,value,number,word⟩

/-- Every call of a function that is the product by half-words is `Math.imul`. -/
theorem Schoolbook.call_imul (schoolbook : Schoolbook host f) (calls : Calls host mode n fs) (member : f ∈ fs)
    (accepted : detectMathImulPolyfill f = true) (v w : Val) :
    applyOp host .call [.func f.id,v,w] = applyOp host (.variant 210) [v,w] := by
  by_cases integers : ∃ a b,v = .num a ∧ w = .num b ∧ Num.Integral a ∧ Num.Integral b
  · obtain ⟨a,b,rfl,rfl,left,right⟩ := integers
    rw [operators.imul a b]
    funext s
    obtain ⟨u,ran,kept⟩ := schoolbook.returns operators accepted mode n left right s.world
    have called := calls.runs f member accepted a b s.world left right
    rw [ran,answer,kept] at called
    change Host.lift (host.op .call [.func f.id,.num a,.num b]) s = _
    rw [Host.lift,called]
    rfl
  · change Host.lift (host.op .call [.func f.id,v,w]) = Host.lift (host.op (.variant 210) [v,w])
    rw [calls.others f member accepted v w integers]

end answers

section standard

variable (operators : Operators host)
include operators

omit operators in
theorem half_lt (a : Hir.Num) (isHi : Bool) : a.half isHi < 65536 := by
  have word := a.toInt32.isLt
  cases isHi with
  | false => exact Nat.mod_lt _ (by decide)
  | true =>
    change a.toInt32.toNat / 65536 < 65536
    omega

theorem yields_mul {left right : Expr} {s : State W} {x y : Nat} (first : Yields (eval host left) s (.ok (.int x)))
    (second : ∀ trace,Yields (eval host right) { s with trace := trace } (.ok (.int y))) (small : x < 65536 ∧ y < 65536) :
    Yields (eval host (.binary .mul left right)) s (.ok (.int (x * y : Nat))) := by
  apply yields_binary first second
  have bound : x * y < 65536 * 65536 := Nat.mul_lt_mul'' small.1 small.2
  have exact : ((x : Int) * y).natAbs ≤ maxExact := by
    rw [← Int.natCast_mul,Int.natAbs_natCast,maxExact]
    omega
  rw [Int.natCast_mul]
  exact operators.mul x y exact

omit operators in
theorem yields_add {left right : Expr} {s : State W} {x y : Nat} (first : Yields (eval host left) s (.ok (.int x)))
    (second : ∀ trace,Yields (eval host right) { s with trace := trace } (.ok (.int y))) (small : x + y ≤ maxExact) :
    Yields (eval host (.binary .add left right)) s (.ok (.int (x + y : Nat))) := by
  apply yields_binary first second
  have exact : ((x : Int) + y).natAbs ≤ maxExact := by omega
  have sum : Op.pure? (.binary .add) [.int x,.int y] = some (.int (x + y : Nat)) := by
    change exactInt ((x : Int) + y) = _
    rw [exactInt,if_pos exact,Int.natCast_add]
  rw [applyOp,sum]

/-- Shifted up by a half-word and read as unsigned. -/
theorem yields_shifted {e : Expr} {s : State W} {c : Nat} (value : Yields (eval host e) s (.ok (.int c))) :
    Yields (eval host (.binary .ushr (.binary .shl e (.integer 16)) (.integer 0))) s (.ok (.int (c * 65536 % 2 ^ 32 : Nat))) := by
  have places (trace : List Event) : Yields (eval host (.integer 16)) { s with trace := trace } (.ok (.int 16)) := yields_lit _ _
  have zero (trace : List Event) : Yields (eval host (.integer 0)) { s with trace := trace } (.ok (.int 0)) := yields_lit _ _
  have word : (Hir.Num.int c).toInt32 = BitVec.ofNat 32 c := BitVec.ofInt_natCast 32 c
  have half : (Hir.Num.int 16).toInt32 = 16#32 := by decide
  have none : (Hir.Num.int 0).toInt32 = 0#32 := by decide
  have raised : BinaryOp.bits .shl (Hir.Num.int c).toInt32 (Hir.Num.int 16).toInt32 = some (BitVec.ofNat 32 c <<< 16).toInt := by
    rw [word,half]
    rfl
  have up := yields_binary value places (operators.bitwise .shl (.int c) (.int 16) _ raised)
  apply yields_binary up zero
  apply operators.bitwise .ushr
  rw [toInt32_toInt,none]
  change some ((((BitVec.ofNat 32 c <<< 16) >>> 0).toNat : Nat) : Int) = _
  rw [BitVec.ushiftRight_zero,BitVec.toNat_shiftLeft,BitVec.toNat_ofNat,Nat.shiftLeft_eq,Nat.mod_mul_mod]

/-- The usual polyfill is right, whatever numbers it is given. -/
theorem polyfill_schoolbook (plain : Plain host polyfill) : Schoolbook host polyfill := by
  intro a b w _ _
  obtain ⟨trace,bound⟩ := prologue_bound operators (halfwise_accepted _) plain a b w
  obtain ⟨upperA,lowerA,upperB,lowerB⟩ := boundStore_halfwise (operand polyfill) a b
  have ah := half_lt a true
  have al := half_lt a false
  have bh := half_lt b true
  have bl := half_lt b false
  have read (h : Half) (member : h ∈ halvesOf polyfill) (k : Int) (held : boundStore polyfill a b h.bound = .int k) (trace : List Event) :
      Yields (eval host (.localGet h.bound)) ⟨boundStore polyfill a b,w,trace⟩ (.ok (.int k)) :=
    held ▸ yields_temp (plain.consts h member) ⟨boundStore polyfill a b,w,trace⟩
  have two := read ⟨2,0,true⟩ (.head _) (a.half true) upperA
  have three := read ⟨3,0,false⟩ (.tail _ (.head _)) (a.half false) lowerA
  have four := read ⟨4,1,true⟩ (.tail _ (.tail _ (.head _))) (b.half true) upperB
  have five := read ⟨5,1,false⟩ (.tail _ (.tail _ (.tail _ (.head _)))) (b.half false) lowerB
  have low := yields_mul operators (three trace) five ⟨al,bl⟩
  have cross (trace : List Event) := yields_add (yields_mul operators (two trace) five ⟨ah,bl⟩)
    (fun trace => yields_mul operators (three trace) four ⟨al,bh⟩) (by
      have one : a.half true * b.half false < 65536 * 65536 := Nat.mul_lt_mul'' ah bl
      have other : a.half false * b.half true < 65536 * 65536 := Nat.mul_lt_mul'' al bh
      rw [maxExact]
      omega)
  have reduced (c : Nat) : c * 65536 % 2 ^ 32 < 2 ^ 32 := Nat.mod_lt _ (by decide)
  have low' : a.half false * b.half false < 65536 * 65536 := Nat.mul_lt_mul'' al bl
  have sum := yields_add low (fun trace => yields_shifted operators (cross trace)) (by
    have small := reduced (a.half true * b.half false + a.half false * b.half true)
    rw [maxExact]
    omega)
  obtain ⟨last,value⟩ := sum
  refine ⟨_,_,_,_,_,bound,value,rfl,rfl,?_⟩
  apply BitVec.eq_of_toNat_eq
  rw [Hir.Num.toInt32,BitVec.ofInt_natCast,BitVec.toNat_ofNat,BitVec.toNat_ofNat,schoolbook,Nat.add_mod_mod]

end standard

section rewriting

variable {ids : FuncId → Bool}
  (same : ∀ id,ids id = true → ∀ v w,applyOp host .call [.func id,v,w] = applyOp host (.variant 210) [v,w])
include same

omit same in
theorem evalArgs_rewrite {args : List Expr} (each : ∀ a ∈ args,eval host (rewriteExpr ids a) = eval host a) :
    evalArgs host (rewriteArgs ids args) = evalArgs host args := by
  induction args with
  | nil => rfl
  | cons a args ih =>
    rw [rewriteArgs,evalArgs,evalArgs,each a (List.mem_cons_self ..),ih fun b member => each b (List.mem_cons_of_mem a member)]

omit same in
theorem rewriteExpr_strict {op : Op} {args : List Expr} (other : ¬∃ id a b,Expr.strict op args = .call (.funcRef id) [a,b]) :
    rewriteExpr ids (.strict op args) = .strict op args ∨ rewriteExpr ids (.strict op args) = .strict op (rewriteArgs ids args) := by
  rw [rewriteExpr.eq_def]
  split
  · rename_i id a b shape
    exact absurd ⟨id,a,b,shape⟩ other
  · rename_i op' args' _ shape
    cases shape
    split
    all_goals first | exact .inr rfl | exact .inl rfl
  all_goals first | exact .inl rfl | contradiction

theorem eval_rewrite (e : Expr) : eval host (rewriteExpr ids e) = eval host e := by
  induction e using Expr.induct with
  | strict op args ih =>
    by_cases call : ∃ id a b,Expr.strict op args = .call (.funcRef id) [a,b]
    · obtain ⟨id,a,b,shape⟩ := call
      cases shape
      have left := ih a (by simp)
      have right := ih b (by simp)
      have callee : eval host (.funcRef id) = pure (.func id) := rfl
      rw [rewriteExpr]
      split_ifs with known
      · rw [eval,eval,evalArgs,evalArgs,evalArgs,evalArgs,evalArgs,callee]
        simp only [evalArgs,left,right,bind_assoc,pure_bind,same id known]
      · simp only [eval,evalArgs,left,right]
    · rcases rewriteExpr_strict call with kept | walked
      · rw [kept]
      · rw [walked,eval,eval,evalArgs_rewrite ih]
  | logical op left right ihl ihr => simp only [rewriteExpr,eval,ihl,ihr]
  | conditional c t e ihc iht ihe => simp only [rewriteExpr,eval,ihc,iht,ihe]
  | localSet id value ih => simp only [rewriteExpr,eval,ih]
  | _ => rfl

omit same in
theorem framed_same : Framed (W := W) (fun _ => True) Same :=
  @framed_agreesOn W (fun _ => True) (fun _ => none) fun _ _ none => nomatch none

omit same in
theorem rewriteStmts_eq_map (ss : List Stmt) : rewriteStmts ids ss = ss.map (rewriteStmt ids) := by
  induction ss with
  | nil => rfl
  | cons s ss ih => rw [rewriteStmts,ih,List.map_cons]

theorem evalTest_rewrite (c : Expr) : evalTest host (rewriteExpr ids c) = evalTest host c := by
  rw [evalTest,evalTest,eval_rewrite same]

variable (mode : Mode) (n : Nat)

theorem exec_rewrite (s : Stmt) (labels : List String) :
    Keeps Same (exec host mode n labels s) (exec host mode n labels (rewriteStmt ids s)) := by
  have framed : Framed (fun _ => True) (Same (W := W)) := framed_same
  have members (ss : List Stmt) (each : ∀ s ∈ ss,∀ labels,
      Keeps Same (exec host mode n labels s) (exec host mode n labels (rewriteStmt ids s))) (labels : List String) :
      Keeps Same (execList host mode n labels ss) (execList host mode n labels (rewriteStmts ids ss)) := by
    rw [rewriteStmts_eq_map]
    apply Keeps.execList
    exact List.forall₂_map_right_iff.mpr (List.forall₂_same.mpr fun s member => each s member labels)
  have whole (s : Stmt) (labels : List String) : Keeps Same (exec host mode n labels s) (exec host mode n labels s) :=
    framed.exec host mode n (fun _ _ => trivial) labels
  have tests (c : Expr) : Keeps Same (evalTest host c) (evalTest host (rewriteExpr ids c)) := by
    rw [evalTest_rewrite same]
    exact framed.evalTest host fun _ _ => trivial
  induction s using Stmt.induct generalizing labels with
  | letSome id m e =>
    rw [rewriteStmt,exec,exec,evalOption,evalOption,eval_rewrite same]
    exact whole (.let id m (some e)) labels
  | expr e =>
    rw [rewriteStmt,exec,exec,eval_rewrite same]
    exact whole (.expr e) labels
  | returnStmt value =>
    cases value with
    | none => exact whole (.return none) labels
    | some e =>
      rw [rewriteStmt,exec,exec,evalOption,evalOption,eval_rewrite same]
      exact whole (.return (some e)) labels
  | ifStmt c t e iht ihe =>
    rw [rewriteStmt,exec_if,exec_if,rewriteBlock_getD]
    apply (Keeps.perform (tests c)).bind
    intro v
    exact Keeps.ite (fun _ => members t iht labels) fun _ => members (e.getD []) ihe labels
  | whileStmt c b ih => exact framed.whileLoop (tests c) (members b ih []) (Keeps.pure ()) n
  | doWhile b c ih => exact framed.doWhileLoop (members b ih []) (tests c) n
  | forStmt i c u b ihi ihb =>
    have first : Keeps Same (execOption host mode n i) (execOption host mode n (rewriteInit ids i)) := by
      cases i with
      | none => exact Keeps.pure ()
      | some s => exact ihi s rfl []
    have test : Keeps Same (evalTest? host c) (evalTest? host (c.map (rewriteExpr ids))) := by
      cases c with
      | none => exact Keeps.pure true
      | some c => exact tests c
    have update : Keeps Same (evalDiscard host u) (evalDiscard host (u.map (rewriteExpr ids))) := by
      cases u with
      | none => exact Keeps.pure ()
      | some u =>
        rw [Option.map_some,evalDiscard,evalDiscard,eval_rewrite same]
        exact (framed.eval host fun _ _ => trivial).bind fun _ => Keeps.pure ()
    exact first.bind fun _ => framed.whileLoop test (members b ihb []) update n
  | throwStmt e =>
    rw [rewriteStmt,exec,exec,eval_rewrite same]
    exact whole (.throw e) labels
  | _ => exact whole _ labels

theorem execList_rewrite (ss : List Stmt) (labels : List String) :
    Keeps Same (execList host mode n labels ss) (execList host mode n labels (rewriteStmts ids ss)) := by
  rw [rewriteStmts_eq_map]
  apply Keeps.execList
  exact List.forall₂_map_right_iff.mpr (List.forall₂_same.mpr fun s _ => exec_rewrite same mode n s labels)

end rewriting

section sound

variable {mode : Mode} {n : Nat} {fs : List Function}

theorem imulIds_iff {id : FuncId} : imulIds fs id = true ↔ ∃ f ∈ fs,detectMathImulPolyfill f = true ∧ f.id = id := by
  simp [imulIds]

theorem exec_expr {e : Expr} {v : Val} {s u : State W} (value : eval host e s = (.ok v,u)) :
    exec host mode n [] (.expr e) s = (.ok (),u) := by
  rw [exec]
  apply perform_ok (a := ())
  rw [Run.bind_ok value]
  rfl

/-- The world a call leaves, seen through the statement that makes it and the one that replaces it. -/
theorem called_world (operators : Operators host) (calls : Calls host mode n fs) {f : Function} (member : f ∈ fs)
    (accepted : detectMathImulPolyfill f = true) {a b : Hir.Num} (left : Num.Integral a) (right : Num.Integral b) {v : Val} {w : W} {u : State W}
    (returned : activation host mode n f.code [.num a,.num b] (start w) = (.error (.return v),u))
    (keeps : ∀ ss labels,Keeps Same (execList host mode n labels ss) (execList host mode n labels (rewriteStmts (imulIds fs) ss))) :
    u.world = w := by
  have known : imulIds fs f.id = true := imulIds_iff.mpr ⟨f,member,accepted,rfl⟩
  have rewritten : rewriteStmts (imulIds fs) [.expr (.call (.funcRef f.id) [.number a,.number b])] =
      [.expr (mathImul (.number a) (.number b))] := by
    rw [rewriteStmts,rewriteStmts,rewriteStmt,rewriteExpr,if_pos known]
    rfl
  have called := calls.runs f member accepted a b w left right
  rw [returned] at called
  have before : eval host (.call (.funcRef f.id) [.number a,.number b]) (start w) = (.ok v,{ start w with world := u.world }) := by
    change Host.lift (host.op .call [.func f.id,.num a,.num b]) (start w) = _
    unfold Host.lift
    rw [show (start w).world = w from rfl,called]
    rfl
  have after : eval host (mathImul (.number a) (.number b)) (start w) = (.ok (.int (a.toInt32 * b.toInt32).toInt),start w) := by
    change applyOp host (.variant 210) [.num a,.num b] (start w) = _
    rw [operators.imul a b]
    rfl
  have same : Same (start w) (start w) := ⟨fun _ _ => rfl,rfl,fun _ _ none => by cases none⟩
  have agrees := ((keeps [.expr (.call (.funcRef f.id) [.number a,.number b])] []).apply same).2.worlds
  rw [rewritten,execList_singleton,execList_singleton,exec_expr before,exec_expr after] at agrees
  exact agrees

/-- The accepted functions are `Math.imul`, and their calls may be replaced, exactly when each is the
product by half-words. -/
theorem replaced_iff (operators : Operators host) (calls : Calls host mode n fs) :
    ((∀ f ∈ fs,detectMathImulPolyfill f = true → ReturnsImul host mode n f) ∧
        ∀ ss labels,Keeps Same (execList host mode n labels ss) (execList host mode n labels (rewriteStmts (imulIds fs) ss))) ↔
      ∀ f ∈ fs,detectMathImulPolyfill f = true → Schoolbook host f := by
  constructor
  · rintro ⟨returns,keeps⟩ f member accepted a b w left right
    have returned := returns f member accepted a b w left right
    rcases ran : activation host mode n f.code [.num a,.num b] (start w) with ⟨r,u⟩
    rw [ran] at returned
    cases returned
    have kept := called_world operators calls member accepted left right ran keeps
    rw [returned_iff accepted,result_iff operators] at ran
    obtain ⟨t,v,q,x,bound,value,number,word⟩ := ran
    exact ⟨t,v,q,x,u,bound,value,number,kept,word.trans (schoolbook_word a b).symm⟩
  · intro schoolbook
    constructor
    · intro f member accepted a b w left right
      obtain ⟨u,ran,_⟩ := (schoolbook f member accepted).returns operators accepted mode n left right w
      rw [ran]
    · intro ss labels
      refine execList_rewrite ?_ mode n ss labels
      intro id known v w
      obtain ⟨f,member,accepted,rfl⟩ := imulIds_iff.mp known
      exact (schoolbook f member accepted).call_imul operators calls member accepted v w

end sound

section numeric

def asNumeric : Val → Val
  | .num a => .num a
  | .bigInt n => .bigInt n
  | _ => .num .nan

def compute : Op → List Val → Except Signal Val
  | .toNumeric,[v] => .ok (asNumeric v)
  | .binary op,[v,w] =>
    match asNumeric v,asNumeric w with
    | .num a,.num b =>
      match BinaryOp.bits op a.toInt32 b.toInt32 with
      | some k => .ok (.int k)
      | none =>
        match op,a,b with
        | .mul,.int a,.int b => .ok (.int (a * b))
        | _,_,_ => .ok (.num .nan)
    | _,_ => .error .halt
  | .variant 210,[.num a,.num b] | .call,[.func _,.num a,.num b] => .ok (.int (a.toInt32 * b.toInt32).toInt)
  | _,_ => .error .halt

/-- A host without effects in which every call is `Math.imul`. -/
def numeric : Host Unit where
  boxed _ := false
  readBox _ := Run.raise .halt
  writeBox _ _ := Run.raise .halt
  declareBox _ _ := Run.raise .halt
  allocateBox _ _ := Run.raise .halt
  releaseBox _ := Run.raise .halt
  op op vs := fun w => (compute op vs,w)
  closure _ _ _ := Run.raise .halt
  refuseWith _ _ := Run.raise .halt
  await _ := Run.raise .halt
  yield _ _ := Run.raise .halt

theorem bits_isSome (op : BinaryOp) (a b : BitVec 32) : (op.bits a b).isSome = (op.bits 0 0).isSome := by
  cases op <;> rfl

theorem applyOp_numeric {op : Op} {vs : List Val} {v : Val} (hosted : op.pure? vs = none) (computed : compute op vs = .ok v) :
    applyOp numeric op vs = pure v := by
  rw [applyOp,hosted]
  funext s
  change Host.lift (fun w => (compute op vs,w)) s = _
  unfold Host.lift
  rw [computed]
  rfl

theorem pure?_bits {op : BinaryOp} (bits : (op.bits 0 0).isSome = true) (vs : List Val) : Op.pure? (.binary op) vs = none := by
  cases op <;> first | exact absurd bits (by decide) | simp [Op.pure?]

theorem numeric_operators : Operators numeric where
  bitwise op a b k found := by
    have bits : (op.bits 0 0).isSome = true := by rw [← bits_isSome op a.toInt32 b.toInt32,found]; rfl
    apply applyOp_numeric (pure?_bits bits _)
    rw [compute,asNumeric,asNumeric]
    simp only [found]
  converts op v w bits := by
    have converted (v : Val) : applyOp numeric .toNumeric [v] = pure (asNumeric v) := by
      cases v <;> rfl
    have twice (v : Val) : asNumeric (asNumeric v) = asNumeric v := by
      cases v <;> rfl
    have same : compute (.binary op) [v,w] = compute (.binary op) [asNumeric v,asNumeric w] := by
      rw [compute,compute,twice,twice]
    rw [numerics,converted,converted,pure_bind,pure_bind,pure_bind,applyOp,applyOp,pure?_bits bits,pure?_bits bits]
    change Host.lift (fun u => (compute (.binary op) [v,w],u)) = Host.lift fun u => (compute (.binary op) [asNumeric v,asNumeric w],u)
    rw [same]
  mixed op n b s r t bits ran := by
    rw [applyOp,pure?_bits bits] at ran
    cases ran
  numeric v s r t ran := by
    cases v <;> cases ran
    all_goals first | exact .inl ⟨_,rfl⟩ | exact .inr ⟨_,rfl⟩
  mul a b _ := applyOp_numeric rfl rfl
  imul a b := applyOp_numeric rfl rfl

theorem polyfill_plain : Plain numeric polyfill where
  params p member := by
    rcases List.mem_pair.mp member with rfl | rfl
    · exact ⟨rfl,rfl,rfl⟩
    · exact ⟨rfl,rfl,rfl⟩
  consts _ _ := rfl

theorem polyfill_calls : Calls numeric .ecma 0 [polyfill] where
  runs f member accepted a b w left right := by
    obtain rfl := List.mem_singleton.mp member
    obtain ⟨u,ran,_⟩ := (polyfill_schoolbook numeric_operators polyfill_plain).returns numeric_operators accepted .ecma 0 left right w
    rw [ran]
    rfl
  others f member accepted v w other := by
    funext s
    cases v <;> cases w <;> rfl

theorem polyfill_replaced : (∀ f ∈ [polyfill],detectMathImulPolyfill f = true → ReturnsImul numeric .ecma 0 f) ∧
    ∀ ss labels,Keeps Same (execList numeric .ecma 0 labels ss) (execList numeric .ecma 0 labels (rewriteStmts (imulIds [polyfill]) ss)) :=
  (replaced_iff numeric_operators polyfill_calls).mpr fun _ member _ =>
    List.mem_singleton.mp member ▸ polyfill_schoolbook numeric_operators polyfill_plain

/-- `(al + bl) | 0`. -/
def sumOfLower : Function := halfwise (.binary .add (.localGet 3) (.localGet 5))

/-- The sum of the lower half-words is taken for `Math.imul`; of 3 and 5 it makes 8. -/
theorem sumOfLower_accepted : Operators numeric ∧ detectMathImulPolyfill sumOfLower = true ∧
    (activation numeric .ecma 0 sumOfLower.code [.int 3,.int 5] (start ())).1 = .error (.return (.int 8)) ∧
    (eval numeric (mathImul (.number (.int 3)) (.number (.int 5))) (start ())).1 = .ok (.int 15) :=
  ⟨numeric_operators,rfl,by decide,by decide⟩

end numeric

end Perry.Transform.Imul
