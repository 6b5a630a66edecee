import Perry.Codegen.NotBigInt
import Perry.Hir.Frame

/-! A judged expression gives a primitive value that is no BigInt, as long as the locals hold what
their declared types claim. -/
namespace Perry.Codegen.NotBigInt

open Perry.Effect Perry.Hir

section values

/-- A primitive value that is no BigInt. -/
def Plain : Val → Prop
  | .bigInt _ | .func _ | .ref _ => False
  | _ => True

def Numeric : Val → Prop
  | .num _ | .bigInt _ => True
  | _ => False

/-- What a byte read may be keyed by: out of range, a byte read itself gives `undefined`. -/
def Key (v : Val) : Prop := Numeric v ∨ v = .undefined

variable (elements : Val → Prop)

/-- The values of a declared type; `elements` are the arrays that hold only numbers. -/
def Ty.Admits (t : Ty) (v : Val) : Prop :=
  match t with
  | .number | .int32 => ∃ n,v = .num n
  | .boolean => ∃ b,v = .bool b
  | .string | .stringLiteral _ => ∃ s,v = .str s
  | t => t.holdsNumbers = true → elements v

variable (types : Types)

def Types.Declares (id : LocalId) (t : Ty) : Prop :=
  types.bindingTypes id = some t ∨ (id,t) ∈ types.params ∨ t ∈ types.declared id

/-- The local has not been assigned, or holds what its declared types claim. -/
def Claims (id : LocalId) (v : Val) : Prop := v = .undefined ∨ ∀ t,types.Declares id t → t.Admits elements v

variable {elements types} {id : LocalId} {v : Val}

theorem lookup_declares {t : Ty} (found : types.lookup id = some t) : types.Declares id t := by
  unfold Types.lookup at found
  rcases Option.or_eq_some_iff.mp found with binding | ⟨_,param⟩
  · exact .inl binding
  · obtain ⟨p,first,rfl⟩ := Option.map_eq_some_iff.mp param
    obtain rfl : p.1 = id := by simpa using List.find?_some first
    exact .inr (.inl (List.mem_of_find?_eq_some first))

theorem Claims.plain (claims : Claims elements types id v) (trusted : typeIsNotBigInt (types.lookup id) = true) : Plain v := by
  rcases claims with rfl | admits
  · trivial
  · unfold typeIsNotBigInt at trusted
    split at trusted
    · rename_i t found
      have admitted := admits t (lookup_declares found)
      unfold Ty.isNotBigInt at trusted
      unfold Ty.Admits at admitted
      split at trusted
      all_goals first | (obtain ⟨_,rfl⟩ := admitted; trivial) | cases trusted
    · cases trusted

theorem indexReceiver_cases {lookup : LocalId → Option Ty} {object : Expr} (numbers : indexReceiverIsNumeric lookup object = true) :
    ∃ id t,object = .localGet id ∧ lookup id = some t ∧ t.holdsNumbers = true := by
  unfold indexReceiverIsNumeric at numbers
  split at numbers
  · rename_i id
    split at numbers
    · rename_i t found
      exact ⟨id,t,rfl,found,numbers⟩
    · cases numbers
  · cases numbers

theorem Claims.element (claims : Claims elements types id v) {t : Ty} (found : types.lookup id = some t)
    (numbers : t.holdsNumbers = true) : v = .undefined ∨ elements v := by
  rcases claims with rfl | admits
  · exact .inl rfl
  · have admitted := admits t (lookup_declares found)
    unfold Ty.Admits at admitted
    split at admitted
    all_goals first | exact .inr (admitted numbers) | cases numbers

theorem Claims.key (claims : Claims elements types id v) {stmts : List Stmt} (numeric : numericTypedLocals types stmts id = true) :
    Key v := by
  have number {t : Ty} (declares : types.Declares id t) (isNumber : t.isNumber = true) : Key v := by
    rcases claims with rfl | admits
    · exact .inr rfl
    · have admitted := admits t declares
      unfold Ty.isNumber at isNumber
      unfold Ty.Admits at admitted
      split at isNumber
      all_goals first | (obtain ⟨_,rfl⟩ := admitted; exact .inl trivial) | cases isNumber
  simp only [numericTypedLocals,Bool.or_eq_true,Bool.and_eq_true,List.any_eq_true,Option.any_eq_true] at numeric
  rcases numeric with (⟨t,binding,isNumber⟩ | ⟨⟨x,t⟩,member,same,isNumber⟩) | ⟨_,t,member,isNumber⟩
  · exact number (.inl binding) isNumber
  · obtain rfl : x = id := by simpa using same
    exact number (.inr (.inl member)) isNumber
  · exact number (.inr (.inr member)) isNumber

end values

section laws

variable {W : Type} (elements : Val → Prop) (host : Host W)

def Answers (op : Op) (vs : List Val) (r : Val) : Prop := ∃ w,(host.op op vs w).1 = .ok r

/-- What the operators the collector judges answer, where they answer at all: BigInts and other
values are never mixed, and a byte array keeps nothing under the keys numbers and `undefined` name
but bytes. -/
structure Lawful : Prop where
  binary : ∀ op v w r,Plain v ∨ Plain w → Answers host (.binary op) [v,w] r → Plain r
  arithmetic : ∀ op v w r,(op = .add → Key v ∧ Key w) → Answers host (.binary op) [v,w] r → Numeric r
  unary : ∀ op v r,op ≠ .not → Answers host (.unary op) [v] r → Numeric r ∧ (Plain v ∨ op = .pos → Plain r)
  toNumeric : ∀ v r,Answers host .toNumeric [v] r → Numeric r ∧ (Plain v → Plain r)
  compare : ∀ op vs r,Answers host (.compare op) vs r → Plain r
  produced : ∀ tag ∈ producerTags,∀ vs r,Answers host (.variant tag) vs r → Plain r
  math : ∀ tag ∈ 326 :: 316 :: mathTags,∀ vs r,Answers host (.variant tag) vs r → Numeric r
  numberCoerce : ∀ vs r,Answers host (.variant 553) vs r → ∃ n,r = .num n
  bufferByte : ∀ vs r,Answers host (.variant 322) vs r → Plain r ∧ Key r
  byte : ∀ array key r,Key key → Answers host (.variant 327) [array,key] r → Plain r ∧ Key r
  element : ∀ array key r,array = .undefined ∨ elements array → Answers host .indexGet [array,key] r → Plain r

variable {elements host}

/-- An operator gives what it is computed or answered to give. -/
theorem applyOp_gives {op : Op} {vs : List Val} {Q : Val → Prop} (computed : ∀ r,op.pure? vs = some r → Q r)
    (answered : ∀ r,Answers host op vs r → Q r) {s t : State W} {r : Val} (ran : applyOp host op vs s = (.ok r,t)) : Q r := by
  cases found : op.pure? vs with
  | some v =>
    rw [applyOp,found] at ran
    cases ran
    exact computed r found
  | none =>
    rw [applyOp,found] at ran
    change Host.lift (host.op op vs) s = _ at ran
    unfold Host.lift at ran
    rcases asked : host.op op vs s.world with ⟨e | a,w⟩
    · rw [asked] at ran
      cases ran
    · rw [asked] at ran
      cases ran
      exact answered r ⟨s.world,by rw [asked]⟩

end laws

section traces

variable {W : Type} {host : Host W}

theorem lift_final {α : Type} (m : Run W Signal α) (s : State W) : (Host.lift m s).2 = { s with world := (m s.world).2 } := by
  unfold Host.lift
  rcases m s.world with ⟨e | a,w⟩
  · rfl
  · rfl

variable {P : List Event → Prop}

theorem trace_lift {α : Type} (m : Run W Signal α) : Maintains (fun s => P s.trace) (Host.lift m) := by
  apply Maintains.of_final
  intro s holds
  rw [lift_final]
  exact holds

theorem trace_assign (grows : ∀ e trace,P trace → P (e :: trace)) (e : Event) (x : LocalId) (v : Val) (m : Run W Signal Unit) :
    Maintains (fun s => P s.trace) (emit e >>= fun _ => if host.boxed x then Host.lift m else setStore x v : Eval W Unit) := by
  apply Maintains.bind (.of_final fun s holds => grows e s.trace holds)
  intro _
  apply Maintains.ite (trace_lift m)
  exact .of_final fun s holds => holds

/-- What more events cannot undo, nothing undoes. -/
theorem steady_trace (grows : ∀ e trace,P trace → P (e :: trace)) : Steady host (fun _ => False) fun s => P s.trace where
  read id := by
    apply Maintains.bind (.of_final fun s holds => grows (.read id) s.trace holds)
    intro _
    apply Maintains.ite (trace_lift _)
    exact .of_final fun s holds => holds
  write x v _ := trace_assign grows (.write x v) x v (host.writeBox x v)
  declare x v _ := trace_assign grows (.declare x v) x v (host.declareBox x v)
  ask _ := trace_lift _
  suspend := .of_final fun s holds => grows .suspend s.trace holds
  iteration body := .of_final fun s holds => grows (.iteration body) s.trace holds

/-- The value an event gives a local. -/
def given : Event → Option (LocalId × Val)
  | .declare x v | .write x v => some (x,v)
  | _ => none

variable (elements : Val → Prop) (types : Types) (host) (set : LocalId → Prop)

/-- Every local was given what its declared types claim. -/
def Typed (trace : List Event) : Prop := ∀ e ∈ trace,∀ x v,given e = some (x,v) → Claims elements types x v

structure Good (s : State W) : Prop where
  given : ∀ e ∈ s.trace,∀ x v,given e = some (x,v) → set x → Plain v
  held : ∀ x,set x → host.boxed x = false → Plain (s.store x)
  claims : ∀ x,host.boxed x = false → Claims elements types x (s.store x)

/-- The invariant of a run. -/
def Holds (s : State W) : Prop := Typed elements types s.trace → Good host elements types set s

/-- The boxes that the activation shares. -/
structure Boxes (host : Host W) (elements : Val → Prop) (types : Types) (set : LocalId → Prop) : Prop where
  plain : ∀ x w v w',set x → host.readBox x w = (.ok v,w') → Plain v
  claims : ∀ x w v w',host.readBox x w = (.ok v,w') → Claims elements types x v

variable {elements types host set}

theorem Typed.tail {e : Event} {trace : List Event} (typed : Typed elements types (e :: trace)) : Typed elements types trace :=
  fun f member => typed f (List.mem_cons_of_mem e member)

theorem steady_untyped : Steady host (fun _ => False) fun s => ¬Typed elements types s.trace :=
  steady_trace (P := fun trace => ¬Typed elements types trace) fun _ _ untyped typed => untyped typed.tail

theorem holds_lift {α : Type} (m : Run W Signal α) : Maintains (Holds host elements types set) (Host.lift m) := by
  apply Maintains.of_final
  intro s holds typed
  rw [lift_final] at typed ⊢
  exact ⟨(holds typed).given,(holds typed).held,(holds typed).claims⟩

/-- An event that gives nothing. -/
theorem holds_emit {ε : Type} {e : Event} (quiet : given e = none) :
    Maintains (Holds host elements types set) (emit e : Run (State W) ε Unit) := by
  apply Maintains.of_final
  intro s holds typed
  have good := holds (Typed.tail typed)
  refine ⟨fun f member x v gives => ?_,good.held,good.claims⟩
  rcases List.mem_cons.mp member with rfl | old
  · rw [quiet] at gives
    cases gives
  · exact good.given f old x v gives

/-- A local is given a value, plain if it is one of the set. -/
theorem holds_assign {e : Event} {x : LocalId} {v : Val} (gives : given e = some (x,v)) (m : Run W Signal Unit) {s : State W}
    (holds : Holds host elements types set s) (plain : set x → Typed elements types s.trace → Plain v) :
    Holds host elements types set ((emit e >>= fun _ => if host.boxed x then Host.lift m else setStore x v : Eval W Unit) s).2 := by
  have final : ((emit e >>= fun _ => if host.boxed x then Host.lift m else setStore x v : Eval W Unit) s).2 =
      ⟨if host.boxed x then s.store else Function.update s.store x v,if host.boxed x then (m s.world).2 else s.world,e :: s.trace⟩ := by
    rw [Run.bind_apply]
    change ((if host.boxed x then Host.lift m else setStore x v : Eval W Unit) { s with trace := e :: s.trace }).2 = _
    split
    · exact lift_final m _
    · rfl
  have store (y : LocalId) (own : host.boxed y = false) :
      (if host.boxed x then s.store else Function.update s.store x v) y = if y = x then v else s.store y := by
    by_cases same : y = x
    · subst same
      rw [own,if_neg Bool.false_ne_true,if_pos rfl,Function.update_self]
    · rw [if_neg same]
      split
      · rfl
      · exact Function.update_of_ne same ..
  rw [final]
  intro typed
  have good := holds typed.tail
  refine ⟨fun f member y u same watched => ?_,fun y watched own => ?_,fun y own => ?_⟩
  · rcases List.mem_cons.mp member with rfl | old
    · cases gives.symm.trans same
      exact plain watched typed.tail
    · exact good.given f old y u same watched
  · change Plain ((if host.boxed x then s.store else Function.update s.store x v) y)
    rw [store y own]
    split
    · rename_i same
      exact plain (same ▸ watched) typed.tail
    · exact good.held y watched own
  · change Claims elements types y ((if host.boxed x then s.store else Function.update s.store x v) y)
    rw [store y own]
    split
    · rename_i same
      exact same ▸ typed e (List.mem_cons_self ..) x v gives
    · exact good.claims y own

theorem steady_holds : Steady host set (Holds host elements types set) where
  read id := by
    apply Maintains.bind (holds_emit rfl)
    intro _
    apply Maintains.ite (holds_lift _)
    exact .of_final fun s holds => holds
  write x v free := .of_final fun s holds => holds_assign rfl (host.writeBox x v) holds fun watched => absurd watched free
  declare x v free := .of_final fun s holds => holds_assign rfl (host.declareBox x v) holds fun watched => absurd watched free
  ask _ := holds_lift _
  suspend := holds_emit rfl
  iteration body := holds_emit rfl

end traces

section gives

variable {W : Type} {host : Host W} {elements : Val → Prop} {types : Types} {set : LocalId → Prop} {α β : Type}

variable (host elements types set) in
/-- The computation keeps the invariant and, unless a declared type has been violated, ends with a
value in `Q`. -/
def Gives (Q : α → Prop) (m : Eval W α) : Prop :=
  Run.Triple (Holds host elements types set) m (fun a t => Holds host elements types set t ∧ (Typed elements types t.trace → Q a))
    fun _ t => Holds host elements types set t

namespace Gives

variable {Q : α → Prop} {R : β → Prop} {m : Eval W α} {k : α → Eval W β}

theorem pure {a : α} (good : Q a) : Gives host elements types set Q (pure a) := fun _ holds => ⟨holds,fun _ => good⟩

theorem of_maintains (keeps : Maintains (Holds host elements types set) m) (value : ∀ s a t,Holds host elements types set s →
    m s = (.ok a,t) → Typed elements types t.trace → Q a) : Gives host elements types set Q m := by
  intro s holds
  have kept := keeps.final holds
  rcases ran : m s with ⟨e | a,t⟩
  · rw [ran] at kept
    exact kept
  · rw [ran] at kept
    exact ⟨kept,value s a t holds ran⟩

theorem maintains (gives : Gives host elements types set Q m) : Maintains (Holds host elements types set) m := by
  apply Maintains.of_final
  intro s holds
  have ended := gives s holds
  rcases ran : m s with ⟨e | a,t⟩
  · rw [ran] at ended
    exact ended
  · rw [ran] at ended
    exact ended.1

theorem weaken {Q' : α → Prop} (gives : Gives host elements types set Q m) (weaker : ∀ a,Q a → Q' a) :
    Gives host elements types set Q' m :=
  Run.Triple.post gives fun a _ ended => ⟨ended.1,fun typed => weaker a (ended.2 typed)⟩

/-- What comes after a violation may do as it likes, since the violation stays. -/
theorem bind (first : Gives host elements types set Q m) (stays : ∀ a,Maintains (fun s => ¬Typed elements types s.trace) (k a))
    (rest : ∀ a,Q a → Gives host elements types set R (k a)) : Gives host elements types set R (m >>= k) := by
  apply Run.Triple.bind first
  intro a s ended
  by_cases good : Q a
  · exact rest a good s ended.1
  · have violated : ¬Typed elements types s.trace := fun typed => good (ended.2 typed)
    have still := (stays a).final violated
    rcases ran : k a s with ⟨e | b,t⟩
    · rw [ran] at still
      exact fun typed => absurd typed still
    · rw [ran] at still
      exact ⟨fun typed => absurd typed still,fun typed => absurd typed still⟩

end Gives

theorem gives_applyOp {op : Op} {vs : List Val} {Q : Val → Prop} (computed : ∀ r,op.pure? vs = some r → Q r)
    (answered : ∀ r,Answers host op vs r → Q r) : Gives host elements types set Q (applyOp host op vs) :=
  Gives.of_maintains (steady_holds.applyOp op vs) fun _ _ _ _ ran _ => applyOp_gives computed answered ran

theorem gives_read (boxes : Boxes host elements types set) (x : LocalId) :
    Gives host elements types set (fun v => (set x → Plain v) ∧ Claims elements types x v) (readLocal host x) := by
  apply Gives.of_maintains (steady_holds.read x)
  intro s v t holds ran typed
  cases own : host.boxed x with
  | true =>
    have shape : readLocal host x s = Host.lift (host.readBox x) { s with trace := .read x :: s.trace } := by
      simp only [readLocal,fetchLocal,own,if_true,Run.bind_apply,emit,Run.update]
    rw [shape] at ran
    unfold Host.lift at ran
    rcases asked : host.readBox x s.world with ⟨e | a,w⟩
    · rw [asked] at ran
      cases ran
    · rw [asked] at ran
      cases ran
      exact ⟨fun watched => boxes.plain x s.world v w watched asked,boxes.claims x s.world v w asked⟩
  | false =>
    rw [readLocal_unboxed own] at ran
    cases ran
    have good := holds (Typed.tail typed)
    exact ⟨fun watched => good.held x watched own,good.claims x own⟩

end gives

section operators

variable {W : Type} {host : Host W} {elements : Val → Prop} {types : Types} {set : LocalId → Prop}

theorem pure_binary {op : BinaryOp} {v w r : Val} (computed : Op.pure? (.binary op) [v,w] = some r) : ∃ n,r = .int n := by
  have exact {n : Int} (found : exactInt n = some r) : ∃ n,r = .int n := by
    unfold exactInt at found
    split at found
    · cases found
      exact ⟨n,rfl⟩
    · cases found
  unfold Op.pure? at computed
  split at computed
  all_goals first | contradiction | exact exact computed

theorem pure_compare {op : CompareOp} {vs : List Val} {r : Val} (computed : Op.pure? (.compare op) vs = some r) : ∃ b,r = .bool b := by
  unfold Op.pure? at computed
  split at computed
  all_goals first | contradiction | (cases computed; exact ⟨_,rfl⟩)

variable (lawful : Lawful elements host)
include lawful

theorem gives_binary (op : BinaryOp) (v w : Val) : Gives host elements types set
    (fun r => (Plain v ∨ Plain w → Plain r) ∧ ((op = .add → Key v ∧ Key w) → Numeric r)) (applyOp host (.binary op) [v,w]) := by
  apply gives_applyOp
  · intro r computed
    obtain ⟨n,rfl⟩ := pure_binary computed
    exact ⟨fun _ => trivial,fun _ => trivial⟩
  · exact fun r answered => ⟨fun plain => lawful.binary op v w r plain answered,fun numeric => lawful.arithmetic op v w r numeric answered⟩

theorem gives_compare (op : CompareOp) (vs : List Val) : Gives host elements types set Plain (applyOp host (.compare op) vs) := by
  apply gives_applyOp
  · intro r computed
    obtain ⟨b,rfl⟩ := pure_compare computed
    trivial
  · exact lawful.compare op vs

theorem gives_unary (op : UnaryOp) (v : Val) : Gives host elements types set
    (fun r => (op ≠ .not → Numeric r) ∧ (op = .not ∨ op = .pos ∨ Plain v → Plain r)) (applyOp host (.unary op) [v]) := by
  cases op with
  | not => exact Gives.pure ⟨fun other => absurd rfl other,fun _ => trivial⟩
  | _ =>
    apply gives_applyOp
    · intro r computed
      cases computed
    · intro r answered
      have law := lawful.unary _ v r (by simp) answered
      refine ⟨fun _ => law.1,fun plain => law.2 ?_⟩
      rcases plain with other | pos | plain
      · cases other
      · exact .inr pos
      · exact .inl plain

theorem gives_toNumeric (v : Val) : Gives host elements types set (fun r => Numeric r ∧ (Plain v → Plain r)) (applyOp host .toNumeric [v]) := by
  apply gives_applyOp
  · intro r computed
    cases v with
    | num n =>
      cases computed
      exact ⟨trivial,fun _ => trivial⟩
    | bigInt n =>
      cases computed
      exact ⟨trivial,fun plain => plain⟩
    | _ => cases computed
  · exact lawful.toNumeric v

/-- An update leaves a number, whatever the local held, since 1 is one. -/
theorem gives_update (boxes : Boxes host elements types set) (id : LocalId) (op : UpdateOp) (pre : Bool) :
    Gives host elements types set (fun v => Numeric v ∧ (set id ∨ typeIsNotBigInt (types.lookup id) = true → Plain v))
      (updateLocal host id op pre) := by
  have untyped : Steady host (fun _ => False) fun s => ¬Typed elements types s.trace := steady_untyped
  unfold updateLocal
  apply (gives_read boxes id).bind
  · intro v
    apply Maintains.bind (untyped.applyOp _ _)
    intro old
    apply Maintains.bind (untyped.applyOp _ _)
    intro new
    exact .bind (untyped.write id new not_false) fun _ => .pure _
  · intro v held
    apply (gives_toNumeric lawful v).bind
    · intro old
      apply Maintains.bind (untyped.applyOp _ _)
      intro new
      exact .bind (untyped.write id new not_false) fun _ => .pure _
    · intro old numeric
      apply (gives_binary lawful op.binary old (.int 1)).bind
      · intro new
        exact .bind (untyped.write id new not_false) fun _ => .pure _
      · intro new result
        have plain : Plain new := result.1 (.inr trivial)
        have number : Numeric new := result.2 fun _ => ⟨.inl numeric.1,.inl trivial⟩
        have written : Maintains (Holds host elements types set) (writeLocal host id new) :=
          .of_final fun s holds => holds_assign rfl (host.writeBox id new) holds fun _ _ => plain
        apply (Gives.of_maintains written (Q := fun _ => True) fun _ _ _ _ _ _ => trivial).bind fun _ => .pure _
        intro _ _
        apply Gives.pure
        cases pre with
        | true => exact ⟨number,fun _ => plain⟩
        | false => exact ⟨numeric.1,fun trusted => numeric.2 (trusted.elim held.1 held.2.plain)⟩

end operators

section judged

variable {W : Type} {host : Host W} {elements : Val → Prop} {types : Types} {set : LocalId → Bool} {numeric : LocalId → Bool}

theorem settles_free {I : State W → Prop} (v : Node) : Settles host (fun _ => False) I v := by
  cases v with
  | bind id init => exact fun none => none.elim
  | caught id => exact not_false
  | expr e =>
    cases e with
    | localSet id value => exact fun none => none.elim
    | update id op pre => exact fun none => none.elim
    | withSet object property value fallback strict => exact fun _ _ => not_false
    | _ => trivial

theorem untyped_eval (e : Expr) : Maintains (fun s => ¬Typed elements types s.trace) (eval host e) :=
  steady_untyped.eval fun v (_ : v ∈ nodesOfExpr false e) => settles_free v

section shapes

variable {set : LocalId → Prop} {P Q R : Val → Prop} {op : Op}

theorem gives_one {e : Expr} (first : Gives host elements types set P (eval host e))
    (computes : ∀ v,P v → Gives host elements types set R (applyOp host op [v])) :
    Gives host elements types set R (eval host (.strict op [e])) := by
  simp only [eval,evalArgs,bind_assoc,pure_bind]
  exact first.bind (fun v => steady_untyped.applyOp op [v]) computes

theorem gives_two {left right : Expr} (first : Gives host elements types set P (eval host left))
    (second : Gives host elements types set Q (eval host right))
    (computes : ∀ v w,P v → Q w → Gives host elements types set R (applyOp host op [v,w])) :
    Gives host elements types set R (eval host (.strict op [left,right])) := by
  simp only [eval,evalArgs,bind_assoc,pure_bind]
  apply first.bind
  · exact fun v => .bind (untyped_eval right) fun w => steady_untyped.applyOp op [v,w]
  · intro v good
    exact second.bind (fun w => steady_untyped.applyOp op [v,w]) fun w fine => computes v w good fine

theorem gives_any {args : List Expr} (keeps : Maintains (Holds host elements types set) (evalArgs host args))
    (answers : ∀ vs,Gives host elements types set R (applyOp host op vs)) :
    Gives host elements types set R (eval host (.strict op args)) := by
  simp only [eval]
  apply (Gives.of_maintains keeps (Q := fun _ => True) fun _ _ _ _ _ _ => trivial).bind
  · exact fun vs => steady_untyped.applyOp op vs
  · exact fun vs _ => answers vs

end shapes

section expressions

variable (types set numeric) in
/-- What the two judgements promise of an expression's value. -/
def Promised (e : Expr) (v : Val) : Prop :=
  (readsAByte numeric e = true → Key v) ∧ (exprNotBigInt numeric types.lookup set e = true → Plain v)

theorem gives_vacuous {e : Expr} (keeps : Maintains (Holds host elements types (set · = true)) (eval host e))
    (byte : readsAByte numeric e = false) (plain : exprNotBigInt numeric types.lookup set e = false) :
    Gives host elements types (set · = true) (Promised types set numeric e) (eval host e) :=
  Gives.of_maintains keeps fun _ _ _ _ _ _ =>
    ⟨fun judged => absurd (byte.symm.trans judged) Bool.false_ne_true,fun judged => absurd (plain.symm.trans judged) Bool.false_ne_true⟩

theorem variant_byte {tag : Nat} {args : List Expr} (judged : readsAByte numeric (.strict (.variant tag) args) = true) :
    (∃ array index,tag = 327 ∧ args = [array,index]) ∨ tag = 322 ∨ tag = 553 ∨ tag ∈ 326 :: 316 :: mathTags := by
  rw [readsAByte.eq_def] at judged
  split at judged
  all_goals rename_i same
  all_goals first | contradiction | cases same
  · exact .inl ⟨_,_,rfl,rfl⟩
  · exact .inr (.inl rfl)
  · exact .inr (.inr (.inl rfl))
  · exact .inr (.inr (.inr (.head _)))
  · exact .inr (.inr (.inr (.tail _ (.head _))))
  · exact .inr (.inr (.inr (List.mem_cons_of_mem _ (List.mem_cons_of_mem _ (of_decide_eq_true judged)))))

theorem variant_plain {tag : Nat} {args : List Expr} (judged : exprNotBigInt numeric types.lookup set (.strict (.variant tag) args) = true) :
    (∃ array index,tag = 327 ∧ args = [array,index]) ∨ tag = 322 ∨ tag = 553 ∨ tag ∈ producerTags := by
  rw [exprNotBigInt.eq_def] at judged
  split at judged
  all_goals rename_i same
  all_goals first | contradiction | cases same
  · exact .inl ⟨_,_,rfl,rfl⟩
  · exact .inr (.inl rfl)
  · exact .inr (.inr (.inl rfl))
  · exact .inr (.inr (.inr (of_decide_eq_true judged)))

variable (lawful : Lawful elements host)
include lawful

theorem gives_variant {tag : Nat} {args : List Expr} (keeps : Maintains (Holds host elements types (set · = true)) (evalArgs host args))
    (each : ∀ a ∈ args,Gives host elements types (set · = true) (Promised types set numeric a) (eval host a)) :
    Gives host elements types (set · = true) (Promised types set numeric (.strict (.variant tag) args)) (eval host (.strict (.variant tag) args)) := by
  by_cases byte : ∃ array index,tag = 327 ∧ args = [array,index]
  · obtain ⟨array,index,rfl,rfl⟩ := byte
    apply gives_two (each array (by simp)) (each index (by simp))
    intro v w _ promised
    apply gives_applyOp
    · intro r computed
      cases computed
    · intro r answered
      refine ⟨fun judged => ?_,fun judged => ?_⟩
      · exact (lawful.byte v w r (promised.1 judged) answered).2
      · exact (lawful.byte v w r (promised.1 judged) answered).1
  · apply gives_any keeps
    intro vs
    apply gives_applyOp
    · intro r computed
      cases computed
    · intro r answered
      refine ⟨fun judged => ?_,fun judged => ?_⟩
      · rcases variant_byte judged with shape | rfl | rfl | math
        · exact absurd shape byte
        · exact (lawful.bufferByte vs r answered).2
        · obtain ⟨n,rfl⟩ := lawful.numberCoerce vs r answered
          exact .inl trivial
        · exact .inl (lawful.math tag math vs r answered)
      · rcases variant_plain judged with shape | rfl | rfl | produced
        · exact absurd shape byte
        · exact (lawful.bufferByte vs r answered).1
        · obtain ⟨n,rfl⟩ := lawful.numberCoerce vs r answered
          trivial
        · exact lawful.produced tag produced vs r answered

variable (boxes : Boxes host elements types (set · = true))
include boxes

theorem gives_strict {op : Op} {args : List Expr} (keeps : Maintains (Holds host elements types (set · = true)) (evalArgs host args))
    (each : ∀ a ∈ args,Gives host elements types (set · = true) (Promised types set numeric a) (eval host a)) :
    Gives host elements types (set · = true) (Promised types set numeric (.strict op args)) (eval host (.strict op args)) := by
  have whole : Maintains (Holds host elements types (set · = true)) (eval host (.strict op args)) := by
    rw [eval]
    exact .bind keeps fun vs => steady_holds.applyOp op vs
  cases op with
  | «variant» tag => exact gives_variant lawful keeps each
  | compare op =>
    apply gives_any keeps
    intro vs
    exact (gives_compare lawful op vs).weaken fun r plain => ⟨fun judged => absurd judged Bool.false_ne_true,fun _ => plain⟩
  | binary op =>
    rcases args with _ | ⟨l,_ | ⟨r,_ | ⟨x,rest⟩⟩⟩
    · exact gives_vacuous whole rfl rfl
    · exact gives_vacuous whole rfl rfl
    · apply gives_two (each l (by simp)) (each r (by simp))
      intro v w left right
      apply (gives_binary lawful op v w).weaken
      intro a result
      refine ⟨fun judged => .inl (result.2 fun add => ?_),fun judged => result.1 ?_⟩
      · subst add
        have both : readsAByte numeric l = true ∧ readsAByte numeric r = true := Bool.and_eq_true_iff.mp judged
        exact ⟨left.1 both.1,right.1 both.2⟩
      · have either : exprNotBigInt numeric types.lookup set l = true ∨ exprNotBigInt numeric types.lookup set r = true :=
          Bool.or_eq_true_iff.mp judged
        exact either.imp left.2 right.2
    · exact gives_vacuous whole rfl rfl
  | unary op =>
    rcases args with _ | ⟨e,_ | ⟨x,rest⟩⟩
    · exact gives_vacuous whole rfl rfl
    · apply gives_one (each e (by simp))
      intro v promised
      apply (gives_unary lawful op v).weaken
      intro a result
      refine ⟨fun judged => .inl (result.1 ?_),fun judged => result.2 ?_⟩
      · rintro rfl
        cases judged
      · cases op with
        | not => exact .inl rfl
        | pos => exact .inr (.inl rfl)
        | _ => exact .inr (.inr (promised.2 judged))
    · exact gives_vacuous whole rfl rfl
  | indexGet =>
    rcases args with _ | ⟨object,_ | ⟨key,_ | ⟨x,rest⟩⟩⟩
    · exact gives_vacuous whole rfl rfl
    · exact gives_vacuous whole rfl rfl
    · cases receiver : indexReceiverIsNumeric types.lookup object with
      | false => exact gives_vacuous whole rfl receiver
      | true =>
        obtain ⟨id,t,rfl,found,numbers⟩ := indexReceiver_cases receiver
        have reads : Gives host elements types (set · = true) (fun v => v = .undefined ∨ elements v) (eval host (.localGet id)) :=
          (gives_read boxes id).weaken fun v held => held.2.element found numbers
        apply gives_two reads (each key (by simp))
        intro v w element _
        apply gives_applyOp
        · intro r computed
          cases computed
        · exact fun r answered => ⟨fun judged => absurd judged Bool.false_ne_true,fun _ => lawful.element v w r element answered⟩
    · exact gives_vacuous whole rfl rfl
  | _ => exact gives_vacuous whole rfl rfl

omit lawful boxes in
theorem list_settled {I : State W → Prop} {guarded : LocalId → Prop} {P : Node → Prop} {es : List Expr}
    (each : ∀ e ∈ es,(∀ v ∈ nodesOfExpr false e,P v) → ∀ v ∈ nodesOfExpr false e,Settles host guarded I v)
    (judged : ∀ v ∈ nodesOfList false es,P v) : ∀ v ∈ nodesOfList false es,Settles host guarded I v := by
  induction es with
  | nil =>
    intro v none
    cases none
  | cons e es ih =>
    simp only [nodesOfList,List.mem_append] at judged ⊢
    rintro v (first | rest)
    · exact each e (by simp) (fun u member => judged u (.inl member)) v first
    · exact ih (fun a member => each a (by simp [member])) (fun u member => judged u (.inr member)) v rest

omit lawful boxes in
theorem list_judged {P : Node → Prop} {es : List Expr} (judged : ∀ v ∈ nodesOfList false es,P v) :
    ∀ e ∈ es,∀ v ∈ nodesOfExpr false e,P v := by
  induction es with
  | nil =>
    intro e none
    cases none
  | cons e es ih =>
    simp only [nodesOfList,List.mem_append] at judged
    intro a member
    rcases List.mem_cons.mp member with rfl | rest
    · exact fun v inside => judged v (.inl inside)
    · exact ih (fun v inside => judged v (.inr inside)) a rest

end expressions

section nodes

variable (types set numeric) in
/-- A node that the collector has judged, or that gives no local of the set a value. -/
def Judged : Node → Prop
  | .bind id init => set id = true → ∀ e ∈ init,exprNotBigInt numeric types.lookup set e = true
  | .caught id => ¬set id = true
  | .expr (.localSet id rhs) => set id = true → exprNotBigInt numeric types.lookup set rhs = true
  | .expr (.withSet _ _ _ fallback _) => ∀ id ∈ fallback.target,¬set id = true
  | .expr _ => True

variable (lawful : Lawful elements host) (boxes : Boxes host elements types (set · = true))
include lawful boxes

/-- One step of the induction: what the parts of an expression settle and give, the whole does. -/
theorem judged_eval (known : ∀ id v,numeric id = true → Claims elements types id v → Key v) (e : Expr)
    (judged : ∀ v ∈ nodesOfExpr false e,Judged types set numeric v) :
    (∀ v ∈ nodesOfExpr false e,Settles host (set · = true) (Holds host elements types (set · = true)) v) ∧
      Gives host elements types (set · = true) (Promised types set numeric e) (eval host e) := by
  have entire {e : Expr} (settled : ∀ v ∈ nodesOfExpr false e,Settles host (set · = true) (Holds host elements types (set · = true)) v) :
      Maintains (Holds host elements types (set · = true)) (eval host e) := steady_holds.eval settled
  have idle {e : Expr} (settled : ∀ v ∈ nodesOfExpr false e,Settles host (set · = true) (Holds host elements types (set · = true)) v)
      (byte : readsAByte numeric e = false) (plain : exprNotBigInt numeric types.lookup set e = false) :
      (∀ v ∈ nodesOfExpr false e,Settles host (set · = true) (Holds host elements types (set · = true)) v) ∧
        Gives host elements types (set · = true) (Promised types set numeric e) (eval host e) :=
    ⟨settled,gives_vacuous (entire settled) byte plain⟩
  induction e using Expr.induct with
  | lit l =>
    refine ⟨fun v member => ?_,Gives.pure ⟨fun byte => ?_,fun plain => ?_⟩⟩
    · obtain rfl := List.mem_singleton.mp member
      trivial
    · cases l with
      | integer n => exact .inl trivial
      | number n => exact .inl trivial
      | _ => cases byte
    · cases l with
      | bigInt n => cases plain
      | _ => trivial
  | localGet id =>
    refine ⟨fun v member => ?_,(gives_read boxes id).weaken fun v held => ⟨fun byte => known id v byte held.2,fun plain => ?_⟩⟩
    · obtain rfl := List.mem_singleton.mp member
      trivial
    · rcases Bool.or_eq_true_iff.mp plain with watched | trusted
      · exact held.1 watched
      · exact held.2.plain trusted
  | update id op pre =>
    have gives := gives_update lawful boxes id op pre
    refine ⟨fun v member => ?_,gives.weaken fun v held => ⟨fun _ => .inl held.1,fun plain => ?_⟩⟩
    · obtain rfl := List.mem_singleton.mp member
      exact fun _ => gives.maintains
    · exact held.2 (Bool.or_eq_true_iff.mp plain)
  | localSet id value ih =>
    simp only [nodesOfExpr,List.mem_cons,forall_eq_or_imp] at judged ⊢
    obtain ⟨settled,gives⟩ := ih judged.2
    have written (v : Val) (promised : Promised types set numeric value v) :
        Maintains (Holds host elements types (set · = true)) (writeLocal host id v) :=
      .of_final fun s holds => holds_assign rfl (host.writeBox id v) holds fun watched _ => promised.2 (judged.1 watched)
    have assigned : Gives host elements types (set · = true) (Promised types set numeric (.localSet id value)) (eval host (.localSet id value)) := by
      rw [eval]
      apply gives.bind
      · exact fun v => .bind (steady_untyped.write id v not_false) fun _ => .pure v
      · intro v promised
        apply (Gives.of_maintains (written v promised) (Q := fun _ => True) fun _ _ _ _ _ _ => trivial).bind fun _ => .pure v
        exact fun _ _ => Gives.pure ⟨fun byte => absurd byte Bool.false_ne_true,promised.2⟩
    exact ⟨⟨fun _ => assigned.maintains,settled⟩,assigned⟩
  | strict op args ih =>
    simp only [nodesOfExpr,List.mem_cons,forall_eq_or_imp] at judged ⊢
    have settled := list_settled (fun a member inside => (ih a member inside).1) judged.2
    have keeps : Maintains (Holds host elements types (set · = true)) (evalArgs host args) :=
      Maintains.evalArgs (fun a member settled => entire settled) settled
    exact ⟨⟨trivial,settled⟩,gives_strict lawful boxes keeps fun a member => (ih a member (list_judged judged.2 a member)).2⟩
  | logical op left right ihl ihr =>
    simp only [nodesOfExpr,List.mem_cons,List.mem_append,forall_eq_or_imp] at judged ⊢
    obtain ⟨settledL,givesL⟩ := ihl fun v member => judged.2 v (.inl member)
    obtain ⟨settledR,givesR⟩ := ihr fun v member => judged.2 v (.inr member)
    refine ⟨⟨trivial,fun v member => member.elim (settledL v) (settledR v)⟩,?_⟩
    rw [eval]
    apply givesL.bind
    · exact fun v => .ite (.pure v) (untyped_eval right)
    · intro v promised
      split
      · exact Gives.pure ⟨fun byte => absurd byte Bool.false_ne_true,fun plain => promised.2 (Bool.and_eq_true_iff.mp plain).1⟩
      · exact givesR.weaken fun w right =>
          ⟨fun byte => absurd byte Bool.false_ne_true,fun plain => right.2 (Bool.and_eq_true_iff.mp plain).2⟩
  | conditional c t e ihc iht ihe =>
    simp only [nodesOfExpr,List.mem_cons,List.mem_append,forall_eq_or_imp] at judged ⊢
    obtain ⟨settledC,givesC⟩ := ihc fun v member => judged.2 v (.inl (.inl member))
    obtain ⟨settledT,givesT⟩ := iht fun v member => judged.2 v (.inl (.inr member))
    obtain ⟨settledE,givesE⟩ := ihe fun v member => judged.2 v (.inr member)
    refine ⟨⟨trivial,fun v member => member.elim (fun inside => inside.elim (settledC v) (settledT v)) (settledE v)⟩,?_⟩
    rw [eval]
    apply givesC.bind
    · exact fun v => .ite (untyped_eval t) (untyped_eval e)
    · intro v _
      split
      · exact givesT.weaken fun w branch =>
          ⟨fun byte => absurd byte Bool.false_ne_true,fun plain => branch.2 (Bool.and_eq_true_iff.mp plain).1⟩
      · exact givesE.weaken fun w branch =>
          ⟨fun byte => absurd byte Bool.false_ne_true,fun plain => branch.2 (Bool.and_eq_true_iff.mp plain).2⟩
  | sequence items ih =>
    simp only [nodesOfExpr,List.forall_mem_cons] at judged
    refine idle ?_ rfl rfl
    simp only [nodesOfExpr,List.forall_mem_cons]
    exact ⟨trivial,list_settled (fun a member inside => (ih a member inside).1) judged.2⟩
  | arrayMut kind id args ih =>
    simp only [nodesOfExpr,List.forall_mem_cons] at judged
    refine idle ?_ rfl rfl
    simp only [nodesOfExpr,List.forall_mem_cons]
    exact ⟨trivial,list_settled (fun a member inside => (ih a member inside).1) judged.2⟩
  | withSet object property value fallback strict iho ihv =>
    simp only [nodesOfExpr,List.forall_mem_cons,List.forall_mem_append] at judged
    refine idle ?_ rfl rfl
    simp only [nodesOfExpr,List.forall_mem_cons,List.forall_mem_append]
    exact ⟨judged.1,(iho judged.2.1).1,(ihv judged.2.2).1⟩
  | closure funcId params defaults captures mutableCaptures flags body ih =>
    simp only [nodesOfExpr,List.forall_mem_cons,Bool.false_eq_true,if_false,List.nil_append] at judged
    refine idle ?_ rfl rfl
    simp only [nodesOfExpr,List.forall_mem_cons,Bool.false_eq_true,if_false,List.nil_append]
    exact ⟨trivial,list_settled (fun a member inside => (ih a member inside).1) judged.2⟩
  | await operand ih =>
    simp only [nodesOfExpr,List.forall_mem_cons] at judged
    refine idle ?_ rfl rfl
    simp only [nodesOfExpr,List.forall_mem_cons]
    exact ⟨trivial,(ih judged.2).1⟩
  | yieldNone delegate =>
    refine idle ?_ rfl rfl
    simp only [nodesOfExpr,nodesOfOption,List.forall_mem_cons]
    exact ⟨trivial,fun v none => absurd none List.not_mem_nil⟩
  | yieldSome value delegate ih =>
    simp only [nodesOfExpr,nodesOfOption,List.forall_mem_cons] at judged
    refine idle ?_ rfl rfl
    simp only [nodesOfExpr,nodesOfOption,List.forall_mem_cons]
    exact ⟨trivial,(ih judged.2).1⟩

end nodes

end judged

end Perry.Codegen.NotBigInt
