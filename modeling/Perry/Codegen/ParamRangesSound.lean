import Perry.Codegen.ParamRanges

/-! One activation of the module's code: the function a range is reported for is only
called, with arguments in range, and its parameter is not written. -/
namespace Perry.Codegen.ParamRanges

open Perry.Effect Perry.Hir

def IntRange.holds (range : IntRange) : Val → Bool
  | .num (.int n) => range.min ≤ n ∧ n ≤ range.max
  | .num .negZero => range.min ≤ 0 ∧ 0 ≤ range.max
  | _ => false

namespace Slot

variable (slot : Slot)

def Clean (v : Val) : Prop := v ≠ .func slot.func

def Good (args : List Val) : Prop :=
  (∀ v ∈ args, slot.Clean v) ∧ slot.range.holds (args.getD slot.index .undefined) = true

/-- The function is only called, and only with arguments in range. -/
structure Allowed (r : Request) : Prop where
  handed : ∀ v ∈ r.handed, slot.Clean v
  called : ∀ args, r = .op .call (.func slot.func :: args) → slot.Good args

def Fits (e : Event) : Prop :=
  ∀ v, e = .declare slot.param v ∨ e = .write slot.param v → slot.range.holds v = true

structure Kept {W : Type} (s : State (W × List Request)) : Prop where
  store : ∀ id, slot.Clean (s.store id)
  asked : ∀ r ∈ s.world.2, slot.Allowed r
  trace : ∀ e ∈ s.trace, slot.Fits e

def Secure {W α : Type} (Q : α → Prop) (m : Eval (W × List Request) α) : Prop :=
  Run.Always slot.Kept Q (fun e => ∀ v ∈ e.values, slot.Clean v) m

def Ends {W : Type} (m : Act (W × List Request) Unit) : Prop :=
  Run.Always slot.Kept (fun _ => True) (fun c => ∀ v ∈ handedAtEnd (.error c), slot.Clean v) m

end Slot

variable {W : Type} {slot : Slot} {host : Host W}

section primitives

theorem secure_lift {α : Type} (asked : List Request) {m : Run W Signal α} {result : α → List Val}
    (honest : ∀ v, Hir.Ends m result v → slot.Clean v) (allowed : ∀ r ∈ asked, slot.Allowed r) :
    slot.Secure (fun a => ∀ v ∈ result a, slot.Clean v) (Host.lift (Host.watched.pass asked m)) := by
  intro s kept
  have requests : ∀ r ∈ asked ++ s.world.2, slot.Allowed r := by
    intro r member
    rcases List.mem_append.mp member with new | old
    · exact allowed r new
    · exact kept.asked r old
  unfold Host.lift Host.watched.pass
  rcases ran : m s.world.1 with ⟨e | a,w⟩
  · exact ⟨fun v member => honest v ⟨s.world.1,by rw [ran]; exact member⟩,⟨kept.store,requests,kept.trace⟩⟩
  · exact ⟨fun v member => honest v ⟨s.world.1,by rw [ran]; exact member⟩,⟨kept.store,requests,kept.trace⟩⟩

theorem secure_emit {e : Event} (fits : slot.Fits e) :
    slot.Secure (fun _ => True) (emit e : Eval (W × List Request) Unit) := by
  refine Run.Triple.update fun s kept => ⟨trivial,kept.store,kept.asked,fun a member => ?_⟩
  rcases List.mem_cons.mp member with rfl | old
  · exact fits
  · exact kept.trace a old

theorem secure_setStore {id : LocalId} {v : Val} (clean : slot.Clean v) :
    slot.Secure (fun _ => True) (setStore id v : Eval (W × List Request) Unit) := by
  refine Run.Triple.update fun s kept => ⟨trivial,fun x => ?_,kept.asked,kept.trace⟩
  by_cases same : x = id
  · subst same
    simpa using clean
  · simpa [same] using kept.store x

theorem fits_read (id : LocalId) : slot.Fits (.read id) := by
  intro v h
  rcases h with h | h <;> cases h

theorem fits_suspend : slot.Fits .suspend := by
  intro v h
  rcases h with h | h <;> cases h

theorem fits_iteration (b : List Stmt) : slot.Fits (.iteration b) := by
  intro v h
  rcases h with h | h <;> cases h

theorem fits_write {id : LocalId} {v : Val} (other : id ≠ slot.param) : slot.Fits (.write id v) := by
  intro v h
  rcases h with h | h
  · cases h
  · cases h
    exact absurd rfl other

theorem fits_declare {id : LocalId} {v : Val} (holds : id = slot.param → slot.range.holds v = true) :
    slot.Fits (.declare id v) := by
  intro v h
  rcases h with h | h
  · cases h
    exact holds rfl
  · cases h

theorem allowed_box (id : LocalId) {v : Val} (clean : slot.Clean v) : ∀ r ∈ [Request.box id v], slot.Allowed r := by
  intro r member
  cases List.mem_singleton.mp member
  refine ⟨fun w held => ?_,fun args same => by cases same⟩
  cases List.mem_singleton.mp held
  exact clean

/-- An operator that is no reference to the function makes no such value. -/
theorem clean_pure? {op : Op} {vs : List Val} {v : Val} (result : op.pure? vs = some v) (other : op ≠ .funcRef slot.func) :
    slot.Clean v := by
  intro same
  subst same
  unfold Op.pure? at result
  split at result <;> simp_all [exactInt,Val.int]

variable (honest : ∀ v, host.Hands v → slot.Clean v)
include honest

theorem secure_readLocal (id : LocalId) : slot.Secure slot.Clean (readLocal host.watched id) := by
  refine Run.Always.bind (secure_emit (fits_read id)) fun _ _ => ?_
  refine Run.Always.ite (fun _ => ?_) fun _ s kept => ⟨kept.store id,kept⟩
  have lifted := secure_lift [] (fun v ends => honest v (.readBox id ends)) fun r none => absurd none List.not_mem_nil
  exact Run.Always.weaken lifted fun v clean => clean v (by simp)

theorem secure_writeLocal {id : LocalId} {v : Val} (other : id ≠ slot.param) (clean : slot.Clean v) :
    slot.Secure (fun _ => True) (writeLocal host.watched id v) := by
  refine Run.Always.bind (secure_emit (fits_write other)) fun _ _ => ?_
  refine Run.Always.ite (fun _ => ?_) fun _ => secure_setStore clean
  have lifted := secure_lift _ (fun w ends => honest w (.writeBox id v ends)) (allowed_box id clean)
  exact Run.Always.weaken lifted fun _ _ => trivial

theorem secure_declareLocal {id : LocalId} {v : Val} (holds : id = slot.param → slot.range.holds v = true)
    (clean : slot.Clean v) : slot.Secure (fun _ => True) (declareLocal host.watched id v) := by
  refine Run.Always.bind (secure_emit (fits_declare holds)) fun _ _ => ?_
  refine Run.Always.ite (fun _ => ?_) fun _ => secure_setStore clean
  have lifted := secure_lift _ (fun w ends => honest w (.declareBox id v ends)) (allowed_box id clean)
  exact Run.Always.weaken lifted fun _ _ => trivial

theorem secure_applyOp {op : Op} {vs : List Val} (other : op ≠ .funcRef slot.func) (allowed : slot.Allowed (.op op vs)) :
    slot.Secure slot.Clean (applyOp host.watched op vs) := by
  unfold applyOp
  split
  · next v result => exact Run.Always.pure (clean_pure? result other)
  · have lifted := secure_lift [.op op vs] (fun v ends => honest v (.op op vs ends)) fun r member => by
      cases List.mem_singleton.mp member
      exact allowed
    exact Run.Always.weaken lifted fun v clean => clean v (by simp)

end primitives

section expressions

variable (constants : LocalId → Option Hir.Num)

/-- A constant argument whose recorded value is the value it has. -/
def exactArg : Expr → Bool
  | .integer n => n.natAbs ≤ maxExact
  | .number (.int n) => n ≤ i64Max
  | .localGet id => (constants id).all fun
    | .int n => n ≤ i64Max
    | _ => true
  | _ => true

/-- The arguments of a direct call, at the position of the slot. -/
def Slot.Takes (slot : Slot) (args : List Expr) : Prop :=
  ∃ e k, args[slot.index]? = some e ∧ constantArg constants e = some k ∧ exactArg constants e = true ∧
    slot.range.min ≤ k ∧ k ≤ slot.range.max

/-- A node that neither lets the function escape nor writes the parameter. -/
def Slot.Spares (slot : Slot) : Visit → Prop
  | .bind id => id ≠ slot.param
  | .expr (.strict .call (.strict (.funcRef id) [] :: args)) => id = slot.func → slot.Takes constants args
  | .expr (.strict (.funcRef id) _) => id ≠ slot.func
  | .expr (.closure id params ..) => id ≠ slot.func ∧ slot.param ∉ params
  | .expr (.localSet id _) | .expr (.update id ..) => id ≠ slot.param
  | .expr (.withSet _ _ _ (.local id) _) | .expr (.withSet _ _ _ (.sloppyImplicit id) _) => id ≠ slot.param
  | .expr _ => True

section

-- equations, made here once and not by the first proofs that unfold these
attribute [local simp] Slot.Spares

end

variable {constants}

theorem allowed_op {op : Op} {vs : List Val} (clean : ∀ v ∈ vs, slot.Clean v) : slot.Allowed (.op op vs) := by
  refine ⟨fun v held => ?_,fun args same => ?_⟩
  · cases op <;> try exact clean v held
    cases vs with
    | nil => cases held
    | cons w vs => exact clean v (List.mem_cons_of_mem _ held)
  · cases same
    exact absurd rfl (clean _ (List.mem_cons_self ..))

theorem allowed_call {id : FuncId} {vs : List Val} (clean : ∀ v ∈ vs, slot.Clean v) (good : id = slot.func → slot.Good vs) :
    slot.Allowed (.op .call (.func id :: vs)) := by
  refine ⟨clean,fun args same => ?_⟩
  cases same
  exact good rfl

theorem secure_evalArgs {es : List Expr} (each : ∀ e ∈ es, (∀ v ∈ visitExpr e, slot.Spares constants v) →
      slot.Secure slot.Clean (eval host.watched e)) (spares : ∀ v ∈ visitList es, slot.Spares constants v) :
    slot.Secure (fun vs => ∀ v ∈ vs, slot.Clean v) (evalArgs host.watched es) := by
  induction es with
  | nil => exact Run.Always.pure (by simp)
  | cons e es ih =>
    simp only [visitList,List.mem_append] at spares
    refine Run.Always.bind (each e (by simp) fun v member => spares v (.inl member)) fun v clean => ?_
    refine Run.Always.bind (ih (fun a member => each a (by simp [member])) fun v member => spares v (.inr member))
      fun vs rest => Run.Always.pure ?_
    exact List.forall_mem_cons.mpr ⟨clean,rest⟩

theorem secure_evalSequence {es : List Expr} {last : Val} (clean : slot.Clean last)
    (each : ∀ e ∈ es, (∀ v ∈ visitExpr e, slot.Spares constants v) → slot.Secure slot.Clean (eval host.watched e))
    (spares : ∀ v ∈ visitList es, slot.Spares constants v) :
    slot.Secure slot.Clean (evalSequence host.watched last es) := by
  induction es generalizing last with
  | nil => exact Run.Always.pure clean
  | cons e es ih =>
    simp only [visitList,List.mem_append] at spares
    refine Run.Always.bind (each e (by simp) fun v member => spares v (.inl member)) fun v clean => ?_
    exact ih clean (fun a member => each a (by simp [member])) fun v member => spares v (.inr member)

/-- A constant argument evaluates to the value recorded for it. -/
theorem secure_constant {e : Expr} {k : Int} (folds : host.Folds constants) (constant : constantArg constants e = some k)
    (exact : exactArg constants e = true) (lower : slot.range.min ≤ k) (upper : k ≤ slot.range.max) :
    slot.Secure (fun v => slot.Clean v ∧ slot.range.holds v = true) (eval host.watched e) := by
  have number {n : Hir.Num} (recorded : constantNum n = some k) (small : ∀ i, n = .int i → i ≤ i64Max) :
      slot.Clean (.num n) ∧ slot.range.holds (.num n) = true := by
    refine ⟨fun same => (by cases same),?_⟩
    cases n with
    | int i =>
      have bound := small i rfl
      simp only [constantNum] at recorded
      split at recorded
      · cases recorded
        rw [Int.min_eq_left bound] at lower upper
        simp [IntRange.holds,lower,upper]
      · cases recorded
    | negZero =>
      cases recorded
      simp [IntRange.holds,lower,upper]
    | nan => cases recorded
    | other bits => cases recorded
  cases e with
  | lit l =>
    cases l with
    | integer n =>
      cases constant
      have small : k.natAbs ≤ maxExact := by simpa [exactArg] using exact
      refine Run.Always.pure ⟨fun same => (by cases same),?_⟩
      simp [Lit.val,Hir.Num.ofInt,small,IntRange.holds,lower,upper]
    | number n =>
      refine Run.Always.pure (number constant fun i same => ?_)
      subst same
      simpa [exactArg] using exact
    | _ => cases constant
  | localGet id =>
    simp only [constantArg] at constant
    rcases known : constants id with _ | n
    · simp [known] at constant
    · simp only [known,Option.bind_some] at constant
      have holds := number constant fun i same => by
        subst same
        simpa [exactArg,known] using exact
      have boxed : host.watched.boxed id = true := folds.boxed id n known
      refine Run.Always.bind (secure_emit (fits_read id)) fun _ _ s kept => ?_
      have fetched : fetchLocal host.watched id s = (.ok (.num n),s) := by
        rw [fetchLocal,if_pos boxed]
        simp [Host.lift,Host.watched,Host.watched.pass,folds.reads id n _ known]
      rw [fetched]
      exact ⟨holds,kept⟩
  | _ => cases constant

/-- The arguments of a direct call, with the value at the slot's position. -/
theorem secure_taken {es : List Expr} {i : Nat} {e : Expr} (position : es[i]? = some e)
    (taken : slot.Secure (fun v => slot.Clean v ∧ slot.range.holds v = true) (eval host.watched e))
    (each : ∀ e ∈ es, (∀ v ∈ visitExpr e, slot.Spares constants v) → slot.Secure slot.Clean (eval host.watched e))
    (spares : ∀ v ∈ visitList es, slot.Spares constants v) :
    slot.Secure (fun vs => (∀ v ∈ vs, slot.Clean v) ∧ slot.range.holds (vs.getD i .undefined) = true)
      (evalArgs host.watched es) := by
  induction es generalizing i with
  | nil => cases position
  | cons a es ih =>
    simp only [visitList,List.mem_append] at spares
    have others (b : Expr) (member : b ∈ es) := each b (List.mem_cons_of_mem a member)
    cases i with
    | zero =>
      cases position
      refine Run.Always.bind taken fun v clean => ?_
      refine Run.Always.bind (secure_evalArgs others fun v member => spares v (.inr member)) fun vs rest =>
        Run.Always.pure ?_
      exact ⟨List.forall_mem_cons.mpr ⟨clean.1,rest⟩,clean.2⟩
    | succ i =>
      refine Run.Always.bind (each a (by simp) fun v member => spares v (.inl member)) fun v clean => ?_
      refine Run.Always.bind (ih position others fun v member => spares v (.inr member)) fun vs rest => Run.Always.pure ?_
      exact ⟨List.forall_mem_cons.mpr ⟨clean,rest.1⟩,rest.2⟩

variable (honest : ∀ v, host.Hands v → slot.Clean v)
include honest

theorem secure_updateLocal {id : LocalId} (other : id ≠ slot.param) (op : UpdateOp) (pre : Bool) :
    slot.Secure slot.Clean (updateLocal host.watched id op pre) := by
  refine Run.Always.bind (secure_readLocal honest id) fun v clean => ?_
  refine Run.Always.bind (secure_applyOp honest (by simp) (allowed_op (by simpa using clean))) fun old cleanOld => ?_
  have operands : ∀ w ∈ [old,.int 1], slot.Clean w := by
    intro w member
    rcases List.mem_cons.mp member with rfl | one
    · exact cleanOld
    · cases List.mem_singleton.mp one
      exact fun same => by cases same
  refine Run.Always.bind (secure_applyOp honest (by simp) (allowed_op operands)) fun new cleanNew => ?_
  refine Run.Always.bind (secure_writeLocal honest other cleanNew) fun _ _ => Run.Always.pure ?_
  cases pre with
  | true => exact cleanNew
  | false => exact cleanOld

theorem secure_captureLocals (ids : List LocalId) :
    slot.Secure (fun vs => ∀ v ∈ vs, slot.Clean v) (captureLocals host.watched ids) := by
  induction ids with
  | nil => exact Run.Always.pure (by simp)
  | cons id ids ih =>
    have first : slot.Secure slot.Clean (captureLocal host.watched id) :=
      Run.Always.ite (fun _ => Run.Always.pure fun same => by cases same) fun _ => secure_readLocal honest id
    refine Run.Always.bind first fun v clean => Run.Always.bind ih fun vs rest => Run.Always.pure ?_
    exact List.forall_mem_cons.mpr ⟨clean,rest⟩

theorem secure_withStore {object v : Val} {property : String} {fallback : WithSetFallback} {strict : Bool}
    (cleanObject : slot.Clean object) (clean : slot.Clean v)
    (spares : ∀ id, fallback = .local id ∨ fallback = .sloppyImplicit id → id ≠ slot.param) :
    slot.Secure slot.Clean (withStore host.watched object property v fallback strict) := by
  have assigned (id : LocalId) (other : id ≠ slot.param) : slot.Secure slot.Clean
      (writeLocal host.watched id v >>= fun _ => pure v) :=
    Run.Always.bind (secure_writeLocal honest other clean) fun _ _ => Run.Always.pure clean
  have refused (fallback : WithSetFallback) : slot.Secure slot.Clean (Host.lift (host.watched.refuseWith fallback property)) :=
    Run.Always.weaken (secure_lift [] (fun w ends => honest w (.refuseWith fallback property ends))
      fun r none => absurd none List.not_mem_nil) fun w clean => clean w (by simp)
  refine Run.Always.bind (secure_applyOp honest (by simp) (allowed_op (by simpa using cleanObject))) fun has _ => ?_
  refine Run.Always.ite (fun _ => ?_) fun _ => ?_
  · refine secure_applyOp honest (by simp) (allowed_op fun w member => ?_)
    rcases List.mem_cons.mp member with rfl | one
    · exact cleanObject
    · cases List.mem_singleton.mp one
      exact clean
  · cases fallback with
    | «local» id => exact assigned id (spares id (.inl rfl))
    | sloppyImplicit id => exact assigned id (spares id (.inr rfl))
    | ignore => exact Run.Always.pure clean
    | throwReferenceError => exact refused _
    | throwConstAssignment => exact refused _

theorem secure_suspendOn {m : Run W Signal Val} {asked : List Request} (hands : ∀ v, Hir.Ends m ([·]) v → host.Hands v)
    (allowed : ∀ r ∈ asked, slot.Allowed r) : slot.Secure slot.Clean (suspendOn (Host.watched.pass asked m)) := by
  refine Run.Always.bind (secure_emit fits_suspend) fun _ _ => ?_
  exact Run.Always.weaken (secure_lift asked (fun v ends => honest v (hands v ends)) allowed) fun v clean =>
    clean v (by simp)

/-- A direct call, or any other operator over nodes of their own. -/
theorem secure_strict {op : Op} {args : List Expr} (folds : host.Folds constants)
    (each : ∀ e ∈ args, (∀ v ∈ visitExpr e, slot.Spares constants v) → slot.Secure slot.Clean (eval host.watched e))
    (spares : ∀ v ∈ visitExpr (.strict op args), slot.Spares constants v) :
    slot.Secure slot.Clean (eval host.watched (.strict op args)) := by
  simp only [visitExpr,List.mem_cons] at spares
  have whole := spares _ (.inl rfl)
  have plain (inside : ∀ v ∈ visitList args, slot.Spares constants v) (other : op ≠ .funcRef slot.func) :
      slot.Secure slot.Clean (eval host.watched (.strict op args)) :=
    Run.Always.bind (secure_evalArgs each inside) fun vs clean => secure_applyOp honest other (allowed_op clean)
  cases args with
  | nil =>
    refine plain (by simp [visitList]) fun same => ?_
    subst same
    exact whole rfl
  | cons e es =>
    simp only [visitArgs,List.mem_append] at spares
    have rest (v : Visit) (member : v ∈ visitList es) := spares v (.inr (.inr member))
    cases direct : isDirectCallee op e with
    | false =>
      simp only [direct,Bool.false_eq_true,if_false] at spares
      refine plain (fun v member => ?_) fun same => ?_
      · rcases List.mem_append.mp member with first | later
        · exact spares v (.inr (.inl first))
        · exact rest v later
      · subst same
        exact whole rfl
    | true =>
      unfold isDirectCallee at direct
      split at direct
      · next id =>
        have others (a : Expr) (member : a ∈ es) := each a (List.mem_cons_of_mem _ member)
        have ready : slot.Secure (fun vs => (∀ v ∈ vs, slot.Clean v) ∧ (id = slot.func → slot.Good vs))
            (evalArgs host.watched es) := by
          by_cases same : id = slot.func
          · obtain ⟨e,k,position,constant,exact,lower,upper⟩ := whole same
            refine Run.Always.weaken (secure_taken position
              (secure_constant folds constant exact lower upper) others rest) fun vs taken => ?_
            exact ⟨taken.1,fun _ => taken⟩
          · exact Run.Always.weaken (secure_evalArgs others rest) fun vs clean =>
              ⟨clean,fun equal => absurd equal same⟩
        have shape : eval host.watched (.strict .call (.strict (.funcRef id) [] :: es)) =
            evalArgs host.watched es >>= fun vs => applyOp host.watched .call (.func id :: vs) := by
          simp only [eval,evalArgs,bind_assoc,pure_bind]
          rfl
        rw [shape]
        refine Run.Always.bind ready fun vs clean => secure_applyOp honest (by simp) (allowed_call clean.1 clean.2)
      · cases direct

/-- Every expression of the module's code keeps the slot. -/
theorem secure_eval (e : Expr) (folds : host.Folds constants) (spares : ∀ v ∈ visitExpr e, slot.Spares constants v) :
    slot.Secure slot.Clean (eval host.watched e) := by
  induction e using Expr.induct with
  | lit l =>
    refine Run.Always.pure fun same => ?_
    cases l <;> cases same
  | localGet id => exact secure_readLocal honest id
  | localSet id value ih =>
    simp only [visitExpr,List.mem_cons] at spares
    refine Run.Always.bind (ih fun v member => spares v (.inr member)) fun v clean => ?_
    exact Run.Always.bind (secure_writeLocal honest (spares _ (.inl rfl)) clean) fun _ _ => Run.Always.pure clean
  | update id op pre =>
    have other : id ≠ slot.param := spares (.expr (.update id op pre)) (List.mem_cons_self ..)
    exact secure_updateLocal honest other op pre
  | strict op args ih => exact secure_strict honest folds ih spares
  | logical op left right ihl ihr =>
    simp only [visitExpr,List.mem_cons,List.mem_append] at spares
    refine Run.Always.bind (ihl fun v member => spares v (.inr (.inl member))) fun v clean => ?_
    exact Run.Always.ite (fun _ => Run.Always.pure clean) fun _ => ihr fun v member => spares v (.inr (.inr member))
  | conditional c t e ihc iht ihe =>
    simp only [visitExpr,List.mem_cons,List.mem_append] at spares
    refine Run.Always.bind (ihc fun v member => spares v (.inr (.inl (.inl member)))) fun v _ => ?_
    exact Run.Always.ite (fun _ => iht fun v member => spares v (.inr (.inl (.inr member)))) fun _ =>
      ihe fun v member => spares v (.inr (.inr member))
  | sequence items ih =>
    simp only [visitExpr,List.mem_cons] at spares
    exact secure_evalSequence (fun same => by cases same) ih fun v member => spares v (.inr member)
  | arrayMut kind id args ih =>
    simp only [visitExpr,List.mem_cons] at spares
    refine Run.Always.bind (secure_readLocal honest id) fun receiver clean => ?_
    refine Run.Always.bind (secure_evalArgs ih fun v member => spares v (.inr member)) fun vs rest => ?_
    exact secure_applyOp honest (by simp) (allowed_op (List.forall_mem_cons.mpr ⟨clean,rest⟩))
  | withSet object property value fallback strict iho ihv =>
    simp only [visitExpr,List.mem_cons,List.mem_append] at spares
    refine Run.Always.bind (iho fun v member => spares v (.inr (.inl member))) fun o cleanObject => ?_
    refine Run.Always.bind (ihv fun v member => spares v (.inr (.inr member))) fun v clean => ?_
    refine secure_withStore honest cleanObject clean fun id names => ?_
    have whole := spares _ (.inl rfl)
    rcases names with rfl | rfl
    · exact whole
    · exact whole
  | closure funcId params defaults captures mutableCaptures flags body ih =>
    refine Run.Always.bind (secure_captureLocals honest captures) fun vs clean => ?_
    have lifted := secure_lift [.closure funcId vs] (fun v ends => honest v (.closure funcId flags vs ends)) fun r member => by
      cases List.mem_singleton.mp member
      exact ⟨clean,fun args same => by cases same⟩
    exact Run.Always.weaken lifted fun v clean => clean v (by simp)
  | await operand ih =>
    simp only [visitExpr,List.mem_cons] at spares
    refine Run.Always.bind (ih fun v member => spares v (.inr member)) fun v clean => ?_
    refine secure_suspendOn honest (fun w ends => .await v ends) fun r member => ?_
    cases List.mem_singleton.mp member
    exact ⟨by simpa [Request.handed] using clean,fun args same => by cases same⟩
  | yieldNone delegate =>
    refine secure_suspendOn honest (fun w ends => .yield .undefined delegate ends) fun r member => ?_
    cases List.mem_singleton.mp member
    refine ⟨fun v held => ?_,fun args same => by cases same⟩
    cases List.mem_singleton.mp held
    exact fun same => by cases same
  | yieldSome value delegate ih =>
    simp only [visitExpr,visitOption,List.mem_cons] at spares
    refine Run.Always.bind (ih fun v member => spares v (.inr member)) fun v clean => ?_
    refine secure_suspendOn honest (fun w ends => .yield v delegate ends) fun r member => ?_
    cases List.mem_singleton.mp member
    exact ⟨by simpa [Request.handed] using clean,fun args same => by cases same⟩

end expressions

section statements

variable {constants : LocalId → Option Hir.Num} {mode : Mode} {n : Nat}

/-- A completion that hands out only clean values. -/
def Slot.Closes (slot : Slot) (c : Comp) : Prop := ∀ v ∈ handedAtEnd (.error c), slot.Clean v

theorem ends_perform {α : Type} {Q : α → Prop} {m : Eval (W × List Request) α} (secure : slot.Secure Q m) :
    Run.Always slot.Kept Q slot.Closes (perform m) := by
  refine Run.Always.mapError secure fun e clean => ?_
  cases e <;> exact clean

theorem ends_complete {r : Except Comp Unit} (closes : ∀ c, r = .error c → slot.Closes c) :
    slot.Ends (complete r : Act (W × List Request) Unit) := by
  cases r with
  | ok _ => exact Run.Always.pure trivial
  | error c => exact Run.Always.raise (closes c rfl)

theorem closes_jump {c : Comp} (jump : handedAtEnd (.error c) = []) : slot.Closes c := by
  intro v held
  rw [jump] at held
  cases held

theorem ends_loopAgain {labels : List String} {r : Except Comp Unit} (closes : ∀ c, r = .error c → slot.Closes c) :
    Run.Always slot.Kept (fun _ => True) slot.Closes (loopAgain labels r : Act (W × List Request) Bool) := by
  unfold loopAgain
  split
  · exact Run.Always.pure trivial
  · exact Run.Always.pure trivial
  · exact Run.Always.ite (fun _ => Run.Always.pure trivial) fun _ => Run.Always.raise (closes _ rfl)
  · exact Run.Always.pure trivial
  · exact Run.Always.raise (closes _ rfl)

theorem ends_round {labels : List String} {b : List Stmt} {run : Act (W × List Request) Unit} (body : slot.Ends run) :
    Run.Always slot.Kept (fun _ => True) slot.Closes
      (emit (.iteration b) >>= fun _ => run.observe (loopAgain labels)) := by
  refine Run.Always.bind (Q := fun _ => True) (fun s kept => ⟨trivial,kept.store,kept.asked,?_⟩) fun _ _ => ?_
  · intro e member
    rcases List.mem_cons.mp member with rfl | old
    · exact fits_iteration b
    · exact kept.trace e old
  · exact Run.Always.observe body (fun _ _ => ends_loopAgain fun c same => by cases same) fun c closes =>
      ends_loopAgain fun d same => by cases same; exact closes

theorem ends_whileLoop {labels : List String} {b : List Stmt} {test : Eval (W × List Request) Bool}
    {run : Act (W × List Request) Unit} {next : Eval (W × List Request) Unit} (tests : slot.Secure (fun _ => True) test)
    (body : slot.Ends run) (nexts : slot.Secure (fun _ => True) next) : slot.Ends (whileLoop n labels b test run next) := by
  refine Run.Always.iterate (Run.Always.bind (ends_perform tests) fun go _ => ?_) (closes_jump rfl) n
  refine Run.Always.ite (fun _ => ?_) fun _ => Run.Always.pure trivial
  rw [← bind_assoc]
  refine Run.Always.bind (ends_round body) fun again _ => ?_
  exact Run.Always.ite (fun _ => Run.Always.bind (ends_perform nexts) fun _ _ => Run.Always.pure trivial) fun _ =>
    Run.Always.pure trivial

theorem ends_doWhileLoop {labels : List String} {b : List Stmt} {test : Eval (W × List Request) Bool}
    {run : Act (W × List Request) Unit} (body : slot.Ends run) (tests : slot.Secure (fun _ => True) test) :
    slot.Ends (doWhileLoop labels b run test n) := by
  cases n with
  | zero => exact Run.Always.raise (closes_jump rfl)
  | succ n =>
    rw [doWhileLoop,← bind_assoc]
    refine Run.Always.bind (ends_round body) fun again _ => Run.Always.ite (fun _ => ?_) fun _ => Run.Always.pure trivial
    exact ends_whileLoop tests body (Run.Always.pure trivial)

theorem ends_execList {ss : List Stmt} {labels : List String}
    (each : ∀ s ∈ ss, (∀ v ∈ visitStmt s, slot.Spares constants v) → ∀ labels, slot.Ends (exec host.watched mode n labels s))
    (spares : ∀ v ∈ visitStmts ss, slot.Spares constants v) : slot.Ends (execList host.watched mode n labels ss) := by
  induction ss with
  | nil => exact Run.Always.pure trivial
  | cons s ss ih =>
    simp only [visitStmts,List.mem_append] at spares
    exact Run.Always.bind (each s (by simp) (fun v member => spares v (.inl member)) labels) fun _ _ =>
      ih (fun t member => each t (by simp [member])) fun v member => spares v (.inr member)

theorem ends_execFrom {cases : List SwitchCase}
    (each : ∀ c ∈ cases, ∀ s ∈ c.body, (∀ v ∈ visitStmt s, slot.Spares constants v) →
      ∀ labels, slot.Ends (exec host.watched mode n labels s))
    (spares : ∀ v ∈ visitCases cases, slot.Spares constants v) (k : Nat) :
    slot.Ends (execFrom host.watched mode n k cases) := by
  induction cases generalizing k with
  | nil => cases k <;> exact Run.Always.pure trivial
  | cons c cases ih =>
    rcases c with ⟨test,body⟩
    simp only [visitCases,List.mem_append] at spares
    have rest := ih (fun d member => each d (by simp [member])) fun v member => spares v (.inr member)
    cases k with
    | zero =>
      refine Run.Always.bind (ends_execList (each (.mk test body) (by simp)) fun v member => ?_) fun _ _ => rest 0
      exact spares v (.inl (.inr member))
    | succ k => exact rest k

variable (honest : ∀ v, host.Hands v → slot.Clean v) (folds : host.Folds constants)
include honest folds

theorem secure_evalOption {e : Option Expr} (spares : ∀ v ∈ visitOption e, slot.Spares constants v) :
    slot.Secure slot.Clean (evalOption host.watched e) := by
  cases e with
  | none => exact Run.Always.pure fun same => by cases same
  | some e => exact secure_eval honest e folds spares

theorem secure_evalTest {e : Expr} (spares : ∀ v ∈ visitExpr e, slot.Spares constants v) :
    slot.Secure (fun _ => True) (evalTest host.watched e) :=
  Run.Always.bind (secure_eval honest e folds spares) fun _ _ => Run.Always.pure trivial

theorem secure_selectCase {cases : List SwitchCase} {v : Val} (spares : ∀ v ∈ visitCases cases, slot.Spares constants v) :
    slot.Secure (fun _ => True) (selectCase host.watched v cases) := by
  induction cases with
  | nil => exact Run.Always.pure trivial
  | cons c cases ih =>
    rcases c with ⟨_ | t,body⟩
    · simp only [visitCases,List.mem_append] at spares
      exact Run.Always.bind (ih fun v member => spares v (.inr member)) fun _ _ => Run.Always.pure trivial
    · simp only [visitCases,visitOption,List.mem_append] at spares
      refine Run.Always.bind (secure_eval honest t folds fun v member => spares v (.inl (.inl member))) fun w _ => ?_
      refine Run.Always.ite (fun _ => Run.Always.pure trivial) fun _ => ?_
      exact Run.Always.bind (ih fun v member => spares v (.inr member)) fun _ _ => Run.Always.pure trivial

/-- Every statement of the module's code keeps the slot. -/
theorem ends_exec (s : Stmt) (spares : ∀ v ∈ visitStmt s, slot.Spares constants v) (labels : List String) :
    slot.Ends (exec host.watched mode n labels s) := by
  induction s using Stmt.induct generalizing labels with
  | letNone id m =>
    have other : id ≠ slot.param := spares (.bind id) (List.mem_cons_self ..)
    exact ends_perform (secure_declareLocal honest (fun same => absurd same other) fun same => by cases same)
  | letSome id m e =>
    simp only [visitStmt,visitOption,List.mem_cons] at spares
    have other : id ≠ slot.param := spares (.bind id) (.inl rfl)
    exact ends_perform (Run.Always.bind (secure_eval honest e folds fun v member => spares v (.inr member)) fun v clean =>
      secure_declareLocal honest (fun same => absurd same other) clean)
  | expr e =>
    exact ends_perform (Run.Always.bind (secure_eval honest e folds spares) fun _ _ => Run.Always.pure trivial)
  | returnStmt value =>
    refine Run.Always.bind (ends_perform (secure_evalOption honest folds spares)) fun v clean => Run.Always.raise ?_
    simpa [Slot.Closes,handedAtEnd] using clean
  | throwStmt e =>
    refine Run.Always.bind (ends_perform (secure_eval honest e folds spares)) fun v clean => Run.Always.raise ?_
    simpa [Slot.Closes,handedAtEnd] using clean
  | ifStmt c t e iht ihe =>
    simp only [visitStmt,visitBlock_eq,List.mem_append] at spares
    rw [exec_if]
    refine Run.Always.bind (ends_perform (secure_evalTest honest folds fun v member => spares v (.inl (.inl member))))
      fun go _ => ?_
    exact Run.Always.ite (fun _ => ends_execList iht fun v member => spares v (.inl (.inr member))) fun _ =>
      ends_execList ihe fun v member => spares v (.inr member)
  | whileStmt c b ih =>
    simp only [visitStmt,List.mem_append] at spares
    exact ends_whileLoop (secure_evalTest honest folds fun v member => spares v (.inl member))
      (ends_execList ih fun v member => spares v (.inr member)) (Run.Always.pure trivial)
  | doWhile b c ih =>
    simp only [visitStmt,List.mem_append] at spares
    exact ends_doWhileLoop (ends_execList ih fun v member => spares v (.inr member))
      (secure_evalTest honest folds fun v member => spares v (.inl member))
  | forStmt i c u b ihi ihb =>
    simp only [visitStmt,List.mem_append] at spares
    have start : slot.Ends (execOption host.watched mode n i) := by
      cases i with
      | none => exact Run.Always.pure trivial
      | some s => exact ihi s rfl (fun v member => spares v (.inl (.inl (.inl member)))) []
    have tests : slot.Secure (fun _ => True) (evalTest? host.watched c) := by
      cases c with
      | none => exact Run.Always.pure trivial
      | some c => exact secure_evalTest honest folds fun v member => spares v (.inl (.inl (.inr member)))
    have updates : slot.Secure (fun _ => True) (evalDiscard host.watched u) := by
      cases u with
      | none => exact Run.Always.pure trivial
      | some u =>
        exact Run.Always.bind (secure_eval honest u folds fun v member => spares v (.inl (.inr member))) fun _ _ =>
          Run.Always.pure trivial
    exact Run.Always.bind start fun _ _ =>
      ends_whileLoop tests (ends_execList ihb fun v member => spares v (.inr member)) updates
  | labeled l b ih =>
    refine Run.Always.observe (ih spares (l :: labels)) (fun _ _ => Run.Always.pure trivial) fun c closes => ?_
    unfold catchLabel
    split
    · exact Run.Always.ite (fun _ => Run.Always.pure trivial) fun _ => Run.Always.raise (closes_jump rfl)
    · exact Run.Always.ite (fun _ => Run.Always.pure trivial) fun _ => Run.Always.raise (closes_jump rfl)
    · exact ends_complete fun d same => by cases same; exact closes
  | tryStmt b h f ihb ihh ihf =>
    simp only [visitStmt,List.mem_append] at spares
    have body : slot.Ends (execList host.watched mode n [] b) :=
      ends_execList ihb fun v member => spares v (.inl (.inl member))
    have handled : slot.Ends ((execList host.watched mode n [] b).observe (execCatch host.watched mode n h)) := by
      refine Run.Always.observe body (fun _ _ => ?_) fun c closes => ?_
      · rcases h with _ | ⟨param,caught⟩ <;> exact Run.Always.pure trivial
      · rcases h with _ | ⟨param,caught⟩
        · exact Run.Always.raise closes
        · simp only [visitCatch,List.mem_append] at spares
          cases c with
          | throw v =>
            have binds : slot.Secure (fun _ => True) (bindParam host.watched param v) := by
              cases param with
              | none => exact Run.Always.pure trivial
              | some id =>
                have other : id ≠ slot.param := spares (.bind id) (.inl (.inr (.inl (by simp))))
                exact secure_declareLocal honest (fun same => absurd same other) (closes v (by simp [handedAtEnd]))
            exact Run.Always.bind (ends_perform binds) fun _ _ =>
              ends_execList (ihh _ rfl) fun v member => spares v (.inl (.inr (.inr member)))
          | _ => exact Run.Always.raise closes
    cases f with
    | none => exact handled
    | some final =>
      have last : slot.Ends (execList host.watched mode n [] final) :=
        ends_execList (ihf _ rfl) fun v member => spares v (.inr member)
      refine Run.Always.observe handled (fun _ _ => ?_) fun c closes => ?_
      · exact Run.Always.ite (fun _ => Run.Always.bind last fun _ _ => Run.Always.pure trivial) fun _ =>
          Run.Always.pure trivial
      · exact Run.Always.ite (fun _ => Run.Always.bind last fun _ _ => Run.Always.raise closes) fun _ =>
          Run.Always.raise closes
  | switch d cases ih =>
    simp only [visitStmt,List.mem_append] at spares
    refine Run.Always.bind (ends_perform (Run.Always.bind (secure_eval honest d folds fun v member => spares v (.inl member))
      fun v _ => secure_selectCase honest folds fun v member => spares v (.inr member))) fun k _ => ?_
    cases k.or (defaultCase cases) with
    | none => exact Run.Always.pure trivial
    | some k =>
      refine Run.Always.observe (ends_execFrom ih (fun v member => spares v (.inr member)) k)
        (fun _ _ => Run.Always.pure trivial) fun c closes => ?_
      unfold catchBreak
      split
      · exact Run.Always.pure trivial
      · exact ends_complete fun d same => by cases same; exact closes
  | breakStmt => exact Run.Always.raise (closes_jump rfl)
  | continueStmt => exact Run.Always.raise (closes_jump rfl)
  | labeledBreak l => exact Run.Always.raise (closes_jump rfl)
  | labeledContinue l => exact Run.Always.raise (closes_jump rfl)
  | preallocateBoxes ids =>
    exact ends_perform (Run.Always.forM fun id _ => Run.Always.weaken (secure_lift []
      (fun v ends => honest v (.allocateBox id false ends)) fun r none => absurd none List.not_mem_nil) fun _ _ => trivial)
  | preallocateTdzBoxes ids =>
    exact ends_perform (Run.Always.forM fun id _ => Run.Always.weaken (secure_lift []
      (fun v ends => honest v (.allocateBox id true ends)) fun r none => absurd none List.not_mem_nil) fun _ _ => trivial)
  | releaseBoxes ids =>
    exact ends_perform (Run.Always.forM fun id _ => Run.Always.weaken (secure_lift []
      (fun v ends => honest v (.releaseBox id ends)) fun r none => absurd none List.not_mem_nil) fun _ _ => trivial)

end statements

section activations

variable {constants : LocalId → Option Hir.Num} {mode : Mode} {n : Nat}

/-- The slot's parameter is bound to an argument in range. -/
def Slot.Binds (slot : Slot) (args : List Val) (i : Nat) (params : List Param) : Prop :=
  ∀ k p, params[k]? = some p → p.id = slot.param →
    p.isRest = false ∧ p.argumentsObject = false ∧ p.default = none ∧
      slot.range.holds (args.getD (i + k) .undefined) = true

theorem clean_getD {args : List Val} (clean : ∀ v ∈ args, slot.Clean v) (i : Nat) : slot.Clean (args.getD i .undefined) := by
  rcases inside : args[i]? with _ | v
  · simp [List.getD_eq_getElem?_getD,inside,Slot.Clean]
  · simpa [List.getD_eq_getElem?_getD,inside] using clean v (List.mem_of_getElem? inside)

variable (honest : ∀ v, host.Hands v → slot.Clean v) (folds : host.Folds constants)
include honest folds

theorem secure_paramValue {args : List Val} {i : Nat} {p : Param} (clean : ∀ v ∈ args, slot.Clean v)
    (spares : ∀ v ∈ visitOption p.default, slot.Spares constants v) :
    slot.Secure slot.Clean (paramValue host.watched args i p) := by
  refine Run.Always.ite (fun _ => ?_) fun _ => Run.Always.ite (fun _ => ?_) fun _ => ?_
  · exact secure_applyOp honest (by simp) (allowed_op fun v member => clean v (List.mem_of_mem_drop member))
  · exact secure_applyOp honest (by simp) (allowed_op clean)
  · split
    · next d given _ =>
      rw [given] at spares
      exact secure_eval honest d folds spares
    · exact Run.Always.pure (clean_getD clean i)

theorem secure_bindParams {args : List Val} {i : Nat} {params : List Param} (clean : ∀ v ∈ args, slot.Clean v)
    (spares : ∀ v ∈ visitParams params, slot.Spares constants v) (binds : slot.Binds args i params) :
    slot.Secure (fun _ => True) (bindParams host.watched args i params) := by
  induction params generalizing i with
  | nil => exact Run.Always.pure trivial
  | cons p ps ih =>
    simp only [visitParams,List.flatMap_cons,List.mem_append] at spares
    have value := secure_paramValue honest folds (i := i) clean fun v member => spares v (.inl member)
    have rest : slot.Secure (fun _ => True) (bindParams host.watched args (i + 1) ps) := by
      refine ih (fun v member => spares v (.inr member)) fun k q position same => ?_
      rw [Nat.add_assoc,Nat.add_comm 1 k]
      exact binds (k + 1) q position same
    by_cases same : p.id = slot.param
    · obtain ⟨rest?,arguments?,default?,holds⟩ := binds 0 p rfl same
      have shape : paramValue host.watched args i p = pure (args.getD i .undefined) := by
        simp [paramValue,rest?,arguments?,default?]
      rw [bindParams,shape,pure_bind]
      exact Run.Always.bind (secure_declareLocal honest (fun _ => holds) (clean_getD clean i)) fun _ _ => rest
    · exact Run.Always.bind value fun v cleanValue =>
        Run.Always.bind (secure_declareLocal honest (fun equal => absurd equal same) cleanValue) fun _ _ => rest

theorem ends_activation (mode : Mode) (n : Nat) {code : Code} {args : List Val} (clean : ∀ v ∈ args, slot.Clean v)
    (spares : ∀ v ∈ visitCode code, slot.Spares constants v) (binds : slot.Binds args 0 code.params) :
    slot.Ends (activation host.watched mode n code args) := by
  simp only [visitCode,List.mem_append] at spares
  refine Run.Always.bind (ends_perform (secure_bindParams honest folds clean (fun v member => spares v (.inl member)) binds))
    fun _ _ => ?_
  exact ends_execList (fun s _ spares labels => ends_exec honest folds s spares labels) fun v member =>
    spares v (.inr member)

end activations

end Perry.Codegen.ParamRanges
