import Perry.Transform.HoistAwaits

/-! Hoisting the awaits out of an expression that keeps its order splits its evaluation:
first what hoisting leaves behind, then the hoisted code. -/
namespace Perry.Transform.HoistAwaits

open Perry.Effect Perry.Hir Perry.Transform

theorem awaitsInObjIife_of_free {op : Op} {args : List Expr} (free : containsAny .await args = false) :
    awaitsInObjIife op args = false := by
  unfold awaitsInObjIife
  split
  · next params _ _ _ flags body _ =>
    simp only [containsAny,contains,Suspension.enters,Bool.or_eq_false_iff,Bool.and_eq_false_iff] at free
    rcases free.1 with (length | helper) | none
    · simp [length]
    · simp [helper]
    · simp [none]
  · rfl

theorem awaitsInObjIife_of_keepsOrder {boxed : LocalId → Bool} {op : Op} {args : List Expr}
    (ordered : keepsOrderAll .await boxed args = true) : awaitsInObjIife op args = false := by
  unfold awaitsInObjIife
  split
  · next params _ _ _ flags body _ =>
    simp only [keepsOrderAll,keepsOrder,Suspension.enters,Bool.and_eq_true,Bool.not_eq_true',
      Bool.and_eq_false_iff] at ordered
    rcases ordered.1.1 with (length | helper) | none
    · simp [length]
    · simp [helper]
    · simp [none]
  · rfl

private theorem hoistAwaitsInList_of_each {es : List Expr} (free : containsAny .await es = false)
    (each : ∀ e ∈ es, contains .await e = false →
      ∀ top next, (hoistAwaitsInExpr top e).run next = (([],e),next)) (next : LocalId) :
    (hoistAwaitsInList es).run next = (([],es),next) := by
  induction es with
  | nil => rfl
  | cons e es ih =>
    simp only [containsAny,Bool.or_eq_false_iff] at free
    simp only [hoistAwaitsInList,Fresh.bind_run,Fresh.pure_run,each e (by simp) free.1,
      ih free.2 fun a member => each a (by simp [member]),List.nil_append]

/-- An expression that does not await is left alone. -/
theorem hoistAwaitsInExpr_of_free {e : Expr} (free : contains .await e = false) (top : Bool)
    (next : LocalId) : (hoistAwaitsInExpr top e).run next = (([],e),next) := by
  induction e using Expr.induct generalizing top next with
  | lit l => rfl
  | localGet id => rfl
  | localSet id value ih => simp only [hoistAwaitsInExpr,Fresh.bind_run,Fresh.pure_run,ih free]
  | update id op pre => rfl
  | strict op args ih =>
    simp only [hoistAwaitsInExpr,awaitsInObjIife_of_free free,Bool.false_eq_true,if_false,Fresh.bind_run,
      Fresh.pure_run,hoistAwaitsInList_of_each free ih]
  | logical op left right ihl ihr =>
    simp only [contains,Bool.or_eq_false_iff] at free
    simp only [hoistAwaitsInExpr,free.2,Bool.false_eq_true,if_false,Fresh.bind_run,Fresh.pure_run,ihl free.1,
      ihr free.2,List.nil_append]
  | conditional c t e ihc iht ihe =>
    simp only [contains,Bool.or_eq_false_iff] at free
    simp only [hoistAwaitsInExpr,free.2,free.1.2,Bool.or_self,Bool.false_eq_true,if_false,Fresh.bind_run,
      Fresh.pure_run,ihc free.1.1,iht free.1.2,ihe free.2,List.nil_append]
  | sequence items ih =>
    simp only [contains] at free
    simp only [hoistAwaitsInExpr,free,Bool.false_eq_true,if_false,Fresh.bind_run,Fresh.pure_run,
      hoistAwaitsInList_of_each free ih]
  | arrayMut kind id args ih =>
    simp only [hoistAwaitsInExpr,Fresh.bind_run,Fresh.pure_run,hoistAwaitsInList_of_each free ih]
  | withSet object property value fallback strict iho ihv =>
    simp only [contains,Bool.or_eq_false_iff] at free
    simp only [hoistAwaitsInExpr,Fresh.bind_run,Fresh.pure_run,iho free.1,ihv free.2,List.nil_append]
  | closure funcId params defaults captures mutableCaptures flags body ih => rfl
  | await operand ih =>
    simp only [contains,Bool.or_eq_false_iff] at free
    cases free.1
  | yieldNone delegate => rfl
  | yieldSome value delegate ih =>
    simp only [contains,containsOption,Bool.or_eq_false_iff] at free
    simp only [hoistAwaitsInExpr,hoistAwaitsInOption,Fresh.bind_run,Fresh.pure_run,ih free.2]

theorem hoistAwaitsInList_of_free {es : List Expr} (free : containsAny .await es = false) (next : LocalId) :
    (hoistAwaitsInList es).run next = (([],es),next) :=
  hoistAwaitsInList_of_each free (fun _ _ free top next => hoistAwaitsInExpr_of_free free top next) next

variable {W : Type} {host : Host W} {mode : Mode} {n : Nat} {bound : LocalId}

section settled

/-- What hoisting leaves of one operand is inert when it settles. -/
def LeavesSettled (host : Host W) (e : Expr) : Prop :=
  ∀ {used next}, settles .await host.boxed e = some used → (∀ id, next ≤ id → host.boxed id = false) →
    Settled (span used next ((hoistAwaitsInExpr false e).run next).2)
      (eval host ((hoistAwaitsInExpr false e).run next).1.2) fun _ => True

private theorem settled_residuals {es : List Expr} {used : List LocalId} {next : LocalId}
    (settled : settlesList .await host.boxed es = some used) (temps : ∀ id, next ≤ id → host.boxed id = false)
    (each : ∀ e ∈ es, LeavesSettled host e) :
    Settled (span used next ((hoistAwaitsInList es).run next).2)
      (evalArgs host ((hoistAwaitsInList es).run next).1.2) fun vs => vs.length = es.length := by
  induction es generalizing used next with
  | nil =>
    cases settled
    exact Settled.pure rfl
  | cons e es ih =>
    obtain ⟨l,r,hl,hr,rfl⟩ := settlesList_cons settled
    have grows := (hoistAwaitsInExpr false e).grows next
    have first := each e (by simp) hl temps
    have rest := ih hr (fun id large => temps id (Nat.le_trans grows large)) fun a member => each a (by simp [member])
    simp only [hoistAwaitsInList,Fresh.bind_run,Fresh.pure_run,evalArgs]
    refine (first.wider (span_mono (List.subset_append_left _ _) (Nat.le_refl _)
      ((hoistAwaitsInList es).grows _))).bind fun v _ => ?_
    refine (rest.wider (span_mono (List.subset_append_right _ _) grows (Nat.le_refl _))).map ?_ fun _ _ => rfl
    intro vs sized
    simp [sized]

private theorem settled_last {items : List Expr} {used : List LocalId} {next : LocalId}
    (settled : settlesLast .await host.boxed items = some used) (temps : ∀ id, next ≤ id → host.boxed id = false)
    (each : ∀ e ∈ items, LeavesSettled host e) :
    Settled (span used next ((liftSequence false items).run next).2)
      (eval host ((liftSequence false items).run next).1.2) fun _ => True := by
  induction items generalizing next with
  | nil => exact Settled.pure trivial
  | cons item items ih =>
    cases items with
    | nil => exact each item (by simp) settled temps
    | cons item' items =>
      have grows := (hoistAwaitsInExpr false item).grows next
      have rest := ih settled (fun id large => temps id (Nat.le_trans grows large)) fun a member =>
        each a (by simp [member])
      exact rest.wider (span_mono (List.Subset.refl _) grows (Nat.le_refl _))

/-- What hoisting leaves of an expression that settles is inert. -/
theorem settled_residual (e : Expr) : LeavesSettled host e := by
  induction e using Expr.induct with
  | lit l => exact fun _ _ => Settled.pure trivial
  | localGet id => exact fun settled _ => settled_localGet settled
  | await operand ih =>
    intro used next settled temps
    have grows := (hoistAwaitsInExpr false operand).grows next
    simp only [hoistAwaitsInExpr,Bool.false_eq_true,if_false,Fresh.bind_run,Fresh.pure_run,freshLocal_run]
    exact Settled.read (temps _ grows) (.inr ⟨grows,(awaitOperand _).grows _⟩)
  | logical op left right ihl ihr =>
    intro used next settled temps
    rcases settles_logical settled with ⟨some,_⟩ | ⟨plain,l,r,hl,hr,rfl⟩
    · simp only [hoistAwaitsInExpr,if_pos some,Fresh.bind_run,Fresh.pure_run,freshLocal_run]
      refine Settled.read (temps next (Nat.le_refl _)) (.inr ⟨Nat.le_refl _,?_⟩)
      exact Nat.le_trans ((hoistAwaitsInExpr false left).grows _) ((hoistAwaitsInExpr false right).grows _)
    · simp only [hoistAwaitsInExpr,plain,Bool.false_eq_true,if_false,Fresh.bind_run,Fresh.pure_run,eval]
      have grows := (hoistAwaitsInExpr false left).grows next
      have first := ihl hl temps
      have second := ihr hr fun id large => temps id (Nat.le_trans grows large)
      refine (first.wider (span_mono (List.subset_append_left _ _) (Nat.le_refl _)
        ((hoistAwaitsInExpr false right).grows _))).bind fun v _ => ?_
      exact Settled.ite (Settled.pure trivial)
        (second.wider (span_mono (List.subset_append_right _ _) grows (Nat.le_refl _)))
  | conditional c t e ihc iht ihe =>
    intro used next settled temps
    rcases settles_conditional settled with ⟨some,_⟩ | ⟨plain,a,b,d,ha,hb,hd,rfl⟩
    · simp only [hoistAwaitsInExpr,if_pos some,Fresh.bind_run,Fresh.pure_run,freshLocal_run]
      refine Settled.read (temps next (Nat.le_refl _)) (.inr ⟨Nat.le_refl _,?_⟩)
      exact Nat.le_trans ((hoistAwaitsInExpr false t).grows _) ((hoistAwaitsInExpr false e).grows _)
    · simp only [hoistAwaitsInExpr,plain,Bool.false_eq_true,if_false,Fresh.bind_run,Fresh.pure_run,eval]
      have growsCond := (hoistAwaitsInExpr false c).grows next
      have growsThen := (hoistAwaitsInExpr false t).grows ((hoistAwaitsInExpr false c).run next).2
      have growsElse := (hoistAwaitsInExpr false e).grows
        ((hoistAwaitsInExpr false t).run ((hoistAwaitsInExpr false c).run next).2).2
      have cond := ihc ha temps
      have yes := iht hb fun id large => temps id (Nat.le_trans growsCond large)
      have no := ihe hd fun id large => temps id (Nat.le_trans growsCond (Nat.le_trans growsThen large))
      rw [List.append_assoc]
      refine (cond.wider (span_mono (List.subset_append_left _ _) (Nat.le_refl _)
        (Nat.le_trans growsThen growsElse))).bind fun v _ => ?_
      exact Settled.ite (yes.wider (span_mono (by simp) growsCond growsElse))
        (no.wider (span_mono (by simp) (Nat.le_trans growsCond growsThen) (Nat.le_refl _)))
  | sequence items ih =>
    intro used next settled temps
    rcases settles_sequence settled with ⟨some,⟨impossible,_⟩ | ⟨_,last⟩⟩ | ⟨plain,inner⟩
    · cases impossible
    · simp only [hoistAwaitsInExpr,if_pos some]
      exact settled_last last temps ih
    · simp only [hoistAwaitsInExpr,plain,Bool.false_eq_true,if_false,Fresh.bind_run,Fresh.pure_run,eval,
        evalSequence_eq]
      exact (settled_residuals inner temps ih).map (fun _ _ => trivial) fun _ _ => rfl
  | strict op args ih =>
    intro used next settled temps
    obtain ⟨always,inner⟩ := settles_strict settled
    have plain : awaitsInObjIife op args = false := by
      cases op <;> first | rfl | cases always
    simp only [hoistAwaitsInExpr,plain,Bool.false_eq_true,if_false,Fresh.bind_run,Fresh.pure_run,eval]
    refine (settled_residuals inner temps ih).map (g := fun vs => (op.pure? vs).getD .undefined)
      (fun _ _ => trivial) fun vs sized => ?_
    exact applyOp_of_alwaysPure (by rwa [sized])
  | yieldNone delegate => exact fun settled _ => by cases settled
  | yieldSome value delegate ih => exact fun settled _ => by cases settled
  | localSet id value ih => exact fun settled _ => by cases settled
  | update id op pre => exact fun settled _ => by cases settled
  | arrayMut kind id args ih => exact fun settled _ => by cases settled
  | withSet object property value fallback strict iho ihv => exact fun settled _ => by cases settled
  | closure funcId params defaults captures mutableCaptures flags body ih => exact fun settled _ => by cases settled

end settled

/-- What the main lemma says of one expression. -/
def Hoists (host : Host W) (mode : Mode) (n : Nat) (bound : LocalId) (e : Expr) : Prop :=
  ∀ {next} top, keepsOrder .await host.boxed e = true → Fits host bound next e.accesses →
    Splits host mode n bound next (early .await e) (written e.accesses) (eval host e)
      ((hoistAwaitsInExpr top e).run next).1.1 (eval host ((hoistAwaitsInExpr top e).run next).1.2)

private theorem splits_list {es : List Expr} {next : LocalId} (each : ∀ e ∈ es, Hoists host mode n bound e)
    (ordered : keepsOrderAll .await host.boxed es = true) (fits : Fits host bound next (accessesOfList es)) :
    Splits host mode n bound next (earlyOfList .await es) (written (accessesOfList es)) (evalArgs host es)
      ((hoistAwaitsInList es).run next).1.1 (evalArgs host ((hoistAwaitsInList es).run next).1.2) := by
  induction es generalizing next with
  | nil => exact Splits.refl fun R framed => Keeps.pure _
  | cons e es ih =>
    simp only [keepsOrderAll,Bool.and_eq_true] at ordered
    rw [accessesOfList] at fits
    have fitsFirst := fits.subset (List.subset_append_left _ _)
    have fitsRest := fits.subset (List.subset_append_right _ _)
    have grows := (hoistAwaitsInExpr false e).grows next
    have rest := ih (fun a member => each a (by simp [member])) ordered.1.2 (fitsRest.later grows)
    simp only [accessesOfList,written_append]
    refine splits_pair (each e (by simp) false ordered.1.1 fitsFirst)
      (fun used settled => settled_residual e settled fun id large => fitsFirst.unboxed large) ordered.2 fitsFirst
      grows (Nat.le_refl _) (fun free => ?_) (rest.subset (List.Subset.refl _) (List.subset_append_right _ _))
      (fun id member => fitsRest.mem_written (earlyOfList_subset es member)) (List.Subset.refl _)
      (List.subset_append_left _ _) fun v vs R framed => Keeps.pure _
    rw [hoistAwaitsInList_of_free free]
    exact ⟨rfl,stays_evalArgs fitsRest.inside (List.subset_append_right _ _)⟩

/-- The guard of a lifted short circuit reads the left value back from the temporary. -/
theorem logicalGuard_guards {temp : LocalId} (unboxed : host.boxed temp = false) (op : LogicalOp) :
    Fills.Guards host op temp (logicalGuard op temp) := by
  intro t
  refine ⟨.read temp :: t.trace,?_⟩
  cases op with
  | and =>
    rw [logicalGuard,evalTest,eval,Run.bind_ok (readLocal_unboxed unboxed t),LogicalOp.stops,Bool.not_not]
    rfl
  | or =>
    simp only [logicalGuard,evalTest,eval,evalArgs,bind_assoc,pure_bind,Run.bind_ok (readLocal_unboxed unboxed t)]
    rfl
  | coalesce =>
    simp only [logicalGuard,evalTest,eval,evalArgs,bind_assoc,pure_bind,Run.bind_ok (readLocal_unboxed unboxed t),
      LogicalOp.stops,Bool.not_not,applyOp,Lit.val,pure?_looseEq_null]
    rfl

private theorem splits_sequence {items : List Expr} {next : LocalId} (top : Bool)
    (each : ∀ e ∈ items, Hoists host mode n bound e) (ordered : keepsOrderEach .await host.boxed items = true)
    (fits : Fits host bound next (accessesOfList items)) (filled : items ≠ []) (last : Val) :
    Splits host mode n bound next (earlyOfSequence .await items) (written (accessesOfList items))
      (evalSequence host last items) ((liftSequence top items).run next).1.1
      (eval host ((liftSequence top items).run next).1.2) := by
  induction items generalizing next last with
  | nil => exact absurd rfl filled
  | cons item items ih =>
    simp only [keepsOrderEach,Bool.and_eq_true] at ordered
    rw [accessesOfList] at fits
    have fitsFirst := fits.subset (List.subset_append_left _ _)
    cases items with
    | nil =>
      have only := each item (by simp) top ordered.1 fitsFirst
      simpa only [accessesOfList,List.append_nil,evalSequence,bind_pure,liftSequence,earlyOfSequence] using only
    | cons item' items =>
      have grows := (hoistAwaitsInExpr false item).grows next
      have first := each item (by simp) false ordered.1 fitsFirst
      have rest := ih (fun a member => each a (by simp [member])) ordered.2
        ((fits.subset (List.subset_append_right _ _)).later grows) (by simp)
      rw [accessesOfList,written_append]
      exact Splits.discard first (early_subset item) (d := .expr ((hoistAwaitsInExpr false item).run next).1.2) rfl
        rest grows (List.subset_append_left _ _) (List.subset_append_right _ _) (List.subset_append_right _ _)

/-- The operand of an `await`, perhaps through a binding of its own. -/
private theorem splits_awaitOperand {e : Expr} {next mid : LocalId} {v : List Stmt × Expr} {ids early' : List LocalId}
    (splits : Splits host mode n bound next early' ids (eval host e) v.1 (eval host v.2)) (fewer : early' ⊆ ids)
    (grows : next ≤ mid) (unboxed : host.boxed mid = false) :
    Splits host mode n bound next ids ids (eval host (.await e)) ((awaitOperand v).run mid).1.1
      (eval host ((awaitOperand v).run mid).1.2) := by
  unfold awaitOperand
  split
  · have bound := Fills.ofLet splits fewer grows unboxed (d := .let mid false (some v.2)) rfl
    exact (bound.splits grows unboxed).bind (List.Subset.refl _) fun v R framed => framed.suspendOn _
  · exact (splits.subset fewer (List.Subset.refl _)).bind (List.Subset.refl _) fun v R framed => framed.suspendOn _

/-- Hoisting the awaits of an expression that keeps its order splits its evaluation. -/
theorem hoists (e : Expr) : Hoists host mode n bound e := by
  induction e using Expr.induct with
  | lit l => exact fun _ _ fits => Splits.refl (stays_eval fits.inside (List.Subset.refl _))
  | localGet id => exact fun _ _ fits => Splits.refl (stays_eval fits.inside (List.Subset.refl _))
  | update id op pre => exact fun _ _ fits => Splits.refl (stays_eval fits.inside (List.Subset.refl _))
  | closure funcId params defaults captures mutableCaptures flags body ih =>
    exact fun _ _ fits => Splits.refl (stays_eval fits.inside (List.Subset.refl _))
  | localSet id value ih =>
    intro next top ordered fits
    have inner := ih false ordered (fits.subset (List.subset_cons_self _ _))
    refine inner.bind (written_mono (List.subset_cons_self _ _)) fun v R framed => ?_
    have writes : id ∈ written (Expr.localSet id value).accesses := mem_written.mpr (List.mem_cons_self ..)
    exact (framed.writeLocal host ⟨fits.mem_written writes,writes⟩ v).bind fun _ => Keeps.pure v
  | strict op args ih =>
    intro next top ordered fits
    simp only [hoistAwaitsInExpr,awaitsInObjIife_of_keepsOrder ordered,Bool.false_eq_true,if_false]
    exact (splits_list ih ordered fits).bind (List.Subset.refl _) fun vs R framed => framed.applyOp host op vs
  | logical op left right ihl ihr =>
    intro next top ordered fits
    simp only [keepsOrder,Bool.and_eq_true] at ordered
    have fitsLeft := fits.subset (List.subset_append_left left.accesses right.accesses)
    have fitsRight := fits.subset (List.subset_append_right left.accesses right.accesses)
    cases lifts : contains .await right with
    | false =>
      have first := ihl false ordered.1 fitsLeft
      simp only [hoistAwaitsInExpr,lifts,Bool.false_eq_true,if_false,Fresh.bind_run,Fresh.pure_run,early,
        hoistAwaitsInExpr_of_free lifts,List.append_nil]
      refine first.bind (written_mono (List.subset_append_left _ _)) fun v R framed => ?_
      refine Keeps.ite (fun _ => Keeps.pure v) fun _ => ?_
      exact stays_eval fitsRight.inside (written_mono (List.subset_append_right _ _)) R framed
    | true =>
      have growsLeft := (hoistAwaitsInExpr false left).grows (next + 1)
      have unboxed := fits.unboxed (Nat.le_refl next)
      have later := Nat.le_trans (Nat.le_succ next) growsLeft
      have first := fills_assign (ihl false ordered.1 (fitsLeft.later (Nat.le_succ next))) (early_subset left)
        (Nat.le_refl next) (Nat.le_succ next) unboxed
      have second := fills_assign (ihr false ordered.2 (fitsRight.later later)) (early_subset right) (Nat.le_refl next)
        later unboxed
      simp only [hoistAwaitsInExpr,lifts,if_true,Fresh.bind_run,Fresh.pure_run,freshLocal_run,early,liftLogical]
      refine Fills.splits (Fills.declare (Fills.logical first (logicalGuard_guards unboxed op) second ?_ ?_)
        (Nat.le_refl _) unboxed true) (Nat.le_refl _) unboxed
      · exact written_mono (List.subset_append_left _ _)
      · exact written_mono (List.subset_append_right _ _)
  | conditional c t e ihc iht ihe =>
    intro next top ordered fits
    simp only [keepsOrder,Bool.and_eq_true] at ordered
    simp only [Expr.accesses,List.append_assoc] at fits
    have fitsCond := fits.subset (List.subset_append_left _ _)
    have fitsThen := (fits.subset (List.subset_append_right _ _)).subset (List.subset_append_left _ _)
    have fitsElse := (fits.subset (List.subset_append_right _ _)).subset (List.subset_append_right _ _)
    have fewerCond : written c.accesses ⊆ written (Expr.conditional c t e).accesses :=
      written_mono (by simp [Expr.accesses])
    have fewerThen : written t.accesses ⊆ written (Expr.conditional c t e).accesses :=
      written_mono (by simp [Expr.accesses])
    have fewerElse : written e.accesses ⊆ written (Expr.conditional c t e).accesses :=
      written_mono (by simp [Expr.accesses])
    cases lifts : contains .await t || contains .await e with
    | false =>
      have free := Bool.or_eq_false_iff.mp lifts
      simp only [lifts,Bool.and_false,Bool.false_or] at ordered
      simp only [hoistAwaitsInExpr,lifts,Bool.false_eq_true,if_false,Fresh.bind_run,Fresh.pure_run,early,
        hoistAwaitsInExpr_of_free free.1,hoistAwaitsInExpr_of_free free.2,List.append_nil]
      refine (ihc false ordered.1.1 fitsCond).bind fewerCond fun v R framed => ?_
      exact Keeps.ite (fun _ => stays_eval fitsThen.inside fewerThen R framed)
        fun _ => stays_eval fitsElse.inside fewerElse R framed
    | true =>
      have growsThen := (hoistAwaitsInExpr false t).grows (next + 1)
      have unboxed := fits.unboxed (Nat.le_refl next)
      have laterElse := Nat.le_trans (Nat.le_succ next) growsThen
      have cond : Splits host mode n bound (next + 1) [] (written c.accesses) (eval host c) [] (eval host c) :=
        Splits.refl (stays_eval fitsCond.inside (List.Subset.refl _))
      have yes := fills_assign (iht false ordered.1.2 (fitsThen.later (Nat.le_succ next))) (early_subset t)
        (Nat.le_refl next) (Nat.le_succ next) unboxed
      have no := fills_assign (ihe false ordered.2 (fitsElse.later laterElse)) (early_subset e) (Nat.le_refl next)
        laterElse unboxed
      simp only [hoistAwaitsInExpr,lifts,if_true,Fresh.bind_run,Fresh.pure_run,freshLocal_run,early]
      exact Fills.splits (Fills.conditional cond (List.nil_subset _) (Nat.le_refl next) (Nat.lt_succ_self next)
        fits.above unboxed yes no true fewerCond fewerThen fewerElse) (Nat.le_refl _) unboxed
  | sequence items ih =>
    intro next top ordered fits
    cases lifts : containsAny .await items with
    | false =>
      simp only [hoistAwaitsInExpr,lifts,Bool.false_eq_true,if_false,Fresh.bind_run,Fresh.pure_run,
        hoistAwaitsInList_of_free lifts]
      exact Splits.refl (stays_eval fits.inside (List.Subset.refl _))
    | true =>
      simp only [hoistAwaitsInExpr,lifts,if_true,early]
      exact splits_sequence top ih ordered fits (by rintro rfl; cases lifts) .undefined
  | arrayMut kind id args ih =>
    intro next top ordered fits
    simp only [keepsOrder,Bool.and_eq_true] at ordered
    have rest := splits_list ih ordered.1 (fits.subset (List.subset_cons_self _ _))
    have fewer : written (accessesOfList args) ⊆ written (Expr.arrayMut kind id args).accesses :=
      written_mono (List.subset_cons_self _ _)
    simp only [hoistAwaitsInExpr,Fresh.bind_run,Fresh.pure_run,early]
    refine splits_receiver ordered.2 fits (fun free => ?_) (rest.subset (List.Subset.refl _) fewer)
      fun v vs R framed => framed.applyOp host _ _
    rw [hoistAwaitsInList_of_free free]
    exact ⟨rfl,stays_evalArgs (fits.subset (List.subset_cons_self _ _)).inside fewer⟩
  | withSet object property value fallback strict iho ihv =>
    intro next top ordered fits
    simp only [keepsOrder,Bool.and_eq_true] at ordered
    simp only [Expr.accesses,List.append_assoc] at fits
    have fitsObject := fits.subset (List.subset_append_left _ _)
    have fitsValue := (fits.subset (List.subset_append_right _ _)).subset (List.subset_append_left _ _)
    have grows := (hoistAwaitsInExpr false object).grows next
    have second := ihv false ordered.1.2 (fitsValue.later grows)
    have fewerValue : written value.accesses ⊆
        written (Expr.withSet object property value fallback strict).accesses := written_mono (by simp [Expr.accesses])
    simp only [hoistAwaitsInExpr,Fresh.bind_run,Fresh.pure_run,early]
    refine splits_pair (iho false ordered.1.1 fitsObject)
      (fun used settled => settled_residual object settled fun id large => fitsObject.unboxed large) ordered.2 fitsObject
      grows (Nat.le_refl _) (fun free => ?_)
      (second.subset (by simp [earlyOfList]) fewerValue) (fun id member => ?_) (by simp [earlyOfList])
      (written_mono (by simp [Expr.accesses])) fun o v R framed => ?_
    · simp only [containsAny,Bool.or_false] at free
      rw [hoistAwaitsInExpr_of_free free]
      exact ⟨rfl,stays_eval fitsValue.inside fewerValue⟩
    · simp only [earlyOfList,List.append_nil] at member
      exact fitsValue.mem_written (early_subset value member)
    · refine framed.withStore host (fun a touched => ?_) o v property strict
      exact reach_of_inside fits.inside (by simp [Expr.accesses]) a (by simp [touched])
  | await operand ih =>
    intro next top ordered fits
    have grows := (hoistAwaitsInExpr false operand).grows next
    have inner := ih false ordered fits
    cases top with
    | true => exact splits_awaitOperand inner (early_subset operand) grows (fits.unboxed grows)
    | false =>
      have later := Nat.le_trans grows (Nat.le_succ _)
      have whole := splits_awaitOperand inner (early_subset operand) later (fits.unboxed later)
      have filled := Fills.ofLet whole (List.Subset.refl _) grows (fits.unboxed grows) (d := .let _ false (some _)) rfl
      exact filled.splits grows (fits.unboxed grows)
  | yieldNone delegate => exact fun _ _ fits => Splits.refl (stays_eval fits.inside (List.Subset.refl _))
  | yieldSome value delegate ih =>
    intro next top ordered fits
    exact (ih false ordered fits).bind (List.Subset.refl _) fun v R framed => framed.suspendOn _

end Perry.Transform.HoistAwaits
