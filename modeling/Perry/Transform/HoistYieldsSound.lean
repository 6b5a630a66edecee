import Perry.Transform.HoistYieldsOrder

/-! Hoisting yields out of expressions and statements that keep their order does not
change what an activation does. -/
namespace Perry.Transform.HoistYields

open Perry.Effect Perry.Hir Perry.Transform

variable {W : Type} {host : Host W} {mode : Mode} {n : Nat} {bound : LocalId}

/-- What the main lemma says of one expression. -/
def Hoists (host : Host W) (mode : Mode) (n : Nat) (bound : LocalId) (e : Expr) : Prop :=
  ∀ {next} top, keepsOrder .yield host.boxed e = true → Fits host bound next e.accesses →
    Splits host mode n bound next (early .yield e) (written e.accesses) (eval host e)
      ((hoistYieldsInExpr top e).run next).1.1 (eval host ((hoistYieldsInExpr top e).run next).1.2)

private theorem splits_list {es : List Expr} {next : LocalId} (each : ∀ e ∈ es, Hoists host mode n bound e)
    (ordered : keepsOrderAll .yield host.boxed es = true) (fits : Fits host bound next (accessesOfList es)) :
    Splits host mode n bound next (earlyOfList .yield es) (written (accessesOfList es)) (evalArgs host es)
      ((hoistYieldsInList es).run next).1.1 (evalArgs host ((hoistYieldsInList es).run next).1.2) := by
  induction es generalizing next with
  | nil => exact Splits.refl fun R framed => Keeps.pure _
  | cons e es ih =>
    simp only [keepsOrderAll,Bool.and_eq_true] at ordered
    rw [accessesOfList] at fits
    have fitsRest := fits.subset (List.subset_append_right _ _)
    have rest := ih (fun a member => each a (by simp [member])) ordered.1.2
      (fitsRest.later ((hoistYieldsInExpr false e).grows next))
    simp only [accessesOfList,written_append]
    have fitsFirst := fits.subset (List.subset_append_left _ _)
    refine splits_pair (each e (by simp) false ordered.1.1 fitsFirst)
      (fun used settled => settled_residual settled fun id large => fitsFirst.unboxed large) ordered.2 fitsFirst
      ((hoistYieldsInExpr false e).grows next) (Nat.le_refl _) (fun free => ?_) (rest.subset (List.Subset.refl _) (List.subset_append_right _ _))
      (fun id member => fitsRest.mem_written (earlyOfList_subset es member)) (List.Subset.refl _)
      (List.subset_append_left _ _) fun v vs R framed => Keeps.pure _
    rw [hoistYieldsInList_of_free free]
    exact ⟨rfl,stays_evalArgs fitsRest.inside (List.subset_append_right _ _)⟩

/-- The guard of a lifted short circuit reads the left value back from the temporary. -/
theorem logicalGuard_guards {temp : LocalId} (unboxed : host.boxed temp = false) (op : LogicalOp) :
    Fills.Guards host op temp (logicalGuard op temp) := by
  intro t
  have test {b : Bool} {guard : Expr} {v : Val} (ran : ∃ trace, eval host guard t = (.ok v,{ t with trace := trace }))
      (same : v.truthy = b) : ∃ trace, evalTest host guard t = (.ok b,{ t with trace := trace }) := by
    obtain ⟨trace,ran⟩ := ran
    refine ⟨trace,?_⟩
    rw [evalTest,Run.bind_ok ran,same]
    rfl
  cases op with
  | and => exact test ⟨_,readLocal_unboxed unboxed t⟩ (by simp [LogicalOp.stops])
  | or =>
    refine test (v := .bool !(t.store temp).truthy) ⟨.read temp :: t.trace,?_⟩ (by simp [LogicalOp.stops,Val.truthy])
    simp only [logicalGuard,eval,evalArgs,bind_assoc,pure_bind,Run.bind_ok (readLocal_unboxed unboxed t)]
    rfl
  | coalesce =>
    have compare (l : Lit) (t : State W) :
        eval host (.compare .eq (.localGet temp) (.lit l)) t =
          (.ok (.bool ((t.store temp).strictEq l.val)),{ t with trace := .read temp :: t.trace }) := by
      simp only [eval,evalArgs,bind_assoc,pure_bind,Run.bind_ok (readLocal_unboxed unboxed t),applyOp,pure?_strictEq]
      rfl
    have first := compare .null t
    have second := compare .undefined { t with trace := .read temp :: t.trace }
    simp only [logicalGuard,evalTest,LogicalOp.stops,Bool.not_not]
    rw [eval,bind_assoc,Run.bind_ok first]
    by_cases null : (t.store temp).strictEq .null = true
    · refine ⟨.read temp :: t.trace,?_⟩
      simp only [LogicalOp.stops,nullish_eq,Lit.val,null,Val.truthy,if_true,pure_bind,Bool.true_or]
      rfl
    · refine ⟨.read temp :: .read temp :: t.trace,?_⟩
      simp only [LogicalOp.stops,nullish_eq,Lit.val,null,Val.truthy,Bool.false_eq_true,if_false,Bool.false_or,
        Run.bind_ok second]
      rfl

private theorem fills_sequence {items : List Expr} {lo temp next : LocalId}
    (each : ∀ e ∈ items, Hoists host mode n bound e) (ordered : keepsOrderEach .yield host.boxed items = true)
    (fits : Fits host bound next (accessesOfList items)) (low : lo ≤ temp) (later : lo ≤ next)
    (unboxed : host.boxed temp = false) (filled : items ≠ []) (last : Val) :
    Fills host mode n bound lo temp (written (accessesOfList items)) (evalSequence host last items)
      ((liftSequence temp items).run next).1 := by
  induction items generalizing next last with
  | nil => exact absurd rfl filled
  | cons item items ih =>
    simp only [keepsOrderEach,Bool.and_eq_true] at ordered
    rw [accessesOfList] at fits
    have first := each item (by simp) true ordered.1 (fits.subset (List.subset_append_left _ _))
    cases items with
    | nil =>
      simp only [accessesOfList,List.append_nil]
      have done := Fills.ofLet (d := .let temp false (some ((hoistYieldsInExpr true item).run next).1.2))
        (first.above later) (early_subset item) low unboxed rfl
      simpa only [liftSequence,Fresh.bind_run,Fresh.pure_run,evalSequence,bind_pure] using done
    | cons item' items =>
      have rest := ih (fun a member => each a (by simp [member])) ordered.2
        ((fits.subset (List.subset_append_right _ _)).later ((hoistYieldsInExpr true item).grows next))
        (Nat.le_trans later ((hoistYieldsInExpr true item).grows next)) (by simp)
      rw [accessesOfList,written_append]
      exact Fills.discard first (early_subset item) (d := .expr ((hoistYieldsInExpr true item).run next).1.2) rfl
        later rest (List.subset_append_left _ _) (List.subset_append_right _ _)

/-- Hoisting the yields of an expression that keeps its order splits its evaluation. -/
theorem hoists (e : Expr) : Hoists host mode n bound e := by
  induction e using Expr.induct with
  | lit l => exact fun _ _ fits => Splits.refl (stays_eval fits.inside (List.Subset.refl _))
  | localGet id => exact fun _ _ fits => Splits.refl (stays_eval fits.inside (List.Subset.refl _))
  | update id op pre => exact fun _ _ fits => Splits.refl (stays_eval fits.inside (List.Subset.refl _))
  | closure funcId params defaults captures mutableCaptures flags body ih =>
    exact fun _ _ fits => Splits.refl (stays_eval fits.inside (List.Subset.refl _))
  | localSet id value ih =>
    intro next top ordered fits
    have inner := ih false ordered (fits.subset (List.subset_cons_self _ _))
    refine inner.bind (written_mono (List.subset_cons_self _ _)) fun v R framed => ?_
    have writes : id ∈ written (Expr.localSet id value).accesses := mem_written.mpr (List.mem_cons_self ..)
    exact (framed.writeLocal host ⟨fits.mem_written writes,writes⟩ v).bind fun _ => Keeps.pure v
  | strict op args ih =>
    intro next top ordered fits
    exact (splits_list ih ordered fits).bind (List.Subset.refl _) fun vs R framed => framed.applyOp host op vs
  | logical op left right ihl ihr =>
    intro next top ordered fits
    simp only [keepsOrder,Bool.and_eq_true] at ordered
    have fitsLeft := fits.subset (List.subset_append_left left.accesses right.accesses)
    have fitsRight := fits.subset (List.subset_append_right left.accesses right.accesses)
    cases lifts : contains .yield right with
    | false =>
      have first := ihl false ordered.1 fitsLeft
      simp only [hoistYieldsInExpr,lifts,Bool.false_eq_true,if_false,Fresh.bind_run,Fresh.pure_run,early,
        hoistYieldsInExpr_of_free lifts,List.append_nil]
      refine first.bind (written_mono (List.subset_append_left _ _)) fun v R framed => ?_
      refine Keeps.ite (fun _ => Keeps.pure v) fun _ => ?_
      exact stays_eval fitsRight.inside (written_mono (List.subset_append_right _ _)) R framed
    | true =>
      have growsLeft := (hoistYieldsInExpr false left).grows (next + 1)
      have unboxed := fits.unboxed (Nat.le_refl next)
      have first := ihl false ordered.1 (fitsLeft.later (Nat.le_succ next))
      have second := ihr false ordered.2 (fitsRight.later (Nat.le_trans (Nat.le_succ next) growsLeft))
      have filled := Fills.ofLet (first.above (Nat.le_succ next)) (early_subset left) (Nat.le_refl next) unboxed
        (d := .let next true (some ((hoistYieldsInExpr false left).run (next + 1)).1.2)) rfl
      have assigned := fills_assign second (early_subset right) (Nat.le_refl next)
        (Nat.le_trans (Nat.le_succ next) growsLeft) unboxed
      simp only [hoistYieldsInExpr,lifts,if_true,Fresh.bind_run,Fresh.pure_run,freshLocal_run,early]
      refine Fills.splits (Fills.logical filled (logicalGuard_guards unboxed op) assigned ?_ ?_) (Nat.le_refl _) unboxed
      · exact written_mono (List.subset_append_left _ _)
      · exact written_mono (List.subset_append_right _ _)
  | conditional c t e ihc iht ihe =>
    intro next top ordered fits
    simp only [keepsOrder,Bool.and_eq_true] at ordered
    simp only [Expr.accesses,List.append_assoc] at fits
    have fitsCond := fits.subset (List.subset_append_left _ _)
    have fitsThen := (fits.subset (List.subset_append_right _ _)).subset (List.subset_append_left _ _)
    have fitsElse := (fits.subset (List.subset_append_right _ _)).subset (List.subset_append_right _ _)
    have fewerCond : written c.accesses ⊆ written (Expr.conditional c t e).accesses :=
      written_mono (by simp [Expr.accesses])
    have fewerThen : written t.accesses ⊆ written (Expr.conditional c t e).accesses :=
      written_mono (by simp [Expr.accesses])
    have fewerElse : written e.accesses ⊆ written (Expr.conditional c t e).accesses :=
      written_mono (by simp [Expr.accesses])
    cases lifts : contains .yield t || contains .yield e with
    | false =>
      have free := Bool.or_eq_false_iff.mp lifts
      simp only [hoistYieldsInExpr,lifts,Bool.false_eq_true,if_false,Fresh.bind_run,Fresh.pure_run,early,
        hoistYieldsInExpr_of_free free.1,hoistYieldsInExpr_of_free free.2,List.append_nil]
      refine (ihc false ordered.1.1 fitsCond).bind fewerCond fun v R framed => ?_
      exact Keeps.ite (fun _ => stays_eval fitsThen.inside fewerThen R framed)
        fun _ => stays_eval fitsElse.inside fewerElse R framed
    | true =>
      have growsCond := (hoistYieldsInExpr false c).grows (next + 1)
      have growsThen := (hoistYieldsInExpr false t).grows ((hoistYieldsInExpr false c).run (next + 1)).2
      have unboxed := fits.unboxed (Nat.le_refl next)
      have laterThen := Nat.le_trans (Nat.le_succ next) growsCond
      have laterElse := Nat.le_trans laterThen growsThen
      have cond := ihc false ordered.1.1 (fitsCond.later (Nat.le_succ next))
      have yes := fills_assign (iht false ordered.1.2 (fitsThen.later laterThen)) (early_subset t) (Nat.le_refl next)
        laterThen unboxed
      have no := fills_assign (ihe false ordered.2 (fitsElse.later laterElse)) (early_subset e) (Nat.le_refl next)
        laterElse unboxed
      simp only [hoistYieldsInExpr,lifts,if_true,Fresh.bind_run,Fresh.pure_run,freshLocal_run,early]
      exact Fills.splits (Fills.conditional cond (early_subset c) (Nat.le_refl next) (Nat.lt_succ_self next) fits.above
        unboxed yes no true fewerCond fewerThen fewerElse) (Nat.le_refl _) unboxed
  | sequence items ih =>
    intro next top ordered fits
    cases lifts : containsAny .yield items with
    | false =>
      simp only [hoistYieldsInExpr,lifts,Bool.false_eq_true,if_false,Fresh.bind_run,Fresh.pure_run,
        hoistYieldsInList_of_free lifts]
      exact Splits.refl (stays_eval fits.inside (List.Subset.refl _))
    | true =>
      have unboxed := fits.unboxed (Nat.le_refl next)
      have filled := fills_sequence ih ordered (fits.later (Nat.le_succ next)) (Nat.le_refl next) (Nat.le_succ next)
        unboxed (by rintro rfl; cases lifts) .undefined
      simp only [hoistYieldsInExpr,lifts,if_true,Fresh.bind_run,Fresh.pure_run,freshLocal_run,early]
      exact filled.splits (Nat.le_refl _) unboxed
  | arrayMut kind id args ih =>
    intro next top ordered fits
    simp only [keepsOrder,Bool.and_eq_true] at ordered
    have rest := splits_list ih ordered.1 (fits.subset (List.subset_cons_self _ _))
    have fewer : written (accessesOfList args) ⊆ written (Expr.arrayMut kind id args).accesses :=
      written_mono (List.subset_cons_self _ _)
    simp only [hoistYieldsInExpr,Fresh.bind_run,Fresh.pure_run,early]
    refine splits_receiver ordered.2 fits (fun free => ?_) (rest.subset (List.Subset.refl _) fewer)
      fun v vs R framed => framed.applyOp host _ _
    rw [hoistYieldsInList_of_free free]
    exact ⟨rfl,stays_evalArgs (fits.subset (List.subset_cons_self _ _)).inside fewer⟩
  | withSet object property value fallback strict iho ihv =>
    intro next top ordered fits
    simp only [keepsOrder,Bool.and_eq_true] at ordered
    simp only [Expr.accesses,List.append_assoc] at fits
    have fitsObject := fits.subset (List.subset_append_left _ _)
    have fitsValue := (fits.subset (List.subset_append_right _ _)).subset (List.subset_append_left _ _)
    have grows := (hoistYieldsInExpr false object).grows next
    have second := ihv false ordered.1.2 (fitsValue.later grows)
    have fewerValue : written value.accesses ⊆
        written (Expr.withSet object property value fallback strict).accesses := written_mono (by simp [Expr.accesses])
    simp only [hoistYieldsInExpr,Fresh.bind_run,Fresh.pure_run,early]
    refine splits_pair (iho false ordered.1.1 fitsObject)
      (fun used settled => settled_residual settled fun id large => fitsObject.unboxed large) ordered.2 fitsObject
      grows (Nat.le_refl _) (fun free => ?_)
      (second.subset (by simp [earlyOfList]) fewerValue) (fun id member => ?_) (by simp [earlyOfList])
      (written_mono (by simp [Expr.accesses])) fun o v R framed => ?_
    · simp only [containsAny,Bool.or_false] at free
      rw [hoistYieldsInExpr_of_free free]
      exact ⟨rfl,stays_eval fitsValue.inside fewerValue⟩
    · simp only [earlyOfList,List.append_nil] at member
      exact fitsValue.mem_written (early_subset value member)
    · refine framed.withStore host (fun a touched => ?_) o v property strict
      exact reach_of_inside fits.inside (by simp [Expr.accesses]) a (by simp [touched])
  | await operand ih =>
    intro next top ordered fits
    exact (ih false ordered fits).bind (List.Subset.refl _) fun v R framed => framed.suspendOn _
  | yieldNone delegate =>
    intro next top ordered fits
    have whole : Splits host mode n bound next [] [] (eval host (.yield none delegate)) []
        (eval host (.yield none delegate)) := Splits.refl (stays_eval fits.inside (List.Subset.refl _))
    cases top with
    | true => exact whole
    | false =>
      have unboxed := fits.unboxed (Nat.le_refl next)
      exact Fills.splits (Fills.ofLet (d := .let next false (some (.yield none delegate))) whole
        (List.Subset.refl _) (Nat.le_refl next) unboxed rfl) (Nat.le_refl _) unboxed
  | yieldSome value delegate ih =>
    intro next top ordered fits
    have whole := (ih false ordered fits).bind (List.Subset.refl _) (k := fun v => suspendOn (host.yield v delegate))
      (l := fun v => suspendOn (host.yield v delegate)) fun v R framed => framed.suspendOn _
    cases top with
    | true => exact whole.subset (early_subset value) (List.Subset.refl _)
    | false =>
      have grows := (hoistYieldsInExpr false value).grows next
      have unboxed := fits.unboxed grows
      have filled := Fills.ofLet whole (early_subset value) grows unboxed
        (d := .let _ false (some (.yield (some ((hoistYieldsInExpr false value).run next).1.2) delegate))) rfl
      exact filled.splits grows unboxed

end Perry.Transform.HoistYields
