import Perry.Transform.HoistYieldsSound

/-! The statement walk of yield hoisting, and the guarantee it gives over whole runs. -/
namespace Perry.Transform.HoistYields

open Perry.Effect Perry.Hir Perry.Transform

section straight

private theorem straight_list {es : List Expr}
    (each : ∀ e ∈ es, ∀ top next, straightAll ((hoistYieldsInExpr top e).run next).1.1 = true) (next : LocalId) :
    straightAll ((hoistYieldsInList es).run next).1.1 = true := by
  induction es generalizing next with
  | nil => rfl
  | cons e es ih =>
    simp only [hoistYieldsInList,Fresh.bind_run,Fresh.pure_run,straightAll_append,each e (by simp),
      ih fun a member => each a (by simp [member]),Bool.and_self]

private theorem straight_sequence {items : List Expr}
    (each : ∀ e ∈ items, ∀ top next, straightAll ((hoistYieldsInExpr top e).run next).1.1 = true)
    (temp next : LocalId) : straightAll ((liftSequence temp items).run next).1 = true := by
  induction items generalizing next with
  | nil => rfl
  | cons item items ih =>
    have first := each item (by simp) true
    cases items with
    | nil =>
      simp only [liftSequence,Fresh.bind_run,Fresh.pure_run,straightAll_append,first,straightAll_cons,straight_let,
        straightAll_nil,Bool.and_self]
    | cons item' items =>
      have rest := ih fun a member => each a (by simp [member])
      simp only [liftSequence,Fresh.bind_run,Fresh.pure_run,straightAll_append,straightAll_cons,straight_expr,first,
        Bool.true_and]
      exact rest _

/-- Hoisted statements neither loop nor jump. -/
theorem straight_hoisted (e : Expr) (top : Bool) (next : LocalId) :
    straightAll ((hoistYieldsInExpr top e).run next).1.1 = true := by
  induction e using Expr.induct generalizing top next with
  | lit l => rfl
  | localGet id => rfl
  | update id op pre => rfl
  | closure funcId params defaults captures mutableCaptures flags body ih => rfl
  | localSet id value ih => exact ih false next
  | strict op args ih => exact straight_list ih next
  | arrayMut kind id args ih => exact straight_list ih next
  | await operand ih => exact ih false next
  | withSet object property value fallback strict iho ihv =>
    simp only [hoistYieldsInExpr,Fresh.bind_run,Fresh.pure_run,straightAll_append,iho,ihv,Bool.and_self]
  | logical op left right ihl ihr =>
    simp only [hoistYieldsInExpr]
    split <;> simp only [Fresh.bind_run,Fresh.pure_run,straightAll_append,straightAll_cons,straight_let,straight_if,
      straight_expr,straightAll_nil,Option.getD_none,ihl,ihr,Bool.and_self]
  | conditional c t e ihc iht ihe =>
    simp only [hoistYieldsInExpr]
    split <;> simp only [Fresh.bind_run,Fresh.pure_run,straightAll_append,straightAll_cons,straight_let,straight_if,
      straight_expr,straightAll_nil,Option.getD_some,ihc,iht,ihe,Bool.and_self]
  | sequence items ih =>
    simp only [hoistYieldsInExpr]
    split
    · exact straight_sequence ih next _
    · exact straight_list ih next
  | yieldNone delegate => cases top <;> rfl
  | yieldSome value delegate ih =>
    cases top with
    | true => exact ih false next
    | false =>
      simp only [hoistYieldsInExpr,hoistYieldsInOption,Fresh.bind_run,Bool.false_eq_true,if_false,Fresh.pure_run,
        straightAll_append,straightAll_cons,straight_let,straightAll_nil,ih,Bool.and_self]

theorem straight_cases (cases : List SwitchCase) (next : LocalId) :
    straightAll ((hoistYieldsInCases cases).run next).1.1 = true := by
  induction cases generalizing next with
  | nil => rfl
  | cons c cases ih =>
    rcases c with ⟨_ | t,body⟩
    · exact ih _
    · simp only [hoistYieldsInCases,hoistYieldsInOption,Fresh.bind_run,Fresh.pure_run,straightAll_append,
        straight_hoisted,ih,Bool.and_self]

end straight

variable {W : Type} {host : Host W} {mode : Mode} {n : Nat} {bound : LocalId} {R : State W → State W → Prop}

/-- A statement and what hoisting made of it do the same. -/
def Follows (host : Host W) (mode : Mode) (n : Nat) (R : State W → State W → Prop) (labels : List String) (s : Stmt)
    (hoisted : List Stmt × Stmt) : Prop :=
  straightAll hoisted.1 = true ∧ Keeps R (exec host mode n labels s)
    (execList host mode n [] hoisted.1 >>= fun _ => exec host mode n labels hoisted.2)

/-- A statement that begins by evaluating an expression. -/
private theorem follows_splits {e : Expr} {next : LocalId} {labels : List String} {s s' : Stmt}
    {f g : Val → Act W Unit} (tracks : Tracks bound bound R) (top : Bool) (ordered : keepsOrder .yield host.boxed e = true)
    (fits : Fits host bound next e.accesses) (executes : exec host mode n labels s = perform (eval host e) >>= f)
    (executes' : exec host mode n labels s' = perform (eval host ((hoistYieldsInExpr top e).run next).1.2) >>= g)
    (rest : ∀ v, Keeps R (f v) (g v)) :
    Follows host mode n R labels s (((hoistYieldsInExpr top e).run next).1.1,s') := by
  refine ⟨straight_hoisted e top next,?_⟩
  rw [executes,executes']
  exact (hoists e top ordered fits).statement tracks (early_subset e) fits.above rest

section cases

variable {d : Expr} {cases : List SwitchCase}

theorem hoistYieldsInCases_of_free (host : Host W) (free : testsFree .yield cases = true) (mid : LocalId) (v : Val) :
    ((hoistYieldsInCases cases).run mid).1.1 = [] ∧
      selectCase host v ((hoistYieldsInCases cases).run mid).1.2 = selectCase host v cases := by
  induction cases generalizing mid with
  | nil => exact ⟨rfl,rfl⟩
  | cons c cases ih =>
    rcases c with ⟨_ | t,body⟩
    · have rest := ih free ((hoistYieldsInStmts body).run mid).2
      simp only [hoistYieldsInCases,hoistYieldsInOption,Fresh.bind_run,Fresh.pure_run,rest.1,selectCase,rest.2]
      exact ⟨rfl,trivial⟩
    · simp only [testsFree,Bool.and_eq_true,Bool.not_eq_true'] at free
      have rest := ih free.2 ((hoistYieldsInStmts body).run mid).2
      simp only [hoistYieldsInCases,hoistYieldsInOption,Fresh.bind_run,Fresh.pure_run,
        hoistYieldsInExpr_of_free free.1,rest.1,selectCase,rest.2]
      exact ⟨rfl,trivial⟩

theorem defaultCase_hoisted (cases : List SwitchCase) (mid : LocalId) :
    defaultCase ((hoistYieldsInCases cases).run mid).1.2 = defaultCase cases := by
  induction cases generalizing mid with
  | nil => rfl
  | cons c cases ih =>
    rcases c with ⟨_ | t,body⟩
    · rfl
    · simp only [hoistYieldsInCases,hoistYieldsInOption,Fresh.bind_run,Fresh.pure_run,defaultCase,ih]

/-- Choosing the case splits: what is hoisted from the first test stays behind the
discriminant, and no other test yields. -/
private theorem splits_select (mode : Mode) (n : Nat) {next mid : LocalId} (ordered : keepsOrder .yield host.boxed d = true)
    (tests : keepsOrderTests .yield host.boxed d cases = true) (fits : Fits host bound next (d.accesses ++ accessesOfCases cases))
    (reached : ((hoistYieldsInExpr false d).run next).2 ≤ mid) :
    Splits host mode n bound next (written (d.accesses ++ accessesOfCases cases))
      (written (d.accesses ++ accessesOfCases cases)) (eval host d >>= fun v => selectCase host v cases)
      (((hoistYieldsInExpr false d).run next).1.1 ++ ((hoistYieldsInCases cases).run mid).1.1)
      (eval host ((hoistYieldsInExpr false d).run next).1.2 >>= fun v =>
        selectCase host v ((hoistYieldsInCases cases).run mid).1.2) := by
  have fitsCond := fits.subset (List.subset_append_left _ _)
  have fewer : written d.accesses ⊆ written (d.accesses ++ accessesOfCases cases) :=
    written_mono (List.subset_append_left _ _)
  induction cases generalizing mid with
  | nil =>
    have first : Splits host mode n bound next _ _ _ _ _ := hoists d false ordered fitsCond
    simp only [hoistYieldsInCases,Fresh.pure_run,List.append_nil]
    exact (first.subset (List.Subset.trans (early_subset d) fewer) fewer).bind (List.Subset.refl _) fun v R framed => Keeps.pure _
  | cons c cases ih =>
    rcases c with ⟨_ | t,body⟩
    · have fewerRest : d.accesses ++ accessesOfCases cases ⊆
          d.accesses ++ accessesOfCases (.mk none body :: cases) := by
        simp [accessesOfCases,accessesOfOption]
      have rest := ih tests (fits.subset fewerRest) (Nat.le_trans reached ((hoistYieldsInStmts body).grows mid))
        (written_mono (List.subset_append_left _ _))
      have mapped := (rest.subset (written_mono fewerRest) (written_mono fewerRest)).bind (List.Subset.refl _)
        (k := fun k => pure (k.map (· + 1))) (l := fun k => pure (k.map (· + 1))) fun k R framed => Keeps.pure _
      simpa only [hoistYieldsInCases,hoistYieldsInOption,Fresh.bind_run,Fresh.pure_run,selectCase,bind_assoc,
        List.nil_append] using mapped
    · simp only [keepsOrderTests,Bool.and_eq_true] at tests
      have free := hoistYieldsInCases_of_free host tests.2 ((hoistYieldsInStmts body).run
        ((hoistYieldsInExpr false t).run mid).2).2
      simp only [hoistYieldsInCases,hoistYieldsInOption,Fresh.bind_run,Fresh.pure_run,selectCase,(free .undefined).1,
        (free _).2,List.append_nil]
      have fitsTest : Fits host bound next t.accesses := fits.subset (by simp [accessesOfCases,accessesOfOption])
      have fewerRest : accessesOfCases cases ⊆ d.accesses ++ accessesOfCases (.mk (some t) body :: cases) := by
        intro a member
        simp [accessesOfCases,member]
      have fewerTest : written t.accesses ⊆ written (d.accesses ++ accessesOfCases (.mk (some t) body :: cases)) :=
        written_mono (by simp [accessesOfCases,accessesOfOption])
      have second : Splits host mode n bound mid _ _ _ _ _ := hoists t false tests.1.1
        (fitsTest.later (Nat.le_trans ((hoistYieldsInExpr false d).grows next) reached))
      refine splits_pair (hoists d false ordered fitsCond)
        (fun used settled => settled_residual settled fun id large => fitsCond.unboxed large) tests.1.2 fitsCond
        ((hoistYieldsInExpr false d).grows next) reached (fun none => ?_)
        (second.subset (by simp [earlyOfList]) fewerTest) (fun id member => ?_) ?_ fewer fun v w R framed => ?_
      · simp only [containsAny,Bool.or_false] at none
        rw [hoistYieldsInExpr_of_free none]
        exact ⟨rfl,stays_eval fitsTest.inside fewerTest⟩
      · simp only [earlyOfList,List.append_nil] at member
        exact fitsTest.mem_written (early_subset t member)
      · simp only [earlyOfList,List.append_nil]
        exact List.append_subset.mpr ⟨List.Subset.trans (early_subset d) fewer,List.Subset.trans (early_subset t) fewerTest⟩
      · refine Keeps.ite (fun _ => Keeps.pure _) fun _ => ?_
        refine (framed.selectCase host ?_ v).bind fun k => Keeps.pure _
        exact reach_of_inside (fits.subset fewerRest).inside (written_mono fewerRest)

end cases

private theorem keeps_stmts {ss : List Stmt} {next : LocalId} (labels : List String)
    (each : ∀ s ∈ ss, ∀ {next} labels, keepsOrderStmt host.boxed s = true → Fits host bound next s.accesses →
      Follows host mode n R labels s ((hoistYieldsInStmt s).run next).1)
    (ordered : keepsOrderStmts host.boxed ss = true) (fits : Fits host bound next (accessesOfStmts ss)) :
    Keeps R (execList host mode n labels ss) (execList host mode n labels ((hoistYieldsInStmts ss).run next).1) := by
  induction ss generalizing next with
  | nil => exact Keeps.pure ()
  | cons s ss ih =>
    simp only [keepsOrderStmts,Bool.and_eq_true] at ordered
    rw [accessesOfStmts] at fits
    have first := each s (by simp) labels ordered.1 (fits.subset (List.subset_append_left _ _))
    have rest := ih (fun t member => each t (by simp [member])) ordered.2
      ((fits.subset (List.subset_append_right _ _)).later ((hoistYieldsInStmt s).grows next))
    simp only [hoistYieldsInStmts,Fresh.bind_run,Fresh.pure_run,execList_append,execList,
      execList_straight first.1 labels]
    rw [← bind_assoc]
    exact first.2.bind fun _ => rest

private theorem keeps_bodies {cases : List SwitchCase} {mid : LocalId}
    (each : ∀ c ∈ cases, ∀ s ∈ c.body, ∀ {next} labels, keepsOrderStmt host.boxed s = true →
      Fits host bound next s.accesses → Follows host mode n R labels s ((hoistYieldsInStmt s).run next).1)
    (ordered : keepsOrderBodies host.boxed cases = true) (fits : Fits host bound mid (accessesOfCases cases)) :
    List.Forall₂ (fun c d => Keeps R (execList host mode n [] c.body) (execList host mode n [] d.body)) cases
      ((hoistYieldsInCases cases).run mid).1.2 := by
  induction cases generalizing mid with
  | nil => exact .nil
  | cons c cases ih =>
    rcases c with ⟨test,body⟩
    simp only [keepsOrderBodies,Bool.and_eq_true] at ordered
    simp only [accessesOfCases,List.append_assoc] at fits
    have growsTest := (hoistYieldsInOption test).grows mid
    have growsBody := (hoistYieldsInStmts body).grows ((hoistYieldsInOption test).run mid).2
    have fitsBody := (fits.subset (List.subset_append_right _ _)).subset (List.subset_append_left _ _)
    have fitsRest := (fits.subset (List.subset_append_right _ _)).subset (List.subset_append_right _ _)
    exact .cons (keeps_stmts [] (each _ (by simp)) ordered.1 (fitsBody.later growsTest))
      (ih (fun c member => each c (by simp [member])) ordered.2 (fitsRest.later (Nat.le_trans growsTest growsBody)))

/-- Hoisting the yields of a statement that keeps its order changes nothing it does. -/
theorem follows (tracks : Tracks bound bound R) (s : Stmt) {next : LocalId} (labels : List String)
    (ordered : keepsOrderStmt host.boxed s = true) (fits : Fits host bound next s.accesses) :
    Follows host mode n R labels s ((hoistYieldsInStmt s).run next).1 := by
  have alone {s : Stmt} (labels : List String) (inside : ∀ a ∈ s.accesses, a.id < bound) :
      Follows host mode n R labels s ([],s) := by
    refine ⟨rfl,?_⟩
    rw [execList,pure_bind]
    exact tracks.framed.exec host mode n inside labels
  induction s using Stmt.induct generalizing next labels with
  | letNone id m => exact alone labels fits.inside
  | letSome id m e =>
    have small : id < bound := fits.inside (.write id) (List.mem_cons_self ..)
    exact follows_splits tracks true ordered (fits.subset (List.subset_cons_self _ _)) (perform_bind _ _)
      (perform_bind _ _) fun v => Keeps.perform (tracks.framed.declareLocal host small v)
  | expr e =>
    exact follows_splits tracks true ordered fits (perform_bind _ _) (perform_bind _ _) fun v => Keeps.pure _
  | returnStmt value =>
    cases value with
    | none => exact alone labels fits.inside
    | some e => exact follows_splits tracks true ordered fits rfl rfl fun v => Keeps.raise _
  | throwStmt e => exact follows_splits tracks false ordered fits rfl rfl fun v => Keeps.raise _
  | ifStmt c t e iht ihe =>
    simp only [keepsOrderStmt,keepsOrderBlock_eq,Bool.and_eq_true] at ordered
    rw [Stmt.accesses,accessesOfBlock_eq,List.append_assoc] at fits
    have fitsThen := (fits.subset (List.subset_append_right _ _)).subset (List.subset_append_left _ _)
    have fitsElse := (fits.subset (List.subset_append_right _ _)).subset (List.subset_append_right _ _)
    have growsCond := (hoistYieldsInExpr false c).grows next
    have growsThen := (hoistYieldsInStmts t).grows ((hoistYieldsInExpr false c).run next).2
    have yes := keeps_stmts labels iht ordered.1.2 (fitsThen.later growsCond)
    have no := keeps_stmts labels ihe ordered.2 (fitsElse.later (Nat.le_trans growsCond growsThen))
    refine follows_splits tracks false ordered.1.1 (fits.subset (List.subset_append_left _ _))
      (f := fun v => if v.truthy then _ else _) (g := fun v => if v.truthy then _ else _) ?_ ?_ fun v =>
        Keeps.ite (fun _ => yes) fun _ => no
    · simp only [exec_if,evalTest,perform_bind,perform_pure,bind_assoc,pure_bind]
    · simp only [exec_if,evalTest,perform_bind,perform_pure,bind_assoc,pure_bind,hoistYieldsInBlock_getD]
  | whileStmt c b ih =>
    have body := keeps_stmts [] ih ordered (fits.subset (List.subset_append_right _ _))
    have test := tracks.framed.evalTest host fun a member => fits.inside a (List.mem_append_left _ member)
    exact ⟨rfl,tracks.framed.whileLoop test body (Keeps.pure ()) n⟩
  | doWhile b c ih =>
    have body := keeps_stmts [] ih ordered (fits.subset (List.subset_append_left _ _))
    have test := tracks.framed.evalTest host fun a member => fits.inside a (List.mem_append_right _ member)
    exact ⟨rfl,tracks.framed.doWhileLoop body test n⟩
  | forStmt i c u b ihi ihb =>
    simp only [keepsOrderStmt,Bool.and_eq_true] at ordered
    have fitsInit := fits.subset (b := accessesOfInit i) fun a member => by simp [Stmt.accesses,member]
    have fitsBody := fits.subset (b := accessesOfStmts b) fun a member => by simp [Stmt.accesses,member]
    have test := tracks.framed.evalTest? host (e := c) fun a member => fits.inside a (by simp [Stmt.accesses,member])
    have update := tracks.framed.evalDiscard host (e := u) fun a member => fits.inside a (by simp [Stmt.accesses,member])
    have start : straightAll ((hoistYieldsInInit i).run next).1.1 = true ∧ Keeps R (execOption host mode n i)
        (execList host mode n [] ((hoistYieldsInInit i).run next).1.1 >>= fun _ =>
          execOption host mode n ((hoistYieldsInInit i).run next).1.2) := by
      cases i with
      | none => exact ⟨rfl,Keeps.pure ()⟩
      | some s => exact ihi s rfl [] ordered.1 fitsInit
    have body := keeps_stmts [] ihb ordered.2 (fitsBody.later ((hoistYieldsInInit i).grows next))
    refine ⟨start.1,?_⟩
    simp only [hoistYieldsInStmt,Fresh.bind_run,Fresh.pure_run,exec]
    rw [← bind_assoc]
    exact start.2.bind fun _ => tracks.framed.whileLoop test body update n
  | labeled l b ih =>
    have inner := ih (l :: labels) ordered fits
    refine ⟨inner.1,?_⟩
    have outside := (raises_straightAll host mode n inner.1).observe_bind
      (l := fun _ => exec host mode n (l :: labels) ((hoistYieldsInStmt b).run next).1.2) (k := catchLabel l)
      fun c signal => by cases c <;> first | rfl | exact signal.elim
    exact outside ▸ inner.2.observe fun r => Keeps.catchLabel l r
  | tryStmt b h f ihb ihh ihf =>
    simp only [keepsOrderStmt,Bool.and_eq_true] at ordered
    have fitsBody := fits.subset (b := accessesOfStmts b) fun a member => by simp [Stmt.accesses,member]
    have fitsCatch := fits.subset (b := accessesOfCatch h) fun a member => by simp [Stmt.accesses,member]
    have fitsFinal := fits.subset (b := accessesOfBlock f) fun a member => by simp [Stmt.accesses,member]
    have growsBody := (hoistYieldsInStmts b).grows next
    have growsCatch := (hoistYieldsInCatch h).grows ((hoistYieldsInStmts b).run next).2
    have body := keeps_stmts [] ihb ordered.1.1 fitsBody
    have handler (r : Except Comp Unit) : Keeps R (execCatch host mode n h r)
        (execCatch host mode n ((hoistYieldsInCatch h).run ((hoistYieldsInStmts b).run next).2).1 r) := by
      cases h with
      | none => exact Keeps.complete r
      | some c =>
        rcases c with ⟨param,handlerBody⟩
        have rest := keeps_stmts [] (ihh _ rfl) ordered.1.2
          ((fitsCatch.subset (List.subset_append_right _ _)).later growsBody)
        have bind := tracks.framed.bindParam host param fun id member =>
          fitsCatch.inside (.write id) (List.mem_append_left _ (List.mem_map_of_mem (Option.mem_toList.mpr member)))
        simp only [hoistYieldsInCatch,Fresh.bind_run,Fresh.pure_run,execCatch]
        split
        · exact (Keeps.perform (bind _)).bind fun _ => rest
        · exact Keeps.complete _
    refine ⟨rfl,?_⟩
    cases f with
    | none => exact body.observe handler
    | some fin =>
      have final := keeps_stmts [] (ihf _ rfl) ordered.2 (fitsFinal.later (Nat.le_trans growsBody growsCatch))
      exact (body.observe handler).observe fun r => Keeps.finalize final r
  | switch d cases ih =>
    simp only [keepsOrderStmt,Bool.and_eq_true] at ordered
    have splits := splits_select mode n ordered.1.1 ordered.1.2 fits (Nat.le_refl _)
    have bodies := keeps_bodies ih ordered.2
      ((fits.subset (List.subset_append_right _ _)).later ((hoistYieldsInExpr false d).grows next))
    refine ⟨?_,?_⟩
    · simp only [hoistYieldsInStmt,Fresh.bind_run,Fresh.pure_run,straightAll_append,straight_hoisted,straight_cases,
        Bool.and_self]
    · simp only [hoistYieldsInStmt,Fresh.bind_run,Fresh.pure_run,exec,defaultCase_hoisted]
      refine splits.statement tracks (List.Subset.refl _) fits.above fun k => ?_
      cases k.or (defaultCase cases) with
      | none => exact Keeps.pure ()
      | some k => exact (Keeps.execFrom bodies k).observe fun r => Keeps.catchBreak r
  | breakStmt => exact alone labels fits.inside
  | continueStmt => exact alone labels fits.inside
  | labeledBreak l => exact alone labels fits.inside
  | labeledContinue l => exact alone labels fits.inside
  | preallocateBoxes ids => exact alone labels fits.inside
  | preallocateTdzBoxes ids => exact alone labels fits.inside
  | releaseBoxes ids => exact alone labels fits.inside

/-- From states with equal worlds and equal program locals, a body and its hoisted
form end the same way in such states. -/
def HoistsFaithfully {W : Type} (host : Host W) (mode : Mode) (n : Nat) (bound : LocalId) (body : List Stmt) : Prop :=
  Keeps (SameBelow bound) (execList host mode n [] body)
    (execList host mode n [] ((hoistYieldsInStmts body).run bound).1)

/-- Yield hoisting keeps the order of evaluation of every body whose operands before a
yield can wait for it. -/
theorem hoistYieldsInStmts_faithful {W : Type} (host : Host W) (mode : Mode) (n : Nat) (bound : LocalId)
    (body : List Stmt) (ordered : keepsOrderStmts host.boxed body = true)
    (inside : ∀ a ∈ accessesOfStmts body, a.id < bound) (temps : ∀ id, bound ≤ id → host.boxed id = false) :
    HoistsFaithfully host mode n bound body :=
  keeps_stmts [] (fun s _ _ labels ordered fits => follows (tracks_sameBelow bound) s labels ordered fits) ordered
    ⟨inside,Nat.le_refl bound,temps⟩

/-- `while (x) { x = (yield x) ? f(yield 1, g()) : (h(), yield 2); }` -/
def yieldsInOrder : List Stmt :=
  [.while (.localGet 0) [.expr (.localSet 0 (.conditional (.yield (some (.localGet 0)) false)
    (.call (.funcRef 1) [.yield (some (.integer 1)) false,.call (.funcRef 2) []])
    (.sequence [.call (.funcRef 3) [],.yield (some (.integer 2)) false])))]]

theorem yieldsInOrder_faithful :
    keepsOrderStmts Host.recording.boxed yieldsInOrder = true ∧
      HoistsFaithfully Host.recording .ecma 3 1 yieldsInOrder :=
  ⟨by decide,hoistYieldsInStmts_faithful _ .ecma 3 1 _ (by decide) (by decide) fun _ _ => rfl⟩

/-- `x = f() + (yield 1);` -/
def callBeforeYield : List Stmt :=
  [.expr (.localSet 0 (.binary .add (.call (.funcRef 1) []) (.yield (some (.integer 1)) false)))]

/-- The call stays in the statement and so runs after the yield hoisted over it. -/
theorem callBeforeYield_unfaithful : ¬HoistsFaithfully Host.recording .ecma 1 1 callBeforeYield := by
  intro faithful
  have run := faithful.apply (s := ⟨fun _ => .undefined,[],[]⟩) (t := ⟨fun _ => .undefined,[],[]⟩)
    ⟨rfl,fun _ _ => rfl⟩
  exact absurd run.2.1 (by decide)

end Perry.Transform.HoistYields
