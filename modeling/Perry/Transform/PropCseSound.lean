import Perry.Transform.PropCseGuards

/-! The rewritten list does what the original does, where a hoisted read is refused only
if its guard refuses the same. -/
namespace Perry.Transform.PropCse

open Perry.Effect Perry.Hir

section ending

/-- Whether the last statement of a list diverges. -/
def ending (ss : List Stmt) : Option Bool := ss.getLast?.map divergesStmt

@[simp] theorem ending_nil : ending [] = none := rfl

@[simp] theorem ending_cons (s : Stmt) (ss : List Stmt) :
    ending (s :: ss) = some ((ending ss).getD (divergesStmt s)) := by
  unfold ending
  rw [List.getLast?_cons]
  cases ss.getLast? <;> rfl

@[simp] theorem ending_append (ss ts : List Stmt) : ending (ss ++ ts) = (ending ts).or (ending ss) := by
  unfold ending
  rw [List.getLast?_append]
  cases ts.getLast? <;> rfl

theorem alwaysDiverges_eq (ss : List Stmt) : alwaysDiverges ss = (ending ss).getD false := by
  induction ss with
  | nil => rfl
  | cons s ss ih =>
    cases ss with
    | nil => rfl
    | cons t ss =>
      rw [alwaysDiverges,ih,ending_cons s (t :: ss),ending_cons t ss]
      rfl

theorem divergesStmt_substituteIn (key : ReadKey) (tmp : LocalId) (s : Stmt) :
    divergesStmt (substituteIn key tmp s) = divergesStmt s := by
  cases s with
  | «if» c t e => cases e <;> rfl
  | _ => rfl

theorem ending_map_substituteIn (key : ReadKey) (tmp : LocalId) (ss : List Stmt) :
    ending (ss.map (substituteIn key tmp)) = ending ss := by
  induction ss with
  | nil => rfl
  | cons s ss ih => simp [ih,divergesStmt_substituteIn]

theorem ending_rewriteFrom (claimed : List ReadKey) (candidates : List (Option ReadKey)) (run : List Stmt)
    (next : LocalId) : ending ((rewriteFrom claimed candidates run).run next).1 = ending run := by
  induction candidates generalizing claimed run next with
  | nil => rfl
  | cons candidate candidates ih =>
    cases run with
    | nil => rfl
    | cons s rest =>
      rw [rewriteFrom]
      cases hoisted claimed candidate (s :: rest) with
      | none => simp [ih]
      | some key => simp [ih,ending_map_substituteIn,divergesStmt_substituteIn]

theorem ending_closeRun (run : List Stmt) (next : LocalId) : ending ((closeRun run).run next).1 = ending run := by
  unfold closeRun
  split
  · exact ending_rewriteFrom _ _ _ _
  · rfl

theorem ending_rewriteRuns (run ss : List Stmt) (next : LocalId) :
    ending ((rewriteRuns run ss).run next).1 = ending (run ++ ss) := by
  induction ss generalizing run next with
  | nil => simp [rewriteRuns,ending_closeRun]
  | cons s ss ih =>
    rw [rewriteRuns]
    split
    · rw [ih,List.append_assoc]
      rfl
    · simp [ih]

theorem ending_cseEach {ss : List Stmt}
    (each : ∀ s ∈ ss, ∀ next, divergesStmt ((cseNested s).run next).1 = divergesStmt s) (next : LocalId) :
    ending ((cseEach ss).run next).1 = ending ss := by
  induction ss generalizing next with
  | nil => rfl
  | cons s ss ih =>
    simp only [cseEach,Fresh.bind_run,Fresh.pure_run,ending_cons,each s (by simp)]
    rw [ih fun t member => each t (by simp [member])]

/-- A statement whose nested lists are rewritten diverges as before. -/
theorem divergesStmt_cseNested (s : Stmt) (next : LocalId) :
    divergesStmt ((cseNested s).run next).1 = divergesStmt s := by
  induction s using Stmt.induct generalizing next with
  | ifStmt c t e iht ihe =>
    cases e with
    | none => rfl
    | some e =>
      have other (next : LocalId) : ending ((cseEach e).run next).1 = ending e := ending_cseEach ihe next
      simp only [cseNested,cseBlock,Fresh.bind_run,Fresh.pure_run,divergesStmt,alwaysDiverges_eq,ending_rewriteRuns,
        List.nil_append,ending_cseEach iht,other]
  | _ => rfl

theorem ending_cseStmts (ss : List Stmt) (next : LocalId) : ending ((cseStmts ss).run next).1 = ending ss := by
  rw [cseStmts,Fresh.bind_run,ending_rewriteRuns,List.nil_append,
    ending_cseEach fun s _ => divergesStmt_cseNested s]

theorem divergingGuard_if (c : Expr) (t : List Stmt) (e : Option (List Stmt)) : divergingGuard (.if c t e) =
    if e.isNone ∧ alwaysDiverges t = true ∧ guardExprIsAnalyzable c = true then some c else none := by
  cases e <;> simp [divergingGuard]

theorem isNone_cseBlock (e : Option (List Stmt)) (next : LocalId) : ((cseBlock e).run next).1.isNone = e.isNone := by
  cases e <;> rfl

theorem divergingGuard_cseNested (s : Stmt) (next : LocalId) :
    divergingGuard ((cseNested s).run next).1 = divergingGuard s := by
  cases s with
  | «if» c t e =>
    have same : cseNested (.if c t e) = (do
      let t ← cseStmts t
      let e ← cseBlock e
      pure (.if c t e)) := rfl
    simp only [same,Fresh.bind_run,Fresh.pure_run,divergingGuard_if,alwaysDiverges_eq,ending_cseStmts,isNone_cseBlock]
  | _ => rfl

/-- What a guard looks like. -/
theorem divergingGuard_some {s : Stmt} {c : Expr} (isGuard : divergingGuard s = some c) :
    ∃ t, s = .if c t none ∧ alwaysDiverges t = true ∧ guardExprIsAnalyzable c = true := by
  cases s with
  | «if» c' t e =>
    rw [divergingGuard_if] at isGuard
    split at isGuard
    · rename_i shape
      obtain ⟨alone,diverges,analyzable⟩ := shape
      obtain rfl := Option.isNone_iff_eq_none.mp alone
      cases isGuard
      exact ⟨t,rfl,diverges,analyzable⟩
    · cases isGuard
  | _ => cases isGuard

end ending

section abrupt

variable {W : Type} (host : Host W) (mode : Mode) (n : Nat)

theorem abrupt_list {ss : List Stmt}
    (each : ∀ s ∈ ss, divergesStmt s = true → ∀ labels, Run.Abrupt (exec host mode n labels s))
    (diverges : alwaysDiverges ss = true) (labels : List String) : Run.Abrupt (execList host mode n labels ss) := by
  induction ss with
  | nil => cases diverges
  | cons s ss ih =>
    rw [execList]
    cases ss with
    | nil => exact (each s (by simp) diverges labels).bind _
    | cons t ss => exact Run.Abrupt.after _ fun _ => ih (fun u member => each u (by simp [member])) diverges

theorem abrupt_stmt (s : Stmt) (diverges : divergesStmt s = true) (labels : List String) :
    Run.Abrupt (exec host mode n labels s) := by
  induction s using Stmt.induct generalizing labels with
  | returnStmt value => exact Run.Abrupt.after _ fun v => Run.Abrupt.raise _
  | throwStmt e => exact Run.Abrupt.after _ fun v => Run.Abrupt.raise _
  | breakStmt => exact Run.Abrupt.raise _
  | continueStmt => exact Run.Abrupt.raise _
  | labeledBreak l => exact Run.Abrupt.raise _
  | labeledContinue l => exact Run.Abrupt.raise _
  | ifStmt c t e iht ihe =>
    cases e with
    | none => cases diverges
    | some e =>
      simp only [divergesStmt,Bool.and_eq_true] at diverges
      rw [exec]
      exact Run.Abrupt.after _ fun v => Run.Abrupt.ite (abrupt_list host mode n iht diverges.1 labels)
        (abrupt_list host mode n ihe diverges.2 labels)
  | _ => cases diverges

/-- A list that always diverges never ends normally. -/
theorem abrupt_of_alwaysDiverges {ss : List Stmt} (diverges : alwaysDiverges ss = true) (labels : List String) :
    Run.Abrupt (execList host mode n labels ss) :=
  abrupt_list host mode n (fun s _ => abrupt_stmt host mode n s) diverges labels

end abrupt

section condition

variable {W : Type} (host : Host W)

/-- Where the guards before were passed and the read is refused, the first to throw of the operands
that its own guard evaluates in front of it throws the same. -/
def Clear (passed : List Expr) (key : ReadKey) (c : Expr) : Prop :=
  ∀ s : State W, (∀ g ∈ passed, ∃ v t, eval host g s = (.ok v,t) ∧ v.truthy = false) →
    ∀ x t, eval host (readOf key) s = (.error (.throw x),t) →
      ∀ before l after, leads c = before ++ l :: after → (∀ b ∈ before, ∃ v u, eval host b s = (.ok v,u)) →
        ∀ y u, eval host l s = (.error (.throw y),u) → y = x

/-- Every read hoisted out of the run is clear. -/
def HoistsClear (claimed : List ReadKey) (passed : List Expr) : List Stmt → Prop
  | [] => True
  | s :: rest =>
    let key := hoisted claimed ((divergingGuard s).bind firstUnconditionalRead) (s :: rest)
    (∀ c ∈ divergingGuard s, ∀ k ∈ key, Clear host passed k c) ∧
      HoistsClear (key.toList ++ claimed) (passed ++ (divergingGuard s).toList) rest

/-- The maximal runs of guards of a list, behind a run of guards. -/
def runsOf (run : List Stmt) : List Stmt → List (List Stmt)
  | [] => [run]
  | s :: ss => if (divergingGuard s).isSome then runsOf (run ++ [s]) ss else run :: runsOf [] ss

mutual

/-- The statement lists the pass enters in a statement. -/
def listsIn : Stmt → List (List Stmt)
  | .if _ t e => t :: listsInEach t ++ listsInBlock e
  | .while _ b | .doWhile b _ | .for _ _ _ b => b :: listsInEach b
  | .labeled _ s => listsIn s
  | .switch _ cases => listsInCases cases
  | .try b h f => b :: listsInEach b ++ listsInCatch h ++ listsInBlock f
  | _ => []

def listsInEach : List Stmt → List (List Stmt)
  | [] => []
  | s :: ss => listsIn s ++ listsInEach ss

def listsInCases : List SwitchCase → List (List Stmt)
  | [] => []
  | .mk _ body :: cases => body :: listsInEach body ++ listsInCases cases

def listsInCatch : Option CatchClause → List (List Stmt)
  | none => []
  | some (.mk _ body) => body :: listsInEach body

def listsInBlock : Option (List Stmt) → List (List Stmt)
  | none => []
  | some body => body :: listsInEach body

end

section

-- equations, made here once and not by the first proofs that unfold these
attribute [local simp] listsIn listsInEach listsInCases listsInCatch listsInBlock

end

/-- In every run the pass rewrites in the list, every hoisted read is clear. -/
def RunsClear (ss : List Stmt) : Prop := ∀ run ∈ runsOf [] ss, 2 ≤ run.length → HoistsClear host [] [] run

end condition

section run

variable {W : Type} {host : Host W} {mode : Mode} {n : Nat} {bound : LocalId}

/-- Equal worlds and equal locals below `bound`. -/
abbrev Same (bound : LocalId) : State W → State W → Prop := Agrees bound (fun _ => False) fun _ => .undefined

theorem Same.set {id : LocalId} (v : Val) (trace : List Event) (large : bound ≤ id) {s t : State W} (same : Same bound s t) :
    Same bound s { t with store := Function.update t.store id v, trace := trace } := by
  refine ⟨fun i small => ?_,same.worlds,fun _ _ none => none.elim⟩
  have apart : i ≠ id := fun equal => Nat.not_lt.mpr large (equal ▸ small)
  simpa [Function.update_of_ne apart] using same.locals i small

theorem Same.traces (a b : List Event) {s t : State W} (same : Same bound s t) :
    Same bound { s with trace := a } { t with trace := b } := ⟨same.locals,same.worlds,same.temps⟩

/-- Which temporary stands for which read, the latest first. -/
abbrev Temps := List (ReadKey × LocalId)

def substituteAll : Temps → Expr → Expr
  | [],e => e
  | (key,tmp) :: temps,e => substituteReads key tmp (substituteAll temps e)

theorem analyzable_substituteAll (temps : Temps) {e : Expr} (analyzable : guardExprIsAnalyzable e = true) :
    guardExprIsAnalyzable (substituteAll temps e) = true := by
  induction temps with
  | nil => exact analyzable
  | cons p temps ih => exact analyzable_substituteReads ih

/-- The temporaries were taken from the counter. -/
def Taken (bound next : LocalId) (temps : Temps) : Prop :=
  ∀ p ∈ temps, p.1.1 < bound ∧ bound ≤ p.2 ∧ p.2 < next

/-- In a run, the temporaries hold what the reads they stand for give. -/
structure Holds (reads : PureReads host) (bound : LocalId) (temps : Temps) (passed : List Expr) (s t : State W) :
    Prop where
  same : Same bound s t
  temps : ∀ p ∈ temps, reads.value s (readOf p.1) = .ok (t.store p.2)
  passed : ∀ g ∈ passed, guardExprIsAnalyzable g = true ∧ ∃ v, reads.value s g = .ok v ∧ v.truthy = false

variable {reads : PureReads host} {temps : Temps} {passed : List Expr} {s t : State W} {next : LocalId}

theorem Same.value (same : Same bound s t) {e : Expr} (inside : ∀ a ∈ e.accesses, a.id < bound) :
    reads.value s e = reads.value t e := by
  refine reads.value_congr same.worlds fun id member => ?_
  unfold PureReads.held
  rw [same.worlds,same.locals id (inside _ member)]

theorem Holds.traces (holds : Holds reads bound temps passed s t) (a b : List Event) :
    Holds reads bound temps passed { s with trace := a } { t with trace := b } := by
  refine ⟨holds.same.traces a b,?_,?_⟩
  · intro p member
    rw [reads.value_trace]
    exact holds.temps p member
  · intro g member
    rw [reads.value_trace]
    exact holds.passed g member

theorem readOf_inside {key : ReadKey} (small : key.1 < bound) : ∀ a ∈ (readOf key).accesses, a.id < bound := by
  intro a member
  simp only [readOf,Expr.accesses,accessesOfList,List.append_nil,List.mem_singleton] at member
  exact member ▸ small

/-- The guard of the rewritten run has the value of the original one. -/
theorem Holds.value (apart : ∀ id, bound ≤ id → host.boxed id = false) (taken : Taken bound next temps)
    (holds : Holds reads bound temps passed s t) {e : Expr} (inside : ∀ a ∈ e.accesses, a.id < bound) :
    reads.value t (substituteAll temps e) = reads.value s e := by
  have all : ∀ rest, rest ⊆ temps → reads.value t (substituteAll rest e) = reads.value s e := by
    intro rest
    induction rest with
    | nil => exact fun _ => (holds.same.value inside).symm
    | cons p rest ih =>
      intro subset
      obtain ⟨small,large,_⟩ := taken p (subset (by simp))
      have unboxed : reads.held t p.2 = t.store p.2 := by
        simp only [PureReads.held,apart p.2 large,Bool.false_eq_true,if_false]
      have held : reads.value t (readOf p.1) = .ok (reads.held t p.2) := by
        rw [unboxed,← holds.same.value (readOf_inside small)]
        exact holds.temps p (subset (by simp))
      rw [substituteAll,reads.value_substituteReads held]
      exact ih fun q member => subset (by simp [member])
  exact all temps fun _ member => member

/-- How both programs end: alike, in the same state. -/
abbrev Alike (bound : LocalId) : Comp → Comp → State W → State W → Prop := fun e f s t => e = f ∧ Same bound s t

/-- One guard, whose body is rewritten. -/
structure Guard where
  condition : Expr
  body : List Stmt
  rewritten : List Stmt

def Guard.stmt (g : Guard) : Stmt := .if g.condition g.body none

def Guard.under (temps : Temps) (g : Guard) : Stmt := .if (substituteAll temps g.condition) g.rewritten none

structure Guard.Fits (host : Host W) (mode : Mode) (n : Nat) (bound : LocalId) (g : Guard) : Prop where
  analyzable : guardExprIsAnalyzable g.condition = true
  diverges : alwaysDiverges g.body = true
  divergesToo : alwaysDiverges g.rewritten = true
  inside : ∀ a ∈ g.condition.accesses, a.id < bound
  keeps : ∀ labels, Keeps (Same bound) (execList host mode n labels g.body) (execList host mode n labels g.rewritten)

theorem Guard.Fits.guard {g : Guard} (fits : g.Fits host mode n bound) : divergingGuard g.stmt = some g.condition := by
  rw [Guard.stmt,divergingGuard_if,if_pos ⟨rfl,fits.diverges,fits.analyzable⟩]

theorem Guard.Fits.guard_under {g : Guard} (fits : g.Fits host mode n bound) (temps : Temps) :
    divergingGuard (g.under temps) = some (substituteAll temps g.condition) := by
  rw [Guard.under,divergingGuard_if,if_pos ⟨rfl,fits.divergesToo,analyzable_substituteAll temps fits.analyzable⟩]

theorem countReadsOf_substituteAll {key : ReadKey} {e : Expr} (apart : key ∉ temps.map Prod.fst) :
    countReadsOf key (substituteAll temps e) = countReadsOf key e := by
  induction temps with
  | nil => rfl
  | cons p temps ih =>
    simp only [List.map_cons,List.mem_cons,not_or] at apart
    rw [substituteAll,countReadsOf_substituteReads apart.1,ih apart.2]

/-- The rewritten run hoists what the original one would. -/
theorem hoisted_under (temps : Temps) {gs : List Guard} (fits : ∀ g ∈ gs, g.Fits host mode n bound) (candidate : Option ReadKey) :
    hoisted (temps.map Prod.fst) candidate (gs.map (Guard.under temps)) =
      hoisted (temps.map Prod.fst) candidate (gs.map Guard.stmt) := by
  unfold hoisted
  congr 1
  funext key
  by_cases claimed : key ∈ temps.map Prod.fst
  · simp only [claimed,not_true_eq_false,false_and]
  · have uses : usesOf key (gs.map (Guard.under temps)) = usesOf key (gs.map Guard.stmt) := by
      unfold usesOf
      rw [List.map_map,List.map_map]
      congr 1
      refine List.map_congr_left fun g member => ?_
      simp only [Function.comp,(fits g member).guard,(fits g member).guard_under,Option.map_some,Option.getD_some,
        countReadsOf_substituteAll claimed]
    rw [uses]

/-- Passing a guard, or throwing from it. -/
theorem guard_step (apart : ∀ id, bound ≤ id → host.boxed id = false) (taken : Taken bound next temps) {e : Expr}
    (analyzable : guardExprIsAnalyzable e = true) (inside : ∀ a ∈ e.accesses, a.id < bound) :
    Sim (Holds reads bound temps passed)
      (fun v w s t => v = w ∧ Same bound s t ∧ (v = false → Holds reads bound temps (passed ++ [e]) s t)) (Alike bound)
      (perform (evalTest host e)) (perform (evalTest host (substituteAll temps e))) := by
  intro s t holds
  obtain ⟨a,ran⟩ : Yields (evalTest host e) s (reads.value s e >>= fun v => .ok v.truthy) :=
    (reads.yields_value analyzable s).bind fun v trace _ => Yields.pure v.truthy _
  obtain ⟨b,ran'⟩ : Yields (evalTest host (substituteAll temps e)) t (reads.value s e >>= fun v => .ok v.truthy) :=
    (holds.value apart taken inside ▸ reads.yields_value (analyzable_substituteAll temps analyzable) t).bind
      fun v trace _ => Yields.pure v.truthy _
  cases known : reads.value s e with
  | error x =>
    rw [known] at ran ran'
    simp only [perform,Run.mapError,ran,ran']
    exact ⟨rfl,holds.same.traces a b⟩
  | ok v =>
    rw [known] at ran ran'
    rw [perform_ok ran,perform_ok ran']
    refine ⟨rfl,holds.same.traces a b,fun falsy => ?_⟩
    refine Holds.traces ⟨holds.same,holds.temps,fun g member => ?_⟩ a b
    obtain member | member := List.mem_append.mp member
    · exact holds.passed g member
    · rw [List.mem_singleton.mp member]
      exact ⟨analyzable,v,known,falsy⟩

/-- A guard, and the run behind it. -/
theorem guard_sound (apart : ∀ id, bound ≤ id → host.boxed id = false) (taken : Taken bound next temps) {g : Guard}
    (fits : g.Fits host mode n bound) (labels : List String) {ss ts : List Stmt}
    (rest : Sim (Holds reads bound temps (passed ++ [g.condition])) (fun _ _ => Same bound) (Alike bound)
      (execList host mode n labels ss) (execList host mode n labels ts)) :
    Sim (Holds reads bound temps passed) (fun _ _ => Same bound) (Alike bound)
      (execList host mode n labels (g.stmt :: ss)) (execList host mode n labels (g.under temps :: ts)) := by
  simp only [Guard.stmt,Guard.under,execList,exec,bind_assoc]
  refine Sim.bind (guard_step apart taken fits.analyzable fits.inside) ?_
  rintro v _ s t ⟨rfl,same,falsy⟩
  cases v with
  | false => exact rest s t (falsy rfl)
  | true =>
    have body := abrupt_of_alwaysDiverges host mode n fits.diverges labels
    have rewritten := abrupt_of_alwaysDiverges host mode n fits.divergesToo labels
    simp only [if_true]
    rw [body.bind_congr _ pure,rewritten.bind_congr _ pure,bind_pure,bind_pure]
    exact (fits.keeps labels).conseq (fun _ _ h => h) (fun _ _ _ _ h => h.2) (fun _ _ _ _ h => h) s t same

theorem yields_hoisted {key : ReadKey} (small : key.1 < bound) (holds : Holds reads bound temps passed s t) :
    Yields (eval host (readOf key)) t (reads.value s (readOf key)) :=
  holds.same.value (readOf_inside small) ▸ reads.yields_value rfl t

/-- A read that is hoisted and not refused. -/
theorem hoist_ok (apart : ∀ id, bound ≤ id → host.boxed id = false) (taken : Taken bound next temps)
    (room : bound ≤ next) {key : ReadKey} (small : key.1 < bound) (holds : Holds reads bound temps passed s t) {v : Val}
    (known : reads.value s (readOf key) = .ok v) (mode : Mode) (n : Nat) (labels : List String) :
    ∃ u, exec host mode n labels (.let next false (some (readOf key))) t = (.ok (),u) ∧
      Holds reads bound ((key,next) :: temps) passed s u := by
  obtain ⟨trace,ran⟩ := yields_hoisted small holds
  rw [known] at ran
  refine ⟨{ t with store := Function.update t.store next v, trace := .declare next v :: trace },?_,?_⟩
  · rw [exec,evalOption]
    refine perform_ok ?_
    rw [Run.bind_ok ran,declareLocal_unboxed (apart next room)]
  · refine ⟨holds.same.set v _ room,?_,holds.passed⟩
    intro p member
    obtain rfl | member := List.mem_cons.mp member
    · simpa using known
    · have other : p.2 ≠ next := Nat.ne_of_lt (taken p member).2.2
      simpa [Function.update_of_ne other] using holds.temps p member

/-- A read that is refused where it was hoisted to. -/
theorem hoist_error {key : ReadKey} (small : key.1 < bound) (holds : Holds reads bound temps passed s t) {x : Val}
    (known : reads.value s (readOf key) = .error x) (mode : Mode) (n : Nat) (next : LocalId) (labels : List String) :
    ∃ trace, exec host mode n labels (.let next false (some (readOf key))) t =
      (.error (.throw x),{ t with trace := trace }) := by
  obtain ⟨trace,ran⟩ := yields_hoisted small holds
  rw [known] at ran
  refine ⟨trace,?_⟩
  rw [exec,evalOption,perform,Run.mapError,Run.bind_error ran]
  rfl

/-- The guard refuses what is refused in front of it. -/
theorem guard_error {g : Guard} (fits : g.Fits host mode n bound) {key : ReadKey}
    (first : firstUnconditionalRead g.condition = some key) (clear : Clear host passed key g.condition)
    (holds : Holds reads bound temps passed s t) {x : Val} (known : reads.value s (readOf key) = .error x)
    (labels : List String) (ss : List Stmt) :
    ∃ trace, execList host mode n labels (g.stmt :: ss) s = (.error (.throw x),{ s with trace := trace }) := by
  have before : ∀ e ∈ passed, ∃ v u, eval host e s = (.ok v,u) ∧ v.truthy = false := by
    intro e member
    obtain ⟨analyzable,v,value,falsy⟩ := holds.passed e member
    obtain ⟨trace,ran⟩ := reads.yields_value analyzable s
    rw [value] at ran
    exact ⟨v,_,ran,falsy⟩
  obtain ⟨refusal,refused⟩ : Yields (eval host (readOf key)) s (.error x) := known ▸ reads.yields_value rfl s
  have same : ∀ before l after, leads g.condition = before ++ l :: after →
      (∀ b ∈ before, ∃ v, reads.value s b = .ok v) → ∀ y, reads.value s l = .error y → y = x := by
    intro ahead l after split done y thrown
    have analyzable (e : Expr) (member : e ∈ ahead ++ l :: after) : guardExprIsAnalyzable e = true :=
      analyzable_leads fits.analyzable e (split ▸ member)
    obtain ⟨trace,ran⟩ : Yields (eval host l) s (.error y) :=
      thrown ▸ reads.yields_value (analyzable l (by simp)) s
    refine clear s before x _ refused ahead l after split (fun b member => ?_) y _ ran
    obtain ⟨v,value⟩ := done b member
    obtain ⟨trace,ran⟩ : Yields (eval host b) s (.ok v) := value ▸ reads.yields_value (analyzable b (by simp [member])) s
    exact ⟨v,_,ran⟩
  obtain ⟨trace,ran⟩ := reads.yields_value fits.analyzable s
  rw [reads.value_refused first known same] at ran
  refine ⟨trace,?_⟩
  have test : perform (evalTest host g.condition) s = (.error (.throw x),{ s with trace := trace }) := by
    rw [evalTest,perform,Run.mapError,Run.bind_error ran]
    rfl
  simp only [execList,Guard.stmt,exec,bind_assoc]
  rw [Run.bind_error test]

theorem rewriteFrom_sound (reads : PureReads host) (apart : ∀ id, bound ≤ id → host.boxed id = false) (labels : List String) {gs : List Guard}
    (fits : ∀ g ∈ gs, g.Fits host mode n bound) (temps : Temps) (passed : List Expr) {next : LocalId}
    (taken : Taken bound next temps) (room : bound ≤ next)
    (clear : HoistsClear host (temps.map Prod.fst) passed (gs.map Guard.stmt)) :
    Sim (Holds reads bound temps passed) (fun _ _ => Same bound) (Alike bound)
      (execList host mode n labels (gs.map Guard.stmt))
      (execList host mode n labels ((rewriteFrom (temps.map Prod.fst) (candidates (gs.map Guard.stmt))
        (gs.map (Guard.under temps))).run next).1) := by
  induction gs generalizing temps passed next with
  | nil => exact Sim.pure fun s t holds => holds.same
  | cons g gs ih =>
    have first := fits g (by simp)
    have others : ∀ h ∈ gs, h.Fits host mode n bound := fun h member => fits h (by simp [member])
    have same := hoisted_under temps fits (firstUnconditionalRead g.condition)
    simp only [List.map_cons] at same
    simp only [List.map_cons,HoistsClear,first.guard,Option.bind_some] at clear
    simp only [List.map_cons,candidates,rewriteFrom,first.guard,Option.bind_some,same]
    obtain ⟨here,behind⟩ := clear
    cases key : hoisted (temps.map Prod.fst) (firstUnconditionalRead g.condition)
        (g.stmt :: gs.map Guard.stmt) with
    | none =>
      rw [key] at behind
      exact guard_sound apart taken first labels (ih others temps _ taken room behind)
    | some chosen =>
      rw [key] at here behind
      have found : firstUnconditionalRead g.condition = some chosen := (Option.filter_eq_some_iff.mp key).1
      have small : chosen.1 < bound := first.inside _ (firstUnconditionalRead_accesses found)
      have taken' : Taken bound (next + 1) ((chosen,next) :: temps) := by
        intro p member
        obtain rfl | member := List.mem_cons.mp member
        · exact ⟨small,room,Nat.lt_succ_self _⟩
        · obtain ⟨low,high,old⟩ := taken p member
          exact ⟨low,high,Nat.lt_succ_of_lt old⟩
      have rest := ih others ((chosen,next) :: temps) _ taken' (Nat.le_succ_of_le room) behind
      simp only [Fresh.bind_run,freshLocal_run,Fresh.pure_run]
      intro s t holds
      cases known : reads.value s (readOf chosen) with
      | error x =>
        obtain ⟨trace,ran⟩ := guard_error first found (here _ rfl _ rfl) holds known labels (gs.map Guard.stmt)
        obtain ⟨trace',ran'⟩ := hoist_error small holds known mode n next labels
        rw [ran,execList,Run.bind_error ran']
        exact ⟨rfl,holds.same.traces trace trace'⟩
      | ok v =>
        obtain ⟨u,ran,holds'⟩ := hoist_ok apart taken room small holds known mode n labels
        have skip (ts : List Stmt) : execList host mode n labels (.let next false (some (readOf chosen)) :: ts) t =
            execList host mode n labels ts u := by
          rw [execList,Run.bind_ok ran]
        have under : (gs.map (Guard.under temps)).map (substituteIn chosen next) =
            gs.map (Guard.under ((chosen,next) :: temps)) := List.map_map
        rw [skip,under]
        exact guard_sound apart taken' first labels rest s u holds'

theorem Guard.Fits.alone {g : Guard} (fits : g.Fits host mode n bound) (labels : List String) :
    Keeps (Same bound) (exec host mode n labels g.stmt) (exec host mode n labels (g.under [])) := by
  have framed := framed_agrees (W := W) bound (fun _ => False) fun _ => .undefined
  refine Keeps.bind (Keeps.perform (framed.evalTest host fits.inside)) fun v => ?_
  exact Keeps.ite (fun _ => fits.keeps labels) fun _ => Keeps.pure ()

theorem Holds.start (same : Same bound s t) : Holds reads bound [] [] s t := ⟨same,by simp,by simp⟩

theorem closeRun_sound (reads : PureReads host) (apart : ∀ id, bound ≤ id → host.boxed id = false) (labels : List String)
    {gs : List Guard} (fits : ∀ g ∈ gs, g.Fits host mode n bound) (room : bound ≤ next)
    (clear : 2 ≤ (gs.map Guard.stmt).length → HoistsClear host [] [] (gs.map Guard.stmt)) :
    Keeps (Same bound) (execList host mode n labels (gs.map Guard.stmt))
      (execList host mode n labels ((closeRun (gs.map (Guard.under []))).run next).1) := by
  have same : candidates (gs.map (Guard.under [])) = candidates (gs.map Guard.stmt) := by
    simp only [candidates,List.map_map]
    refine List.map_congr_left fun g member => ?_
    simp only [Function.comp,(fits g member).guard,(fits g member).guard_under,substituteAll]
  unfold closeRun
  by_cases long : 2 ≤ (gs.map (Guard.under [])).length
  · rw [if_pos long,rewriteRun,same]
    have sound := rewriteFrom_sound reads apart labels fits [] [] (by simp [Taken]) room (clear (by simpa using long))
    exact sound.conseq (fun _ _ same => Holds.start same) (fun _ _ _ _ same => ⟨rfl,same⟩) fun _ _ _ _ h => h
  · rw [if_neg long]
    refine Keeps.execList (List.forall₂_map_left_iff.mpr (List.forall₂_map_right_iff.mpr ?_))
    exact List.forall₂_same.mpr fun g member => (fits g member).alone labels

/-- A statement and what becomes of it once its nested lists are rewritten. -/
structure Corresponds (host : Host W) (mode : Mode) (n : Nat) (bound : LocalId) (s s' : Stmt) : Prop where
  keeps : ∀ labels, Keeps (Same bound) (exec host mode n labels s) (exec host mode n labels s')
  guard : divergingGuard s' = divergingGuard s
  fits : (divergingGuard s).isSome = true → ∃ g : Guard, g.Fits host mode n bound ∧ s = g.stmt ∧ s' = g.under []

theorem rewriteRuns_sound (reads : PureReads host) (apart : ∀ id, bound ≤ id → host.boxed id = false)
    (labels : List String) (gs : List Guard) (fits : ∀ g ∈ gs, g.Fits host mode n bound) {ss ss' : List Stmt}
    (each : List.Forall₂ (Corresponds host mode n bound) ss ss') (room : bound ≤ next)
    (clear : ∀ run ∈ runsOf (gs.map Guard.stmt) ss, 2 ≤ run.length → HoistsClear host [] [] run) :
    Keeps (Same bound) (execList host mode n labels (gs.map Guard.stmt ++ ss))
      (execList host mode n labels ((rewriteRuns (gs.map (Guard.under [])) ss').run next).1) := by
  induction each generalizing gs next with
  | nil =>
    rw [List.append_nil]
    exact closeRun_sound reads apart labels fits room (clear _ (by simp [runsOf]))
  | @cons s s' ss ss' first rest ih =>
    rw [rewriteRuns,first.guard]
    rw [runsOf] at clear
    by_cases isGuard : (divergingGuard s).isSome
    · rw [if_pos isGuard] at clear ⊢
      obtain ⟨g,fit,rfl,rfl⟩ := first.fits isGuard
      have longer : ∀ h ∈ gs ++ [g], h.Fits host mode n bound := by
        intro h member
        obtain member | member := List.mem_append.mp member
        · exact fits h member
        · exact List.mem_singleton.mp member ▸ fit
      have run := ih _ longer room (by simpa using clear)
      simpa using run
    · rw [if_neg isGuard] at clear ⊢
      simp only [Fresh.bind_run,Fresh.pure_run]
      rw [execList_append,execList_append]
      have before := closeRun_sound reads apart labels fits room (clear _ (by simp))
      refine before.bind fun _ => (first.keeps labels).bind fun _ => ?_
      exact ih [] (by simp) (Nat.le_trans room (Fresh.grows _ _)) fun run member => clear run (.tail _ member)

end run

section lists

variable {W : Type} {host : Host W} {mode : Mode} {n : Nat} {bound : LocalId}

/-- What is shown of a statement: rewriting its nested lists changes nothing. -/
def Sound (host : Host W) (mode : Mode) (n : Nat) (bound : LocalId) (s : Stmt) : Prop :=
  ∀ next, bound ≤ next → (∀ a ∈ s.accesses, a.id < bound) → (∀ l ∈ listsIn s, RunsClear host l) →
    Corresponds host mode n bound s ((cseNested s).run next).1

theorem corresponds_each {ss : List Stmt} (each : ∀ s ∈ ss, Sound host mode n bound s) {next : LocalId}
    (room : bound ≤ next) (inside : ∀ a ∈ accessesOfStmts ss, a.id < bound)
    (clear : ∀ l ∈ listsInEach ss, RunsClear host l) :
    List.Forall₂ (Corresponds host mode n bound) ss ((cseEach ss).run next).1 := by
  induction ss generalizing next with
  | nil => exact .nil
  | cons s ss ih =>
    simp only [accessesOfStmts,List.mem_append] at inside
    simp only [listsInEach,List.mem_append] at clear
    refine .cons (each s (by simp) next room (fun a h => inside a (.inl h)) fun l h => clear l (.inl h)) ?_
    exact ih (fun t member => each t (by simp [member])) (Nat.le_trans room (Fresh.grows _ _))
      (fun a h => inside a (.inr h)) fun l h => clear l (.inr h)

/-- A whole list, from its statements. -/
theorem cseStmts_sound (reads : PureReads host) (apart : ∀ id, bound ≤ id → host.boxed id = false) {ss : List Stmt}
    (each : ∀ s ∈ ss, Sound host mode n bound s) {next : LocalId} (room : bound ≤ next)
    (inside : ∀ a ∈ accessesOfStmts ss, a.id < bound) (clear : ∀ l ∈ ss :: listsInEach ss, RunsClear host l)
    (labels : List String) :
    Keeps (Same bound) (execList host mode n labels ss) (execList host mode n labels ((cseStmts ss).run next).1) := by
  have nested := corresponds_each each room inside fun l member => clear l (.tail _ member)
  exact rewriteRuns_sound reads apart labels [] (by simp) nested
    (Nat.le_trans room (Fresh.grows _ _)) (clear ss (by simp))

/-- A statement that is no guard corresponds as soon as it runs alike. -/
theorem Corresponds.of_keeps {s s' : Stmt} (keeps : ∀ labels, Keeps (Same bound) (exec host mode n labels s) (exec host mode n labels s'))
    (guard : divergingGuard s' = none) (guard' : divergingGuard s = none) : Corresponds host mode n bound s s' :=
  ⟨keeps,guard.trans guard'.symm,by simp [guard']⟩

/-- A statement the pass does not look into. -/
theorem Corresponds.same {s : Stmt} (inside : ∀ a ∈ s.accesses, a.id < bound) (guard : divergingGuard s = none) :
    Corresponds host mode n bound s s :=
  .of_keeps (fun labels => (framed_agrees bound (fun _ => False) fun _ => .undefined).exec host mode n inside labels) guard guard

theorem selectCase_cseCases (v : Val) (cases : List SwitchCase) (next : LocalId) :
    selectCase host v ((cseCases cases).run next).1 = selectCase host v cases := by
  induction cases generalizing next with
  | nil => rfl
  | cons c cases ih =>
    cases c with
    | mk test body =>
      cases test with
      | none => simp only [cseCases,Fresh.bind_run,Fresh.pure_run,selectCase,ih]
      | some t => simp only [cseCases,Fresh.bind_run,Fresh.pure_run,selectCase,ih]

theorem defaultCase_cseCases (cases : List SwitchCase) (next : LocalId) :
    defaultCase ((cseCases cases).run next).1 = defaultCase cases := by
  induction cases generalizing next with
  | nil => rfl
  | cons c cases ih =>
    cases c with
    | mk test body =>
      cases test with
      | none => rfl
      | some t => simp only [cseCases,Fresh.bind_run,Fresh.pure_run,defaultCase,ih]

theorem cseCases_sound (reads : PureReads host) (apart : ∀ id, bound ≤ id → host.boxed id = false)
    {cases : List SwitchCase} (each : ∀ c ∈ cases, ∀ s ∈ c.body, Sound host mode n bound s) {next : LocalId}
    (room : bound ≤ next) (inside : ∀ a ∈ accessesOfCases cases, a.id < bound)
    (clear : ∀ l ∈ listsInCases cases, RunsClear host l) :
    List.Forall₂ (fun c d => Keeps (Same bound) (execList host mode n [] c.body) (execList host mode n [] d.body))
      cases ((cseCases cases).run next).1 := by
  induction cases generalizing next with
  | nil => exact .nil
  | cons c cases ih =>
    cases c with
    | mk test body =>
      simp only [accessesOfCases,List.mem_append] at inside
      simp only [listsInCases,List.mem_append] at clear
      refine .cons ?_ (ih (fun d member => each d (by simp [member])) (Nat.le_trans room (Fresh.grows (cseStmts body) next))
        (fun a h => inside a (.inr h)) fun l h => clear l (.inr h))
      exact cseStmts_sound reads apart (each (.mk test body) (by simp)) room
        (fun a h => inside a (.inl (.inr h))) (fun l h => clear l (.inl h)) []

theorem cseCatch_sound (reads : PureReads host) (apart : ∀ id, bound ≤ id → host.boxed id = false)
    {h : Option CatchClause} (each : ∀ c ∈ h, ∀ s ∈ c.body, Sound host mode n bound s) {next : LocalId}
    (room : bound ≤ next) (inside : ∀ a ∈ accessesOfCatch h, a.id < bound)
    (clear : ∀ l ∈ listsInCatch h, RunsClear host l) (r : Except Comp Unit) :
    Keeps (Same bound) (execCatch host mode n h r) (execCatch host mode n ((cseCatch h).run next).1 r) := by
  have framed := framed_agrees (W := W) bound (fun _ => False) fun _ => .undefined
  cases h with
  | none => exact Keeps.complete r
  | some c =>
    cases c with
    | mk param body =>
      simp only [accessesOfCatch,List.mem_append] at inside
      have bound := framed.bindParam host param fun id h =>
        inside (.write id) (.inl (List.mem_map_of_mem (Option.mem_toList.mpr h)))
      have rest := cseStmts_sound reads apart (each _ rfl) room (fun a h => inside a (.inr h)) clear []
      simp only [cseCatch,Fresh.bind_run,Fresh.pure_run,execCatch]
      split
      · exact (Keeps.perform (bound _)).bind fun _ => rest
      · exact Keeps.complete _

theorem cseBlock_sound (reads : PureReads host) (apart : ∀ id, bound ≤ id → host.boxed id = false)
    {f : Option (List Stmt)} (each : ∀ l ∈ f, ∀ s ∈ l, Sound host mode n bound s) {next : LocalId}
    (room : bound ≤ next) (inside : ∀ a ∈ accessesOfBlock f, a.id < bound)
    (clear : ∀ l ∈ listsInBlock f, RunsClear host l) {m l : Act W Unit} (guarded : Keeps (Same bound) m l) :
    Keeps (Same bound) (execFinally host mode n f m) (execFinally host mode n ((cseBlock f).run next).1 l) := by
  cases f with
  | none => exact guarded
  | some body =>
    exact guarded.observe fun r => Keeps.finalize (cseStmts_sound reads apart (each _ rfl) room inside clear []) r

theorem cseElse_sound (reads : PureReads host) (apart : ∀ id, bound ≤ id → host.boxed id = false)
    {e : Option (List Stmt)} (each : ∀ s ∈ e.getD [], Sound host mode n bound s) {next : LocalId}
    (room : bound ≤ next) (inside : ∀ a ∈ accessesOfBlock e, a.id < bound)
    (clear : ∀ l ∈ listsInBlock e, RunsClear host l) (labels : List String) :
    Keeps (Same bound) (execElse host mode n labels e) (execElse host mode n labels ((cseBlock e).run next).1) := by
  cases e with
  | none => exact Keeps.pure ()
  | some body => exact cseStmts_sound reads apart each room inside clear labels

theorem sound (reads : PureReads host) (apart : ∀ id, bound ≤ id → host.boxed id = false) (s : Stmt) :
    Sound host mode n bound s := by
  have framed := framed_agrees (W := W) bound (fun _ => False) fun _ => .undefined
  induction s using Stmt.induct with
  | ifStmt c t e iht ihe =>
    intro next room inside clear
    simp only [Stmt.accesses,List.mem_append] at inside
    simp only [listsIn,List.mem_append] at clear
    have thens := cseStmts_sound reads apart iht room (fun a h => inside a (.inl (.inr h))) fun l h => clear l (.inl h)
    have elses := cseElse_sound reads apart ihe (Nat.le_trans room (Fresh.grows (cseStmts t) next))
      (fun a h => inside a (.inr h)) fun l h => clear l (.inr h)
    refine ⟨fun labels => ?_,divergingGuard_cseNested _ _,fun isGuard => ?_⟩
    · refine Keeps.bind (Keeps.perform (framed.evalTest host fun a h => inside a (.inl (.inl h)))) fun v => ?_
      exact Keeps.ite (fun _ => thens labels) fun _ => elses labels
    · obtain ⟨c',known⟩ := Option.isSome_iff_exists.mp isGuard
      obtain ⟨t',shape,diverges,analyzable⟩ := divergingGuard_some known
      cases shape
      refine ⟨⟨c,t,((cseStmts t).run next).1⟩,⟨analyzable,diverges,?_,fun a h => inside a (.inl (.inl h)),thens⟩,rfl,rfl⟩
      rw [alwaysDiverges_eq,ending_cseStmts,← alwaysDiverges_eq]
      exact diverges
  | whileStmt c b ih =>
    intro next room inside clear
    simp only [Stmt.accesses,List.mem_append] at inside
    refine .of_keeps (fun labels => ?_) rfl rfl
    exact framed.whileLoop (framed.evalTest host fun a h => inside a (.inl h))
      (cseStmts_sound reads apart ih room (fun a h => inside a (.inr h)) clear []) (Keeps.pure ()) n
  | doWhile b c ih =>
    intro next room inside clear
    simp only [Stmt.accesses,List.mem_append] at inside
    refine .of_keeps (fun labels => ?_) rfl rfl
    exact framed.doWhileLoop (cseStmts_sound reads apart ih room (fun a h => inside a (.inl h)) clear [])
      (framed.evalTest host fun a h => inside a (.inr h)) n
  | forStmt i c u b ihi ihb =>
    intro next room inside clear
    simp only [Stmt.accesses,List.mem_append] at inside
    refine .of_keeps (fun labels => ?_) rfl rfl
    have start : Keeps (Same bound) (execOption host mode n i) (execOption host mode n i) := by
      cases i with
      | none => exact Keeps.pure ()
      | some s => exact framed.exec host mode n (fun a h => inside a (.inl (.inl (.inl h)))) []
    refine start.bind fun _ => ?_
    exact framed.whileLoop (framed.evalTest? host fun a h => inside a (.inl (.inl (.inr h))))
      (cseStmts_sound reads apart ihb room (fun a h => inside a (.inr h)) clear [])
      (framed.evalDiscard host fun a h => inside a (.inl (.inr h))) n
  | labeled l s ih =>
    intro next room inside clear
    refine .of_keeps (fun labels => ?_) rfl rfl
    exact ((ih next room inside clear).keeps _).observe fun r => Keeps.catchLabel l r
  | tryStmt b h f ihb ihh ihf =>
    intro next room inside clear
    simp only [Stmt.accesses,List.mem_append] at inside
    simp only [listsIn,List.mem_append] at clear
    refine .of_keeps (fun labels => ?_) rfl rfl
    have body := cseStmts_sound reads apart ihb room (fun a h => inside a (.inl (.inl h)))
      (fun l h => clear l (.inl (.inl h))) []
    have room' : bound ≤ ((cseStmts b).run next).2 := Nat.le_trans room (Fresh.grows _ _)
    have guarded := body.observe (cseCatch_sound reads apart ihh room' (fun a h => inside a (.inl (.inr h)))
      fun l h => clear l (.inl (.inr h)))
    exact cseBlock_sound reads apart ihf (Nat.le_trans room' (Fresh.grows (cseCatch h) _))
      (fun a h => inside a (.inr h)) (fun l h => clear l (.inr h)) guarded
  | switch d cases ih =>
    intro next room inside clear
    simp only [Stmt.accesses,List.mem_append] at inside
    refine .of_keeps (fun labels => ?_) rfl rfl
    simp only [cseNested,Fresh.bind_run,Fresh.pure_run,exec,selectCase_cseCases,defaultCase_cseCases]
    have selected : Keeps (Same bound) (eval host d >>= fun v => selectCase host v cases)
        (eval host d >>= fun v => selectCase host v cases) :=
      (framed.eval host fun a h => inside a (.inl h)).bind fun v =>
        framed.selectCase host (fun a h => inside a (.inr h)) v
    refine Keeps.bind (Keeps.perform selected) fun k => ?_
    cases k.or (defaultCase cases) with
    | none => exact Keeps.pure ()
    | some k =>
      exact Keeps.observe (Keeps.execFrom (cseCases_sound reads apart ih room (fun a h => inside a (.inr h)) clear) k)
        fun r => Keeps.catchBreak r
  | _ => exact fun next room inside clear => .same inside rfl

end lists

/-- The rewritten list ends as the original does, in the same world and with the same locals,
from every state. -/
def CseFaithful {W : Type} (host : Host W) (mode : Mode) (n : Nat) (bound : LocalId) (ss : List Stmt) : Prop :=
  Keeps (fun s t => s.world = t.world ∧ ∀ id < bound, s.store id = t.store id) (execList host mode n [] ss)
    (execList host mode n [] ((cseStmts ss).run bound).1)

/-- Where property reads are pure, the pass preserves what a list does if every read it hoists
is clear. -/
theorem cseStmts_faithful {W : Type} {host : Host W} (reads : PureReads host) (mode : Mode) (n : Nat) {bound : LocalId}
    {ss : List Stmt} (inside : ∀ a ∈ accessesOfStmts ss, a.id < bound)
    (apart : ∀ id, bound ≤ id → host.boxed id = false) (clear : ∀ l ∈ ss :: listsInEach ss, RunsClear host l) :
    CseFaithful host mode n bound ss := by
  refine Keeps.of_apply fun s t h => ?_
  have each : ∀ s ∈ ss, Sound host mode n bound s := fun s _ => sound reads apart s
  have run := cseStmts_sound reads apart each (Nat.le_refl _) inside clear []
  obtain ⟨equal,related⟩ := run.apply ⟨h.2,h.1,fun _ _ none => none.elim⟩
  exact ⟨equal,related.worlds,related.locals⟩

/-- Guards that start with their first unconditional read. -/
theorem runsClear_of_leads {W : Type} {host : Host W} {ss : List Stmt}
    (first : ∀ s ∈ ss, ∀ c ∈ divergingGuard s, leads c = []) : RunsClear host ss := by
  have members (run ss : List Stmt) : ∀ r ∈ runsOf run ss, ∀ s ∈ r, s ∈ run ∨ s ∈ ss := by
    induction ss generalizing run with
    | nil => simp [runsOf]
    | cons s ss ih =>
      intro r member t inside
      rw [runsOf] at member
      split at member
      · obtain old | new := ih _ r member t inside
        · simp only [List.mem_append,List.mem_singleton] at old
          obtain old | rfl := old
          · exact .inl old
          · exact .inr (.head _)
        · exact .inr (.tail _ new)
      · obtain rfl | member := List.mem_cons.mp member
        · exact .inl inside
        · obtain none | new := ih _ r member t inside
          · cases none
          · exact .inr (.tail _ new)
  have clear (claimed : List ReadKey) (passed : List Expr) (run : List Stmt)
      (first : ∀ s ∈ run, ∀ c ∈ divergingGuard s, leads c = []) : HoistsClear host claimed passed run := by
    induction run generalizing claimed passed with
    | nil => trivial
    | cons s run ih =>
      refine ⟨fun c known key _ st _ x _ _ before l after split => ?_,ih _ _ fun t inside => first t (by simp [inside])⟩
      rw [first s (by simp) c known] at split
      simp at split
  intro run member _
  exact clear [] [] run fun s inside => first s ((members [] ss run member s inside).resolve_left (by simp))

section samples

/-- A host of objects whose every property holds its own name. -/
def fieldsHost : Host Unit where
  boxed _ := false
  readBox _ := pure .undefined
  writeBox _ _ := pure ()
  declareBox _ _ := pure ()
  allocateBox _ _ := pure ()
  releaseBox _ := pure ()
  op
    | .propertyGet p,[v] => if v.nullish then Run.raise (.throw v) else pure (.str p)
    | _,_ => pure .undefined
  closure _ _ _ := Run.raise .halt
  refuseWith _ _ := Run.raise .halt
  await _ := Run.raise .halt
  yield _ _ := Run.raise .halt

def readsFields : PureReads fieldsHost where
  cell _ _ := .undefined
  property p _ _ := .str p
  refusal v := v
  answer _ _ _ := .undefined
  locals _ _ _ := rfl
  reads p v w isValue := by
    simp only [fieldsHost,isValue]
    rfl
  refuses p v w isNullish := by
    simp only [fieldsHost,isNullish]
    rfl
  answers _ _ _ _ := rfl

/-- `if (n.kind === "num") return 1; if (n.kind === "str") return 2;` -/
def dispatch : List Stmt :=
  [.if (.compare .eq (readOf (0,"kind")) (.lit (.string "num"))) [.return (some (.integer 1))] none,
    .if (.compare .eq (readOf (0,"kind")) (.lit (.string "str"))) [.return (some (.integer 2))] none]

theorem cseStmts_dispatch : CseFaithful fieldsHost .ecma 1 1 dispatch := by
  have first : ∀ l ∈ dispatch :: listsInEach dispatch, ∀ s ∈ l, ∀ c ∈ divergingGuard s, (leads c).length = 0 := by decide
  exact cseStmts_faithful readsFields .ecma 1 (by decide) (fun _ _ => rfl) fun l member =>
    runsClear_of_leads fun s inside c known => List.eq_nil_of_length_eq_zero (first l member s inside c known)

/-- `if ((x && a.p) === b.q) return 0; if (b.q === 1) return 1;` -/
def reordered : List Stmt :=
  [.if (.compare .eq (.logical .and (.localGet 0) (readOf (1,"p"))) (readOf (2,"q"))) [.return (some (.integer 0))] none,
    .if (.compare .eq (readOf (2,"q")) (.integer 1)) [.return (some (.integer 1))] none]

/-- The read of `b.q` is hoisted in front of the conditional read of `a.p`. -/
theorem cseStmts_reordered : ¬CseFaithful fieldsHost .ecma 1 3 reordered := by
  intro faithful
  let s : State Unit := ⟨fun id => if id = 0 then .bool true else if id = 1 then .null else .undefined,(),[]⟩
  have run := (faithful.apply (s := s) (t := s) ⟨rfl,fun _ _ => rfl⟩).1
  have ended : (Except.error (Comp.throw .null) : Except Comp Unit) = .error (.throw .undefined) := run
  cases ended

end samples

end Perry.Transform.PropCse
