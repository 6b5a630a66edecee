import Perry.Transform.HoistAwaits

/-! The positions in which `await` hoisting leaves an await: statement-level ones, exactly when no
lifted conditional awaits in its condition and what an inlined object literal forwards as it is
awaits at statement level. -/
namespace Perry.Transform.HoistAwaits

open Perry.Effect Perry.Hir Perry.Transform

mutual

/-- An await outside nested closures. -/
def awaits : Expr → Bool
  | .lit _ | .localGet _ | .update .. | .closure .. => false
  | .localSet _ value => awaits value
  | .strict _ args => awaitsAny args
  | .logical _ left right => awaits left || awaits right
  | .conditional c t e => awaits c || awaits t || awaits e
  | .sequence items => awaitsAny items
  | .arrayMut _ _ args => awaitsAny args
  | .withSet object _ value _ _ => awaits object || awaits value
  | .await _ => true
  | .yield value _ => awaitsOption value

def awaitsAny : List Expr → Bool
  | [] => false
  | e :: es => awaits e || awaitsAny es

def awaitsOption : Option Expr → Bool
  | none => false
  | some e => awaits e

end

/-- At most the whole operand awaits. -/
def settled : Expr → Bool
  | .await operand => !awaits operand
  | e => !awaits e

def settledOption : Option Expr → Bool
  | none => true
  | some e => settled e

/-- An expression statement may also assign an awaited value to a local. -/
def settledStatement : Expr → Bool
  | .localSet _ value => settled value
  | e => settled e

/-- What a `for` initialiser leaves in place awaits. -/
def initAwaits : Stmt → Bool
  | .let _ _ init => awaitsOption init
  | .expr e => awaits e
  | _ => false

section normal

-- whether an await may be the whole operand of the initialiser of a `for`
variable (header : Bool)

mutual

def normal : Stmt → Bool
  | .let _ _ init => settledOption init
  | .expr e => settledStatement e
  | .return value => settledOption value
  | .throw e => settled e
  | .if c t e => !awaits c && normalAll t && normalBlock e
  | .while c b => !awaits c && normalAll b
  | .doWhile b c => !awaits c && normalAll b
  | .for i c u b => normalInit i && !awaitsOption c && !awaitsOption u && normalAll b
  | .try b h f => normalAll b && normalCatch h && normalBlock f
  | .switch d cases => !awaits d && normalCases cases
  | .labeled _ s => normal s
  | _ => true

def normalAll : List Stmt → Bool
  | [] => true
  | s :: ss => normal s && normalAll ss

def normalInit : Option Stmt → Bool
  | none => true
  | some s => normal s && (header || !initAwaits s)

def normalCatch : Option CatchClause → Bool
  | none => true
  | some (.mk _ body) => normalAll body

def normalBlock : Option (List Stmt) → Bool
  | none => true
  | some body => normalAll body

def normalCases : List SwitchCase → Bool
  | [] => true
  | .mk test body :: cases => !awaitsOption test && normalAll body && normalCases cases

end

mutual

/-- Hoisting leaves nothing at other positions: a conditional with an awaiting branch does not await in its
condition, and the seed and the other statements of an inlined object literal are settled already. -/
def clean : Expr → Bool
  | .lit _ | .localGet _ | .update .. | .closure .. => true
  | .localSet _ value => clean value
  | .strict op args => if awaitsInObjIife op args then cleanObjIife args else cleanList args
  | .logical _ left right => clean left && clean right
  | .conditional c t e =>
    (if exprContainsAwait t || exprContainsAwait e then !awaits c else clean c) && clean t && clean e
  | .sequence items => cleanList items
  | .arrayMut _ _ args => cleanList args
  | .withSet object _ value _ _ => clean object && clean value
  | .await operand => clean operand
  | .yield value _ => cleanOption value

def cleanList : List Expr → Bool
  | [] => true
  | e :: es => clean e && cleanList es

def cleanOption : Option Expr → Bool
  | none => true
  | some e => clean e

def cleanObjIife : List Expr → Bool
  | .closure _ (_ :: _) _ _ _ _ body :: seed :: _ => settled seed && cleanReplay body
  | _ => true

def cleanReplay : List Stmt → Bool
  | [] => true
  | .return _ :: _ => true
  | .expr e :: ss => clean e && cleanReplay ss
  | s :: ss => normal header s && cleanReplay ss

end

/-- What is left of the expression is still an await. -/
def endsInAwait : Expr → Bool
  | .await _ => true
  | .sequence items => if containsAny .await items then endsInAwaitList items else false
  | _ => false
where
  endsInAwaitList : List Expr → Bool
    | [] => false
    | [last] => endsInAwait last
    | _ :: next :: items => endsInAwaitList (next :: items)

def initEndsInAwait : Stmt → Bool
  | .let _ _ (some e) => endsInAwait e
  | .expr e => endsInAwait e
  | _ => false

mutual

def cleanStmt : Stmt → Bool
  | .let _ _ init => cleanOption header init
  | .expr e => clean header e
  | .return value => cleanOption header value
  | .throw e => clean header e
  | .if c t e => clean header c && cleanStmts t && cleanBlock e
  | .while c b => clean header c && cleanStmts b
  | .doWhile b c => clean header c && cleanStmts b
  | .for i c u b => cleanInit i && cleanOption header c && cleanOption header u && cleanStmts b
  | .try b h f => cleanStmts b && cleanCatch h && cleanBlock f
  | .switch d cases => clean header d && cleanCases cases
  | .labeled _ s => cleanStmt s
  | _ => true

def cleanStmts : List Stmt → Bool
  | [] => true
  | s :: ss => cleanStmt s && cleanStmts ss

def cleanInit : Option Stmt → Bool
  | none => true
  | some s => cleanStmt s && (header || !initEndsInAwait s)

def cleanCatch : Option CatchClause → Bool
  | none => true
  | some (.mk _ body) => cleanStmts body

def cleanBlock : Option (List Stmt) → Bool
  | none => true
  | some body => cleanStmts body

def cleanCases : List SwitchCase → Bool
  | [] => true
  | .mk test body :: cases => cleanOption header test && cleanStmts body && cleanCases cases

end

end normal

section left

variable {e : Expr} {es : List Expr} {v : List Stmt × Expr}

theorem settled_of_free (free : awaits e = false) : settled e = true := by
  cases e with
  | await operand => cases free
  | _ => exact congrArg (!·) free

theorem awaits_awaitOperand (free : awaits v.2 = false) (next : LocalId) :
    ∃ operand,((awaitOperand v).run next).1.2 = .await operand ∧ awaits operand = false := by
  unfold awaitOperand
  split
  · exact ⟨_,rfl,rfl⟩
  · exact ⟨_,rfl,free⟩

theorem awaitsAny_left (each : ∀ e ∈ es,∀ next,awaits ((hoistAwaitsInExpr false e).run next).1.2 = false) (next : LocalId) :
    awaitsAny ((hoistAwaitsInList es).run next).1.2 = false := by
  induction es generalizing next with
  | nil => rfl
  | cons e es ih =>
    rw [List.forall_mem_cons] at each
    simp only [hoistAwaitsInList,Fresh.bind_run,Fresh.pure_run,awaitsAny,each.1,ih each.2,Bool.or_self]

theorem awaits_liftSequence (each : ∀ e ∈ es,∀ next,awaits ((hoistAwaitsInExpr false e).run next).1.2 = false) (next : LocalId) :
    awaits ((liftSequence false es).run next).1.2 = false := by
  induction es generalizing next with
  | nil => rfl
  | cons e es ih =>
    rw [List.forall_mem_cons] at each
    cases es with
    | nil =>
      rw [liftSequence]
      exact each.1 next
    | cons e' es => exact ih each.2 _

theorem awaits_inlineObjIife (es : List Expr) (next : LocalId) : awaits ((inlineObjIife es).run next).1.2 = false := by
  unfold inlineObjIife
  split <;> rfl

/-- Nothing that is left of a fully hoisted expression awaits. -/
theorem awaits_left (e : Expr) : ∀ next,awaits ((hoistAwaitsInExpr false e).run next).1.2 = false := by
  induction e using Expr.induct with
  | lit l => exact fun _ => rfl
  | localGet id => exact fun _ => rfl
  | update id op pre => exact fun _ => rfl
  | closure funcId params defaults captures mutableCaptures flags body ih => exact fun _ => rfl
  | yieldNone delegate => exact fun _ => rfl
  | yieldSome value delegate ih => exact ih
  | localSet id value ih => exact ih
  | strict op args ih =>
    intro next
    rw [hoistAwaitsInExpr]
    split
    · exact awaits_inlineObjIife args next
    · exact awaitsAny_left ih next
  | arrayMut kind id args ih => exact awaitsAny_left ih
  | sequence items ih =>
    intro next
    rw [hoistAwaitsInExpr]
    split
    · exact awaits_liftSequence ih next
    · exact awaitsAny_left ih next
  | logical op left right ihl ihr =>
    intro next
    rw [hoistAwaitsInExpr]
    split
    · rfl
    · simp only [Fresh.bind_run,Fresh.pure_run,awaits,ihl,ihr,Bool.or_self]
  | conditional c t e ihc iht ihe =>
    intro next
    rw [hoistAwaitsInExpr]
    split
    · rfl
    · simp only [Fresh.bind_run,Fresh.pure_run,awaits,ihc,iht,ihe,Bool.or_self]
  | withSet object property value fallback strict iho ihv =>
    intro next
    simp only [hoistAwaitsInExpr,Fresh.bind_run,Fresh.pure_run,awaits,iho,ihv,Bool.or_self]
  | await operand ih => exact fun _ => rfl

theorem settled_liftSequence (each : ∀ e ∈ es,∀ next,awaits ((hoistAwaitsInExpr true e).run next).1.2 = endsInAwait e ∧
    settled ((hoistAwaitsInExpr true e).run next).1.2 = true) (next : LocalId) :
    awaits ((liftSequence true es).run next).1.2 = endsInAwait.endsInAwaitList es ∧
      settled ((liftSequence true es).run next).1.2 = true := by
  induction es generalizing next with
  | nil => exact ⟨rfl,rfl⟩
  | cons e es ih =>
    rw [List.forall_mem_cons] at each
    cases es with
    | nil =>
      rw [liftSequence,endsInAwait.endsInAwaitList]
      exact each.1 next
    | cons e' es =>
      rw [endsInAwait.endsInAwaitList]
      exact ih each.2 _

/-- Away from the root both entries do the same. -/
theorem deeper (e : Expr) (next : LocalId) (same : hoistAwaitsInExpr true e = hoistAwaitsInExpr false e)
    (apart : endsInAwait e = false) : awaits ((hoistAwaitsInExpr true e).run next).1.2 = endsInAwait e ∧
      settled ((hoistAwaitsInExpr true e).run next).1.2 = true := by
  have free := awaits_left e next
  rw [same,apart]
  exact ⟨free,settled_of_free free⟩

/-- At statement level the expression that is left awaits if it ends in an await, and only at its root. -/
theorem settled_left (e : Expr) : ∀ next,awaits ((hoistAwaitsInExpr true e).run next).1.2 = endsInAwait e ∧
    settled ((hoistAwaitsInExpr true e).run next).1.2 = true := by
  induction e using Expr.induct with
  | await operand ih =>
    intro next
    obtain ⟨x,shape,free⟩ := awaits_awaitOperand (awaits_left operand next) ((hoistAwaitsInExpr false operand).run next).2
    simp only [hoistAwaitsInExpr,Fresh.bind_run,if_true]
    rw [shape]
    exact ⟨rfl,congrArg (!·) free⟩
  | sequence items ih =>
    intro next
    rw [hoistAwaitsInExpr,endsInAwait]
    by_cases some : containsAny .await items = true
    · rw [if_pos some,if_pos some]
      exact settled_liftSequence ih next
    · rw [if_neg some,if_neg some]
      have free : awaitsAny ((hoistAwaitsInList items).run next).1.2 = false := awaitsAny_left (fun e _ => awaits_left e) next
      exact ⟨free,congrArg (!·) free⟩
  | lit l => exact fun next => deeper (.lit l) next rfl rfl
  | localGet id => exact fun next => deeper (.localGet id) next rfl rfl
  | localSet id value ih => exact fun next => deeper (.localSet id value) next rfl rfl
  | update id op pre => exact fun next => deeper (.update id op pre) next rfl rfl
  | strict op args ih => exact fun next => deeper (.strict op args) next rfl rfl
  | logical op left right ihl ihr => exact fun next => deeper (.logical op left right) next rfl rfl
  | conditional c t e ihc iht ihe => exact fun next => deeper (.conditional c t e) next rfl rfl
  | arrayMut kind id args ih => exact fun next => deeper (.arrayMut kind id args) next rfl rfl
  | withSet object property value fallback strict iho ihv =>
    exact fun next => deeper (.withSet object property value fallback strict) next rfl rfl
  | closure funcId params defaults captures mutableCaptures flags body ih => exact fun next => ⟨rfl,rfl⟩
  | yieldNone delegate => exact fun next => ⟨rfl,rfl⟩
  | yieldSome value delegate ih => exact fun next => deeper (.yield (some value) delegate) next rfl rfl

end left

section hoisted

variable (header : Bool)

theorem normalAll_append (front back : List Stmt) : normalAll header (front ++ back) = (normalAll header front && normalAll header back) := by
  induction front with
  | nil => rfl
  | cons s front ih => rw [List.cons_append,normalAll,normalAll,ih,Bool.and_assoc]

theorem normalAll_single (s : Stmt) : normalAll header [s] = normal header s := Bool.and_true _

theorem settledStatement_of_free {e : Expr} (free : awaits e = false) : settledStatement e = true := by
  cases e with
  | localSet id value => exact settled_of_free free
  | _ => exact settled_of_free free

theorem normalAll_awaitOperand {v : List Stmt × Expr} (free : awaits v.2 = false) (next : LocalId) :
    normalAll header ((awaitOperand v).run next).1.1 = normalAll header v.1 := by
  unfold awaitOperand
  split
  · simp only [Fresh.bind_run,Fresh.pure_run,freshLocal_run,normalAll_append,normalAll_single,normal,settledOption,
      settled_of_free free,Bool.and_true]
  · rfl

theorem awaits_logicalGuard (op : LogicalOp) (temp : LocalId) : awaits (logicalGuard op temp) = false := by
  cases op <;> rfl

theorem normalAll_liftLogical (temp : LocalId) (op : LogicalOp) {l r : List Stmt × Expr} (free : awaits l.2 = false)
    (free' : awaits r.2 = false) : normalAll header (liftLogical temp op l r) = (normalAll header l.1 && normalAll header r.1) := by
  simp only [liftLogical,normalAll,normalBlock,normalAll_append,normal,settledOption,settledStatement,settled_of_free free,settled_of_free free',
    awaits_logicalGuard,Bool.not_false,Bool.true_and,Bool.and_true]

mutual

/-- What is hoisted out of an expression is normal exactly if the expression is clean. -/
theorem normal_hoistAwaitsInExpr (top : Bool) : (e : Expr) → ∀ next,
    normalAll header ((hoistAwaitsInExpr top e).run next).1.1 = clean header e
  | .lit _,_ => rfl
  | .localGet _,_ => rfl
  | .update ..,_ => rfl
  | .closure ..,_ => rfl
  | .localSet _ value,next => normal_hoistAwaitsInExpr false value next
  | .strict op args,next => by
    rw [hoistAwaitsInExpr,clean]
    split
    · exact normal_inlineObjIife args next
    · exact normal_hoistAwaitsInList args next
  | .arrayMut _ _ args,next => normal_hoistAwaitsInList args next
  | .sequence items,next => by
    rw [hoistAwaitsInExpr,clean]
    split
    · exact normal_liftSequence top items next
    · exact normal_hoistAwaitsInList items next
  | .logical op left right,next => by
    rw [hoistAwaitsInExpr,clean]
    split
    · simp only [Fresh.bind_run,Fresh.pure_run,freshLocal_run,normalAll_liftLogical header _ op (awaits_left left _) (awaits_left right _),
        normal_hoistAwaitsInExpr false left,normal_hoistAwaitsInExpr false right]
    · simp only [Fresh.bind_run,Fresh.pure_run,normalAll_append,normal_hoistAwaitsInExpr false left,
        normal_hoistAwaitsInExpr false right]
  | .conditional c t e,next => by
    rw [hoistAwaitsInExpr,clean]
    split
    · simp only [Fresh.bind_run,Fresh.pure_run,freshLocal_run,normalAll,normalBlock,normalAll_append,normal,settledOption,settledStatement,
        settled_of_free (awaits_left t _),settled_of_free (awaits_left e _),normal_hoistAwaitsInExpr false t,
        normal_hoistAwaitsInExpr false e,Bool.true_and,Bool.and_true]
    · simp only [Fresh.bind_run,Fresh.pure_run,normalAll_append,normal_hoistAwaitsInExpr false c,
        normal_hoistAwaitsInExpr false t,normal_hoistAwaitsInExpr false e]
  | .withSet object _ value _ _,next => by
    simp only [hoistAwaitsInExpr,clean,Fresh.bind_run,Fresh.pure_run,normalAll_append,normal_hoistAwaitsInExpr false object,
      normal_hoistAwaitsInExpr false value]
  | .await operand,next => by
    rw [hoistAwaitsInExpr,clean,Fresh.bind_run]
    split
    · rw [normalAll_awaitOperand header (awaits_left operand _)]
      exact normal_hoistAwaitsInExpr false operand next
    · obtain ⟨x,shape,free⟩ := awaits_awaitOperand (awaits_left operand next) ((hoistAwaitsInExpr false operand).run next).2.succ
      simp only [Fresh.bind_run,Fresh.pure_run,freshLocal_run,normalAll_append,normalAll_single,normal,settledOption]
      rw [normalAll_awaitOperand header (awaits_left operand _),normal_hoistAwaitsInExpr false operand next,shape,settled,free]
      exact Bool.and_true _
  | .yield value _,next => normal_hoistAwaitsInOption value next

theorem normal_hoistAwaitsInList : (es : List Expr) → ∀ next,
    normalAll header ((hoistAwaitsInList es).run next).1.1 = cleanList header es
  | [],_ => rfl
  | e :: es,next => by
    simp only [hoistAwaitsInList,cleanList,Fresh.bind_run,Fresh.pure_run,normalAll_append,normal_hoistAwaitsInExpr false e,
      normal_hoistAwaitsInList es]

theorem normal_hoistAwaitsInOption : (e : Option Expr) → ∀ next,
    normalAll header ((hoistAwaitsInOption e).run next).1.1 = cleanOption header e
  | none,_ => rfl
  | some e,next => normal_hoistAwaitsInExpr false e next

theorem normal_liftSequence (top : Bool) : (es : List Expr) → ∀ next,
    normalAll header ((liftSequence top es).run next).1.1 = cleanList header es
  | [],_ => rfl
  | [last],next => by
    rw [liftSequence,cleanList,cleanList,Bool.and_true]
    exact normal_hoistAwaitsInExpr top last next
  | item :: e :: items,next => by
    rw [liftSequence,cleanList]
    simp only [Fresh.bind_run,Fresh.pure_run,normalAll_append,normalAll,normal,settledStatement_of_free (awaits_left item _),
      normal_hoistAwaitsInExpr false item,normal_liftSequence top (e :: items),Bool.true_and]

theorem normal_inlineObjIife : (args : List Expr) → ∀ next,
    normalAll header ((inlineObjIife args).run next).1.1 = cleanObjIife header args
  | [],_ => rfl
  | .closure _ params _ _ _ _ body :: seeds,next => by
    cases params with
    | nil => rfl
    | cons obj params =>
      cases seeds with
      | nil => rfl
      | cons seed seeds => exact congrArg (settled seed && ·) (normal_replayObjIife body next)
  | .lit _ :: _,_ | .localGet _ :: _,_ | .localSet .. :: _,_ | .update .. :: _,_ | .strict .. :: _,_ | .logical .. :: _,_
  | .conditional .. :: _,_ | .sequence _ :: _,_ | .arrayMut .. :: _,_ | .withSet .. :: _,_ | .await _ :: _,_
  | .yield .. :: _,_ => rfl

theorem normal_replayObjIife : (ss : List Stmt) → ∀ next,
    normalAll header ((replayObjIife ss).run next).1 = cleanReplay header ss
  | [],_ => rfl
  | s :: ss,next => by
    cases s with
    | «return» value => rfl
    | expr e =>
      simp only [replayObjIife,cleanReplay,Fresh.bind_run,Fresh.pure_run,normalAll_append,normalAll,normal,
        settledStatement_of_free (awaits_left e _),normal_hoistAwaitsInExpr false e,normal_replayObjIife ss,Bool.true_and]
    | _ => exact congrArg (normal header _ && ·) (normal_replayObjIife ss next)

end

theorem normal_hoistAwaitsInOperand (e : Option Expr) (next : LocalId) :
    normalAll header ((hoistAwaitsInOperand e).run next).1.1 = cleanOption header e ∧
      settledOption ((hoistAwaitsInOperand e).run next).1.2 = true := by
  cases e with
  | none => exact ⟨rfl,rfl⟩
  | some e => exact ⟨normal_hoistAwaitsInExpr header true e next,(settled_left e next).2⟩

variable {header}

theorem clean_none : cleanOption header none = true := rfl

theorem awaitsOption_left (e : Option Expr) (next : LocalId) : awaitsOption ((hoistAwaitsInOption e).run next).1.2 = false := by
  cases e with
  | none => rfl
  | some e => exact awaits_left e next

theorem settledStatement_of_settled {e : Expr} (whole : settled e = true) : settledStatement e = true := by
  cases e with
  | localSet id value =>
    rw [settled,awaits,Bool.not_eq_true'] at whole
    · exact settled_of_free whole
    · exact nofun
  | _ => exact whole

theorem normal_breakUnless (temp : LocalId) {c : List Stmt × Expr} (whole : settled c.2 = true) :
    normalAll header (breakUnless temp c) = normalAll header c.1 := by
  simp only [breakUnless,normalAll_append,normalAll,normalBlock,normal,settledOption,whole,awaits,awaitsAny,Bool.or_self,Bool.not_false,Bool.and_self,
    Bool.and_true]

/-- The condition of a `do` loop behind the flag of its first round. -/
theorem normal_flagged (temp logic first : LocalId) {c : List Stmt × Expr} (free : awaits c.2 = false) :
    normalAll header (breakUnless temp (liftLogical logic .or ([],.localGet first) c,.localGet logic)) = normalAll header c.1 := by
  have whole : settled (.localGet logic) = true := rfl
  rw [normal_breakUnless temp whole]
  exact normalAll_liftLogical header logic .or rfl free

theorem normal_takenCondition (temp : LocalId) (c : Option Expr) (next : LocalId) :
    normalAll header ((takenCondition temp c).run next).1 = cleanOption header c := by
  cases c with
  | none => rfl
  | some c =>
    rw [takenCondition,Fresh.bind_run,Fresh.pure_run,normal_breakUnless temp (settled_left c next).2]
    exact normal_hoistAwaitsInExpr header true c next

theorem normal_takenUpdate (u : Option Expr) (next : LocalId) :
    normalAll header ((takenUpdate u).run next).1 = cleanOption header u := by
  cases u with
  | none => rfl
  | some u =>
    simp only [takenUpdate,Fresh.bind_run,Fresh.pure_run,normalAll_append,normalAll_single,normal,
      settledStatement_of_settled (settled_left u next).2,Bool.and_true]
    exact normal_hoistAwaitsInExpr header true u next

theorem initAwaits_left (s : Stmt) (next : LocalId) : initAwaits ((hoistAwaitsInStmt none s).run next).1.2 = initEndsInAwait s := by
  cases s with
  | «let» id m init =>
    cases init with
    | none => rfl
    | some e => exact (settled_left e next).1
  | expr e => exact (settled_left e next).1
  | «while» c b =>
    rw [hoistAwaitsInStmt]
    split <;> rfl
  | doWhile b c =>
    rw [hoistAwaitsInStmt]
    split <;> rfl
  | _ => rfl

/-- Whether it is taken out of its header or not, a condition is hoisted once. -/
theorem clean_takeCondition (c : Option Expr) : (cleanOption header (if (takeCondition c).isSome then none else c) &&
    cleanOption header (takeCondition c)) = cleanOption header c := by
  unfold takeCondition
  by_cases moves : containsOption .await c = true
  · rw [if_pos moves]
    cases c with
    | none => rfl
    | some c => rfl
  · rw [if_neg moves]
    exact Bool.and_true _

theorem clean_takeUpdate (u : Option Expr) (b : List Stmt) : (cleanOption header (if (takeUpdate u b).isSome then none else u) &&
    cleanOption header (takeUpdate u b)) = cleanOption header u := by
  unfold takeUpdate
  by_cases moves : (containsOption .await u && !stmtsHaveContinueInsideTryFinally b) = true
  · rw [if_pos moves]
    cases u with
    | none => rfl
    | some u => rfl
  · rw [if_neg moves]
    exact Bool.and_true _

mutual

/-- What a statement becomes is normal exactly if the statement is clean. -/
theorem normal_hoistAwaitsInStmt {moved : Option Expr} (known : cleanOption header moved = true) : (s : Stmt) → ∀ next,
    (normalAll header ((hoistAwaitsInStmt moved s).run next).1.1 && normal header ((hoistAwaitsInStmt moved s).run next).1.2) =
      cleanStmt header s
  | .let id m init,next => by
    obtain ⟨hoisted,left⟩ := normal_hoistAwaitsInOperand header init next
    simp only [hoistAwaitsInStmt,Fresh.bind_run,Fresh.pure_run,hoisted,normal,left,cleanStmt,Bool.and_true]
  | .expr e,next => by
    have left := settledStatement_of_settled (settled_left e next).2
    simp only [hoistAwaitsInStmt,Fresh.bind_run,Fresh.pure_run,normal_hoistAwaitsInExpr,normal,left,cleanStmt,Bool.and_true]
  | .return value,next => by
    obtain ⟨hoisted,left⟩ := normal_hoistAwaitsInOperand header value next
    simp only [hoistAwaitsInStmt,Fresh.bind_run,Fresh.pure_run,hoisted,normal,left,cleanStmt,Bool.and_true]
  | .throw e,next => by
    simp only [hoistAwaitsInStmt,Fresh.bind_run,Fresh.pure_run,normal_hoistAwaitsInExpr,normal,(settled_left e next).2,cleanStmt,
      Bool.and_true]
  | .if c t e,next => by
    simp only [hoistAwaitsInStmt,Fresh.bind_run,Fresh.pure_run,normal_hoistAwaitsInExpr,normal,awaits_left,
      normal_hoistAwaitsInStmts known t,normal_hoistAwaitsInBlock known e,cleanStmt,Bool.not_false,Bool.true_and,Bool.and_assoc]
  | .while c b,next => by
    rw [hoistAwaitsInStmt]
    split
    · simp only [Fresh.bind_run,Fresh.pure_run,normal,normalAll,normalAll_append,normal_breakUnless _ (settled_left c _).2,
        normal_hoistAwaitsInExpr,normal_hoistAwaitsInStmts clean_none b,cleanStmt,awaits,Bool.not_false,Bool.true_and]
    · simp only [Fresh.bind_run,Fresh.pure_run,normal,awaits_left,normal_hoistAwaitsInExpr,
        normal_hoistAwaitsInStmts clean_none b,cleanStmt,Bool.not_false,Bool.true_and]
  | .doWhile b c,next => by
    rw [hoistAwaitsInStmt]
    split
    · simp only [Fresh.bind_run,Fresh.pure_run,normal,normalAll,normalAll_append,normal_flagged _ _ _ (awaits_left c _),
        normal_hoistAwaitsInExpr,normal_hoistAwaitsInStmts clean_none b,cleanStmt,awaits,settledOption,settledStatement,settled,
        Bool.not_false,Bool.true_and]
    · simp only [Fresh.bind_run,Fresh.pure_run,normal,awaits_left,normal_hoistAwaitsInExpr,
        normal_hoistAwaitsInStmts clean_none b,cleanStmt,Bool.not_false,Bool.true_and]
  | .for i c u b,next => by
    have body (moves : cleanOption header (takeUpdate u b) = true) := normal_hoistAwaitsInStmts moves b
    have first := normal_hoistAwaitsInInit i ((conditionTemp (takeCondition c)).run next).2
    simp only [hoistAwaitsInStmt,Fresh.bind_run,Fresh.pure_run,normal,normalAll_append,normal_hoistAwaitsInOption,awaitsOption_left,
      normal_takenCondition,normal_takenUpdate,Bool.not_false,Bool.and_true]
    by_cases moves : cleanOption header (takeUpdate u b) = true
    · simp only [body moves,cleanStmt,← first,← clean_takeCondition c,← clean_takeUpdate u b]
      ac_rfl
    · -- the update that is taken out also ends the body
      rw [Bool.not_eq_true] at moves
      simp only [moves,cleanStmt,← clean_takeUpdate u b,Bool.and_false,Bool.false_and]
  | .try b h f,next => by
    simp only [hoistAwaitsInStmt,Fresh.bind_run,Fresh.pure_run,normal,normalAll,normal_hoistAwaitsInStmts known b,
      normal_hoistAwaitsInCatch known h,normal_hoistAwaitsInBlock known f,cleanStmt,Bool.true_and]
  | .switch d cases,next => by
    have rest := normal_hoistAwaitsInCases known cases ((hoistAwaitsInExpr false d).run next).2
    simp only [hoistAwaitsInStmt,Fresh.bind_run,Fresh.pure_run,normal,normalAll_append,awaits_left,normal_hoistAwaitsInExpr,cleanStmt,
      ← rest,Bool.not_false,Bool.true_and,Bool.and_assoc]
  | .labeled _ s,next => normal_hoistAwaitsInStmt clean_none s next
  | .continue,next => by
    simp only [hoistAwaitsInStmt,Fresh.bind_run,Fresh.pure_run,normal_takenUpdate,known,normal,cleanStmt,Bool.and_true]
  | .break,_ | .labeledBreak _,_ | .labeledContinue _,_ | .preallocateBoxes _,_ | .preallocateTdzBoxes _,_
  | .releaseBoxes _,_ => rfl
termination_by structural x => x

theorem normal_hoistAwaitsInStmts {moved : Option Expr} (known : cleanOption header moved = true) : (ss : List Stmt) → ∀ next,
    normalAll header ((hoistAwaitsInStmts moved ss).run next).1 = cleanStmts header ss
  | [],_ => rfl
  | s :: ss,next => by
    simp only [hoistAwaitsInStmts,Fresh.bind_run,Fresh.pure_run,normalAll,normalAll_append,cleanStmts,
      ← normal_hoistAwaitsInStmt known s next,normal_hoistAwaitsInStmts known ss,Bool.and_assoc]
termination_by structural x => x

theorem normal_hoistAwaitsInInit : (i : Option Stmt) → ∀ next,
    (normalAll header ((hoistAwaitsInInit i).run next).1.1 && normalInit header ((hoistAwaitsInInit i).run next).1.2) =
      cleanInit header i
  | none,_ => rfl
  | some s,next => by
    simp only [hoistAwaitsInInit,Fresh.bind_run,Fresh.pure_run,normalInit,cleanInit,initAwaits_left,
      ← normal_hoistAwaitsInStmt clean_none s next,Bool.and_assoc]
termination_by structural x => x

theorem normal_hoistAwaitsInCatch {moved : Option Expr} (known : cleanOption header moved = true) : (h : Option CatchClause) → ∀ next,
    normalCatch header ((hoistAwaitsInCatch moved h).run next).1 = cleanCatch header h
  | none,_ => rfl
  | some (.mk _ body),next => normal_hoistAwaitsInStmts known body next
termination_by structural x => x

theorem normal_hoistAwaitsInBlock {moved : Option Expr} (known : cleanOption header moved = true) :
    (f : Option (List Stmt)) → ∀ next,normalBlock header ((hoistAwaitsInBlock moved f).run next).1 = cleanBlock header f
  | none,_ => rfl
  | some body,next => normal_hoistAwaitsInStmts known body next
termination_by structural x => x

theorem normal_hoistAwaitsInCases {moved : Option Expr} (known : cleanOption header moved = true) : (cases : List SwitchCase) →
    ∀ next,(normalAll header ((hoistAwaitsInCases moved cases).run next).1.1 &&
      normalCases header ((hoistAwaitsInCases moved cases).run next).1.2) = cleanCases header cases
  | [],_ => rfl
  | .mk test body :: cases,next => by
    have rest := normal_hoistAwaitsInCases known cases ((hoistAwaitsInStmts moved body).run ((hoistAwaitsInOption test).run next).2).2
    simp only [hoistAwaitsInCases,Fresh.bind_run,Fresh.pure_run,normalAll_append,normalCases,normal_hoistAwaitsInOption,awaitsOption_left,
      normal_hoistAwaitsInStmts known body,cleanCases,← rest,Bool.not_false,Bool.true_and]
    ac_rfl
termination_by structural x => x

end

end hoisted

/-- Awaits are left at statement-level positions only, exactly for a body that is clean. -/
theorem hoistAwaitsInStmts_normal_iff (header : Bool) (body : List Stmt) (next : LocalId) :
    normalAll header ((hoistAwaitsInStmts none body).run next).1 = true ↔ cleanStmts header body = true := by
  rw [normal_hoistAwaitsInStmts clean_none body next]

/-- The condition of a lifted conditional keeps its await: `(await 0) ? await 1 : 2`. -/
theorem awaitInLiftedCondition :
    normalAll true ((hoistAwaitsInStmts none
        [.expr (.conditional (.await (.integer 0)) (.await (.integer 1)) (.integer 2))]).run 0).1 = false ∧
      normalAll false ((hoistAwaitsInStmts none
        [.expr (.conditional (.await (.integer 0)) (.await (.integer 1)) (.integer 2))]).run 0).1 = false := by
  decide

end Perry.Transform.HoistAwaits
