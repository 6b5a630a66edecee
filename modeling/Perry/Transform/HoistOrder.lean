import Perry.Hir.Splitting

/-! When hoisting suspensions out of expressions keeps the order of evaluation: an
operand that stands before a suspending one must leave nothing behind that could
notice, or be noticed by, the statements hoisted over it. Yield hoisting and await
hoisting move the same things in the same order except for comma expressions, so
they share these definitions. -/
namespace Perry.Transform

open Perry.Effect Perry.Hir

/-- What a pass hoists. -/
inductive Suspension where
  | yield
  | await
  deriving DecidableEq, Repr

variable (k : Suspension)

/-- The helper closure of an object literal with spread runs where it is built, so its
awaits belong to the enclosing function; every other closure owns its suspensions. -/
def Suspension.enters (params : List LocalId) (flags : ClosureFlags) : Bool :=
  match k with
  | .yield => false
  | .await => params.length == 1 && flags.objIife

mutual

def contains : Expr → Bool
  | .lit _ | .localGet _ | .update .. => false
  | .localSet _ value => contains value
  | .strict _ args => containsAny args
  | .logical _ left right => contains left || contains right
  | .conditional c t e => contains c || contains t || contains e
  | .sequence items => containsAny items
  | .arrayMut _ _ args => containsAny args
  | .withSet object _ value _ _ => contains object || contains value
  | .closure _ params _ _ _ flags body => k.enters params flags && containsStmts body
  | .await operand => k == .await || contains operand
  | .yield value _ => k == .yield || containsOption value

def containsAny : List Expr → Bool
  | [] => false
  | e :: es => contains e || containsAny es

def containsOption : Option Expr → Bool
  | none => false
  | some e => contains e

/-- Over statements; the tests of a switch are not looked at. -/
def containsStmt : Stmt → Bool
  | .let _ _ init => containsOption init
  | .expr e => contains e
  | .throw e => contains e
  | .return value => containsOption value
  | .if c t e => contains c || containsStmts t || containsBlock e
  | .while c b => contains c || containsStmts b
  | .doWhile b c => contains c || containsStmts b
  | .for i c u b => containsInit i || containsOption c || containsOption u || containsStmts b
  | .try b h f => containsStmts b || containsCatch h || containsBlock f
  | .switch d cases => contains d || containsCases cases
  | .labeled _ s => containsStmt s
  | _ => false

def containsStmts : List Stmt → Bool
  | [] => false
  | s :: ss => containsStmt s || containsStmts ss

def containsInit : Option Stmt → Bool
  | none => false
  | some s => containsStmt s

def containsCatch : Option CatchClause → Bool
  | none => false
  | some (.mk _ body) => containsStmts body

def containsBlock : Option (List Stmt) → Bool
  | none => false
  | some body => containsStmts body

def containsCases : List SwitchCase → Bool
  | [] => false
  | .mk _ body :: cases => containsStmts body || containsCases cases

end

section

-- equations, made here once and not by the first proofs that unfold these
attribute [local simp] contains containsAny containsOption containsStmt
  containsStmts containsInit containsCatch containsBlock containsCases

end

mutual

/-- The locals written by what is hoisted out of an expression. -/
def early : Expr → List LocalId
  | .localSet _ value => early value
  | .strict _ args => earlyOfList args
  | .logical op left right =>
    if contains k right then written (Expr.logical op left right).accesses else early left
  | .conditional c t e =>
    if contains k t || contains k e then written (Expr.conditional c t e).accesses else early c
  | .sequence items =>
    if containsAny k items then
      match k with
      | .yield => written (accessesOfList items)
      | .await => earlyOfSequence items
    else []
  | .arrayMut _ _ args => earlyOfList args
  | .withSet object _ value _ _ => early object ++ early value
  | .await operand =>
    match k with
    | .yield => early operand
    | .await => written operand.accesses
  | .yield value _ =>
    match k with
    | .yield => written (accessesOfOption value)
    | .await => earlyOfOption value
  | _ => []

def earlyOfList : List Expr → List LocalId
  | [] => []
  | e :: es => early e ++ earlyOfList es

/-- Of a comma whose operands but the last are hoisted whole. -/
def earlyOfSequence : List Expr → List LocalId
  | [] => []
  | [e] => early e
  | e :: e' :: es => written e.accesses ++ earlyOfSequence (e' :: es)

def earlyOfOption : Option Expr → List LocalId
  | none => []
  | some e => early e

end

section

-- equations, made here once and not by the first proofs that unfold these
attribute [local simp] early earlyOfList earlyOfSequence earlyOfOption

end

/-- Operators that need no host on any operands. -/
def alwaysPure : Op → Nat → Bool
  | .funcRef _,0 => true
  | .unary .not,1 => true
  | .compare .eq,2 => true
  | .compare .ne,2 => true
  | _,_ => false

section order

variable (boxed : LocalId → Bool)

mutual

/-- The program locals read by what hoisting leaves of an expression, when that has no
effect and cannot be affected by other activations. -/
def settles : Expr → Option (List LocalId)
  | .lit _ => some []
  | .localGet id => if boxed id then none else some [id]
  | .yield .. => if k = .yield then some [] else none
  | .await _ => if k = .await then some [] else none
  | .logical _ left right =>
    if contains k right then some [] else do
      let l ← settles left
      let r ← settles right
      pure (l ++ r)
  | .conditional c t e =>
    if contains k t || contains k e then some [] else do
      let c ← settles c
      let t ← settles t
      let e ← settles e
      pure (c ++ t ++ e)
  | .sequence items =>
    if containsAny k items then
      match k with
      | .yield => some []
      | .await => settlesLast items
    else settlesList items
  | .strict op args => if alwaysPure op args.length then settlesList args else none
  | _ => none

def settlesList : List Expr → Option (List LocalId)
  | [] => some []
  | e :: es => do
    let l ← settles e
    let r ← settlesList es
    pure (l ++ r)

def settlesLast : List Expr → Option (List LocalId)
  | [] => some []
  | [e] => settles e
  | _ :: e :: es => settlesLast (e :: es)

end

section

-- equations, made here once and not by the first proofs that unfold these
attribute [local simp] settles settlesList settlesLast

end

/-- The residual of `first` may stay behind what is hoisted out of `rest`. -/
def mayWait (first : Expr) (rest : List Expr) : Bool :=
  !containsAny k rest || match settles k boxed first with
    | none => false
    | some used => used.all fun id => !(earlyOfList k rest).contains id

mutual

/-- Every operand before a suspending operand may wait behind it. -/
def keepsOrder : Expr → Bool
  | .localSet _ value => keepsOrder value
  | .strict _ args => keepsOrderAll args
  | .logical _ left right => keepsOrder left && keepsOrder right
  | .conditional c t e =>
    -- await hoisting leaves the condition of a lifted conditional alone
    (k == .await && (contains k t || contains k e) || keepsOrder c) && keepsOrder t && keepsOrder e
  | .sequence items => keepsOrderEach items
  | .arrayMut _ id args => keepsOrderAll args && mayWait k boxed (.localGet id) args
  | .withSet object _ value _ _ => keepsOrder object && keepsOrder value && mayWait k boxed object [value]
  | .closure _ params _ _ _ flags body => !(k.enters params flags && containsStmts k body)
  | .await operand => keepsOrder operand
  | .yield value _ => keepsOrderOption value
  | _ => true

def keepsOrderAll : List Expr → Bool
  | [] => true
  | e :: es => keepsOrder e && keepsOrderAll es && mayWait k boxed e es

def keepsOrderEach : List Expr → Bool
  | [] => true
  | e :: es => keepsOrder e && keepsOrderEach es

def keepsOrderOption : Option Expr → Bool
  | none => true
  | some e => keepsOrder e

end

section

-- equations, made here once and not by the first proofs that unfold these
attribute [local simp] keepsOrder keepsOrderAll keepsOrderEach keepsOrderOption

end

/-- No case test suspends. -/
def testsFree : List SwitchCase → Bool
  | [] => true
  | .mk none _ :: cases => testsFree cases
  | .mk (some t) _ :: cases => !contains k t && testsFree cases

/-- Only the first test, which is always evaluated, may suspend, and the value it is
compared with may wait for it. -/
def keepsOrderTests (d : Expr) : List SwitchCase → Bool
  | [] => true
  | .mk none _ :: cases => keepsOrderTests d cases
  | .mk (some t) _ :: cases => keepsOrder k boxed t && mayWait k boxed d [t] && testsFree k cases

end order

variable {k}

private theorem earlyOfList_subset_of_each {es : List Expr} (each : ∀ e ∈ es, early k e ⊆ written e.accesses) :
    earlyOfList k es ⊆ written (accessesOfList es) := by
  induction es with
  | nil => simp [earlyOfList]
  | cons e es ih =>
    simp only [earlyOfList,accessesOfList,written_append]
    exact List.append_subset.mpr ⟨fun _ h => List.mem_append_left _ (each e (by simp) h),
      fun _ h => List.mem_append_right _ (ih (fun a member => each a (by simp [member])) h)⟩

private theorem earlyOfSequence_subset_of_each {es : List Expr} (each : ∀ e ∈ es, early k e ⊆ written e.accesses) :
    earlyOfSequence k es ⊆ written (accessesOfList es) := by
  induction es with
  | nil => simp [earlyOfSequence]
  | cons e es ih =>
    rw [accessesOfList,written_append]
    cases es with
    | nil => exact fun _ h => List.mem_append_left _ (each e (by simp) h)
    | cons e' es =>
      have rest := ih fun a member => each a (by simp [member])
      exact List.append_subset.mpr ⟨List.subset_append_left _ _,fun _ h => List.mem_append_right _ (rest h)⟩

/-- What is hoisted writes only what the expression writes. -/
theorem early_subset (e : Expr) : early k e ⊆ written e.accesses := by
  induction e using Expr.induct with
  | localSet id value ih =>
    intro i member
    exact written_mono (List.subset_cons_self _ _) (ih member)
  | strict op args ih => exact earlyOfList_subset_of_each ih
  | logical op left right ihl ihr =>
    simp only [early]
    split
    · exact List.Subset.refl _
    · exact fun _ h => written_mono (List.subset_append_left _ _) (ihl h)
  | conditional c t e ihc iht ihe =>
    simp only [early]
    split
    · exact List.Subset.refl _
    · intro i h
      simp only [Expr.accesses,written_append]
      exact List.mem_append_left _ (List.mem_append_left _ (ihc h))
  | sequence items ih =>
    simp only [early]
    split
    · cases k with
      | yield => exact List.Subset.refl _
      | await => exact earlyOfSequence_subset_of_each ih
    · simp
  | arrayMut kind id args ih =>
    intro i member
    exact written_mono (List.subset_cons_self _ _) (earlyOfList_subset_of_each ih member)
  | withSet object property value fallback strict iho ihv =>
    simp only [early,Expr.accesses,written_append]
    refine List.append_subset.mpr ⟨fun _ h => ?_,fun _ h => ?_⟩
    · exact List.mem_append_left _ (List.mem_append_left _ (iho h))
    · exact List.mem_append_left _ (List.mem_append_right _ (ihv h))
  | await operand ih =>
    cases k with
    | yield => exact ih
    | await => exact List.Subset.refl _
  | yieldNone delegate => cases k <;> exact List.Subset.refl _
  | yieldSome value delegate ih =>
    cases k with
    | yield => exact List.Subset.refl _
    | await => exact ih
  | lit l => exact List.Subset.refl _
  | localGet id => simp [early]
  | update id op pre => simp [early]
  | closure funcId params defaults captures mutableCaptures flags body ih => simp [early]

theorem earlyOfList_subset (es : List Expr) : earlyOfList k es ⊆ written (accessesOfList es) :=
  earlyOfList_subset_of_each fun e _ => early_subset e

private theorem earlyOfList_of_each {es : List Expr} (free : containsAny k es = false)
    (each : ∀ e ∈ es, contains k e = false → early k e = []) : earlyOfList k es = [] := by
  induction es with
  | nil => rfl
  | cons e es ih =>
    simp only [containsAny,Bool.or_eq_false_iff] at free
    rw [earlyOfList,each e (by simp) free.1,ih free.2 fun a member => each a (by simp [member])]
    rfl

theorem early_of_free {e : Expr} (free : contains k e = false) : early k e = [] := by
  induction e using Expr.induct with
  | lit l => rfl
  | localGet id => rfl
  | localSet id value ih => exact ih free
  | update id op pre => rfl
  | strict op args ih => exact earlyOfList_of_each free ih
  | logical op left right ihl ihr =>
    simp only [contains,Bool.or_eq_false_iff] at free
    rw [early,if_neg (by simp [free.2])]
    exact ihl free.1
  | conditional c t e ihc iht ihe =>
    simp only [contains,Bool.or_eq_false_iff] at free
    rw [early,if_neg (by simp [free.1.2,free.2])]
    exact ihc free.1.1
  | sequence items ih =>
    simp only [contains] at free
    simp only [early,free,Bool.false_eq_true,if_false]
  | arrayMut kind id args ih => exact earlyOfList_of_each free ih
  | withSet object property value fallback strict iho ihv =>
    simp only [contains,Bool.or_eq_false_iff] at free
    rw [early,iho free.1,ihv free.2]
    rfl
  | closure funcId params defaults captures mutableCaptures flags body ih => rfl
  | await operand ih =>
    simp only [contains,Bool.or_eq_false_iff] at free
    cases k with
    | yield => exact ih free.2
    | await => cases free.1
  | yieldNone delegate =>
    cases k with
    | yield => cases free
    | await => rfl
  | yieldSome value delegate ih =>
    simp only [contains,Bool.or_eq_false_iff] at free
    cases k with
    | yield => cases free.1
    | await => exact ih free.2

theorem earlyOfList_of_free {es : List Expr} (free : containsAny k es = false) : earlyOfList k es = [] :=
  earlyOfList_of_each free fun _ _ => early_of_free

section settled

variable {boxed : LocalId → Bool}

theorem settles_logical {op : LogicalOp} {left right : Expr} {used : List LocalId}
    (settled : settles k boxed (.logical op left right) = some used) :
    contains k right = true ∧ used = [] ∨
      contains k right = false ∧ ∃ l r, settles k boxed left = some l ∧ settles k boxed right = some r ∧
        used = l ++ r := by
  simp only [settles] at settled
  split at settled
  · next lifted => exact .inl ⟨lifted,(Option.some.inj settled).symm⟩
  · next plain =>
    simp only [Option.bind_eq_bind,Option.bind_eq_some_iff,Option.pure_def,Option.some.injEq] at settled
    obtain ⟨l,hl,r,hr,same⟩ := settled
    exact .inr ⟨by simpa using plain,l,r,hl,hr,same.symm⟩

theorem settles_conditional {c t e : Expr} {used : List LocalId}
    (settled : settles k boxed (.conditional c t e) = some used) :
    (contains k t || contains k e) = true ∧ used = [] ∨
      (contains k t || contains k e) = false ∧ ∃ a b d, settles k boxed c = some a ∧
        settles k boxed t = some b ∧ settles k boxed e = some d ∧ used = a ++ b ++ d := by
  simp only [settles] at settled
  split at settled
  · next lifted => exact .inl ⟨lifted,(Option.some.inj settled).symm⟩
  · next plain =>
    simp only [Option.bind_eq_bind,Option.bind_eq_some_iff,Option.pure_def,Option.some.injEq] at settled
    obtain ⟨a,ha,b,hb,d,hd,same⟩ := settled
    exact .inr ⟨by simpa using plain,a,b,d,ha,hb,hd,same.symm⟩

theorem settlesList_cons {e : Expr} {es : List Expr} {used : List LocalId}
    (settled : settlesList k boxed (e :: es) = some used) :
    ∃ l r, settles k boxed e = some l ∧ settlesList k boxed es = some r ∧ used = l ++ r := by
  simp only [settlesList,Option.bind_eq_bind,Option.bind_eq_some_iff,Option.pure_def,Option.some.injEq] at settled
  obtain ⟨l,hl,r,hr,same⟩ := settled
  exact ⟨l,r,hl,hr,same.symm⟩

theorem settles_strict {op : Op} {args : List Expr} {used : List LocalId}
    (settled : settles k boxed (.strict op args) = some used) :
    alwaysPure op args.length = true ∧ settlesList k boxed args = some used := by
  simp only [settles] at settled
  split at settled
  · next pure => exact ⟨pure,settled⟩
  · cases settled

theorem settles_sequence {items : List Expr} {used : List LocalId}
    (settled : settles k boxed (.sequence items) = some used) :
    containsAny k items = true ∧ (k = .yield ∧ used = [] ∨ k = .await ∧ settlesLast k boxed items = some used) ∨
      containsAny k items = false ∧ settlesList k boxed items = some used := by
  simp only [settles] at settled
  split at settled
  · next lifted =>
    cases k with
    | yield => exact .inl ⟨lifted,.inl ⟨rfl,(Option.some.inj settled).symm⟩⟩
    | await => exact .inl ⟨lifted,.inr ⟨rfl,settled⟩⟩
  · next plain => exact .inr ⟨by simpa using plain,settled⟩

theorem settles_yield {value : Option Expr} {delegate : Bool} {used : List LocalId}
    (settled : settles k boxed (.yield value delegate) = some used) : k = .yield ∧ used = [] := by
  simp only [settles] at settled
  split at settled
  · next same => exact ⟨same,(Option.some.inj settled).symm⟩
  · cases settled

theorem settles_await {operand : Expr} {used : List LocalId}
    (settled : settles k boxed (.await operand) = some used) : k = .await ∧ used = [] := by
  simp only [settles] at settled
  split at settled
  · next same => exact ⟨same,(Option.some.inj settled).symm⟩
  · cases settled

private theorem written_subset_earlyOfList {es : List Expr} {used : List LocalId}
    (settled : settlesList k boxed es = some used)
    (each : ∀ e ∈ es, ∀ {used}, settles k boxed e = some used → written e.accesses ⊆ early k e) :
    written (accessesOfList es) ⊆ earlyOfList k es := by
  induction es generalizing used with
  | nil => simp [accessesOfList,written]
  | cons e es ih =>
    obtain ⟨l,r,hl,hr,_⟩ := settlesList_cons settled
    simp only [accessesOfList,written_append,earlyOfList]
    refine List.append_subset.mpr ⟨fun _ h => ?_,fun _ h => ?_⟩
    · exact List.mem_append_left _ (each e (by simp) hl h)
    · exact List.mem_append_right _ (ih hr (fun a member => each a (by simp [member])) h)

private theorem written_subset_earlyOfSequence {es : List Expr} {used : List LocalId}
    (settled : settlesLast k boxed es = some used)
    (each : ∀ e ∈ es, ∀ {used}, settles k boxed e = some used → written e.accesses ⊆ early k e) :
    written (accessesOfList es) ⊆ earlyOfSequence k es := by
  induction es with
  | nil => simp [accessesOfList,written]
  | cons e es ih =>
    rw [accessesOfList,written_append]
    cases es with
    | nil =>
      simp only [accessesOfList,written,List.filterMap_nil,List.append_nil]
      exact each e (by simp) settled
    | cons e' es =>
      have rest := ih settled fun a member => each a (by simp [member])
      exact List.append_subset.mpr ⟨List.subset_append_left _ _,fun _ h => List.mem_append_right _ (rest h)⟩

/-- What waits has already written all it writes. -/
theorem written_subset_early {e : Expr} {used : List LocalId} (settled : settles k boxed e = some used) :
    written e.accesses ⊆ early k e := by
  induction e using Expr.induct generalizing used with
  | lit l => simp [Expr.accesses,written]
  | localGet id => simp [Expr.accesses,written]
  | yieldNone delegate =>
    obtain ⟨rfl,_⟩ := settles_yield settled
    exact List.Subset.refl _
  | yieldSome value delegate ih =>
    obtain ⟨rfl,_⟩ := settles_yield settled
    exact List.Subset.refl _
  | await operand ih =>
    obtain ⟨rfl,_⟩ := settles_await settled
    exact List.Subset.refl _
  | logical op left right ihl ihr =>
    rcases settles_logical settled with ⟨lifted,_⟩ | ⟨plain,l,r,hl,hr,_⟩
    · rw [early,if_pos lifted]
      exact List.Subset.refl _
    · have none := ihr hr
      rw [early_of_free plain] at none
      rw [early,if_neg (by simp [plain]),Expr.accesses,written_append]
      exact List.append_subset.mpr ⟨ihl hl,fun _ h => absurd (none h) (by simp)⟩
  | conditional c t e ihc iht ihe =>
    rcases settles_conditional settled with ⟨lifted,_⟩ | ⟨plain,a,b,d,ha,hb,hd,_⟩
    · rw [early,if_pos lifted]
      exact List.Subset.refl _
    · have free := Bool.or_eq_false_iff.mp plain
      have noneThen := iht hb
      have noneElse := ihe hd
      rw [early_of_free free.1] at noneThen
      rw [early_of_free free.2] at noneElse
      rw [early,if_neg (by simp [plain]),Expr.accesses,written_append,written_append]
      refine List.append_subset.mpr ⟨List.append_subset.mpr ⟨ihc ha,fun _ h => ?_⟩,fun _ h => ?_⟩
      · exact absurd (noneThen h) (by simp)
      · exact absurd (noneElse h) (by simp)
  | sequence items ih =>
    rcases settles_sequence settled with ⟨lifted,⟨rfl,_⟩ | ⟨rfl,last⟩⟩ | ⟨plain,inner⟩
    · rw [early,if_pos lifted]
      exact List.Subset.refl _
    · rw [early,if_pos lifted]
      exact written_subset_earlyOfSequence last ih
    · have none := written_subset_earlyOfList inner ih
      rw [earlyOfList_of_free plain] at none
      exact fun _ h => absurd (none h) (by simp)
  | strict op args ih => exact written_subset_earlyOfList (settles_strict settled).2 ih
  | localSet id value ih => cases settled
  | update id op pre => cases settled
  | arrayMut kind id args ih => cases settled
  | withSet object property value fallback strict iho ihv => cases settled
  | closure funcId params defaults captures mutableCaptures flags body ih => cases settled

private theorem used_subset_of_list {es : List Expr} {used : List LocalId}
    (settled : settlesList k boxed es = some used)
    (each : ∀ e ∈ es, ∀ {used}, settles k boxed e = some used → ∀ id ∈ used, .read id ∈ e.accesses) :
    ∀ id ∈ used, .read id ∈ accessesOfList es := by
  induction es generalizing used with
  | nil =>
    cases settled
    simp
  | cons e es ih =>
    obtain ⟨l,r,hl,hr,rfl⟩ := settlesList_cons settled
    intro id member
    rw [accessesOfList,List.mem_append]
    rcases List.mem_append.mp member with member | member
    · exact .inl (each e (by simp) hl id member)
    · exact .inr (ih hr (fun a member => each a (by simp [member])) id member)

private theorem used_subset_of_last {es : List Expr} {used : List LocalId}
    (settled : settlesLast k boxed es = some used)
    (each : ∀ e ∈ es, ∀ {used}, settles k boxed e = some used → ∀ id ∈ used, .read id ∈ e.accesses) :
    ∀ id ∈ used, .read id ∈ accessesOfList es := by
  induction es with
  | nil =>
    cases settled
    simp
  | cons e es ih =>
    intro id member
    rw [accessesOfList,List.mem_append]
    cases es with
    | nil => exact .inl (each e (by simp) settled id member)
    | cons e' es => exact .inr (ih settled (fun a member => each a (by simp [member])) id member)

/-- What waits reads only what the expression reads. -/
theorem used_subset {e : Expr} {used : List LocalId} (settled : settles k boxed e = some used) :
    ∀ id ∈ used, .read id ∈ e.accesses := by
  induction e using Expr.induct generalizing used with
  | lit l =>
    cases settled
    simp
  | localGet id =>
    simp only [settles] at settled
    split at settled
    · cases settled
    · cases settled
      simp [Expr.accesses]
  | yieldNone delegate =>
    obtain ⟨_,rfl⟩ := settles_yield settled
    simp
  | yieldSome value delegate ih =>
    obtain ⟨_,rfl⟩ := settles_yield settled
    simp
  | await operand ih =>
    obtain ⟨_,rfl⟩ := settles_await settled
    simp
  | logical op left right ihl ihr =>
    rcases settles_logical settled with ⟨_,rfl⟩ | ⟨_,l,r,hl,hr,rfl⟩
    · simp
    · intro id member
      rw [Expr.accesses,List.mem_append]
      exact (List.mem_append.mp member).imp (ihl hl id) (ihr hr id)
  | conditional c t e ihc iht ihe =>
    rcases settles_conditional settled with ⟨_,rfl⟩ | ⟨_,a,b,d,ha,hb,hd,rfl⟩
    · simp
    · intro id member
      simp only [Expr.accesses,List.mem_append] at member ⊢
      exact member.imp (Or.imp (ihc ha id) (iht hb id)) (ihe hd id)
  | sequence items ih =>
    rcases settles_sequence settled with ⟨_,⟨_,rfl⟩ | ⟨_,last⟩⟩ | ⟨_,inner⟩
    · simp
    · exact used_subset_of_last last ih
    · exact used_subset_of_list inner ih
  | strict op args ih => exact used_subset_of_list (settles_strict settled).2 ih
  | localSet id value ih => cases settled
  | update id op pre => cases settled
  | arrayMut kind id args ih => cases settled
  | withSet object property value fallback strict iho ihv => cases settled
  | closure funcId params defaults captures mutableCaptures flags body ih => cases settled

theorem mayWait_cases {first : Expr} {rest : List Expr} (waits : mayWait k boxed first rest = true) :
    containsAny k rest = false ∨
      ∃ used, settles k boxed first = some used ∧ ∀ id ∈ used, id ∉ earlyOfList k rest := by
  simp only [mayWait,Bool.or_eq_true,Bool.not_eq_true'] at waits
  rcases waits with free | waits
  · exact .inl free
  · cases found : settles k boxed first with
    | none => simp [found] at waits
    | some used =>
      simp only [found,List.all_eq_true,Bool.not_eq_true'] at waits
      refine .inr ⟨used,rfl,fun id member early => ?_⟩
      simpa [early] using waits id member

end settled

variable {W : Type} {host : Host W} {mode : Mode} {n : Nat} {bound : LocalId}

theorem applyOp_of_alwaysPure {op : Op} {vs : List Val} (always : alwaysPure op vs.length = true) :
    applyOp host op vs = pure ((op.pure? vs).getD .undefined) := by
  have known : ∃ v, op.pure? vs = some v := by
    match op,vs,always with
    | .funcRef _,[],_ => exact ⟨_,rfl⟩
    | .unary .not,[v],_ => exact ⟨_,rfl⟩
    | .compare .eq,[v,w],_ =>
      unfold Op.pure?
      split <;> simp_all
    | .compare .ne,[v,w],_ =>
      unfold Op.pure?
      split <;> simp_all
  obtain ⟨v,found⟩ := known
  rw [applyOp,found]
  rfl

/-- A comma evaluates its operands like arguments and keeps the last. -/
theorem evalSequence_eq (es : List Expr) (last : Val) :
    evalSequence host last es = evalArgs host es >>= fun vs => pure (vs.getLastD last) := by
  induction es generalizing last with
  | nil => rfl
  | cons e es ih => simp only [evalSequence,evalArgs,ih,bind_assoc,pure_bind,List.getLastD_cons]

theorem settled_localGet {id lo hi : LocalId} {used : List LocalId}
    (settled : settles k host.boxed (.localGet id) = some used) :
    Settled (span used lo hi) (eval host (.localGet id)) fun _ => True := by
  simp only [settles] at settled
  split at settled
  · cases settled
  · next unboxed =>
    cases settled
    exact Settled.read (by simpa using unboxed) (.inl (by simp))

/-- The setting of an expression being hoisted: its locals lie below `bound`, its
temporaries from `next` on, and no temporary is boxed. -/
structure Fits (host : Host W) (bound next : LocalId) (accesses : List Access) : Prop where
  inside : ∀ a ∈ accesses, a.id < bound
  above : bound ≤ next
  temps : ∀ id, bound ≤ id → host.boxed id = false

namespace Fits

variable {next next' : LocalId} {as b : List Access}

theorem subset (fits : Fits host bound next as) (fewer : b ⊆ as) : Fits host bound next b :=
  ⟨fun a member => fits.inside a (fewer member),fits.above,fits.temps⟩

theorem later (fits : Fits host bound next as) (grows : next ≤ next') : Fits host bound next' as :=
  ⟨fits.inside,Nat.le_trans fits.above grows,fits.temps⟩

theorem unboxed (fits : Fits host bound next as) {id : LocalId} (large : next ≤ id) : host.boxed id = false :=
  fits.temps id (Nat.le_trans fits.above large)

theorem mem_written (fits : Fits host bound next as) {id : LocalId} (member : id ∈ written as) : id < bound :=
  fits.inside _ (Hir.mem_written.mp member)

end Fits

/-- Two operands in a row, the second possibly a list: the first may wait for what is
hoisted out of the second. -/
theorem splits_pair {α β : Type} {next mid reached : LocalId} {e e' : Expr} {rest : List Expr} {r r' : Eval W α}
    {hoisted hoisted' : List Stmt} {f f' : Val → α → Eval W β} {ids early' : List LocalId}
    (first : Splits host mode n bound next (early k e) (written e.accesses) (eval host e) hoisted (eval host e'))
    (residual : ∀ used, settles k host.boxed e = some used → Settled (span used next mid) (eval host e') fun _ => True)
    (waits : mayWait k host.boxed e rest = true) (fits : Fits host bound next e.accesses) (grows : next ≤ mid)
    (later : mid ≤ reached) (free : containsAny k rest = false → hoisted' = [] ∧ Stays bound ids r r')
    (second : Splits host mode n bound reached (earlyOfList k rest) ids r hoisted' r')
    (below : ∀ id ∈ earlyOfList k rest, id < bound) (fewer : early k e ++ earlyOfList k rest ⊆ early')
    (fewer' : written e.accesses ⊆ ids) (stays : ∀ v a, Stays bound ids (f v a) (f' v a)) :
    Splits host mode n bound next early' ids (eval host e >>= fun v => r >>= fun a => f v a) (hoisted ++ hoisted')
      (eval host e' >>= fun v => r' >>= fun a => f' v a) := by
  have fewerLeft : early k e ⊆ early' := fun _ h => fewer (List.mem_append_left _ h)
  have fewerRight : earlyOfList k rest ⊆ early' := fun _ h => fewer (List.mem_append_right _ h)
  rcases mayWait_cases waits with none | ⟨used,settled,apart⟩
  · obtain ⟨rfl,stay⟩ := free none
    rw [List.append_nil]
    refine (first.subset fewerLeft fewer').bind (List.Subset.refl _) fun v R framed => ?_
    exact (stay R framed).bind fun a => stays v a R framed
  · have high := Nat.le_trans grows later
    refine Splits.both (first.subset (List.Subset.refl _) (written_subset_early settled)) (residual used settled) second
      high (fun id inside => ?_) (fun id inside => ?_) fewerLeft fewerRight (List.Subset.refl _) stays
    · rcases inside with known | ⟨low,small⟩
      · have small : id < bound := fits.inside _ (used_subset settled id known)
        exact ⟨.inl small,Nat.lt_of_lt_of_le small (Nat.le_trans fits.above high)⟩
      · exact ⟨.inr low,Nat.lt_of_lt_of_le small later⟩
    · rcases inside with known | ⟨low,_⟩
      · exact apart id known
      · intro member
        exact Nat.not_lt.mpr (Nat.le_trans fits.above low) (below id member)

/-- The receiver of an array mutation is read before the arguments. -/
theorem splits_receiver {α β : Type} {next id : LocalId} {args : List Expr} {r r' : Eval W α} {hoisted : List Stmt}
    {f f' : Val → α → Eval W β} {ids : List LocalId} (waits : mayWait k host.boxed (.localGet id) args = true)
    (fits : Fits host bound next (.read id :: accessesOfList args))
    (free : containsAny k args = false → hoisted = [] ∧ Stays bound ids r r')
    (second : Splits host mode n bound next (earlyOfList k args) ids r hoisted r')
    (stays : ∀ v a, Stays bound ids (f v a) (f' v a)) :
    Splits host mode n bound next (earlyOfList k args) ids (readLocal host id >>= fun v => r >>= fun a => f v a) hoisted
      (readLocal host id >>= fun v => r' >>= fun a => f' v a) := by
  have fitsRead : Fits host bound next (Expr.localGet id).accesses := fits.subset (by simp [Expr.accesses])
  have fitsArgs := fits.subset (List.subset_cons_self _ _)
  have first : Splits host mode n bound next (early k (.localGet id)) (written (Expr.localGet id).accesses)
      (eval host (.localGet id)) [] (eval host (.localGet id)) :=
    Splits.refl (stays_eval fitsRead.inside (List.Subset.refl _))
  exact splits_pair first (fun _ settled => settled_localGet settled) waits fitsRead (Nat.le_refl _) (Nat.le_refl _) free
    second (fun i member => fitsArgs.mem_written (earlyOfList_subset args member)) (by simp [early])
    (by simp [Expr.accesses,written]) stays

theorem pure?_strictEq (v w : Val) : (Op.compare .eq).pure? [v,w] = some (.bool (v.strictEq w)) := by
  unfold Op.pure?
  split
  · simp_all
  · next a b same ints =>
    cases same
    cases ints
    have equal : (Val.num (.int a) == Val.num (.int b)) = decide (a = b) := by
      by_cases h : a = b <;> simp [h]
    rw [CompareOp.decideInt,Val.strictEq,equal]
    all_goals simp
  all_goals simp_all

theorem nullish_eq (v : Val) : v.nullish = (v.strictEq .null || v.strictEq .undefined) := by
  rcases v with _ | _ | _ | n | _ | _ | _ | _ <;> try rfl
  cases n <;> rfl

theorem pure?_looseEq_null (v : Val) : (Op.compare .looseEq).pure? [v,.null] = some (.bool v.nullish) := by
  rcases v with _ | _ | _ | n | _ | _ | _ | _ <;> try rfl
  cases n <;> rfl

/-- A residual stored into the temporary by an assignment. -/
theorem fills_assign {e e' : Expr} {lo next temp : LocalId} {hoisted : List Stmt} {ids early' : List LocalId}
    (splits : Splits host mode n bound next early' ids (eval host e) hoisted (eval host e'))
    (fewer : early' ⊆ ids) (low : lo ≤ temp) (later : lo ≤ next) (unboxed : host.boxed temp = false) :
    Fills host mode n bound lo temp ids (eval host e) (hoisted ++ [.expr (.localSet temp e')]) := by
  refine Fills.ofSet (splits.above later) fewer low unboxed ?_
  simp only [exec,eval,bind_assoc,pure_bind,bind_pure_unit]

end Perry.Transform
