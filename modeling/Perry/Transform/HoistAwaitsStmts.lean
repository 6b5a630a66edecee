import Perry.Transform.HoistAwaitsLoops

/-! The statement walk of await hoisting, and the guarantee it gives over whole runs. -/
namespace Perry.Transform.HoistAwaits

open Perry.Effect Perry.Hir Perry.Transform

section straight

private theorem straight_list {es : List Expr} {boxed : LocalId → Bool} (ordered : keepsOrderAll .await boxed es = true)
    (each : ∀ e ∈ es, keepsOrder .await boxed e = true →
      ∀ top next, straightAll ((hoistAwaitsInExpr top e).run next).1.1 = true) (next : LocalId) :
    straightAll ((hoistAwaitsInList es).run next).1.1 = true := by
  induction es generalizing next with
  | nil => rfl
  | cons e es ih =>
    simp only [keepsOrderAll,Bool.and_eq_true] at ordered
    simp only [hoistAwaitsInList,Fresh.bind_run,Fresh.pure_run,straightAll_append,each e (by simp) ordered.1.1,
      ih ordered.1.2 fun a member => each a (by simp [member]),Bool.and_self]

private theorem straight_sequence {items : List Expr} {boxed : LocalId → Bool} (top : Bool)
    (ordered : keepsOrderEach .await boxed items = true)
    (each : ∀ e ∈ items, keepsOrder .await boxed e = true →
      ∀ top next, straightAll ((hoistAwaitsInExpr top e).run next).1.1 = true) (next : LocalId) :
    straightAll ((liftSequence top items).run next).1.1 = true := by
  induction items generalizing next with
  | nil => rfl
  | cons item items ih =>
    simp only [keepsOrderEach,Bool.and_eq_true] at ordered
    have first := each item (by simp) ordered.1
    cases items with
    | nil => exact first top next
    | cons item' items =>
      have rest := ih ordered.2 fun a member => each a (by simp [member])
      simp only [liftSequence,Fresh.bind_run,Fresh.pure_run,straightAll_append,straightAll_cons,straight_expr,first,
        Bool.true_and]
      exact rest _

private theorem straight_awaitOperand {v : List Stmt × Expr} (plain : straightAll v.1 = true) (next : LocalId) :
    straightAll ((awaitOperand v).run next).1.1 = true := by
  unfold awaitOperand
  split
  · simp only [Fresh.bind_run,Fresh.pure_run,straightAll_append,plain,straightAll_cons,straight_let,straightAll_nil,
      Bool.and_self]
  · exact plain

/-- Hoisted statements neither loop nor jump. -/
theorem straight_hoisted {boxed : LocalId → Bool} {e : Expr} (ordered : keepsOrder .await boxed e = true) (top : Bool)
    (next : LocalId) : straightAll ((hoistAwaitsInExpr top e).run next).1.1 = true := by
  induction e using Expr.induct generalizing top next with
  | lit l => rfl
  | localGet id => rfl
  | update id op pre => rfl
  | closure funcId params defaults captures mutableCaptures flags body ih => rfl
  | localSet id value ih => exact ih ordered false next
  | strict op args ih =>
    simp only [hoistAwaitsInExpr,awaitsInObjIife_of_keepsOrder ordered,Bool.false_eq_true,if_false]
    exact straight_list ordered ih next
  | arrayMut kind id args ih =>
    simp only [keepsOrder,Bool.and_eq_true] at ordered
    exact straight_list ordered.1 ih next
  | await operand ih =>
    have inner := ih ordered false next
    cases top with
    | true => exact straight_awaitOperand inner _
    | false =>
      simp only [hoistAwaitsInExpr,Bool.false_eq_true,if_false,Fresh.bind_run,Fresh.pure_run,straightAll_append,
        straight_awaitOperand inner,straightAll_cons,straight_let,straightAll_nil,Bool.and_self]
  | withSet object property value fallback strict iho ihv =>
    simp only [keepsOrder,Bool.and_eq_true] at ordered
    simp only [hoistAwaitsInExpr,Fresh.bind_run,Fresh.pure_run,straightAll_append,iho ordered.1.1,ihv ordered.1.2,
      Bool.and_self]
  | logical op left right ihl ihr =>
    simp only [keepsOrder,Bool.and_eq_true] at ordered
    simp only [hoistAwaitsInExpr]
    split <;> simp only [liftLogical,Fresh.bind_run,Fresh.pure_run,straightAll_append,straightAll_cons,straight_let,
      straight_if,straight_expr,straightAll_nil,Option.getD_none,ihl ordered.1,ihr ordered.2,Bool.and_self]
  | conditional c t e ihc iht ihe =>
    simp only [keepsOrder,Bool.and_eq_true] at ordered
    simp only [hoistAwaitsInExpr]
    split
    · simp only [Fresh.bind_run,Fresh.pure_run,straightAll_append,straightAll_cons,straight_let,straight_if,
        straight_expr,straightAll_nil,Option.getD_some,iht ordered.1.2,ihe ordered.2,Bool.and_self]
    · next plain =>
      have cond : keepsOrder .await boxed c = true := by simpa [plain] using ordered.1.1
      simp only [Fresh.bind_run,Fresh.pure_run,straightAll_append,ihc cond,iht ordered.1.2,ihe ordered.2,Bool.and_self]
  | sequence items ih =>
    simp only [hoistAwaitsInExpr]
    split
    · exact straight_sequence top ordered ih next
    · next plain => simp only [Fresh.bind_run,hoistAwaitsInList_of_free (by simpa using plain),Fresh.pure_run,straightAll_nil]
  | yieldNone delegate => rfl
  | yieldSome value delegate ih => exact ih ordered false next

end straight

section order

mutual

/-- Every plain `continue` stands where an update put before it runs as if after it:
not in a `try` that would catch it or finish before it. -/
def continuesPlainly : Stmt → Bool
  | .if _ t e => continuesPlainlyAll t && continuesPlainlyBlock e
  | .try b h f =>
    jumpsWithinAll noContinue b && (f.isNone || jumpsWithinCatch noContinue h) && continuesPlainlyCatch h &&
      continuesPlainlyBlock f
  | .switch _ cases => continuesPlainlyCases cases
  | .for i _ _ _ => jumpsWithinInit noContinue i
  | .labeled _ s => jumpsWithin noContinue s
  | _ => true

def continuesPlainlyAll : List Stmt → Bool
  | [] => true
  | s :: ss => continuesPlainly s && continuesPlainlyAll ss

def continuesPlainlyCatch : Option CatchClause → Bool
  | none => true
  | some (.mk _ body) => continuesPlainlyAll body

def continuesPlainlyBlock : Option (List Stmt) → Bool
  | none => true
  | some body => continuesPlainlyAll body

def continuesPlainlyCases : List SwitchCase → Bool
  | [] => true
  | .mk _ body :: cases => continuesPlainlyAll body && continuesPlainlyCases cases

end

section

-- equations, made here once and not by the first proofs that unfold these
attribute [local simp] continuesPlainly continuesPlainlyAll
  continuesPlainlyCatch continuesPlainlyBlock continuesPlainlyCases

end

private theorem continuesPlainlyBlock_eq (block : Option (List Stmt)) :
    continuesPlainlyBlock block = continuesPlainlyAll (block.getD []) := by
  cases block <;> rfl

private theorem continuesPlainlyAll_of_each {ss : List Stmt} (within : jumpsWithinAll noContinue ss = true)
    (each : ∀ s ∈ ss, jumpsWithin noContinue s = true → continuesPlainly s = true) : continuesPlainlyAll ss = true := by
  induction ss with
  | nil => rfl
  | cons s ss ih =>
    simp only [jumpsWithinAll,Bool.and_eq_true] at within
    simp only [continuesPlainlyAll,Bool.and_eq_true]
    exact ⟨each s (by simp) within.1,ih within.2 fun t member => each t (by simp [member])⟩

private theorem continuesPlainlyCases_of_each {cases : List SwitchCase}
    (within : jumpsWithinCases noContinue cases = true)
    (each : ∀ c ∈ cases, ∀ s ∈ c.body, jumpsWithin noContinue s = true → continuesPlainly s = true) :
    continuesPlainlyCases cases = true := by
  induction cases with
  | nil => rfl
  | cons c cases ih =>
    rcases c with ⟨test,body⟩
    simp only [jumpsWithinCases,Bool.and_eq_true] at within
    simp only [continuesPlainlyCases,Bool.and_eq_true]
    exact ⟨continuesPlainlyAll_of_each within.1 (each (.mk test body) (by simp)),
      ih within.2 fun d member => each d (by simp [member])⟩

/-- A statement without a plain `continue` of its own has none in a wrong place. -/
theorem continuesPlainly_of_within (s : Stmt) (within : jumpsWithin noContinue s = true) :
    continuesPlainly s = true := by
  induction s using Stmt.induct with
  | ifStmt c t e iht ihe =>
    simp only [jumpsWithin,jumpsWithinBlock_eq,Bool.and_eq_true] at within
    simp only [continuesPlainly,continuesPlainlyBlock_eq,Bool.and_eq_true]
    exact ⟨continuesPlainlyAll_of_each within.1 iht,continuesPlainlyAll_of_each within.2 ihe⟩
  | tryStmt b h f ihb ihh ihf =>
    simp only [jumpsWithin,Bool.and_eq_true] at within
    obtain ⟨⟨body,handler⟩,final⟩ := within
    have handlerPlain : continuesPlainlyCatch h = true := by
      rcases h with _ | ⟨param,caught⟩
      · rfl
      · exact continuesPlainlyAll_of_each handler (ihh _ rfl)
    have finalPlain : continuesPlainlyBlock f = true := by
      cases f with
      | none => rfl
      | some fin => exact continuesPlainlyAll_of_each final (ihf _ rfl)
    simp only [continuesPlainly,body,handler,handlerPlain,finalPlain,Bool.or_true,Bool.and_self]
  | switch d cases ih =>
    have same : insideSwitch noContinue = noContinue := by
      funext c
      cases h : noContinue c <;> simp_all [insideSwitch,noContinue]
    rw [jumpsWithin,same] at within
    exact continuesPlainlyCases_of_each within ih
  | forStmt i c u b ihi ihb =>
    simp only [jumpsWithin,Bool.and_eq_true] at within
    exact within.1
  | labeled l b ih => exact within
  | _ => rfl

theorem continuesPlainlyAll_of_within {ss : List Stmt} (within : jumpsWithinAll noContinue ss = true) :
    continuesPlainlyAll ss = true := continuesPlainlyAll_of_each within fun s _ => continuesPlainly_of_within s

/-- No `continue` to one of these labels. -/
def notTo (labels : List String) : Comp → Bool
  | .continue (some l) => !labels.contains l
  | _ => true

variable (boxed : LocalId → Bool)

/-- A header expression is left where it is, or keeps its order in the body. -/
def keepsOrderHeader (e : Option Expr) : Bool := !containsOption .await e || keepsOrderOption .await boxed e

/-- An awaited update moves into the body, where each `continue` must wait for it. -/
def keepsOrderUpdate (labels : List String) (u : Option Expr) (b : List Stmt) : Bool :=
  !containsOption .await u || ((takeUpdate u b).isSome && keepsOrderOption .await boxed u &&
    continuesPlainlyAll b && jumpsWithinAll (notTo labels) b)

mutual

/-- Every expression hoisted from keeps its order, and so do the tests of a switch and
the updates of `for` loops. -/
def keepsOrderStmt (labels : List String) : Stmt → Bool
  | .let _ _ init => keepsOrderOption .await boxed init
  | .expr e => keepsOrder .await boxed e
  | .return value => keepsOrderOption .await boxed value
  | .throw e => keepsOrder .await boxed e
  | .if c t e => keepsOrder .await boxed c && keepsOrderStmts labels t && keepsOrderBlock labels e
  | .while c b => keepsOrderHeader boxed (some c) && keepsOrderStmts [] b
  | .doWhile b c => keepsOrderHeader boxed (some c) && keepsOrderStmts [] b
  | .for i c u b =>
    keepsOrderInit i && keepsOrderHeader boxed c && keepsOrderUpdate boxed labels u b && keepsOrderStmts [] b
  | .try b h f => keepsOrderStmts [] b && keepsOrderCatch h && keepsOrderBlock [] f
  | .switch d cases =>
    keepsOrder .await boxed d && keepsOrderTests .await boxed d cases && keepsOrderBodies cases
  | .labeled l s => keepsOrderStmt (l :: labels) s
  | _ => true

def keepsOrderStmts (labels : List String) : List Stmt → Bool
  | [] => true
  | s :: ss => keepsOrderStmt labels s && keepsOrderStmts labels ss

def keepsOrderInit : Option Stmt → Bool
  | none => true
  | some s => keepsOrderStmt [] s

def keepsOrderCatch : Option CatchClause → Bool
  | none => true
  | some (.mk _ body) => keepsOrderStmts [] body

def keepsOrderBlock (labels : List String) : Option (List Stmt) → Bool
  | none => true
  | some body => keepsOrderStmts labels body

def keepsOrderBodies : List SwitchCase → Bool
  | [] => true
  | .mk _ body :: cases => keepsOrderStmts [] body && keepsOrderBodies cases

end

section

-- equations, made here once and not by the first proofs that unfold these
attribute [local simp] keepsOrderStmt keepsOrderStmts keepsOrderInit
  keepsOrderCatch keepsOrderBlock keepsOrderBodies

end

private theorem keepsOrderBlock_eq (labels : List String) (block : Option (List Stmt)) :
    keepsOrderBlock boxed labels block = keepsOrderStmts boxed labels (block.getD []) := by
  cases block <;> rfl

end order

variable {W : Type} {host : Host W} {mode : Mode} {n : Nat} {bound : LocalId} {R : State W → State W → Prop}

/-- The setting of a statement being hoisted: the relation before it, and the update
taken out of the loop it belongs to. -/
structure Setting (host : Host W) (bound next : LocalId) (moved : Option Expr) (R : State W → State W → Prop) :
    Prop where
  tracks : Tracks bound next R
  above : bound ≤ next
  temps : ∀ id, bound ≤ id → host.boxed id = false
  ordered : keepsOrderOption .await host.boxed moved = true
  inside : ∀ a ∈ accessesOfOption moved, a.id < bound

namespace Setting

variable {next next' : LocalId} {moved : Option Expr}

theorem later (setting : Setting host bound next moved R) (grows : next ≤ next') :
    Setting host bound next' moved R :=
  ⟨setting.tracks.later grows,Nat.le_trans setting.above grows,setting.temps,setting.ordered,setting.inside⟩

theorem fits (setting : Setting host bound next moved R) {as : List Access} (inside : ∀ a ∈ as, a.id < bound) :
    Fits host bound next as := ⟨inside,setting.above,setting.temps⟩

theorem unboxed (setting : Setting host bound next moved R) {id : LocalId} (large : next ≤ id) :
    host.boxed id = false := setting.temps id (Nat.le_trans setting.above large)

theorem forget (setting : Setting host bound next moved R) : Setting host bound next none R :=
  ⟨setting.tracks,setting.above,setting.temps,rfl,by simp [accessesOfOption]⟩

/-- The moved update, wherever it is put. -/
theorem takenUpdate (setting : Setting host bound next moved R) (mode : Mode) (n : Nat) :
    straightAll ((takenUpdate moved).run next).1 = true ∧
      Keeps R (perform (evalDiscard host moved)) (execList host mode n [] ((HoistAwaits.takenUpdate moved).run next).1) := by
  cases moved with
  | none => exact ⟨rfl,Keeps.pure ()⟩
  | some u =>
    have splits : Splits host mode n bound next _ _ _ _ _ := hoists u true setting.ordered (setting.fits setting.inside)
    constructor
    · simp only [HoistAwaits.takenUpdate,Fresh.bind_run,Fresh.pure_run,straightAll_append,straight_hoisted setting.ordered,
        straightAll_cons,straight_expr,straightAll_nil,Bool.and_self]
    · simp only [HoistAwaits.takenUpdate,Fresh.bind_run,Fresh.pure_run,execList_append,execList_singleton,exec,evalDiscard,
        perform_bind,perform_pure]
      exact splits.statement setting.tracks (early_subset u) (Nat.le_refl _) fun _ => Keeps.pure ()

end Setting

/-- A statement and what hoisting made of it do the same, the moved update included. -/
def Follows (host : Host W) (mode : Mode) (n : Nat) (R : State W → State W → Prop) (moved : Option Expr)
    (labels : List String) (s : Stmt) (hoisted : List Stmt × Stmt) : Prop :=
  straightAll hoisted.1 = true ∧ Keeps R (leaving (perform (evalDiscard host moved)) (exec host mode n labels s))
    (execList host mode n [] hoisted.1 >>= fun _ => exec host mode n labels hoisted.2)

/-- What the main lemma says of one statement. -/
def Walks (host : Host W) (mode : Mode) (n : Nat) (bound : LocalId) (s : Stmt) : Prop :=
  ∀ {R next moved} labels, keepsOrderStmt host.boxed labels s = true →
    (moved.isSome = true → continuesPlainly s = true) → (∀ a ∈ s.accesses, a.id < bound) →
    Setting host bound next moved R → Follows host mode n R moved labels s ((hoistAwaitsInStmt moved s).run next).1

theorem leaving_none {α : Type} (m : Act W α) : leaving (perform (evalDiscard host none)) m = m := leaving_nothing m

private theorem keeps_stmts {ss : List Stmt} {next : LocalId} {moved : Option Expr} (labels : List String)
    (each : ∀ s ∈ ss, Walks host mode n bound s) (ordered : keepsOrderStmts host.boxed labels ss = true)
    (plain : moved.isSome = true → continuesPlainlyAll ss = true) (inside : ∀ a ∈ accessesOfStmts ss, a.id < bound)
    (setting : Setting host bound next moved R) :
    Keeps R (leaving (perform (evalDiscard host moved)) (execList host mode n labels ss))
      (execList host mode n labels ((hoistAwaitsInStmts moved ss).run next).1) := by
  induction ss generalizing next with
  | nil => exact Keeps.pure ()
  | cons s ss ih =>
    simp only [keepsOrderStmts,Bool.and_eq_true] at ordered
    simp only [accessesOfStmts,List.mem_append] at inside
    simp only [continuesPlainlyAll,Bool.and_eq_true] at plain
    have first := each s (by simp) labels ordered.1 (fun some => (plain some).1) (fun a h => inside a (.inl h)) setting
    have rest := ih (fun t member => each t (by simp [member])) ordered.2 (fun some => (plain some).2)
      (fun a h => inside a (.inr h)) (setting.later ((hoistAwaitsInStmt moved s).grows next))
    simp only [hoistAwaitsInStmts,Fresh.bind_run,Fresh.pure_run,execList_append,execList,
      execList_straight first.1 labels,leaving_bind]
    rw [← bind_assoc]
    exact first.2.bind fun _ => rest

/-- The statements of a loop body of its own, or of any place where no update moved. -/
private theorem keeps_own {ss : List Stmt} {next : LocalId} {moved : Option Expr} (labels : List String)
    (each : ∀ s ∈ ss, Walks host mode n bound s) (ordered : keepsOrderStmts host.boxed labels ss = true)
    (inside : ∀ a ∈ accessesOfStmts ss, a.id < bound) (setting : Setting host bound next moved R) :
    Keeps R (execList host mode n labels ss) (execList host mode n labels ((hoistAwaitsInStmts none ss).run next).1) := by
  have kept := keeps_stmts labels each ordered (fun some => by cases some) inside setting.forget
  rwa [leaving_none] at kept

/-- A statement that begins by evaluating an expression. -/
private theorem follows_splits {e : Expr} {next : LocalId} {moved : Option Expr} {labels : List String} {s s' : Stmt}
    {f g : Val → Act W Unit} (setting : Setting host bound next moved R) (top : Bool)
    (ordered : keepsOrder .await host.boxed e = true) (inside : ∀ a ∈ e.accesses, a.id < bound)
    (executes : leaving (perform (evalDiscard host moved)) (exec host mode n labels s) = perform (eval host e) >>= f)
    (executes' : exec host mode n labels s' = perform (eval host ((hoistAwaitsInExpr top e).run next).1.2) >>= g)
    (rest : ∀ v, Keeps R (f v) (g v)) :
    Follows host mode n R moved labels s (((hoistAwaitsInExpr top e).run next).1.1,s') := by
  refine ⟨straight_hoisted ordered top next,?_⟩
  rw [executes,executes']
  exact (hoists e top ordered (setting.fits inside)).statement setting.tracks (early_subset e) (Nat.le_refl _) rest

theorem leaving_exec {moved : Option Expr} {labels : List String} {s : Stmt} (within : jumpsWithin noContinue s = true) :
    leaving (perform (evalDiscard host moved)) (exec host mode n labels s) = exec host mode n labels s :=
  leaving_of_raises (raises_jumps labels within calm_noContinue)

section headers

theorem hoistAwaitsInOption_of_free {e : Option Expr} (free : containsOption .await e = false) (next : LocalId) :
    (hoistAwaitsInOption e).run next = (([],e),next) := by
  cases e with
  | none => rfl
  | some e => simp only [hoistAwaitsInOption,Fresh.bind_run,Fresh.pure_run,hoistAwaitsInExpr_of_free free]

theorem keptCondition (c : Option Expr) (next : LocalId) :
    (hoistAwaitsInOption (if (takeCondition c).isSome then none else c)).run next =
      (([],if (takeCondition c).isSome then none else c),next) := by
  refine hoistAwaitsInOption_of_free ?_ next
  cases c with
  | none => rfl
  | some c => cases awaits : contains .await c <;> simp [takeCondition,containsOption,awaits]

theorem keptUpdate {boxed : LocalId → Bool} {labels : List String} {u : Option Expr} {b : List Stmt}
    (ordered : keepsOrderUpdate boxed labels u b = true) (next : LocalId) :
    (hoistAwaitsInOption (if (takeUpdate u b).isSome then none else u)).run next =
      (([],if (takeUpdate u b).isSome then none else u),next) := by
  refine hoistAwaitsInOption_of_free ?_ next
  simp only [keepsOrderUpdate,Bool.or_eq_true,Bool.not_eq_true',Bool.and_eq_true] at ordered
  rcases ordered with free | moved
  · simp only [takeUpdate,free,Bool.false_and,Bool.false_eq_true,if_false,Option.isSome_none]
  · rw [if_pos moved.1.1.1]
    rfl

theorem takeUpdate_cases {boxed : LocalId → Bool} {labels : List String} {u : Option Expr} {b : List Stmt}
    (ordered : keepsOrderUpdate boxed labels u b = true) : takeUpdate u b = none ∨
      takeUpdate u b = u ∧ (takeUpdate u b).isSome = true ∧ keepsOrderOption .await boxed u = true ∧
        continuesPlainlyAll b = true ∧ jumpsWithinAll (notTo labels) b = true := by
  simp only [keepsOrderUpdate,Bool.or_eq_true,Bool.not_eq_true',Bool.and_eq_true] at ordered
  rcases ordered with free | ⟨⟨⟨taken,keeps⟩,plain⟩,unlabeled⟩
  · exact .inl (by simp [takeUpdate,free])
  · refine .inr ⟨?_,taken,keeps,plain,unlabeled⟩
    unfold takeUpdate at taken ⊢
    split at taken
    · next h => rw [if_pos h]
    · cases taken

theorem calm_notTo (labels : List String) : Calm (notTo labels) := ⟨fun _ => rfl,fun _ => rfl,fun _ => rfl,rfl,rfl⟩

/-- A moved update is a step of its own, an unmoved one stays. -/
theorem loopStep_takeUpdate {labels : List String} {u : Option Expr} {b : List Stmt} (test : Eval W Bool)
    (ordered : keepsOrderUpdate host.boxed labels u b = true) :
    loopStep labels b test (execList host mode n [] b) (evalDiscard host u) =
      loopStep labels b test (leaving (perform (evalDiscard host (takeUpdate u b))) (execList host mode n [] b) >>=
        fun _ => perform (evalDiscard host (takeUpdate u b)))
        (evalDiscard host (if (takeUpdate u b).isSome then none else u)) := by
  rcases takeUpdate_cases ordered with none | ⟨same,taken,_,_,unlabeled⟩
  · rw [none,leaving_none,evalDiscard,perform_pure,bind_pure_unit]
    rfl
  · rw [if_pos taken,same,loopStep_moveUpdate]
    · rfl
    · refine (raises_jumpsAll [] unlabeled (calm_notTo labels)).mono fun c allowed l member same => ?_
      subst same
      simp [notTo,member] at allowed

/-- The body of a loop whose update may have moved into it. -/
private theorem Setting.take {next : LocalId} {moved u : Option Expr} {labels : List String} {b : List Stmt}
    (setting : Setting host bound next moved R) (ordered : keepsOrderUpdate host.boxed labels u b = true)
    (inside : ∀ a ∈ accessesOfOption u, a.id < bound) : Setting host bound next (takeUpdate u b) R := by
  rcases takeUpdate_cases ordered with none | ⟨same,_,keeps,_,_⟩
  · rw [none]
    exact setting.forget
  · rw [same]
    exact ⟨setting.tracks,setting.above,setting.temps,keeps,inside⟩

/-- A moved condition is tested at the top of the body, an unmoved one in the header. -/
theorem keeps_takeCondition {labels : List String} {c : Option Expr} {b : List Stmt} {next next' : Eval W Unit}
    {run run' : Act W Unit} {lo mid temp : LocalId} (setting : Setting host bound lo none R) (later : lo ≤ mid)
    (large : (takeCondition c).isSome = true → lo ≤ temp) (ordered : keepsOrderHeader host.boxed c = true)
    (inside : ∀ a ∈ accessesOfOption c, a.id < bound) (runs : Keeps R run run') (nexts : Keeps R next next')
    (b' : List Stmt) :
    Keeps R (loopStep labels b (evalTest? host c) run next)
      (loopStep labels b' (evalTest? host (if (takeCondition c).isSome then none else c))
        (execList host mode n [] ((takenCondition temp (takeCondition c)).run mid).1 >>= fun _ => run') next') := by
  cases awaits : containsOption .await c with
  | false =>
    have none : takeCondition c = none := by simp [takeCondition,awaits]
    rw [none,takenCondition,Fresh.pure_run,execList,pure_bind]
    exact keeps_loopStep setting.tracks.framed (setting.tracks.framed.evalTest? host inside) runs nexts
  | true =>
    cases c with
    | none => cases awaits
    | some c =>
      have taken : takeCondition (some c) = some c := by simp [takeCondition,awaits]
      have condition : keepsOrder .await host.boxed c = true := by
        simpa [keepsOrderHeader,awaits,keepsOrderOption] using ordered
      have temps := Nat.le_trans setting.above (large (by rw [taken]; rfl))
      rw [taken,takenCondition,Fresh.bind_run,Fresh.pure_run]
      refine keeps_moveTest setting.tracks.framed ?_ runs nexts
      exact keeps_breakUnless setting.tracks (hoists c true condition ((setting.fits inside).later later))
        (early_subset c) later (large (by rw [taken]; rfl)) (setting.temps temp temps)

end headers

section handlers

/-- No plain `continue`, when an update has moved. -/
def Spared (moved : Option Expr) (c : Comp) : Prop := moved.isSome = true → noContinue c = true

theorem spared_execList {moved : Option Expr} {ss : List Stmt} (labels : List String)
    (plain : moved.isSome = true → jumpsWithinAll noContinue ss = true) :
    Run.Raises (Spared moved) (execList host mode n labels ss) := by
  intro s c ended some
  exact raises_jumpsAll labels (plain some) calm_noContinue s c ended

theorem spared_exec {moved : Option Expr} {s : Stmt} (labels : List String)
    (plain : moved.isSome = true → jumpsWithin noContinue s = true) :
    Run.Raises (Spared moved) (exec host mode n labels s) := by
  intro s c ended some
  exact raises_jumps labels (plain some) calm_noContinue s c ended

theorem leaving_spared (host : Host W) {α : Type} {moved : Option Expr} {m : Act W α} (raises : Run.Raises (Spared moved) m) :
    leaving (perform (evalDiscard host moved)) m = m := by
  cases moved with
  | none => exact leaving_none m
  | some u => exact leaving_of_raises fun s c ended => raises s c ended rfl

theorem spared_complete {α : Type} {moved : Option Expr} {r : Except Comp α} (known : ∀ c, r = .error c → Spared moved c) :
    Run.Raises (Spared moved) (complete r : Act W α) := by
  cases r with
  | error c => exact Run.Raises.raise (known c rfl)
  | ok a => exact Run.Raises.pure a

private theorem keeps_catch {h : Option CatchClause} {next : LocalId} {moved : Option Expr}
    (each : ∀ c ∈ h, ∀ s ∈ c.body, Walks host mode n bound s) (ordered : keepsOrderCatch host.boxed h = true)
    (plain : moved.isSome = true → continuesPlainlyCatch h = true) (inside : ∀ a ∈ accessesOfCatch h, a.id < bound)
    (setting : Setting host bound next moved R) (r : Except Comp Unit) (known : ∀ c, r = .error c → Spared moved c) :
    Keeps R (leaving (perform (evalDiscard host moved)) (execCatch host mode n h r))
      (execCatch host mode n ((hoistAwaitsInCatch moved h).run next).1 r) := by
  have passes : Keeps R (leaving (perform (evalDiscard host moved)) (complete r)) (complete r) := by
    rw [leaving_spared host (spared_complete known)]
    exact Keeps.complete r
  cases h with
  | none => exact passes
  | some c =>
    rcases c with ⟨param,body⟩
    have rest := keeps_stmts [] (each _ rfl) ordered plain (fun a h => inside a (List.mem_append_right _ h)) setting
    have bind := setting.tracks.framed.bindParam host param fun id member =>
      inside (.write id) (List.mem_append_left _ (List.mem_map_of_mem (Option.mem_toList.mpr member)))
    simp only [hoistAwaitsInCatch,Fresh.bind_run,Fresh.pure_run,execCatch]
    split
    · rw [leaving_bind,leaving_perform]
      exact (Keeps.perform (bind _)).bind fun _ => rest
    · exact passes

private theorem keeps_finalize {moved : Option Expr} {m m' : Act W Unit} {r : Except Comp Unit}
    (final : Keeps R (leaving (perform (evalDiscard host moved)) m) m') (known : ∀ c, r = .error c → Spared moved c) :
    Keeps R (leaving (perform (evalDiscard host moved)) (finalize mode m r)) (finalize mode m' r) := by
  have passes := leaving_spared host (spared_complete (W := W) known)
  unfold finalize
  split
  · rw [leaving_bind,passes]
    exact final.bind fun _ => Keeps.complete r
  · rw [passes]
    exact Keeps.complete r

end handlers

section cases

variable {d : Expr} {cases : List SwitchCase}

theorem hoistAwaitsInCases_of_free (host : Host W) (moved : Option Expr) (free : testsFree .await cases = true) (mid : LocalId) (v : Val) :
    ((hoistAwaitsInCases moved cases).run mid).1.1 = [] ∧
      selectCase host v ((hoistAwaitsInCases moved cases).run mid).1.2 = selectCase host v cases := by
  induction cases generalizing mid with
  | nil => exact ⟨rfl,rfl⟩
  | cons c cases ih =>
    rcases c with ⟨_ | t,body⟩
    · have rest := ih free ((hoistAwaitsInStmts moved body).run mid).2
      simp only [hoistAwaitsInCases,hoistAwaitsInOption,Fresh.bind_run,Fresh.pure_run,rest.1,selectCase,rest.2]
      exact ⟨rfl,trivial⟩
    · simp only [testsFree,Bool.and_eq_true,Bool.not_eq_true'] at free
      have rest := ih free.2 ((hoistAwaitsInStmts moved body).run mid).2
      simp only [hoistAwaitsInCases,hoistAwaitsInOption,Fresh.bind_run,Fresh.pure_run,
        hoistAwaitsInExpr_of_free free.1,rest.1,selectCase,rest.2]
      exact ⟨rfl,trivial⟩

private theorem straight_cases {boxed : LocalId → Bool} {moved : Option Expr}
    (tests : keepsOrderTests .await boxed d cases = true) (next : LocalId) :
    straightAll ((hoistAwaitsInCases moved cases).run next).1.1 = true := by
  induction cases generalizing next with
  | nil => rfl
  | cons c cases ih =>
    rcases c with ⟨_ | t,body⟩
    · exact ih tests _
    · simp only [keepsOrderTests,Bool.and_eq_true] at tests
      have rest := (hoistAwaitsInCases_of_free Host.recording moved tests.2 ((hoistAwaitsInStmts moved body).run
        ((hoistAwaitsInExpr false t).run next).2).2 .undefined).1
      simp only [hoistAwaitsInCases,hoistAwaitsInOption,Fresh.bind_run,Fresh.pure_run,straightAll_append,
        straight_hoisted tests.1.1,rest,straightAll_nil,Bool.and_self]

theorem defaultCase_hoisted (moved : Option Expr) (cases : List SwitchCase) (mid : LocalId) :
    defaultCase ((hoistAwaitsInCases moved cases).run mid).1.2 = defaultCase cases := by
  induction cases generalizing mid with
  | nil => rfl
  | cons c cases ih =>
    rcases c with ⟨_ | t,body⟩
    · rfl
    · simp only [hoistAwaitsInCases,hoistAwaitsInOption,Fresh.bind_run,Fresh.pure_run,defaultCase,ih]

/-- Choosing the case splits: what is hoisted from the first test stays behind the
discriminant, and no other test awaits. -/
private theorem splits_select (mode : Mode) (n : Nat) {next mid : LocalId} (moved : Option Expr) (ordered : keepsOrder .await host.boxed d = true)
    (tests : keepsOrderTests .await host.boxed d cases = true) (fits : Fits host bound next (d.accesses ++ accessesOfCases cases))
    (reached : ((hoistAwaitsInExpr false d).run next).2 ≤ mid) :
    Splits host mode n bound next (written (d.accesses ++ accessesOfCases cases))
      (written (d.accesses ++ accessesOfCases cases)) (eval host d >>= fun v => selectCase host v cases)
      (((hoistAwaitsInExpr false d).run next).1.1 ++ ((hoistAwaitsInCases moved cases).run mid).1.1)
      (eval host ((hoistAwaitsInExpr false d).run next).1.2 >>= fun v =>
        selectCase host v ((hoistAwaitsInCases moved cases).run mid).1.2) := by
  have fitsCond := fits.subset (List.subset_append_left _ _)
  have fewer : written d.accesses ⊆ written (d.accesses ++ accessesOfCases cases) :=
    written_mono (List.subset_append_left _ _)
  induction cases generalizing mid with
  | nil =>
    have first : Splits host mode n bound next _ _ _ _ _ := hoists d false ordered fitsCond
    simp only [hoistAwaitsInCases,Fresh.pure_run,List.append_nil]
    exact (first.subset (List.Subset.trans (early_subset d) fewer) fewer).bind (List.Subset.refl _) fun v R framed => Keeps.pure _
  | cons c cases ih =>
    rcases c with ⟨_ | t,body⟩
    · have fewerRest : d.accesses ++ accessesOfCases cases ⊆
          d.accesses ++ accessesOfCases (.mk none body :: cases) := by
        simp [accessesOfCases,accessesOfOption]
      have rest := ih tests (fits.subset fewerRest) (Nat.le_trans reached ((hoistAwaitsInStmts moved body).grows mid))
        (written_mono (List.subset_append_left _ _))
      have mapped := (rest.subset (written_mono fewerRest) (written_mono fewerRest)).bind (List.Subset.refl _)
        (k := fun k => pure (k.map (· + 1))) (l := fun k => pure (k.map (· + 1))) fun k R framed => Keeps.pure _
      simpa only [hoistAwaitsInCases,hoistAwaitsInOption,Fresh.bind_run,Fresh.pure_run,selectCase,bind_assoc,
        List.nil_append] using mapped
    · simp only [keepsOrderTests,Bool.and_eq_true] at tests
      have free := hoistAwaitsInCases_of_free host moved tests.2 ((hoistAwaitsInStmts moved body).run
        ((hoistAwaitsInExpr false t).run mid).2).2
      simp only [hoistAwaitsInCases,hoistAwaitsInOption,Fresh.bind_run,Fresh.pure_run,selectCase,(free .undefined).1,
        (free _).2,List.append_nil]
      have fitsTest : Fits host bound next t.accesses := fits.subset (by simp [accessesOfCases,accessesOfOption])
      have fewerRest : accessesOfCases cases ⊆ d.accesses ++ accessesOfCases (.mk (some t) body :: cases) := by
        intro a member
        simp [accessesOfCases,member]
      have fewerTest : written t.accesses ⊆ written (d.accesses ++ accessesOfCases (.mk (some t) body :: cases)) :=
        written_mono (by simp [accessesOfCases,accessesOfOption])
      have second : Splits host mode n bound mid _ _ _ _ _ := hoists t false tests.1.1
        (fitsTest.later (Nat.le_trans ((hoistAwaitsInExpr false d).grows next) reached))
      refine splits_pair (hoists d false ordered fitsCond)
        (fun used settled => settled_residual _ settled fun id large => fitsCond.unboxed large) tests.1.2 fitsCond
        ((hoistAwaitsInExpr false d).grows next) reached (fun none => ?_)
        (second.subset (by simp [earlyOfList]) fewerTest) (fun id member => ?_) ?_ fewer fun v w R framed => ?_
      · simp only [containsAny,Bool.or_false] at none
        rw [hoistAwaitsInExpr_of_free none]
        exact ⟨rfl,stays_eval fitsTest.inside fewerTest⟩
      · simp only [earlyOfList,List.append_nil] at member
        exact fitsTest.mem_written (early_subset t member)
      · simp only [earlyOfList,List.append_nil]
        exact List.append_subset.mpr ⟨List.Subset.trans (early_subset d) fewer,List.Subset.trans (early_subset t) fewerTest⟩
      · refine Keeps.ite (fun _ => Keeps.pure _) fun _ => ?_
        refine (framed.selectCase host ?_ v).bind fun k => Keeps.pure _
        exact reach_of_inside (fits.subset fewerRest).inside (written_mono fewerRest)

private theorem keeps_bodies {mid : LocalId} {moved : Option Expr}
    (each : ∀ c ∈ cases, ∀ s ∈ c.body, Walks host mode n bound s) (ordered : keepsOrderBodies host.boxed cases = true)
    (plain : moved.isSome = true → continuesPlainlyCases cases = true)
    (inside : ∀ a ∈ accessesOfCases cases, a.id < bound) (setting : Setting host bound mid moved R) :
    List.Forall₂ (fun c d => Keeps R (leaving (perform (evalDiscard host moved)) (execList host mode n [] c.body))
      (execList host mode n [] d.body)) cases ((hoistAwaitsInCases moved cases).run mid).1.2 := by
  induction cases generalizing mid with
  | nil => exact .nil
  | cons c cases ih =>
    rcases c with ⟨test,body⟩
    simp only [keepsOrderBodies,Bool.and_eq_true] at ordered
    simp only [continuesPlainlyCases,Bool.and_eq_true] at plain
    simp only [accessesOfCases,List.mem_append] at inside
    have growsTest := (hoistAwaitsInOption test).grows mid
    have growsBody := (hoistAwaitsInStmts moved body).grows ((hoistAwaitsInOption test).run mid).2
    exact .cons (keeps_stmts [] (each _ (by simp)) ordered.1 (fun some => (plain some).1)
        (fun a h => inside a (.inl (.inr h))) (setting.later growsTest))
      (ih (fun c member => each c (by simp [member])) ordered.2 (fun some => (plain some).2)
        (fun a h => inside a (.inr h)) (setting.later (Nat.le_trans growsTest growsBody)))

/-- Falling through the cases, where each `continue` waits for the moved update. -/
private theorem keeps_execFrom {cases' : List SwitchCase} {moved : Option Expr}
    (bodies : List.Forall₂ (fun c d => Keeps R (leaving (perform (evalDiscard host moved)) (execList host mode n [] c.body))
      (execList host mode n [] d.body)) cases cases') (k : Nat) :
    Keeps R (leaving (perform (evalDiscard host moved)) (execFrom host mode n k cases)) (execFrom host mode n k cases') := by
  induction bodies generalizing k with
  | nil => cases k <;> exact Keeps.pure ()
  | @cons c c' _ _ first _ ih =>
    rcases c with ⟨test,body⟩
    rcases c' with ⟨test',body'⟩
    cases k with
    | zero =>
      rw [execFrom,leaving_bind]
      exact first.bind fun _ => ih 0
    | succ k => exact ih k

end cases

/-- Hoisting the awaits of a statement that keeps its order changes nothing it does. -/
theorem walks (s : Stmt) : Walks host mode n bound s := by
  have alone {s : Stmt} {R next} {moved : Option Expr} (labels : List String)
      (within : jumpsWithin noContinue s = true) (inside : ∀ a ∈ s.accesses, a.id < bound)
      (setting : Setting host bound next moved R) : Follows host mode n R moved labels s ([],s) := by
    refine ⟨rfl,?_⟩
    rw [execList,pure_bind,leaving_exec within]
    exact setting.tracks.framed.exec host mode n inside labels
  induction s using Stmt.induct with
  | letNone id m => exact fun labels _ _ inside setting => alone labels rfl inside setting
  | letSome id m e =>
    intro R next moved labels ordered _ inside setting
    have small : id < bound := inside (.write id) (List.mem_cons_self ..)
    refine follows_splits setting true ordered (fun a member => inside a (List.mem_cons_of_mem _ member)) ?_
      (perform_bind _ _) fun v => Keeps.perform (setting.tracks.framed.declareLocal host small v)
    rw [leaving_exec rfl]
    exact perform_bind _ _
  | expr e =>
    intro R next moved labels ordered _ inside setting
    refine follows_splits setting true ordered inside ?_ (perform_bind _ _) fun v => Keeps.pure _
    rw [leaving_exec rfl]
    exact perform_bind _ _
  | returnStmt value =>
    intro R next moved labels ordered _ inside setting
    cases value with
    | none => exact alone labels rfl inside setting
    | some e => exact follows_splits setting true ordered inside (leaving_exec rfl) rfl fun v => Keeps.raise _
  | throwStmt e =>
    intro R next moved labels ordered _ inside setting
    exact follows_splits setting true ordered inside (leaving_exec rfl) rfl fun v => Keeps.raise _
  | ifStmt c t e iht ihe =>
    intro R next moved labels ordered plain inside setting
    simp only [keepsOrderStmt,keepsOrderBlock_eq,Bool.and_eq_true] at ordered
    simp only [continuesPlainly,continuesPlainlyBlock_eq,Bool.and_eq_true] at plain
    simp only [Stmt.accesses,accessesOfBlock_eq,List.mem_append] at inside
    have growsCond := (hoistAwaitsInExpr false c).grows next
    have growsThen := (hoistAwaitsInStmts moved t).grows ((hoistAwaitsInExpr false c).run next).2
    have yes := keeps_stmts labels iht ordered.1.2 (fun some => (plain some).1) (fun a h => inside a (.inl (.inr h)))
      (setting.later growsCond)
    have no := keeps_stmts labels ihe ordered.2 (fun some => (plain some).2) (fun a h => inside a (.inr h))
      (setting.later (Nat.le_trans growsCond growsThen))
    refine follows_splits setting false ordered.1.1 (fun a h => inside a (.inl (.inl h)))
      (f := fun v => if v.truthy then _ else _) (g := fun v => if v.truthy then _ else _) ?_ ?_ fun v =>
        Keeps.ite (fun _ => yes) fun _ => no
    · simp only [exec_if,evalTest,perform_bind,perform_pure,bind_assoc,pure_bind,leaving_bind,leaving_perform,leaving_ite]
    · simp only [exec_if,evalTest,perform_bind,perform_pure,bind_assoc,pure_bind,hoistAwaitsInBlock_getD]
  | whileStmt c b ih =>
    intro R next moved labels ordered _ inside setting
    simp only [keepsOrderStmt,keepsOrderHeader,Bool.and_eq_true] at ordered
    simp only [Stmt.accesses,List.mem_append] at inside
    have quiet : leaving (perform (evalDiscard host moved)) (exec host mode n labels (.while c b)) =
        exec host mode n labels (.while c b) := leaving_whileLoop
    have insideBody (a : Access) (h : a ∈ accessesOfStmts b) := inside a (.inr h)
    cases awaits : contains .await c with
    | false =>
      simp only [hoistAwaitsInStmt,awaits,Bool.false_eq_true,if_false,Fresh.bind_run,Fresh.pure_run,
        hoistAwaitsInExpr_of_free awaits]
      refine ⟨rfl,?_⟩
      rw [quiet,execList,pure_bind]
      exact setting.tracks.framed.whileLoop (setting.tracks.framed.evalTest host fun a h => inside a (.inl h))
        (keeps_own [] ih ordered.2 insideBody setting) (Keeps.pure ()) n
    | true =>
      have condition : keepsOrder .await host.boxed c = true := by
        simpa [containsOption,awaits,keepsOrderOption] using ordered.1
      have fits := (setting.fits fun a h => inside a (.inl h)).later (Nat.le_succ next)
      have growsCond := Nat.le_trans (Nat.le_succ next) ((hoistAwaitsInExpr true c).grows (next + 1))
      have head : Keeps R _ (execList host mode n [] (breakUnless next _)) := keeps_breakUnless setting.tracks (hoists c true condition fits)
        (early_subset c) (Nat.le_succ next) (Nat.le_refl next) (setting.unboxed (Nat.le_refl next))
      have body := keeps_own [] ih ordered.2 insideBody (setting.later growsCond)
      simp only [hoistAwaitsInStmt,awaits,if_true,Fresh.bind_run,Fresh.pure_run,freshLocal_run]
      refine ⟨rfl,?_⟩
      rw [quiet,execList,pure_bind,exec,exec,whileLoop_eq,whileLoop_eq,execList_append]
      exact Keeps.iterate (keeps_moveTest setting.tracks.framed head body (Keeps.pure ())) n
  | doWhile b c ih =>
    intro R next moved labels ordered _ inside setting
    simp only [keepsOrderStmt,keepsOrderHeader,Bool.and_eq_true] at ordered
    simp only [Stmt.accesses,List.mem_append] at inside
    have quiet : leaving (perform (evalDiscard host moved)) (exec host mode n labels (.doWhile b c)) =
        exec host mode n labels (.doWhile b c) := leaving_doWhileLoop
    have insideBody (a : Access) (h : a ∈ accessesOfStmts b) := inside a (.inl h)
    cases awaits : contains .await c with
    | false =>
      simp only [hoistAwaitsInStmt,awaits,Bool.false_eq_true,if_false,Fresh.bind_run,Fresh.pure_run,
        hoistAwaitsInExpr_of_free awaits]
      refine ⟨rfl,?_⟩
      rw [quiet,execList,pure_bind]
      exact setting.tracks.framed.doWhileLoop (keeps_own [] ih ordered.2 insideBody setting)
        (setting.tracks.framed.evalTest host fun a h => inside a (.inr h)) n
    | true =>
      have condition : keepsOrder .await host.boxed c = true := by
        simpa [containsOption,awaits,keepsOrderOption] using ordered.1
      have three : next ≤ next + 1 + 1 + 1 := Nat.le_add_right next 3
      have fits := (setting.fits fun a h => inside a (.inr h)).later three
      have growsCond := (hoistAwaitsInExpr false c).grows (next + 1 + 1 + 1)
      have flag : Setting host bound ((hoistAwaitsInExpr false c).run (next + 1 + 1 + 1)).2 none (Flag R next false) :=
        ⟨(tracks_flag setting.tracks setting.above false).later
          (Nat.le_trans (Nat.le_add_right (next + 1) 2) growsCond),Nat.le_trans setting.above (Nat.le_trans three growsCond),
          setting.temps,rfl,by simp [accessesOfOption]⟩
      have body := keeps_own [] ih ordered.2 insideBody flag
      simp only [hoistAwaitsInStmt,awaits,if_true,Fresh.bind_run,Fresh.pure_run,freshLocal_run]
      refine ⟨rfl,?_⟩
      rw [quiet,exec]
      have second : next < next + 1 + 1 := Nat.lt_succ_of_lt (Nat.lt_succ_self next)
      exact keeps_doWhile setting.tracks setting.above (Nat.lt_succ_self next) second (Nat.lt_succ_of_lt second)
        (fun id large => setting.unboxed large)
        (hoists c false condition fits) (early_subset c) body
  | forStmt i c u b ihi ihb =>
    intro R next moved labels ordered plain inside setting
    simp only [keepsOrderStmt,Bool.and_eq_true] at ordered
    simp only [Stmt.accesses,List.mem_append] at inside
    have own := setting.forget
    have growsTemp := (conditionTemp (takeCondition c)).grows next
    have growsInit := (hoistAwaitsInInit i).grows ((conditionTemp (takeCondition c)).run next).2
    have start : straightAll ((hoistAwaitsInInit i).run ((conditionTemp (takeCondition c)).run next).2).1.1 = true ∧
        Keeps R (leaving (perform (evalDiscard host moved)) (execOption host mode n i))
        (execList host mode n [] ((hoistAwaitsInInit i).run ((conditionTemp (takeCondition c)).run next).2).1.1 >>=
          fun _ => execOption host mode n
            ((hoistAwaitsInInit i).run ((conditionTemp (takeCondition c)).run next).2).1.2) := by
      cases i with
      | none => exact ⟨rfl,Keeps.pure ()⟩
      | some s =>
        have quiet : leaving (perform (evalDiscard host moved)) (exec host mode n [] s) = exec host mode n [] s := by
          cases moved with
          | none => exact leaving_none _
          | some u => exact leaving_exec (plain rfl)
        have inner := ihi s rfl [] ordered.1.1.1 (fun some => by cases some)
          (fun a h => inside a (.inl (.inl (.inl h)))) (own.later growsTemp)
        refine ⟨inner.1,?_⟩
        have kept := inner.2
        rw [leaving_none,← quiet] at kept
        exact kept
    refine ⟨?_,?_⟩
    · simp only [hoistAwaitsInStmt,Fresh.bind_run,Fresh.pure_run,keptCondition,keptUpdate ordered.1.2,List.append_nil]
      exact start.1
    · simp only [hoistAwaitsInStmt,Fresh.bind_run,Fresh.pure_run,keptCondition,keptUpdate ordered.1.2,List.append_nil,
        exec,leaving_bind,leaving_whileLoop]
      rw [← bind_assoc]
      refine start.2.bind fun _ => ?_
      rw [whileLoop_eq,whileLoop_eq,loopStep_takeUpdate _ ordered.1.2,List.append_assoc,execList_append]
      refine Keeps.iterate (keeps_takeCondition own (Nat.le_trans growsTemp growsInit) ?_ ordered.1.1.2
        (fun a h => inside a (.inl (.inl (.inr h)))) ?_ ?_ _) n
      · intro taken
        simp only [conditionTemp,taken,if_true,freshLocal_run]
        exact Nat.le_refl next
      · have later := Nat.le_trans growsTemp (Nat.le_trans growsInit ((takenCondition ((conditionTemp (takeCondition c)).run next).1 (takeCondition c)).grows _))
        have taking := (own.later later).take ordered.1.2 fun a h => inside a (.inl (.inr h))
        rw [execList_append]
        refine (keeps_stmts [] ihb ordered.2 (fun some => ?_) (fun a h => inside a (.inr h)) taking).bind fun _ =>
          ((taking.later ((hoistAwaitsInStmts (takeUpdate u b) b).grows _)).takenUpdate mode n).2
        rcases takeUpdate_cases ordered.1.2 with none | ⟨_,_,_,plain,_⟩
        · rw [none] at some
          cases some
        · exact plain
      · refine setting.tracks.framed.evalDiscard host fun a h => ?_
        split at h
        · cases h
        · exact inside a (.inl (.inr h))
  | labeled l b ih =>
    intro R next moved labels ordered plain inside setting
    have quiet : leaving (perform (evalDiscard host moved)) (exec host mode n labels (.labeled l b)) =
        exec host mode n labels (.labeled l b) := by
      cases moved with
      | none => exact leaving_none _
      | some u => exact leaving_exec (plain rfl)
    have inner := ih (l :: labels) ordered (fun some => by cases some) inside setting.forget
    refine ⟨inner.1,?_⟩
    have outside := (raises_straightAll host mode n inner.1).observe_bind
      (l := fun _ => exec host mode n (l :: labels) ((hoistAwaitsInStmt none b).run next).1.2) (k := catchLabel l)
      fun c signal => by cases c <;> first | rfl | exact signal.elim
    have kept := inner.2
    rw [leaving_none] at kept
    rw [quiet]
    exact outside ▸ kept.observe fun r => Keeps.catchLabel l r
  | tryStmt b h f ihb ihh ihf =>
    intro R next moved labels ordered plain inside setting
    simp only [keepsOrderStmt,Bool.and_eq_true] at ordered
    simp only [Stmt.accesses,List.mem_append] at inside
    simp only [continuesPlainly,Bool.and_eq_true,Bool.or_eq_true] at plain
    have growsBody := (hoistAwaitsInStmts moved b).grows next
    have growsCatch := (hoistAwaitsInCatch moved h).grows ((hoistAwaitsInStmts moved b).run next).2
    have body := keeps_stmts [] ihb ordered.1.1 (fun some => continuesPlainlyAll_of_within (plain some).1.1.1)
      (fun a h => inside a (.inl (.inl h))) setting
    have raises : Run.Raises (Spared moved) (execList host mode n [] b) :=
      spared_execList [] fun some => (plain some).1.1.1
    rw [leaving_spared host raises] at body
    have handler := keeps_catch ihh ordered.1.2 (fun some => (plain some).1.2) (fun a h => inside a (.inl (.inr h)))
      (setting.later growsBody)
    have handled := body.observe_of_raises raises handler
    refine ⟨rfl,?_⟩
    cases f with
    | none => exact handled
    | some fin =>
      have whole : Run.Raises (Spared moved) (exec host mode n [] (.try b h none)) := by
        refine spared_exec [] fun some => ?_
        have caught : jumpsWithinCatch noContinue h = true := by simpa using (plain some).1.1.2
        simp only [jumpsWithin,(plain some).1.1.1,caught,jumpsWithinBlock,Bool.and_self]
      rw [← leaving_observe,leaving_spared host (m := Run.observe _ _) whole] at handled
      have final := keeps_stmts [] (ihf _ rfl) ordered.2 (fun some => (plain some).2) (fun a h => inside a (.inr h))
        (setting.later (Nat.le_trans growsBody growsCatch))
      exact handled.observe_of_raises whole fun r known => keeps_finalize final known
  | switch d cases ih =>
    intro R next moved labels ordered plain inside setting
    simp only [keepsOrderStmt,Bool.and_eq_true] at ordered
    have fits := setting.fits inside
    have growsCond := (hoistAwaitsInExpr false d).grows next
    have splits := splits_select mode n moved ordered.1.1 ordered.1.2 fits (Nat.le_refl _)
    have bodies := keeps_bodies ih ordered.2 plain (fun a h => inside a (List.mem_append_right _ h))
      (setting.later growsCond)
    refine ⟨?_,?_⟩
    · simp only [hoistAwaitsInStmt,Fresh.bind_run,Fresh.pure_run,straightAll_append,straight_hoisted ordered.1.1,
        straight_cases ordered.1.2,Bool.and_self]
    · simp only [hoistAwaitsInStmt,Fresh.bind_run,Fresh.pure_run,exec,defaultCase_hoisted,leaving_bind,leaving_perform]
      refine splits.statement setting.tracks (List.Subset.refl _) (Nat.le_refl _) fun k => ?_
      cases k.or (defaultCase cases) with
      | none => exact Keeps.pure ()
      | some k =>
        simp only [leaving_catchBreak (raises_signal _)]
        exact (keeps_execFrom bodies k).observe fun r => Keeps.catchBreak r
  | continueStmt =>
    intro R next moved labels _ _ _ setting
    obtain ⟨straight,kept⟩ := setting.takenUpdate mode n
    refine ⟨straight,?_⟩
    exact kept.bind fun _ => Keeps.raise _
  | breakStmt => exact fun labels _ _ inside setting => alone labels rfl inside setting
  | labeledBreak l => exact fun labels _ _ inside setting => alone labels rfl inside setting
  | labeledContinue l => exact fun labels _ _ inside setting => alone labels rfl inside setting
  | preallocateBoxes ids => exact fun labels _ _ inside setting => alone labels rfl inside setting
  | preallocateTdzBoxes ids => exact fun labels _ _ inside setting => alone labels rfl inside setting
  | releaseBoxes ids => exact fun labels _ _ inside setting => alone labels rfl inside setting

/-- From states with equal worlds and equal program locals, a body and its hoisted
form end the same way in such states. -/
def HoistsFaithfully {W : Type} (host : Host W) (mode : Mode) (n : Nat) (bound : LocalId) (body : List Stmt) : Prop :=
  Keeps (SameBelow bound) (execList host mode n [] body)
    (execList host mode n [] ((hoistAwaitsInStmts none body).run bound).1)

/-- Await hoisting keeps the order of evaluation of every body whose operands before an
await can wait for it. -/
theorem hoistAwaitsInStmts_faithful {W : Type} (host : Host W) (mode : Mode) (n : Nat) (bound : LocalId)
    (body : List Stmt) (ordered : keepsOrderStmts host.boxed [] body = true)
    (inside : ∀ a ∈ accessesOfStmts body, a.id < bound) (temps : ∀ id, bound ≤ id → host.boxed id = false) :
    HoistsFaithfully host mode n bound body := by
  have start : Setting host bound bound none (SameBelow (W := W) bound) :=
    ⟨tracks_sameBelow bound,Nat.le_refl bound,temps,rfl,by simp [accessesOfOption]⟩
  exact keeps_own [] (fun s _ => walks s) ordered inside start

/-- `do { for (; await f(x); await h()) { if (x) continue; x = await x || g(await 1); } } while (await x);` -/
def awaitsInOrder : List Stmt :=
  [.doWhile [.for none (some (.await (.call (.funcRef 1) [.localGet 0]))) (some (.await (.call (.funcRef 2) [])))
    [.if (.localGet 0) [.continue] none,
      .expr (.localSet 0 (.logical .or (.await (.localGet 0)) (.call (.funcRef 3) [.await (.integer 1)])))]]
    (.await (.localGet 0))]

theorem awaitsInOrder_faithful :
    keepsOrderStmts Host.recording.boxed [] awaitsInOrder = true ∧
      HoistsFaithfully Host.recording .ecma 3 1 awaitsInOrder :=
  ⟨by decide,hoistAwaitsInStmts_faithful _ .ecma 3 1 _ (by decide) (by decide) fun _ _ => rfl⟩

/-- `x = f() + (await 1);` -/
def callBeforeAwait : List Stmt :=
  [.expr (.localSet 0 (.binary .add (.call (.funcRef 1) []) (.await (.integer 1))))]

/-- The call stays in the statement and so runs after the await hoisted over it. -/
theorem callBeforeAwait_unfaithful : ¬HoistsFaithfully Host.recording .ecma 1 1 callBeforeAwait := by
  intro faithful
  have run := faithful.apply (s := ⟨fun _ => .undefined,[],[]⟩) (t := ⟨fun _ => .undefined,[],[]⟩)
    ⟨rfl,fun _ _ => rfl⟩
  exact absurd run.2.1 (by decide)

end Perry.Transform.HoistAwaits
