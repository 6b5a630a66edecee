import Perry.Transform.FinallyExits

/-! The pass is correct wherever its depth counters are: the processed list, run
by a target that skips `finally` on a jump, behaves as the original list does
under ECMAScript, followed by the blocks its completion crosses further out.
Closures are opaque: that the source processes those in the initialiser of a `for`
twice, and so runs their `finally` blocks twice, lies outside. -/
namespace Perry.Transform.FinallyInline

open Perry.Effect Perry.Hir Perry.Transform

theorem crossedAt_eq_nil {threshold : Nat} {enclosing : List EnclosingFinally}
    (below : ∀ f ∈ enclosing, f.loopDepthAtPush < threshold) : crossedAt threshold enclosing = [] := by
  cases enclosing with
  | nil => rfl
  | cons f fs =>
    have outside : ¬threshold ≤ f.loopDepthAtPush := Nat.not_le.mpr (below f (by simp))
    simp [crossedAt,outside]

theorem crossedAt_cons {threshold : Nat} {f : EnclosingFinally} (crossed : threshold ≤ f.loopDepthAtPush)
    (enclosing : List EnclosingFinally) :
    crossedAt threshold (f :: enclosing) = f :: crossedAt threshold enclosing := by
  simp [crossedAt,crossed]

variable {W : Type} (host : Host W) (n : Nat) (bound : LocalId)

/-- Wherever the block is inlined, its processed clone does what the block does
and touches no temporary. -/
def Cloned (f : EnclosingFinally) : Prop :=
  ∀ depth labels next temps, f.loopDepthAtPush ≤ depth → bound ≤ next →
    Keeps (Agrees bound (fun _ => True) temps) (execList host .ecma n [] f.body)
      (execList host .target n [] ((f.clone depth labels).run next).1)

/-- The counters of the pass fit the exits: wherever the scope allows a jump, the
blocks counted for it are those it crosses. -/
structure Fits (sc : Scope) (enclosing : List EnclosingFinally) (loopDepth top : Nat)
    (labels : LabelDepths) (x : Exits) : Prop where
  depths : ∀ f ∈ enclosing, f.loopDepthAtPush ≤ loopDepth
  closed : sc.opened = false → ∀ f ∈ enclosing, f.loopDepthAtPush < loopDepth
  returns : ∀ v, x (.return v) = enclosing.map (·.body)
  breaks : sc.breaks = true → x (.break none) = (crossedAt loopDepth enclosing).map (·.body)
  continues : sc.continues = true → x (.continue none) = (crossedAt loopDepth enclosing).map (·.body)
  jumps : ∀ l, sc.labels l = true → ∃ t ≤ top, labels l = some t ∧
    x (.break (some l)) = (crossedAt t enclosing).map (·.body) ∧
    x (.continue (some l)) = (crossedAt t enclosing).map (·.body)
  tame : x.Tame host n
  cloned : ∀ f ∈ enclosing, Cloned host n bound f

namespace Fits

variable {host n bound} {sc : Scope} {enclosing : List EnclosingFinally} {d top : Nat}
  {labels : LabelDepths} {x : Exits}

theorem widen (fits : Fits host n bound sc enclosing d top labels x) {top' : Nat} (wider : top ≤ top') :
    Fits host n bound sc enclosing d top' labels x :=
  { fits with
    jumps := fun l allowed => by
      obtain ⟨t,small,rest⟩ := fits.jumps l allowed
      exact ⟨t,Nat.le_trans small wider,rest⟩ }

theorem loop (fits : Fits host n bound sc enclosing d (d + 1) labels x) :
    Fits host n bound sc.loop enclosing (d + 1) (d + 1) labels x.loop where
  depths f member := Nat.le_succ_of_le (fits.depths f member)
  closed _ f member := Nat.lt_succ_of_le (fits.depths f member)
  returns := fits.returns
  breaks _ := by rw [crossedAt_eq_nil fun f member => Nat.lt_succ_of_le (fits.depths f member)]; rfl
  continues _ := by rw [crossedAt_eq_nil fun f member => Nat.lt_succ_of_le (fits.depths f member)]; rfl
  jumps := fits.jumps
  tame := fits.tame.loop
  cloned := fits.cloned

theorem switch (fits : Fits host n bound sc enclosing d d labels x) :
    Fits host n bound sc.switch enclosing d d labels x.switch :=
  { fits with
    breaks := fun allowed => by
      have closed : sc.opened = false := by simpa [Scope.switch] using allowed
      rw [crossedAt_eq_nil (fits.closed closed)]
      rfl
    tame := fits.tame.switch }

theorem label (fits : Fits host n bound sc enclosing d d labels x) (l : String) (loop : Bool) :
    Fits host n bound (sc.label l loop) enclosing d (if loop then d + 1 else d)
      (Function.update labels l (some (if loop then d + 1 else d))) (x.label l) :=
  { fits with
    jumps := fun l' allowed => by
      by_cases same : l' = l
      · subst same
        refine ⟨if loop then d + 1 else d,Nat.le_refl _,by simp,?_⟩
        have outside : ∀ f ∈ enclosing, f.loopDepthAtPush < if loop then d + 1 else d := by
          intro f member
          cases loop with
          | true => exact Nat.lt_succ_of_le (fits.depths f member)
          | false =>
            have closed : sc.opened = false := by simpa [Scope.label] using allowed
            exact fits.closed closed f member
        simp [crossedAt_eq_nil outside,Exits.label]
      · have outer : sc.labels l' = true := by simpa [Scope.label,Function.update_of_ne same] using allowed
        obtain ⟨t,small,known,crossed⟩ := fits.jumps l' outer
        refine ⟨t,?_,by simpa [Function.update_of_ne same] using known,?_⟩
        · split <;> omega
        · simpa [Exits.label,same] using crossed
    tame := fits.tame.label l }

theorem push (fits : Fits host n bound sc enclosing d d labels x) {f : EnclosingFinally}
    (depth : f.loopDepthAtPush = d) (completes : CompletesNormally host n f.body)
    (clone : Cloned host n bound f) :
    Fits host n bound { sc with opened := true } (f :: enclosing) d d labels (x.push f.body) where
  depths g member := by
    rcases List.mem_cons.mp member with rfl | member
    · exact Nat.le_of_eq depth
    · exact fits.depths g member
  closed impossible := by simp at impossible
  returns v := by simp [Exits.push,fits.returns v]
  breaks allowed := by simp [Exits.push,fits.breaks allowed,crossedAt_cons (Nat.le_of_eq depth.symm)]
  continues allowed := by simp [Exits.push,fits.continues allowed,crossedAt_cons (Nat.le_of_eq depth.symm)]
  jumps l allowed := by
    obtain ⟨t,small,known,breaks,continues⟩ := fits.jumps l allowed
    have crossed := crossedAt_cons (f := f) (depth ▸ small) enclosing
    exact ⟨t,small,known,by simp [Exits.push,breaks,crossed],by simp [Exits.push,continues,crossed]⟩
  tame := fits.tame.push completes
  cloned g member := by
    rcases List.mem_cons.mp member with rfl | member
    · exact clone
    · exact fits.cloned g member

/-- A block that no jump leaves may be processed at any greater depth. -/
theorem finalizer (fits : Fits host n bound sc enclosing d d labels x) {d' : Nat} (deeper : d ≤ d')
    (labels' : LabelDepths) : Fits host n bound sc.finalizer enclosing d' d' labels' x where
  depths f member := Nat.le_trans (fits.depths f member) deeper
  closed closed f member := Nat.lt_of_lt_of_le (fits.closed closed f member) deeper
  returns := fits.returns
  breaks impossible := by simp [Scope.finalizer] at impossible
  continues impossible := by simp [Scope.finalizer] at impossible
  jumps l impossible := by simp [Scope.finalizer] at impossible
  tame := fits.tame
  cloned := fits.cloned

end Fits

section sound

variable {host n bound}

theorem inlined {fs : List EnclosingFinally} {depth : EnclosingFinally → Nat} {labels : LabelDepths}
    (cloned : ∀ f ∈ fs, Cloned host n bound f) (deep : ∀ f ∈ fs, f.loopDepthAtPush ≤ depth f)
    {next : LocalId} (fresh : bound ≤ next) (temps : LocalId → Val) :
    Keeps (Agrees bound (fun _ => True) temps) (runAll host n (fs.map (·.body)))
      (execList host .target n [] ((inlineFinallies depth labels fs).run next).1) := by
  induction fs generalizing next with
  | nil => exact Keeps.pure ()
  | cons f fs ih =>
    simp only [inlineFinallies,Fresh.bind_run,Fresh.pure_run,execList_append]
    refine Keeps.bind (cloned f (by simp) _ labels next temps (deep f (by simp)) fresh) fun _ => ?_
    exact ih (fun g member => cloned g (by simp [member])) (fun g member => deep g (by simp [member]))
      (Nat.le_trans fresh ((f.clone _ labels).grows next))

/-- A jump preceded by the clones of the blocks it crosses. -/
theorem jump_sound {fs : List EnclosingFinally} {depth : EnclosingFinally → Nat} {labels : LabelDepths}
    {x : Exits} {c : Comp} {s : Stmt} (exits : x c = fs.map (·.body))
    (jumps : exec host .target n [] s = Run.raise c)
    (cloned : ∀ f ∈ fs, Cloned host n bound f) (deep : ∀ f ∈ fs, f.loopDepthAtPush ≤ depth f)
    {next : LocalId} (fresh : bound ≤ next) (keep : Prop) (temps : LocalId → Val) :
    Keeps (Agrees bound (fun _ => keep) temps) (leaving host n x (Run.raise c))
      (execList host .target n [] (((inlineFinallies depth labels fs).run next).1 ++ [s])) := by
  rw [execList_append,execList_singleton,jumps,leaving,Run.onExit_raise,exits]
  refine Keeps.bind (Keeps.loosen (fun temps => ?_) (fun _ (_ : keep) => trivial) temps) fun _ => Keeps.raise c
  exact inlined cloned deep fresh temps

variable (host n bound) (walk : Expr → Fresh Expr)

def Sound (s : Stmt) : Prop :=
  ∀ sc labeled enclosing d depths x labels next temps,
    countsRight sc labeled s = true →
    Fits host n bound sc enclosing d (if isLoop s then d + 1 else d) depths x →
    (labeled = false → labels = []) → (∀ l ∈ labels, x (.continue (some l)) = []) → bound ≤ next →
    (∀ a ∈ s.accesses, a.id < bound) → (∀ b ∈ finallyBodies s, CompletesNormally host n b) →
    Keeps (Agrees bound (fun _ => sc.returns = false) temps) (leaving host n x (exec host .ecma n labels s))
      (execList host .target n labels ((processStmt walk enclosing d depths s).run next).1)

def SoundAll (ss : List Stmt) : Prop :=
  ∀ sc labeled enclosing d depths x labels next temps,
    countsRightAll sc labeled ss = true → Fits host n bound sc enclosing d d depths x →
    (labeled = false → labels = []) → (∀ l ∈ labels, x (.continue (some l)) = []) → bound ≤ next →
    (∀ a ∈ accessesOfStmts ss, a.id < bound) → (∀ b ∈ finallyBodiesAll ss, CompletesNormally host n b) →
    Keeps (Agrees bound (fun _ => sc.returns = false) temps) (leaving host n x (execList host .ecma n labels ss))
      (execList host .target n labels ((processStmts walk enclosing d depths ss).run next).1)

variable {host n bound walk}

theorem soundAll_of_members {ss : List Stmt} (each : ∀ s ∈ ss, Sound host n bound walk s) :
    SoundAll host n bound walk ss := by
  induction ss with
  | nil =>
    unfold SoundAll
    intros
    exact Keeps.pure ()
  | cons s ss ih =>
    intro sc labeled enclosing d depths x labels next temps right fits plain free fresh inside normal
    simp only [countsRightAll,Bool.and_eq_true] at right
    simp only [accessesOfStmts,List.mem_append] at inside
    simp only [finallyBodiesAll,List.mem_append] at normal
    simp only [processStmts,Fresh.bind_run,Fresh.pure_run,execList_append]
    rw [execList,leaving_bind]
    have wide : Fits host n bound sc enclosing d (if isLoop s then d + 1 else d) depths x :=
      fits.widen (by split <;> omega)
    refine Keeps.bind (each s (by simp) sc labeled enclosing d depths x labels next temps right.1 wide plain
      free fresh (fun id h => inside id (.inl h)) fun b h => normal b (.inl h)) fun _ => ?_
    exact ih (fun t member => each t (by simp [member])) sc labeled enclosing d depths x labels _ temps
      right.2 fits plain free (Nat.le_trans fresh (Fresh.grows _ next)) (fun id h => inside id (.inr h))
      fun b h => normal b (.inr h)

section walk

variable (invisible : Invisible walk)
include invisible

theorem evalOption_walkOption (e : Option Expr) (next : LocalId) :
    evalOption host ((walkOption walk e).run next).1 = evalOption host e := by
  cases e with
  | none => rfl
  | some e => exact invisible.evals host e next

theorem evalTest_walk (e : Expr) (next : LocalId) :
    evalTest host ((walk e).run next).1 = evalTest host e := by
  simp only [evalTest,invisible.evals]

theorem evalTest?_walkOption (e : Option Expr) (next : LocalId) :
    evalTest? host ((walkOption walk e).run next).1 = evalTest? host e := by
  cases e with
  | none => rfl
  | some e => exact evalTest_walk invisible e next

theorem evalDiscard_walkOption (e : Option Expr) (next : LocalId) :
    evalDiscard host ((walkOption walk e).run next).1 = evalDiscard host e := by
  cases e with
  | none => rfl
  | some e =>
    simp only [walkOption,Fresh.bind_run,Fresh.pure_run,evalDiscard,invisible.evals]

theorem execOption_walkInit (mode : Mode) (i : Option Stmt) (next : LocalId) :
    execOption host mode n ((walkInit walk i).run next).1 = execOption host mode n i := by
  unfold walkInit
  split
  · simp only [Fresh.bind_run,Fresh.pure_run,execOption,exec,evalOption_walkOption invisible]
  · simp only [Fresh.bind_run,Fresh.pure_run,execOption,exec,invisible.evals]
  · rfl

theorem selectCase_walkTests {cases : List SwitchCase} {bodies : List (List Stmt)}
    (same : bodies.length = cases.length) (v : Val) (next : LocalId) :
    selectCase host v (List.zipWith SwitchCase.mk ((walkTests walk cases).run next).1 bodies) =
      selectCase host v cases := by
  induction cases generalizing bodies next with
  | nil => rfl
  | cons c cases ih =>
    cases bodies with
    | nil => cases same
    | cons b bodies =>
      have tail := ih (Nat.succ.inj same)
      cases c with
      | mk test body =>
        cases test with
        | none => simp only [walkTests,walkOption,Fresh.bind_run,Fresh.pure_run,List.zipWith,selectCase,tail]
        | some t =>
          simp only [walkTests,walkOption,Fresh.bind_run,Fresh.pure_run,List.zipWith,selectCase,tail,
            invisible.evals]

end walk

theorem defaultCase_walkTests {cases : List SwitchCase} {bodies : List (List Stmt)}
    (same : bodies.length = cases.length) (next : LocalId) :
    defaultCase (List.zipWith SwitchCase.mk ((walkTests walk cases).run next).1 bodies) = defaultCase cases := by
  induction cases generalizing bodies next with
  | nil => rfl
  | cons c cases ih =>
    cases bodies with
    | nil => cases same
    | cons b bodies =>
      cases c with
      | mk test body =>
        cases test with
        | none => rfl
        | some t =>
          simp only [walkTests,walkOption,Fresh.bind_run,Fresh.pure_run,List.zipWith,defaultCase,
            ih (Nat.succ.inj same)]

theorem length_processCases (enclosing : List EnclosingFinally) (d : Nat) (depths : LabelDepths)
    (cases : List SwitchCase) (next : LocalId) :
    ((processCases walk enclosing d depths cases).run next).1.length = cases.length := by
  induction cases generalizing next with
  | nil => rfl
  | cons c cases ih =>
    cases c with
    | mk test body => simp only [processCases,Fresh.bind_run,Fresh.pure_run,List.length_cons,ih]

/-- A statement a label may stand on is not a jump, and stays one statement. -/
theorem processStmt_singleton {sc : Scope} {s : Stmt} (right : countsRight sc true s = true)
    (enclosing : List EnclosingFinally) (d : Nat) (depths : LabelDepths) (next : LocalId) :
    ((processStmt walk enclosing d depths s).run next).1 =
      [firstOf ((processStmt walk enclosing d depths s).run next).1] := by
  cases s <;> first | rfl | simp [countsRight] at right

section cases

variable {sc : Scope} {enclosing : List EnclosingFinally} {d : Nat} {depths : LabelDepths} {x : Exits}

theorem leaving_execOption (fits : Fits host n bound sc enclosing d (d + 1) depths x) {i : Option Stmt}
    (leaf : leafInit i = true) :
    leaving host n x (execOption host .ecma n i) = execOption host .target n i := by
  unfold leafInit at leaf
  split at leaf
  · rfl
  · simp only [execOption,exec,leaving_perform fits.tame]
  · simp only [execOption,exec,leaving_perform fits.tame]
  · cases leaf

theorem execFrom_sound {cases : List SwitchCase} {next : LocalId} {temps : LocalId → Val}
    (each : ∀ c ∈ cases, SoundAll host n bound walk c.body) (right : countsRightCases sc cases = true)
    (fits : Fits host n bound sc enclosing d d depths x) (fresh : bound ≤ next)
    (inside : ∀ a ∈ accessesOfCases cases, a.id < bound)
    (normal : ∀ b ∈ finallyBodiesCases cases, CompletesNormally host n b) (tests : List (Option Expr))
    (same : tests.length = cases.length) (k : Nat) :
    Keeps (Agrees bound (fun _ => sc.returns = false) temps) (leaving host n x (execFrom host .ecma n k cases))
      (execFrom host .target n k (List.zipWith SwitchCase.mk tests
        ((processCases walk enclosing d depths cases).run next).1)) := by
  induction cases generalizing next tests k with
  | nil =>
    cases tests with
    | nil => cases k <;> exact Keeps.pure ()
    | cons => cases same
  | cons c cases ih =>
    cases tests with
    | nil => cases same
    | cons t tests =>
      cases c with
      | mk test body =>
        simp only [countsRightCases,Bool.and_eq_true] at right
        simp only [accessesOfCases,List.mem_append] at inside
        simp only [finallyBodiesCases,List.mem_append] at normal
        have rest (k : Nat) := ih (fun c member => each c (by simp [member])) right.2
          (Nat.le_trans fresh ((processStmts walk enclosing d depths body).grows next))
          (fun id h => inside id (.inr h)) (fun b h => normal b (.inr h)) tests (Nat.succ.inj same) k
        simp only [processCases,Fresh.bind_run,Fresh.pure_run,List.zipWith]
        cases k with
        | zero =>
          simp only [execFrom,leaving_bind]
          refine Keeps.bind ?_ fun _ => rest 0
          exact each (.mk test body) (by simp) sc false enclosing d depths x [] next temps right.1 fits
            (fun _ => rfl) (by simp) fresh (fun id h => inside id (.inl (.inr h)))
            fun b h => normal b (.inl h)
        | succ k => exact rest k

theorem length_walkTests (cases : List SwitchCase) (next : LocalId) :
    ((walkTests walk cases).run next).1.length = cases.length := by
  induction cases generalizing next with
  | nil => rfl
  | cons c cases ih =>
    cases c with
    | mk test body => simp only [walkTests,Fresh.bind_run,Fresh.pure_run,List.length_cons,ih]

/-- A block pushed on the stack is cloned faithfully, because no jump leaves it. -/
theorem cloned_of_sound (fits : Fits host n bound sc enclosing d d depths x) {body : List Stmt}
    (sound : SoundAll host n bound walk body) (right : countsRightAll sc.finalizer false body = true)
    (completes : CompletesNormally host n body) (inside : ∀ a ∈ accessesOfStmts body, a.id < bound)
    (normal : ∀ b ∈ finallyBodiesAll body, CompletesNormally host n b) :
    Cloned host n bound
      { body, loopDepthAtPush := d
        clone := fun depth labels => processStmts walk enclosing depth labels body } := by
  intro depth labels next temps deeper fresh
  have exits : leaving host n x (execList host .ecma n [] body) = execList host .ecma n [] body :=
    Run.onExit_of_raises completes fun c stop => by rw [fits.tame.stops stop]; rfl
  refine Keeps.loosen (fun temps => ?_) (fun _ (_ : True) => (rfl : sc.finalizer.returns = false)) temps
  have run := sound sc.finalizer false enclosing depth labels x [] next temps right
    (fits.finalizer deeper labels) (fun _ => rfl) (by simp) fresh inside normal
  rwa [exits] at run

/-- The operand of a return is read back after the clones ran. -/
theorem return_sound (invisible : Invisible walk) (apart : ∀ id, bound ≤ id → host.boxed id = false)
    (fits : Fits host n bound sc enclosing d d depths x) {value : Option Expr}
    (inside : ∀ a ∈ accessesOfOption value, a.id < bound) {next : LocalId} (fresh : bound ≤ next)
    (temps : LocalId → Val) :
    Keeps (Agrees bound (fun _ => False) temps) (leaving host n x (exec host .ecma n [] (.return value)))
      (execList host .target n [] ((processStmt walk enclosing d depths (.return value)).run next).1) := by
  have framed := framed_agrees (W := W) bound (fun _ => False) temps
  have deep := fits.depths
  simp only [exec,leaving_bind,leaving_perform fits.tame]
  simp only [processStmt,Fresh.bind_run]
  have grown := Nat.le_trans fresh ((walkOption walk value).grows next)
  generalize h : (walkOption walk value).run next = walked at grown
  have same : evalOption host walked.1 = evalOption host value := by
    rw [← h]
    exact evalOption_walkOption invisible value next
  cases enclosing with
  | nil =>
    have nothing (v : Val) : x (.return v) = [] := fits.returns v
    simp only [List.isEmpty_nil,if_true,Fresh.pure_run,execList_singleton,exec,same]
    refine Keeps.bind (Keeps.perform (framed.evalOption host inside)) fun v => ?_
    simp only [leaving,Run.onExit_raise,nothing]
    exact Keeps.raise _
  | cons f fs =>
    simp only [List.isEmpty_cons,Bool.false_eq_true,if_false]
    obtain ⟨operand,counter⟩ := walked
    cases operand with
    | none =>
      simp only at same
      simp only [Fresh.bind_run,Fresh.pure_run]
      rw [← same]
      exact jump_sound (fits.returns .undefined) rfl fits.cloned deep grown False temps
    | some e =>
      simp only at same grown
      simp only [freshLocal,Fresh.bind_run,Fresh.pure_run]
      rw [execList,exec,same]
      simp only [perform,Run.mapError_bind,bind_assoc]
      refine Keeps.bind ((framed.evalOption host inside).mapError _) fun v => ?_
      -- the temporary holds the value, and the clones keep every temporary
      refine Sim.nameTemps fun temps' => Sim.declareTemp (apart counter grown) grown v Signal.comp ?_
      have held : Function.update temps' counter v counter = v := by simp
      generalize Function.update temps' counter v = temps' at held
      have forgets (s t : State W) (h : Agrees bound (fun _ => True) temps' s t) : Agrees bound (fun _ => False) temps s t :=
        ⟨h.locals,h.worlds,fun _ _ => False.elim⟩
      rw [leaving,Run.onExit_raise,fits.returns v,execList_append,execList_singleton,exec]
      refine Sim.bind (Sim.conseq (inlined fits.cloned deep (Nat.le_succ_of_le grown) temps')
        (fun _ _ h => h) (fun _ _ _ _ h => h) fun _ _ s t h => ⟨h.1,forgets s t h.2⟩) fun _ _ => ?_
      refine Sim.conseq (Sim.readTemp (apart counter grown) grown trivial Signal.comp ?_)
        (fun _ _ h => h.2) (fun _ _ s t h => h) (fun _ _ s t h => h)
      rw [held]
      exact Sim.raise fun s t h => ⟨rfl,forgets s t h⟩

end cases

/-- The body and the handler of a try, with its block, if any, on the stack. -/
theorem handled_sound {sc : Scope} {enclosing : List EnclosingFinally} {d : Nat} {depths : LabelDepths}
    {x : Exits} (fits : Fits host n bound sc enclosing d d depths x) {b : List Stmt}
    {h : Option CatchClause} (body : SoundAll host n bound walk b)
    (handler : ∀ c ∈ h, SoundAll host n bound walk c.body) (rightBody : countsRightAll sc false b = true)
    (rightHandler : countsRightCatch sc h = true) {next : LocalId} (fresh : bound ≤ next)
    (inside : ∀ a, a ∈ accessesOfStmts b ∨ a ∈ accessesOfCatch h → a.id < bound)
    (normal : ∀ l, l ∈ finallyBodiesAll b ∨ l ∈ finallyBodiesCatch h → CompletesNormally host n l)
    (temps : LocalId → Val) :
    Keeps (Agrees bound (fun _ => sc.returns = false) temps)
      (leaving host n x ((execList host .ecma n [] b).observe (execCatch host .ecma n h)))
      ((execList host .target n [] ((processStmts walk enclosing d depths b).run next).1).observe
        (execCatch host .target n ((processCatch walk enclosing d depths h).run
          ((processStmts walk enclosing d depths b).run next).2).1)) := by
  have framed := framed_agrees (W := W) bound (fun _ => sc.returns = false) temps
  have run := body sc false enclosing d depths x [] next temps rightBody fits (fun _ => rfl) (by simp) fresh
    (fun id h => inside id (.inl h)) fun l h => normal l (.inl h)
  have grown := Nat.le_trans fresh ((processStmts walk enclosing d depths b).grows next)
  cases h with
  | none =>
    rw [leaving_catch fits.tame rfl fun _ _ => rfl]
    refine Keeps.observe run fun r => ?_
    have raised (v : Val) : leaving host n x (Run.raise (.throw v)) = (Run.raise (.throw v) : Act W Unit) := by
      rw [leaving,Run.onExit_raise,show x (.throw v) = [] from fits.tame.signals (.throw v)]
      rfl
    split
    · next v =>
      simp only [execCatch,complete,raised v]
      exact Keeps.raise _
    · exact Keeps.complete r
  | some c =>
    cases c with
    | mk param catchBody =>
      have others (c : Comp) (other : ∀ v, c ≠ .throw v) :
          execCatch host .ecma n (some (.mk param catchBody)) (.error c) = Run.raise c := by
        cases c with
        | throw v => exact absurd rfl (other v)
        | _ => rfl
      rw [leaving_catch fits.tame rfl others]
      refine Keeps.observe run fun r => ?_
      simp only [processCatch,Fresh.bind_run,Fresh.pure_run]
      split
      · simp only [execCatch,leaving_bind,leaving_perform fits.tame]
        refine Keeps.bind (Keeps.perform (framed.bindParam host _ (fun id held => inside (.write id) (.inr ?_)) _)) fun _ => ?_
        · simp [accessesOfCatch,Option.mem_def.mp held]
        · exact handler _ rfl sc false enclosing d depths x [] _ temps rightHandler fits (fun _ => rfl)
            (by simp) grown (fun a h => inside a (.inr (by simp [accessesOfCatch,show a ∈ accessesOfStmts catchBody from h])))
            fun l h => normal l (.inr h)
      · next other =>
        cases r with
        | ok _ => exact Keeps.pure ()
        | error c =>
          cases c with
          | throw v => exact absurd rfl (other v)
          | _ => exact Keeps.raise _

theorem try_sound {b : List Stmt} {h : Option CatchClause} {f : Option (List Stmt)}
    (body : SoundAll host n bound walk b) (handler : ∀ c ∈ h, SoundAll host n bound walk c.body)
    (final : ∀ l ∈ f, SoundAll host n bound walk l) : Sound host n bound walk (.try b h f) := by
  intro sc labeled enclosing d depths x labels next temps right fits plain free fresh inside normal
  simp only [countsRight,Bool.and_eq_true] at right
  simp only [Stmt.accesses,List.mem_append] at inside
  simp only [finallyBodies,List.mem_append] at normal
  simp only [processStmt,Fresh.bind_run,Fresh.pure_run,execList_singleton,exec]
  have grown := Nat.le_trans fresh (Fresh.grows (do
    let _ ← processStmts walk (pushFinally walk enclosing d f) d depths b
    processCatch walk (pushFinally walk enclosing d f) d depths h) next)
  have insideBoth (a : Access) (touched : a ∈ accessesOfStmts b ∨ a ∈ accessesOfCatch h) : a.id < bound :=
    inside a (.inl touched)
  have normalBoth (l : List Stmt) (held : l ∈ finallyBodiesAll b ∨ l ∈ finallyBodiesCatch h) :
      CompletesNormally host n l := normal l (.inl held)
  cases f with
  | none => exact handled_sound fits body handler right.1.1 right.1.2 fresh insideBoth normalBoth temps
  | some l =>
    have completes : CompletesNormally host n l := normal l (.inr (by simp [finallyBodiesFinally]))
    have nested : ∀ b ∈ finallyBodiesAll l, CompletesNormally host n b :=
      fun b held => normal b (.inr (by simp [finallyBodiesFinally,held]))
    have touched : ∀ a ∈ accessesOfStmts l, a.id < bound := fun id h => inside id (.inr h)
    have pushed := fits.push (f := ⟨l,d,fun depth labels => processStmts walk enclosing depth labels l⟩) rfl
      completes (cloned_of_sound fits (final l rfl) right.2 completes touched nested)
    have protect := handled_sound pushed body handler right.1.1 right.1.2 fresh insideBoth normalBoth temps
    simp only [execFinally,processBlock,Fresh.bind_run,Fresh.pure_run]
    rw [leaving_finalize fits.tame completes]
    refine Keeps.observe protect fun r => Keeps.finalize ?_ r
    have block : leaving host n x (execList host .ecma n [] l) = execList host .ecma n [] l :=
      Run.onExit_of_raises completes fun c stop => by rw [fits.tame.stops stop]; rfl
    refine Keeps.loosen (fun temps => ?_) (fun _ _ => (rfl : sc.finalizer.returns = false)) temps
    have run := final l rfl sc.finalizer false enclosing d depths x [] _ temps right.2
      (fits.finalizer (Nat.le_refl d) depths) (fun _ => rfl) (by simp) grown touched nested
    rwa [block] at run

/-- The step from statements to their processed form, for every statement. -/
theorem sound (invisible : Invisible walk) (apart : ∀ id, bound ≤ id → host.boxed id = false)
    (s : Stmt) : Sound host n bound walk s := by
  induction s using Stmt.induct with
  | letNone id m =>
    intro sc labeled enclosing d depths x labels next temps right fits plain free fresh inside normal
    have framed := framed_agrees (W := W) bound (fun _ => sc.returns = false) temps
    simp only [processStmt,Fresh.bind_run,Fresh.pure_run,execList_singleton,exec,leaving_perform fits.tame]
    refine Keeps.perform (Keeps.bind (Keeps.pure _) fun v => ?_)
    exact framed.declareLocal host (inside (.write id) (by simp [Stmt.accesses])) v
  | letSome id m e =>
    intro sc labeled enclosing d depths x labels next temps right fits plain free fresh inside normal
    have framed := framed_agrees (W := W) bound (fun _ => sc.returns = false) temps
    simp only [processStmt,Fresh.bind_run,Fresh.pure_run,execList_singleton,exec,leaving_perform fits.tame,
      evalOption_walkOption invisible]
    simp only [Stmt.accesses,List.mem_cons,forall_eq_or_imp] at inside
    refine Keeps.perform (Keeps.bind (framed.evalOption host inside.2) fun v => ?_)
    exact framed.declareLocal host inside.1 v
  | expr e =>
    intro sc labeled enclosing d depths x labels next temps right fits plain free fresh inside normal
    have framed := framed_agrees (W := W) bound (fun _ => sc.returns = false) temps
    simp only [processStmt,Fresh.bind_run,Fresh.pure_run,execList_singleton,exec,leaving_perform fits.tame,
      invisible.evals]
    exact Keeps.perform (Keeps.bind (framed.eval host inside) fun _ => Keeps.pure ())
  | returnStmt value =>
    intro sc labeled enclosing d depths x labels next temps right fits plain free fresh inside normal
    simp only [countsRight,Bool.and_eq_true,Bool.not_eq_true'] at right
    rw [plain right.2]
    refine Keeps.loosen (fun temps => return_sound invisible apart fits inside fresh temps) ?_ temps
    simp [right.1]
  | ifStmt c t e iht ihe =>
    intro sc labeled enclosing d depths x labels next temps right fits plain free fresh inside normal
    have framed := framed_agrees (W := W) bound (fun _ => sc.returns = false) temps
    simp only [countsRight,Bool.and_eq_true] at right
    simp only [Stmt.accesses,List.mem_append] at inside
    simp only [finallyBodies,List.mem_append] at normal
    simp only [processStmt,Fresh.bind_run,Fresh.pure_run,execList_singleton,exec,leaving_bind,
      leaving_perform fits.tame,evalTest_walk invisible,leaving_ite]
    refine Keeps.bind (Keeps.perform (framed.evalTest host fun id h => inside id (.inl (.inl h)))) fun v => ?_
    have first := Nat.le_trans fresh ((walk c).grows next)
    refine Keeps.ite (fun _ => ?_) fun _ => ?_
    · exact soundAll_of_members iht sc labeled enclosing d depths x labels _ temps right.1 fits plain free
        first (fun id h => inside id (.inl (.inr h))) fun b h => normal b (.inl h)
    · cases e with
      | none => exact Keeps.pure ()
      | some e =>
        exact soundAll_of_members ihe sc labeled enclosing d depths x labels _ temps right.2 fits plain free
          (Nat.le_trans first (Fresh.grows _ _)) (fun id h => inside id (.inr h)) fun b h => normal b (.inr h)
  | whileStmt c b ih =>
    intro sc labeled enclosing d depths x labels next temps right fits plain free fresh inside normal
    have framed := framed_agrees (W := W) bound (fun _ => sc.returns = false) temps
    simp only [Stmt.accesses,List.mem_append] at inside
    simp only [processStmt,Fresh.bind_run,Fresh.pure_run,execList_singleton,exec,
      leaving_whileLoop fits.tame free,evalTest_walk invisible]
    refine framed.whileLoop (framed.evalTest host fun id h => inside id (.inl h)) ?_ (Keeps.pure ()) n
    exact soundAll_of_members ih sc.loop false enclosing (d + 1) depths x.loop [] _ temps right fits.loop
      (fun _ => rfl) (by simp) (Nat.le_trans fresh (Fresh.grows _ _)) (fun id h => inside id (.inr h)) normal
  | doWhile b c ih =>
    intro sc labeled enclosing d depths x labels next temps right fits plain free fresh inside normal
    have framed := framed_agrees (W := W) bound (fun _ => sc.returns = false) temps
    simp only [Stmt.accesses,List.mem_append] at inside
    simp only [processStmt,Fresh.bind_run,Fresh.pure_run,execList_singleton,exec,
      leaving_doWhileLoop fits.tame free,evalTest_walk invisible]
    refine framed.doWhileLoop ?_ (framed.evalTest host fun id h => inside id (.inr h)) n
    exact soundAll_of_members ih sc.loop false enclosing (d + 1) depths x.loop [] _ temps right fits.loop
      (fun _ => rfl) (by simp) (Nat.le_trans fresh (Fresh.grows _ _)) (fun id h => inside id (.inl h)) normal
  | forStmt i c u b ihi ihb =>
    intro sc labeled enclosing d depths x labels next temps right fits plain free fresh inside normal
    have framed := framed_agrees (W := W) bound (fun _ => sc.returns = false) temps
    simp only [countsRight,Bool.and_eq_true] at right
    simp only [Stmt.accesses,List.mem_append] at inside
    simp only [finallyBodies,List.mem_append] at normal
    simp only [processStmt,Fresh.bind_run,Fresh.pure_run,execList_singleton,exec,leaving_bind,
      leaving_whileLoop fits.tame free,evalTest?_walkOption invisible,evalDiscard_walkOption invisible,
      execOption_walkInit invisible,leaving_execOption fits right.1]
    have start : Keeps (Agrees bound (fun _ => sc.returns = false) temps) (execOption host .target n i)
        (execOption host .target n i) := by
      cases i with
      | none => exact Keeps.pure ()
      | some s => exact framed.exec host .target n (fun id h => inside id (.inl (.inl (.inl h)))) []
    refine Keeps.bind start fun _ => ?_
    refine framed.whileLoop (framed.evalTest? host fun id h => inside id (.inl (.inl (.inr h)))) ?_
      (framed.evalDiscard host fun id h => inside id (.inl (.inr h))) n
    refine soundAll_of_members ihb sc.loop false enclosing (d + 1) depths x.loop [] _ temps right.2 fits.loop
      (fun _ => rfl) (by simp) ?_ (fun id h => inside id (.inr h)) fun b h => normal b (.inr h)
    exact Nat.le_trans fresh (Fresh.grows (do
      let i ← walkInit walk i
      let _ ← walkOption walk c
      let _ ← walkOption walk u
      walkInit walk i) next)
  | labeled l s ih =>
    intro sc labeled enclosing d depths x labels next temps right fits plain free fresh inside normal
    simp only [processStmt,Fresh.bind_run,Fresh.pure_run,execList_singleton,exec,leaving_catchLabel fits.tame]
    refine Keeps.observe ?_ fun r => Keeps.catchLabel l r
    have free' : ∀ l' ∈ l :: labels, x.label l (.continue (some l')) = [] := by
      intro l' member
      rcases List.mem_cons.mp member with rfl | member
      · simp [Exits.label]
      · simp [Exits.label,free l' member]
    have run := ih (sc.label l (isLoop s)) true enclosing d _ (x.label l) (l :: labels) next temps right
      (fits.label l (isLoop s)) (by simp) free' fresh inside normal
    rwa [processStmt_singleton right,execList_singleton] at run
  | breakStmt =>
    intro sc labeled enclosing d depths x labels next temps right fits plain free fresh inside normal
    simp only [countsRight,Bool.and_eq_true,Bool.not_eq_true'] at right
    rw [plain right.2]
    exact jump_sound (fits.breaks right.1) rfl (fun f h => fits.cloned f (List.takeWhile_subset _ h))
      (fun f h => fits.depths f (List.takeWhile_subset _ h)) fresh _ temps
  | continueStmt =>
    intro sc labeled enclosing d depths x labels next temps right fits plain free fresh inside normal
    simp only [countsRight,Bool.and_eq_true,Bool.not_eq_true'] at right
    rw [plain right.2]
    exact jump_sound (fits.continues right.1) rfl (fun f h => fits.cloned f (List.takeWhile_subset _ h))
      (fun f h => fits.depths f (List.takeWhile_subset _ h)) fresh _ temps
  | labeledBreak l =>
    intro sc labeled enclosing d depths x labels next temps right fits plain free fresh inside normal
    simp only [countsRight,Bool.and_eq_true,Bool.not_eq_true'] at right
    obtain ⟨t,_,known,breaks,_⟩ := fits.jumps l right.1
    rw [plain right.2]
    simp only [processStmt,inlineFinalliesForLabeled,known,Fresh.bind_run,Fresh.pure_run]
    exact jump_sound breaks rfl (fun f h => fits.cloned f (List.takeWhile_subset _ h))
      (fun _ _ => Nat.le_refl _) fresh _ temps
  | labeledContinue l =>
    intro sc labeled enclosing d depths x labels next temps right fits plain free fresh inside normal
    simp only [countsRight,Bool.and_eq_true,Bool.not_eq_true'] at right
    obtain ⟨t,_,known,_,continues⟩ := fits.jumps l right.1
    rw [plain right.2]
    simp only [processStmt,inlineFinalliesForLabeled,known,Fresh.bind_run,Fresh.pure_run]
    exact jump_sound continues rfl (fun f h => fits.cloned f (List.takeWhile_subset _ h))
      (fun _ _ => Nat.le_refl _) fresh _ temps
  | throwStmt e =>
    intro sc labeled enclosing d depths x labels next temps right fits plain free fresh inside normal
    have framed := framed_agrees (W := W) bound (fun _ => sc.returns = false) temps
    have crosses (v : Val) : x (.throw v) = [] := fits.tame.signals (.throw v)
    simp only [processStmt,Fresh.bind_run,Fresh.pure_run,execList_singleton,exec,leaving_bind,
      leaving_perform fits.tame,invisible.evals]
    refine Keeps.bind (Keeps.perform (framed.eval host inside)) fun v => ?_
    rw [leaving,Run.onExit_raise,crosses]
    exact Keeps.raise _
  | tryStmt b h f ihb ihh ihf =>
    exact try_sound (soundAll_of_members ihb) (fun c member => soundAll_of_members (ihh c member))
      fun l member => soundAll_of_members (ihf l member)
  | switch e cases ih =>
    intro sc labeled enclosing d depths x labels next temps right fits plain free fresh inside normal
    have framed := framed_agrees (W := W) bound (fun _ => sc.returns = false) temps
    simp only [Stmt.accesses,List.mem_append] at inside
    have lengths (next : LocalId) : ((processCases walk enclosing d depths cases).run next).1.length =
        cases.length := length_processCases enclosing d depths cases next
    simp only [processStmt,Fresh.bind_run,Fresh.pure_run,execList_singleton,exec,leaving_bind,
      leaving_perform fits.tame,invisible.evals,selectCase_walkTests invisible (lengths _),
      defaultCase_walkTests (lengths _)]
    have selected : Keeps (Agrees bound (fun _ => sc.returns = false) temps)
        (eval host e >>= fun v => selectCase host v cases) (eval host e >>= fun v => selectCase host v cases) :=
      (framed.eval host fun id h => inside id (.inl h)).bind fun v =>
        framed.selectCase host (fun id h => inside id (.inr h)) v
    refine Keeps.bind (Keeps.perform selected) fun k => ?_
    cases k.or (defaultCase cases) with
    | none => exact Keeps.pure ()
    | some k =>
      simp only [leaving_catchBreak fits.tame]
      refine Keeps.observe ?_ fun r => Keeps.catchBreak r
      refine execFrom_sound (fun c member => soundAll_of_members (ih c member)) right fits.switch ?_
        (fun id h => inside id (.inr h)) normal _ (length_walkTests cases _) k
      exact Nat.le_trans fresh (Fresh.grows (do let _ ← walk e; walkTests walk cases) next)
  | preallocateBoxes ids =>
    intro sc labeled enclosing d depths x labels next temps right fits plain free fresh inside normal
    have framed := framed_agrees (W := W) bound (fun _ => sc.returns = false) temps
    simp only [processStmt,Fresh.pure_run,execList_singleton,exec,leaving_perform fits.tame]
    exact Keeps.perform (Keeps.forM ids fun id => framed.lift _)
  | preallocateTdzBoxes ids =>
    intro sc labeled enclosing d depths x labels next temps right fits plain free fresh inside normal
    have framed := framed_agrees (W := W) bound (fun _ => sc.returns = false) temps
    simp only [processStmt,Fresh.pure_run,execList_singleton,exec,leaving_perform fits.tame]
    exact Keeps.perform (Keeps.forM ids fun id => framed.lift _)
  | releaseBoxes ids =>
    intro sc labeled enclosing d depths x labels next temps right fits plain free fresh inside normal
    have framed := framed_agrees (W := W) bound (fun _ => sc.returns = false) temps
    simp only [processStmt,Fresh.pure_run,execList_singleton,exec,leaving_perform fits.tame]
    exact Keeps.perform (Keeps.forM ids fun id => framed.lift _)

end sound

/-- Run in the target, the inlined body ends as the body does under ECMAScript, in the
same world and with the same locals, from every state. -/
def InlinesFaithfully {W : Type} (host : Host W) (n depth : Nat) (bound : LocalId) (body : List Stmt) : Prop :=
  Keeps (fun s t => s.world = t.world ∧ ∀ id < bound, s.store id = t.store id)
    (execList host .ecma n [] body)
    (execList host .target n [] ((inlineFinallyIntoReturns depth body).run bound).1)

/-- Inlining preserves what a function body does, for every host and every run, when
the counters of the pass are right at every jump. -/
theorem inlineFinallyIntoReturns_faithful {W : Type} (host : Host W) (n depth : Nat) (bound : LocalId)
    (body : List Stmt) (right : countsRightAll {} false body = true)
    (normal : ∀ b ∈ finallyBodiesAll body, CompletesNormally host n b)
    (inside : ∀ a ∈ accessesOfStmts body, a.id < bound) (apart : ∀ id, bound ≤ id → host.boxed id = false) :
    InlinesFaithfully host n depth bound body := by
  have walk := invisible_processExprClosureBodies depth
  have nothing : Exits.Tame host n fun _ => [] := ⟨fun _ => rfl,rfl,by simp⟩
  have fits : Fits host n bound {} [] 0 0 (fun _ => none) fun _ => [] :=
    ⟨by simp,by simp,by simp,fun _ => rfl,fun _ => rfl,by simp,nothing,by simp⟩
  have exits : leaving host n (fun _ => []) (execList host .ecma n [] body) = execList host .ecma n [] body :=
    Run.onExit_eq_self _ fun _ _ _ => rfl
  refine Keeps.of_apply fun s t h => ?_
  have run := soundAll_of_members (fun s _ => sound walk apart s) {} false [] 0 _ _ [] bound t.store right fits
    (fun _ => rfl) (by simp) (Nat.le_refl _) inside normal
  rw [exits] at run
  obtain ⟨equal,related⟩ := run.apply ⟨h.2,h.1,fun _ _ _ => rfl⟩
  exact ⟨equal,related.worlds,related.locals⟩

/-- `try { L: while (true) { try { return f(); } finally { g(); } } } finally { g(); }` -/
def returnThroughTries : List Stmt :=
  let cleanUp : List Stmt := [.expr (.call (.lit (.string "g")) [])]
  [.try [.labeled "L" (.while (.bool true)
    [.try [.return (some (.call (.lit (.string "f")) []))] none (some cleanUp)])] none (some cleanUp)]

theorem returnThroughTries_faithful :
    countsRightAll {} false returnThroughTries = true ∧
      InlinesFaithfully Host.recording 3 0 0 returnThroughTries := by
  have block : CompletesNormally Host.recording 3 [.expr (.call (.lit (.string "g")) [])] := by
    intro s e ended
    cases ended
  refine ⟨by decide,inlineFinallyIntoReturns_faithful _ 3 0 0 _ (by decide) ?_ (by decide) fun _ _ => rfl⟩
  intro b member
  have same : b = [.expr (.call (.lit (.string "g")) [])] := by
    simpa [returnThroughTries,finallyBodiesAll,finallyBodies,finallyBodiesFinally,finallyBodiesCatch] using member
  exact same ▸ block

/-- `try { switch (1) { case 1: break; } } finally { g(); }` -/
def breakInSwitch : List Stmt :=
  [.try [.switch (.integer 1) [.mk (some (.integer 1)) [.break]]] none
    (some [.expr (.call (.lit (.string "g")) [])])]

/-- A `break` out of a switch stays inside the try around it, but the pass takes the
block for crossed and the target runs it twice. -/
theorem breakInSwitch_unfaithful :
    (∀ b ∈ finallyBodiesAll breakInSwitch, countsRightAll ({} : Scope).finalizer false b = true ∧
      CompletesNormally Host.recording 1 b) ∧ ¬InlinesFaithfully Host.recording 1 0 0 breakInSwitch := by
  constructor
  · intro b member
    have same : b = [.expr (.call (.lit (.string "g")) [])] := by
      simpa [breakInSwitch,finallyBodiesAll,finallyBodies,finallyBodiesFinally,finallyBodiesCatch,
        finallyBodiesCases] using member
    subst same
    refine ⟨by decide,?_⟩
    intro s e ended
    cases ended
  · intro faithful
    have run := faithful.apply (s := ⟨fun _ => .undefined,[],[]⟩) (t := ⟨fun _ => .undefined,[],[]⟩) ⟨rfl,fun _ _ => rfl⟩
    exact absurd (congrArg List.length run.2.1) (by decide)

end Perry.Transform.FinallyInline
