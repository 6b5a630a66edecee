import Perry.Hir.Jumps
import Perry.Transform.HoistAwaitsSound

/-! Loop headers moved into the body: an update before every `continue` and at the end,
a condition at the top that breaks, and the first-iteration flag of a `do` loop. -/
namespace Perry.Transform.HoistAwaits

open Perry.Effect Perry.Hir Perry.Transform

variable {W : Type}

def noContinue (c : Comp) : Bool := c != .continue none

theorem calm_noContinue : Calm noContinue := ⟨fun _ => rfl,fun _ => rfl,fun _ => rfl,rfl,rfl⟩

theorem insideLoop_noContinue (c : Comp) : insideLoop noContinue c = true := by
  by_cases same : c = .continue none <;> simp [insideLoop,noContinue,same]

/-- A run of `m` that performs `update` before it leaves by a plain `continue`. -/
def leaving (update : Act W Unit) {α : Type} (m : Act W α) : Act W α :=
  m.onExit fun c => if c = .continue none then update else pure ()

section leaving

variable {α β : Type} {update : Act W Unit}

theorem leaving_nothing (m : Act W α) : leaving (pure ()) m = m :=
  Run.onExit_eq_self _ fun _ c _ => by simp

theorem leaving_of_raises {m : Act W α} (raises : Run.Raises (noContinue · = true) m) : leaving update m = m := by
  refine Run.onExit_of_raises raises fun c other => if_neg ?_
  simpa [noContinue] using other

theorem leaving_perform (m : Eval W α) : leaving update (perform m) = perform m :=
  leaving_of_raises (calm_noContinue.perform m)

theorem leaving_bind (m : Act W α) (f : α → Act W β) :
    leaving update (m >>= f) = leaving update m >>= fun a => leaving update (f a) := Run.onExit_bind _ m f

theorem leaving_ite (c : Prop) [Decidable c] (m l : Act W α) :
    leaving update (if c then m else l) = if c then leaving update m else leaving update l := by
  by_cases h : c
  · simp only [h,if_true]
  · simp only [h,if_false]

theorem leaving_observe (m : Act W α) (f : Except Comp α → Act W β) :
    leaving update (m.observe f) = m.observe fun r => leaving update (f r) := rfl

theorem leaving_whileLoop {n : Nat} {labels : List String} {b : List Stmt} {test : Eval W Bool} {run : Act W Unit}
    {next : Eval W Unit} : leaving update (whileLoop n labels b test run next) = whileLoop n labels b test run next :=
  leaving_of_raises (raises_whileLoop calm_noContinue fun _ c _ => insideLoop_noContinue c)

theorem leaving_doWhileLoop {n : Nat} {labels : List String} {b : List Stmt} {test : Eval W Bool} {run : Act W Unit} :
    leaving update (doWhileLoop labels b run test n) = doWhileLoop labels b run test n :=
  leaving_of_raises (raises_doWhileLoop calm_noContinue (fun _ c _ => insideLoop_noContinue c) n)

/-- A switch takes breaks only. -/
theorem leaving_catchBreak (signals : Run.Raises Comp.isSignal update) (m : Act W Unit) :
    leaving update (m.observe catchBreak) = (leaving update m).observe catchBreak := by
  refine Run.onExit_observe _ (fun _ => rfl) fun c => ?_
  by_cases continues : c = .continue none
  · subst continues
    have passes : (update >>= fun _ => Run.raise (.continue none)).observe catchBreak =
        update >>= fun _ => (Run.raise (.continue none) : Act W Unit).observe catchBreak :=
      signals.observe_bind fun c signal => by cases c <;> first | rfl | exact signal.elim
    exact passes.symm
  · simp only [continues,if_false,pure_bind,Run.observe_raise]
    cases c with
    | «break» l => cases l <;> rfl
    | «continue» l =>
      cases l with
      | none => exact absurd rfl continues
      | some l => rfl
    | _ => rfl

end leaving

section loops

variable {labels : List String} {b : List Stmt}

/-- One round of a `while` loop. -/
def loopStep (labels : List String) (b : List Stmt) (test : Eval W Bool) (run : Act W Unit) (next : Eval W Unit) :
    Act W Bool := do
  let go ← perform test
  if go then
    emit (.iteration b)
    let again ← run.observe (loopAgain labels)
    if again then do perform next; pure true else pure false
  else pure false

theorem whileLoop_eq (n : Nat) (test : Eval W Bool) (run : Act W Unit) (next : Eval W Unit) :
    whileLoop n labels b test run next = Run.iterate .timeout (loopStep labels b test run next) n := rfl

theorem loopAgain_signal {c : Comp} (signal : c.isSignal) :
    (loopAgain labels (.error c) : Act W Bool) = Run.raise c := by
  cases c <;> first | rfl | exact signal.elim

/-- How a body ends with the update at its end and before each `continue`. -/
def foldedAgain (labels : List String) (next : Eval W Unit) : Except Comp Unit → Act W Bool
  | .ok _ => (perform next).observe (loopAgain labels)
  | .error c => ((if c = .continue none then perform next else pure ()) >>= fun _ =>
      (Run.raise c : Act W Unit)).observe (loopAgain labels)

theorem foldedAgain_spec (next : Eval W Unit) (run : Act W Unit) :
    (leaving (perform next) run >>= fun _ => perform next).observe (loopAgain labels) =
      run.observe (foldedAgain labels next) := by
  funext s
  simp only [Run.observe_apply,Run.bind_apply,leaving,Run.onExit]
  rcases run s with ⟨c | _,s'⟩
  · have stays : (((if c = .continue none then perform next else pure ()) >>= fun _ =>
        (Run.raise c : Act W Unit)) >>= fun _ => perform next).observe (loopAgain labels) =
        foldedAgain labels next (.error c) := by
      simp only [bind_assoc,Run.raise_bind,foldedAgain]
    exact congrFun stays s'
  · rfl

theorem observe_perform_loopAgain (next : Eval W Unit) :
    (perform next).observe (loopAgain labels) = perform next >>= fun _ => pure true := by
  have pass := (raises_signal next).observe_bind (l := fun u => (pure u : Act W Unit)) (k := loopAgain labels)
    fun c signal => loopAgain_signal signal
  rw [bind_pure] at pass
  exact pass

/-- The update of a loop as the last statement of its body and before each `continue`. -/
theorem loopStep_moveUpdate (test : Eval W Bool) {run : Act W Unit} (next : Eval W Unit)
    (unlabeled : Run.Raises (fun c => ∀ l ∈ labels, c ≠ .continue (some l)) run) :
    loopStep labels b test run next =
      loopStep labels b test (leaving (perform next) run >>= fun _ => perform next) (pure ()) := by
  have goesOn (m : Act W Unit) : (m >>= fun _ => pure true) >>= (fun again : Bool =>
      if again then perform (pure ()) >>= fun _ => (pure true : Act W Bool) else pure false) =
      m >>= fun _ => pure true := by
    simp only [bind_assoc,pure_bind,if_true,perform_pure]
  have body : run.observe (loopAgain labels) >>= (fun again => if again then perform next >>= fun _ => pure true
      else pure false) = (leaving (perform next) run >>= fun _ => perform next).observe (loopAgain labels) >>=
      fun again => if again then perform (pure ()) >>= fun _ => pure true else pure false := by
    rw [foldedAgain_spec,Run.observe_bind_right,Run.observe_bind_right]
    refine unlabeled.observe_congr fun r known => ?_
    cases r with
    | ok _ =>
      rw [foldedAgain,observe_perform_loopAgain,goesOn]
      rfl
    | error c =>
      rw [foldedAgain]
      by_cases plain : c = .continue none
      · subst plain
        have again : (perform next >>= fun _ => Run.raise (.continue none) : Act W Unit).observe (loopAgain labels) =
            perform next >>= fun _ => pure true :=
          (raises_signal next).observe_bind fun c signal => loopAgain_signal signal
        rw [if_pos rfl,again,goesOn]
        rfl
      · rw [if_neg plain,pure_bind,Run.observe_raise]
        cases c with
        | «break» l => cases l <;> rfl
        | «continue» l =>
          cases l with
          | none => exact absurd rfl plain
          | some l =>
            have other : l ∉ labels := fun member => known _ rfl l member rfl
            simp only [loopAgain,other,if_false,Run.raise_bind]
        | _ => rfl
  simp only [loopStep]
  congr 1
  funext go
  cases go with
  | false => rfl
  | true => exact congrArg (fun rest => emit (.iteration b) >>= fun _ => rest) body

variable {R : State W → State W → Prop} {allowed : Access → Prop}

private theorem keeps_emitAfter (framed : Framed allowed R) {m l : Act W Unit} (same : Keeps R m l) (e : Event) :
    Keeps R (m >>= fun _ => emit e) l := by
  rw [← bind_pure l]
  refine Sim.bind same ?_
  rintro a _ s t ⟨rfl,h⟩
  exact ⟨rfl,framed.forget (e :: s.trace) t.trace h⟩

private theorem keeps_emitBefore (framed : Framed allowed R) {α : Type} {m l : Act W α} (same : Keeps R m l)
    (e : Event) : Keeps R m (emit e >>= fun _ => l) :=
  fun s t h => same s _ (framed.forget s.trace (e :: t.trace) h)

theorem keeps_loopStep (framed : Framed allowed R) {test test' : Eval W Bool} {run run' : Act W Unit}
    {next next' : Eval W Unit} {b' : List Stmt} (tests : Keeps R test test') (runs : Keeps R run run')
    (nexts : Keeps R next next') :
    Keeps R (loopStep labels b test run next) (loopStep labels b' test' run' next') := by
  refine (Keeps.perform tests).bind fun go => Keeps.ite (fun _ => ?_) fun _ => Keeps.pure false
  refine (framed.emit _ _).bind fun _ => (runs.observe fun r => Keeps.loopAgain labels r).bind fun again => ?_
  exact Keeps.ite (fun _ => (Keeps.perform nexts).bind fun _ => Keeps.pure true) fun _ => Keeps.pure false

/-- The test of a loop as the first statement of its body. -/
def testFirst (test : Eval W Bool) : Act W Unit := do
  let go ← perform test
  if go then pure () else Run.raise (.break none)

theorem loopStep_testFirst (test : Eval W Bool) (run : Act W Unit) (next : Eval W Unit) :
    loopStep labels b test run next = ((testFirst test >>= fun _ => emit (.iteration b)) >>= fun _ => run).observe
      (loopAgain labels) >>= fun again => if again then perform next >>= fun _ => pure true else pure false := by
  have pass : ((testFirst test >>= fun _ => emit (.iteration b)) >>= fun _ => run).observe (loopAgain labels) =
      perform test >>= fun go => ((if go then pure () else Run.raise (.break none)) >>= fun _ =>
        emit (.iteration b) >>= fun _ => run).observe (loopAgain labels) := by
    simp only [testFirst,bind_assoc]
    exact (raises_signal test).observe_bind fun c signal => loopAgain_signal signal
  rw [pass,bind_assoc,loopStep]
  congr 1
  funext go
  cases go with
  | false => rfl
  | true =>
    simp only [if_true,pure_bind]
    rfl

/-- A loop whose test moved to the top of its body. -/
theorem keeps_moveTest (framed : Framed allowed R) {test : Eval W Bool} {run run' top : Act W Unit}
    {next next' : Eval W Unit} {b' : List Stmt} (head : Keeps R (testFirst test) top) (bodies : Keeps R run run')
    (nexts : Keeps R next next') :
    Keeps R (loopStep labels b test run next) (loopStep labels b' (pure true) (top >>= fun _ => run') next') := by
  have inner := ((keeps_emitAfter framed head (.iteration b)).bind fun _ => bodies).observe fun r =>
    Keeps.loopAgain labels r
  have whole := inner.bind fun again => Keeps.ite (c := again = true)
    (fun _ => (Keeps.perform nexts).bind fun _ => Keeps.pure true) fun _ => Keeps.pure false
  rw [loopStep_testFirst]
  exact keeps_emitBefore framed whole (.iteration b')

section headers

variable {host : Host W} {mode : Mode} {n : Nat} {bound lo hi temp : LocalId}

/-- Leaving the loop unless the temporary holds. -/
private theorem keeps_exit (mode : Mode) (n : Nat) (tracks : Tracks bound lo R) (large : lo ≤ temp) (unboxed : host.boxed temp = false) (v : Val) :
    Keeps R (if v.truthy then pure () else Run.raise (.break none)) (perform (declareLocal host temp v) >>= fun _ =>
      exec host mode n [] (.if (logicalGuard .or temp) [.break] none)) := by
  intro s t h
  obtain ⟨trace,tested⟩ := logicalGuard_guards unboxed .or
    { t with store := Function.update t.store temp v, trace := .declare temp v :: t.trace }
  rw [Run.bind_ok (perform_ok (declareLocal_unboxed unboxed v t)),exec,Run.bind_ok (perform_ok tested)]
  have related := tracks.framed.forget s.trace trace (tracks.room s t temp v h large)
  simp only [Function.update_self,LogicalOp.stops]
  by_cases holds : v.truthy = true
  · simp only [holds,if_true,Bool.not_true,Bool.false_eq_true,if_false]
    exact ⟨trivial,related⟩
  · simp only [holds,Bool.not_false,if_true]
    exact ⟨rfl,related⟩

theorem testFirst_evalTest (c : Expr) : testFirst (evalTest host c) = perform (eval host c) >>= fun v =>
    if v.truthy then pure () else Run.raise (.break none) := by
  simp only [testFirst,evalTest,perform_bind,perform_pure,bind_assoc,pure_bind]

theorem execList_breakUnless (c : List Stmt × Expr) : execList host mode n [] (breakUnless temp c) =
    execList host mode n [] c.1 >>= fun _ => perform (eval host c.2) >>= fun v =>
      perform (declareLocal host temp v) >>= fun _ =>
        exec host mode n [] (.if (logicalGuard .or temp) [.break] none) := by
  rw [breakUnless,execList_append,execList,execList_singleton]
  simp only [exec,evalOption,perform_bind,bind_assoc,logicalGuard]

/-- The code for a moved test. -/
theorem keeps_breakUnless {c c' : Expr} {hoisted : List Stmt} {ids early' : List LocalId} (tracks : Tracks bound lo R)
    (splits : Splits host mode n bound hi early' ids (eval host c) hoisted (eval host c')) (fewer : early' ⊆ ids)
    (above : lo ≤ hi) (large : lo ≤ temp) (unboxed : host.boxed temp = false) :
    Keeps R (testFirst (evalTest host c)) (execList host mode n [] (breakUnless temp (hoisted,c'))) := by
  rw [testFirst_evalTest,execList_breakUnless]
  exact splits.statement tracks fewer above fun v => keeps_exit mode n tracks large unboxed v

/-- The relation with the value of the first-iteration flag. -/
def Flag (R : State W → State W → Prop) (first : LocalId) (v : Bool) (s t : State W) : Prop :=
  R s t ∧ t.store first = .bool v

variable {first : LocalId}

theorem tracks_flag (tracks : Tracks bound first R) (above : bound ≤ first) (v : Bool) :
    Tracks bound (first + 1) (Flag R first v) where
  framed :=
    { locals := fun h inside => tracks.framed.locals h.1 inside
      worlds := fun h => tracks.framed.worlds h.1
      assign := fun {s t id} c h inside => by
        have apart : first ≠ id := fun same => Nat.not_lt.mpr above (same ▸ inside)
        exact ⟨tracks.framed.assign c h.1 inside,(Function.update_of_ne apart _ _).trans h.2⟩
      advance := fun w h => ⟨tracks.framed.advance w h.1,h.2⟩
      forget := fun a b h => ⟨tracks.framed.forget a b h.1,h.2⟩ }
  room := fun s t id c h large => by
    have apart : first ≠ id := Nat.ne_of_lt large
    exact ⟨tracks.room s t id c h.1 (Nat.le_trans (Nat.le_succ _) large),(Function.update_of_ne apart _ _).trans h.2⟩

/-- The lifted `first || c` up to its `if`: the flag is in the temporary. -/
private theorem liftLogical_flag (mode : Mode) (n : Nat) {logic : LocalId} {v : Bool} (right : List Stmt × Expr) {s t : State W}
    (tracks : Tracks bound first R) (above : bound ≤ first) (low : first < logic)
    (unboxedFirst : host.boxed first = false) (unboxed : host.boxed logic = false) (h : Flag R first v s t) :
    ∃ t', Flag R first v s t' ∧ t'.store logic = .bool v ∧
      execList host mode n [] (liftLogical logic .or ([],.localGet first) right) t =
        exec host mode n [] (.if (logicalGuard .or logic) (right.1 ++ [.expr (.localSet logic right.2)]) none) t' := by
  have flag := tracks_flag tracks above v
  let declared : State W :=
    { t with store := Function.update t.store logic .undefined, trace := .declare logic .undefined :: t.trace }
  have related : Flag R first v s declared :=
    flag.framed.forget s.trace _ (flag.room s t logic .undefined h low)
  have declares : exec host mode n [] (.let logic true none) t = (.ok (),declared) :=
    perform_ok (declareLocal_unboxed unboxed .undefined t)
  let read : State W := { declared with trace := .read first :: declared.trace }
  have assigns : exec host mode n [] (.expr (.localSet logic (.localGet first))) declared =
      (.ok (),{ read with store := Function.update read.store logic (.bool v), trace := .write logic (.bool v) :: read.trace }) := by
    refine perform_ok ?_
    simp only [eval,bind_assoc,pure_bind]
    rw [Run.bind_ok (readLocal_unboxed unboxedFirst declared),related.2]
    exact Run.bind_ok (writeLocal_unboxed unboxed (.bool v) read)
  refine ⟨_,flag.framed.forget s.trace (.write logic (.bool v) :: read.trace)
    (flag.room s read logic (.bool v) ?_ low),by simp,?_⟩
  · exact flag.framed.forget s.trace _ related
  · rw [liftLogical,List.nil_append,List.singleton_append,execList,Run.bind_ok declares,execList,Run.bind_ok assigns,
      execList_singleton]

/-- The moved test of a `do` loop once the flag is down: the condition decides. -/
private theorem keeps_testDown {logic : LocalId} {c c' : Expr} {hoisted : List Stmt} {ids early' : List LocalId}
    (tracks : Tracks bound first R) (above : bound ≤ first) (lowTemp : first < temp) (low : first < logic)
    (later : first < hi) (unboxed : ∀ id, first ≤ id → host.boxed id = false)
    (splits : Splits host mode n bound hi early' ids (eval host c) hoisted (eval host c')) (fewer : early' ⊆ ids) :
    Keeps (Flag R first false) (testFirst (evalTest host c)) (execList host mode n []
      (breakUnless temp (liftLogical logic .or ([],.localGet first) (hoisted,c'),.localGet logic))) := by
  have flag := tracks_flag tracks above false
  have filled := fills_assign splits fewer (Nat.succ_le_of_lt low) later (unboxed logic (Nat.le_of_lt low))
  rw [testFirst_evalTest,execList_breakUnless]
  have condition : Sim (Flag R first false) (fun a _ s t => Flag R first false s t ∧ t.store logic = a)
      (fun e f s t => e = f ∧ Flag R first false s t) (perform (eval host c))
      (execList host mode n [] (liftLogical logic .or ([],.localGet first) (hoisted,c'))) := by
    intro s t h
    obtain ⟨t',related,held,same⟩ := liftLogical_flag mode n (hoisted,c') tracks above low
      (unboxed first (Nat.le_refl _)) (unboxed logic (Nat.le_of_lt low)) h
    obtain ⟨trace,tested⟩ := logicalGuard_guards (unboxed logic (Nat.le_of_lt low)) .or t'
    rw [same,exec,Run.bind_ok (perform_ok tested),held]
    exact filled _ (flag.reach ids) flag.room s _ (flag.framed.forget s.trace trace related)
  refine Sim.bind condition ?_
  rintro v _ s t ⟨h,held⟩
  rw [eval,Run.bind_ok (perform_ok (readLocal_unboxed (unboxed logic (Nat.le_of_lt low)) t)),held]
  exact keeps_exit mode n flag lowTemp (unboxed temp (Nat.le_of_lt lowTemp)) v s _ (flag.framed.forget s.trace _ h)

/-- The moved test of a `do` loop while the flag is up: it passes. -/
private theorem testUp_passes (mode : Mode) (n : Nat) {logic : LocalId} (right : List Stmt × Expr) (tracks : Tracks bound first R)
    (above : bound ≤ first) (lowTemp : first < temp) (low : first < logic)
    (unboxed : ∀ id, first ≤ id → host.boxed id = false) {s t : State W} (h : Flag R first true s t) :
    ∃ t', Flag R first true s t' ∧ execList host mode n [] (breakUnless temp
      (liftLogical logic .or ([],.localGet first) right,.localGet logic)) t = (.ok (),t') := by
  have flag := tracks_flag tracks above true
  obtain ⟨t',related,held,same⟩ := liftLogical_flag mode n right tracks above low
    (unboxed first (Nat.le_refl _)) (unboxed logic (Nat.le_of_lt low)) h
  obtain ⟨trace,tested⟩ := logicalGuard_guards (unboxed logic (Nat.le_of_lt low)) .or t'
  have lifted : execList host mode n [] (liftLogical logic .or ([],.localGet first) right) t =
      (.ok (),{ t' with trace := trace }) := by
    rw [same,exec,Run.bind_ok (perform_ok tested),held]
    rfl
  have down := flag.framed.forget s.trace trace related
  rw [execList_breakUnless,Run.bind_ok lifted,eval,
    Run.bind_ok (perform_ok (readLocal_unboxed (unboxed logic (Nat.le_of_lt low)) _))]
  obtain ⟨ended,kept⟩ := (keeps_exit mode n flag lowTemp
    (unboxed temp (Nat.le_of_lt lowTemp)) (.bool true)).apply (flag.framed.forget s.trace (.read logic :: trace) down)
  rw [held]
  exact ⟨_,kept,Prod.ext ended.symm rfl⟩

/-- Taking the flag down. -/
private theorem flagDown (mode : Mode) (n : Nat) (tracks : Tracks bound first R) (unboxed : host.boxed first = false) {v : Bool}
    {s t : State W} (h : Flag R first v s t) : ∃ t', Flag R first false s t' ∧
      exec host mode n [] (.expr (.localSet first (.bool false))) t = (.ok (),t') := by
  refine ⟨_,⟨tracks.framed.forget s.trace (.write first (.bool false) :: t.trace)
    (tracks.room s t first (.bool false) h.1 (Nat.le_refl _)),by simp⟩,perform_ok ?_⟩
  simp only [eval,bind_assoc,pure_bind]
  exact Run.bind_ok (writeLocal_unboxed unboxed (.bool false) t)

/-- A `do` loop with its condition moved to the top of the body behind a flag. -/
theorem keeps_doWhile {logic : LocalId} {c c' : Expr} {hoisted : List Stmt} {ids early' : List LocalId}
    {run : Act W Unit} {body body' : List Stmt} (tracks : Tracks bound first R) (above : bound ≤ first)
    (lowTemp : first < temp) (low : first < logic) (later : first < hi)
    (unboxed : ∀ id, first ≤ id → host.boxed id = false)
    (splits : Splits host mode n bound hi early' ids (eval host c) hoisted (eval host c')) (fewer : early' ⊆ ids)
    (bodies : Keeps (Flag R first false) run (execList host mode n [] body')) :
    Keeps R (doWhileLoop labels body run (evalTest host c) n) (execList host mode n []
      [.let first true (some (.bool true))] >>= fun _ => exec host mode n labels (.while (.bool true)
        (breakUnless temp (liftLogical logic .or ([],.localGet first) (hoisted,c'),.localGet logic) ++
          .expr (.localSet first (.bool false)) :: body'))) := by
  have down := tracks_flag tracks above false
  have up := tracks_flag tracks above true
  have unboxedFirst := unboxed first (Nat.le_refl _)
  let head : List Stmt := breakUnless temp (liftLogical logic .or ([],.localGet first) (hoisted,c'),.localGet logic)
  let code : List Stmt := head ++ .expr (.localSet first (.bool false)) :: body'
  let top : Act W Unit := execList host mode n [] head >>= fun _ =>
    exec host mode n [] (.expr (.localSet first (.bool false)))
  have runs : execList host mode n [] code = top >>= fun _ => execList host mode n [] body' := by
    simp only [code,top,execList_append,execList,bind_assoc]
  have always : evalTest host (.bool true) = pure true := rfl
  -- the flag is down from the second round on
  have rounds : Keeps (Flag R first false) (loopStep labels body (evalTest host c) run (pure ()))
      (loopStep labels code (evalTest host (.bool true)) (execList host mode n [] code) (pure ())) := by
    rw [runs,always]
    refine keeps_moveTest down.framed ?_ bodies (Keeps.pure ())
    rw [← bind_pure (testFirst (evalTest host c))]
    refine Sim.bind (keeps_testDown tracks above lowTemp low later unboxed splits fewer) ?_
    rintro _ _ s t ⟨_,h⟩
    obtain ⟨t',kept,ran⟩ := flagDown mode n tracks unboxedFirst h
    rw [ran]
    exact ⟨rfl,kept⟩
  have round : Sim (Flag R first true) (fun a b s t => a = b ∧ Flag R first false s t) (fun e f s t => e = f ∧ R s t)
      (emit (.iteration body) >>= fun _ => run.observe (loopAgain labels))
      (loopStep labels code (evalTest host (.bool true)) (execList host mode n [] code) (pure ())) := by
    intro s t h
    obtain ⟨t₁,passed,ran₁⟩ := testUp_passes mode n (hoisted,c') tracks above lowTemp low
      unboxed (up.framed.forget (.iteration body :: s.trace) (.iteration code :: t.trace) h)
    obtain ⟨t₂,lowered,ran₂⟩ := flagDown mode n tracks unboxedFirst passed
    have ran : execList host mode n [] code { t with trace := .iteration code :: t.trace } =
        execList host mode n [] body' t₂ := by
      rw [runs,bind_assoc,Run.bind_ok ran₁,Run.bind_ok ran₂]
    have plain : (fun again : Bool => if again then perform (pure () : Eval W Unit) >>= fun _ => pure true
        else (pure false : Act W Bool)) = pure := by
      funext again
      cases again <;> rfl
    have step : loopStep labels code (evalTest host (.bool true)) (execList host mode n [] code) (pure ()) t =
        (execList host mode n [] body').observe (loopAgain labels) t₂ := by
      have unfolded : loopStep labels code (evalTest host (.bool true)) (execList host mode n [] code) (pure ()) =
          emit (.iteration code) >>= fun _ => (execList host mode n [] code).observe (loopAgain labels) := by
        rw [loopStep,always,perform_pure,pure_bind,if_pos rfl,plain]
        simp only [bind_pure]
      rw [unfolded,Run.observe_apply,← ran]
      rfl
    rw [step]
    exact Sim.conseq (bodies.observe fun r => Keeps.loopAgain labels r) (fun _ _ h => h) (fun _ _ _ _ h => h)
      (fun _ _ _ _ h => ⟨h.1,h.2.1⟩) _ _ lowered
  have loops (m : Nat) : Sim (Flag R first true) (fun a b s t => a = b ∧ R s t) (fun e f s t => e = f ∧ R s t)
      (doWhileLoop labels body run (evalTest host c) m)
      (Run.iterate .timeout (loopStep labels code (evalTest host (.bool true)) (execList host mode n [] code) (pure ())) m) := by
    cases m with
    | zero => exact Sim.raise fun _ _ h => ⟨rfl,h.1⟩
    | succ m =>
      rw [doWhileLoop,Run.iterate_succ,← bind_assoc]
      refine Sim.bind round ?_
      rintro again _ s t ⟨rfl,h⟩
      cases again with
      | false => exact ⟨rfl,h.1⟩
      | true =>
        exact Sim.conseq (Keeps.iterate rounds m) (fun _ _ h => h) (fun _ _ _ _ h => ⟨h.1,h.2.1⟩)
          (fun _ _ _ _ h => ⟨h.1,h.2.1⟩) s t h
  intro s t h
  have declared : execList host mode n [] [.let first true (some (.bool true))] t =
      (.ok (),{ t with store := Function.update t.store first (.bool true), trace := .declare first (.bool true) :: t.trace }) := by
    rw [execList_singleton]
    exact perform_ok (declareLocal_unboxed unboxedFirst (.bool true) t)
  have raised : Flag R first true s
      { t with store := Function.update t.store first (.bool true), trace := .declare first (.bool true) :: t.trace } :=
    ⟨tracks.framed.forget s.trace _ (tracks.room s t first (.bool true) h (Nat.le_refl _)),by simp⟩
  rw [Run.bind_ok declared,exec,whileLoop_eq]
  exact loops n s _ raised

end headers

end loops

end Perry.Transform.HoistAwaits
