import Perry.Transform.FinallyInline

/-! Which `finally` blocks an abrupt completion crosses, and how running them on
the way out moves through the statements that catch completions. -/
namespace Perry.Transform.FinallyInline

open Perry.Effect Perry.Hir Perry.Transform

/-- What is known, at a point of a statement list, about the jumps that may leave
it: whether a try-with-finally is open since the innermost loop body began, and
for each kind of jump whether `loop_depth` tells which blocks it crosses. -/
structure Scope where
  opened : Bool := false
  returns : Bool := true
  breaks : Bool := true
  continues : Bool := true
  labels : String → Bool := fun _ => false

namespace Scope

def loop (sc : Scope) : Scope := { sc with opened := false, breaks := true, continues := true }

def switch (sc : Scope) : Scope := { sc with breaks := !sc.opened }

def label (sc : Scope) (l : String) (loop : Bool) : Scope :=
  { sc with labels := Function.update sc.labels l (loop || !sc.opened) }

def push (sc : Scope) : Option (List Stmt) → Scope
  | none => sc
  | some _ => { sc with opened := true }

/-- A `finally` block completes normally: no jump leaves it. -/
def finalizer (sc : Scope) : Scope :=
  { sc with returns := false, breaks := false, continues := false, labels := fun _ => false }

end Scope

def leafInit : Option Stmt → Bool
  | none | some (.let ..) | some (.expr _) => true
  | some _ => false

mutual

/-- Every jump is one whose crossed blocks the depth counters get right: a plain
`break` does not leave a switch that an open try-with-finally of the same loop
body surrounds, a label resolves and is either on a loop or not surrounded in that
way. `labeled` marks the statement a label stands on. -/
def countsRight (sc : Scope) (labeled : Bool) : Stmt → Bool
  | .return _ => sc.returns && !labeled
  | .break => sc.breaks && !labeled
  | .continue => sc.continues && !labeled
  | .labeledBreak l => sc.labels l && !labeled
  | .labeledContinue l => sc.labels l && !labeled
  | .if _ t e => countsRightAll sc labeled t && countsRightBlock sc labeled e
  | .while _ b => countsRightAll sc.loop false b
  | .doWhile b _ => countsRightAll sc.loop false b
  | .for i _ _ b => leafInit i && countsRightAll sc.loop false b
  | .labeled l s => countsRight (sc.label l (isLoop s)) true s
  | .try b h f => countsRightAll (sc.push f) false b && countsRightCatch (sc.push f) h &&
      countsRightBlock sc.finalizer false f
  | .switch _ cases => countsRightCases sc.switch cases
  | _ => true

def countsRightAll (sc : Scope) (labeled : Bool) : List Stmt → Bool
  | [] => true
  | s :: ss => countsRight sc labeled s && countsRightAll sc labeled ss

def countsRightCatch (sc : Scope) : Option CatchClause → Bool
  | none => true
  | some (.mk _ body) => countsRightAll sc false body

def countsRightBlock (sc : Scope) (labeled : Bool) : Option (List Stmt) → Bool
  | none => true
  | some body => countsRightAll sc labeled body

def countsRightCases (sc : Scope) : List SwitchCase → Bool
  | [] => true
  | .mk _ body :: cases => countsRightAll sc false body && countsRightCases sc cases

end

section

-- equations, made here once and not by the first proofs that unfold these
attribute [local simp] countsRight countsRightAll countsRightCatch countsRightBlock countsRightCases

end

mutual

def finallyBodies : Stmt → List (List Stmt)
  | .if _ t e => finallyBodiesAll t ++ finallyBodiesElse e
  | .while _ b | .doWhile b _ => finallyBodiesAll b
  | .for i _ _ b => finallyBodiesInit i ++ finallyBodiesAll b
  | .labeled _ s => finallyBodies s
  | .try b h f => finallyBodiesAll b ++ finallyBodiesCatch h ++ finallyBodiesFinally f
  | .switch _ cases => finallyBodiesCases cases
  | _ => []

def finallyBodiesAll : List Stmt → List (List Stmt)
  | [] => []
  | s :: ss => finallyBodies s ++ finallyBodiesAll ss

def finallyBodiesElse : Option (List Stmt) → List (List Stmt)
  | none => []
  | some body => finallyBodiesAll body

def finallyBodiesInit : Option Stmt → List (List Stmt)
  | none => []
  | some s => finallyBodies s

def finallyBodiesCatch : Option CatchClause → List (List Stmt)
  | none => []
  | some (.mk _ body) => finallyBodiesAll body

def finallyBodiesFinally : Option (List Stmt) → List (List Stmt)
  | none => []
  | some body => body :: finallyBodiesAll body

def finallyBodiesCases : List SwitchCase → List (List Stmt)
  | [] => []
  | .mk _ body :: cases => finallyBodiesAll body ++ finallyBodiesCases cases

end

section

-- equations, made here once and not by the first proofs that unfold these
attribute [local simp] finallyBodies finallyBodiesAll finallyBodiesElse finallyBodiesInit
  finallyBodiesCatch finallyBodiesFinally finallyBodiesCases

end

/-- The `finally` blocks each completion crosses on its way out, innermost first. -/
abbrev Exits := Comp → List (List Stmt)

namespace Exits

def loop (x : Exits) : Exits
  | .break none | .continue none => []
  | c => x c

def switch (x : Exits) : Exits
  | .break none => []
  | c => x c

def label (x : Exits) (l : String) : Exits
  | .break (some l') => if l' = l then [] else x (.break (some l'))
  | .continue (some l') => if l' = l then [] else x (.continue (some l'))
  | c => x c

def push (x : Exits) (body : List Stmt) : Exits
  | .return v => body :: x (.return v)
  | .break l => body :: x (.break l)
  | .continue l => body :: x (.continue l)
  | c => x c

end Exits

section runs

variable {W : Type} (host : Host W) (n : Nat)

def runAll (bodies : List (List Stmt)) : Act W Unit := bodies.forM (execList host .ecma n [])

/-- A run of `m` that runs the blocks its abrupt completion crosses. -/
def leaving (x : Exits) {α : Type} (m : Act W α) : Act W α := m.onExit fun c => runAll host n (x c)

def stops : Comp → Prop
  | .halt | .timeout => True
  | _ => False

/-- The block completes normally whenever the host lets it go on. -/
def CompletesNormally (body : List Stmt) : Prop := Run.Raises stops (execList host .ecma n [] body)

variable {host n}

theorem runAll_raises {bodies : List (List Stmt)} (normal : ∀ b ∈ bodies, CompletesNormally host n b) :
    Run.Raises stops (runAll host n bodies) := Run.Raises.forM normal

/-- The exits leave alone what no statement catches, and cross normal blocks only. -/
structure Exits.Tame (host : Host W) (n : Nat) (x : Exits) : Prop where
  signals : ∀ s : Signal, x s.comp = []
  timeout : x .timeout = []
  normal : ∀ c, ∀ b ∈ x c, CompletesNormally host n b

theorem leaving_bind (x : Exits) {α β : Type} (m : Act W α) (k : α → Act W β) :
    leaving host n x (m >>= k) = leaving host n x m >>= fun a => leaving host n x (k a) :=
  Run.onExit_bind _ m k

theorem leaving_perform {x : Exits} (tame : x.Tame host n) {α : Type} (m : Eval W α) :
    leaving host n x (perform m) = perform m := by
  refine Run.onExit_mapError _ fun s => ?_
  rw [tame.signals]
  rfl

theorem leaving_ite (x : Exits) {α : Type} (c : Prop) [Decidable c] (m l : Act W α) :
    leaving host n x (if c then m else l) = if c then leaving host n x m else leaving host n x l := by
  split <;> rfl

theorem Exits.Tame.stops {x : Exits} (tame : x.Tame host n) {c : Comp} (stop : stops c) : x c = [] := by
  cases c with
  | halt => exact tame.signals .halt
  | timeout => exact tame.timeout
  | _ => exact stop.elim

/-- Exits pass through a handler `k` and are `x'` inside it: a completion that
`k` takes crosses nothing inside, and any other crosses the same blocks. -/
theorem leaving_observe {x x' : Exits} {α β : Type} {k : Except Comp α → Act W β} (m : Act W α)
    (tame : x'.Tame host n) (passes : ∀ c, stops c → k (.error c) = Run.raise c)
    (normal : ∀ a, leaving host n x (k (.ok a)) = k (.ok a))
    (abrupt : ∀ c, (leaving host n x (k (.error c)) = k (.error c) ∧ x' c = []) ∨
      (k (.error c) = Run.raise c ∧ x' c = x c)) :
    leaving host n x (m.observe k) = (leaving host n x' m).observe k := by
  refine Run.onExit_observe _ normal fun c => ?_
  rcases abrupt c with ⟨taken,nothing⟩ | ⟨passed,same⟩
  · rw [nothing]
    exact taken
  · rw [(runAll_raises (tame.normal c)).observe_bind passes,passed,same]
    simp only [Run.observe_raise,passed]
    rfl

section handlers

variable {x : Exits} (tame : x.Tame host n)
include tame

theorem Exits.Tame.loop : x.loop.Tame host n where
  signals s := by cases s <;> exact tame.signals _
  timeout := tame.timeout
  normal c := by
    unfold Exits.loop
    split
    · simp
    · simp
    · exact tame.normal _

theorem Exits.Tame.switch : x.switch.Tame host n where
  signals s := by cases s <;> exact tame.signals _
  timeout := tame.timeout
  normal c := by
    unfold Exits.switch
    split
    · simp
    · exact tame.normal _

theorem Exits.Tame.label (l : String) : (x.label l).Tame host n where
  signals s := by cases s <;> exact tame.signals _
  timeout := tame.timeout
  normal c := by
    unfold Exits.label
    split
    · split
      · simp
      · exact tame.normal _
    · split
      · simp
      · exact tame.normal _
    · exact tame.normal _

theorem Exits.Tame.push {body : List Stmt} (completes : CompletesNormally host n body) :
    (x.push body).Tame host n where
  signals s := by cases s <;> exact tame.signals _
  timeout := tame.timeout
  normal c := by
    unfold Exits.push
    split
    · simpa using ⟨completes,tame.normal _⟩
    · simpa using ⟨completes,tame.normal _⟩
    · simpa using ⟨completes,tame.normal _⟩
    · exact tame.normal _

theorem leaving_loopAgain {labels : List String} (free : ∀ l ∈ labels, x (.continue (some l)) = [])
    (m : Act W Unit) : leaving host n x (m.observe (loopAgain labels)) =
      (leaving host n x.loop m).observe (loopAgain labels) := by
  refine leaving_observe m tame.loop ?_ (fun _ => rfl) fun c => ?_
  · intro c stop
    cases c with
    | halt => rfl
    | timeout => rfl
    | _ => exact stop.elim
  · cases c with
    | «break» l =>
      cases l with
      | none => exact .inl ⟨rfl,rfl⟩
      | some l => exact .inr ⟨rfl,rfl⟩
    | «continue» l =>
      cases l with
      | none => exact .inl ⟨rfl,rfl⟩
      | some l =>
        by_cases mine : l ∈ labels
        · simp only [loopAgain,mine,if_true]
          exact .inl ⟨rfl,free l mine⟩
        · simp only [loopAgain,mine,if_false]
          exact .inr ⟨trivial,rfl⟩
    | _ => exact .inr ⟨rfl,rfl⟩

theorem leaving_whileLoop {labels : List String} (free : ∀ l ∈ labels, x (.continue (some l)) = [])
    (body : List Stmt) (test : Eval W Bool) (run : Act W Unit) (next : Eval W Unit) (m : Nat) :
    leaving host n x (whileLoop m labels body test run next) =
      whileLoop m labels body test (leaving host n x.loop run) next := by
  have step (again : Bool) : leaving host n x (if again then do perform next; pure true else pure false) =
      if again then do perform next; pure true else pure false := by
    rw [leaving_ite,leaving_bind,leaving_perform tame]
    rfl
  unfold whileLoop
  rw [leaving,Run.onExit_iterate (by rw [tame.timeout]; rfl),← leaving]
  congr 1
  rw [leaving_bind,leaving_perform tame]
  congr 1
  funext go
  rw [leaving_ite,leaving_bind,leaving_bind,leaving_loopAgain tame free]
  simp only [step]
  rfl

theorem leaving_doWhileLoop {labels : List String} (free : ∀ l ∈ labels, x (.continue (some l)) = [])
    (body : List Stmt) (run : Act W Unit) (test : Eval W Bool) (m : Nat) :
    leaving host n x (doWhileLoop labels body run test m) =
      doWhileLoop labels body (leaving host n x.loop run) test m := by
  cases m with
  | zero =>
    rw [doWhileLoop,leaving,Run.onExit_raise,tame.timeout]
    rfl
  | succ m =>
    rw [doWhileLoop,leaving_bind,leaving_bind,leaving_loopAgain tame free]
    simp only [leaving_ite,leaving_whileLoop tame free]
    rfl

theorem leaving_catchLabel (l : String) (m : Act W Unit) :
    leaving host n x (m.observe (catchLabel l)) = (leaving host n (x.label l) m).observe (catchLabel l) := by
  refine leaving_observe m (tame.label l) ?_ (fun _ => rfl) fun c => ?_
  · intro c stop
    cases c with
    | halt => rfl
    | timeout => rfl
    | _ => exact stop.elim
  · cases c with
    | «break» l' =>
      cases l' with
      | none => exact .inr ⟨rfl,rfl⟩
      | some l' =>
        by_cases mine : l' = l
        · simp only [catchLabel,Exits.label,mine,if_true]
          exact .inl ⟨rfl,trivial⟩
        · simp only [catchLabel,Exits.label,mine,if_false]
          exact .inr ⟨trivial,trivial⟩
    | «continue» l' =>
      cases l' with
      | none => exact .inr ⟨rfl,rfl⟩
      | some l' =>
        by_cases mine : l' = l
        · simp only [catchLabel,Exits.label,mine,if_true]
          exact .inl ⟨rfl,trivial⟩
        · simp only [catchLabel,Exits.label,mine,if_false]
          exact .inr ⟨trivial,trivial⟩
    | _ => exact .inr ⟨rfl,rfl⟩

theorem leaving_catchBreak (m : Act W Unit) :
    leaving host n x (m.observe catchBreak) = (leaving host n x.switch m).observe catchBreak := by
  refine leaving_observe m tame.switch ?_ (fun _ => rfl) fun c => ?_
  · intro c stop
    cases c with
    | halt => rfl
    | timeout => rfl
    | _ => exact stop.elim
  · cases c with
    | «break» l =>
      cases l with
      | none => exact .inl ⟨rfl,rfl⟩
      | some l => exact .inr ⟨rfl,rfl⟩
    | _ => exact .inr ⟨rfl,rfl⟩

/-- Under ECMAScript the block of a try runs whichever way the try is left; with
the block among the exits inside, the target runs it for exceptions only. -/
theorem leaving_finalize {body : List Stmt} (completes : CompletesNormally host n body) (m : Act W Unit) :
    leaving host n x (m.observe (finalize .ecma (execList host .ecma n [] body))) =
      (leaving host n (x.push body) m).observe (finalize .target (execList host .ecma n [] body)) := by
  have block : leaving host n x (execList host .ecma n [] body) = execList host .ecma n [] body :=
    Run.onExit_of_raises completes fun c stop => by rw [tame.stops stop]; rfl
  have passes (c : Comp) (stop : stops c) :
      finalize .target (execList host .ecma n [] body) (.error c) = Run.raise c := by
    cases c with
    | halt => rfl
    | timeout => rfl
    | _ => exact stop.elim
  -- a jump runs the block, then what it crosses further out; the target's own try does nothing
  have jump (c : Comp) (pushed : x.push body c = body :: x c)
      (ecma : Mode.ecma.finalizes (.error c) = true) (target : Mode.target.finalizes (.error c) = false) :
      leaving host n x (finalize .ecma (execList host .ecma n [] body) (.error c)) =
        (runAll host n (x.push body c) >>= fun _ => Run.raise c).observe
          (finalize .target (execList host .ecma n [] body)) := by
    rw [(runAll_raises ((tame.push completes).normal c)).observe_bind passes,pushed]
    simp only [finalize,ecma,target,if_true,leaving_bind,block,Run.observe_raise]
    exact (bind_assoc _ _ _).symm
  have signal (c : Comp) (ignored : x c = []) (pushed : x.push body c = x c)
      (same : Mode.target.finalizes (.error c) = Mode.ecma.finalizes (.error c)) :
      leaving host n x (finalize .ecma (execList host .ecma n [] body) (.error c)) =
        (runAll host n (x.push body c) >>= fun _ => Run.raise c).observe
          (finalize .target (execList host .ecma n [] body)) := by
    have exits : leaving host n x (Run.raise c : Act W Unit) = Run.raise c := by
      simp only [leaving,Run.onExit_raise,ignored]
      rfl
    rw [pushed,ignored]
    change _ = finalize .target _ (.error c)
    simp only [finalize,same,complete,leaving_ite,leaving_bind,block,exits]
  refine Run.onExit_observe _ (fun _ => ?_) fun c => ?_
  · change leaving host n x (execList host .ecma n [] body >>= fun _ => pure ()) = _
    rw [leaving_bind,block]
    rfl
  · cases c with
    | «return» v => exact jump _ rfl rfl rfl
    | «break» l => exact jump _ rfl rfl rfl
    | «continue» l => exact jump _ rfl rfl rfl
    | throw v => exact signal _ (tame.signals (.throw v)) rfl rfl
    | close v => exact signal _ (tame.signals (.close v)) rfl rfl
    | halt => exact signal _ (tame.signals .halt) rfl rfl
    | timeout => exact signal _ tame.timeout rfl rfl

/-- A handler takes exceptions, which cross nothing, and runs inside the exits. -/
theorem leaving_catch {k : Except Comp Unit → Act W Unit} (normal : k (.ok ()) = pure ())
    (others : ∀ c, (∀ v, c ≠ .throw v) → k (.error c) = Run.raise c) (m : Act W Unit) :
    leaving host n x (m.observe k) = (leaving host n x m).observe fun
      | .error (.throw v) => leaving host n x (k (.error (.throw v)))
      | r => complete r := by
  refine Run.onExit_observe _ (fun _ => ?_) fun c => ?_
  · rw [normal]
    rfl
  · by_cases exception : ∃ v, c = .throw v
    · obtain ⟨v,rfl⟩ := exception
      rw [show x (.throw v) = [] from tame.signals (.throw v)]
      rfl
    · have other : ∀ v, c ≠ .throw v := fun v same => exception ⟨v,same⟩
      rw [(runAll_raises (tame.normal c)).observe_bind,others c other,Run.onExit_raise]
      · congr 1
        funext _
        rw [Run.observe_raise]
        split
        · next same => exact absurd (Except.error.inj same) (other _)
        · rfl
      · intro c stop
        cases c with
        | halt => rfl
        | timeout => rfl
        | _ => exact stop.elim

end handlers

end runs

end Perry.Transform.FinallyInline
