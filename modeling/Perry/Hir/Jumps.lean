import Perry.Hir.Semantics

/-! The abrupt completions a statement can end with, from the jumps written in it. -/
namespace Perry.Hir

open Perry.Effect

section syntactic

/-- A loop takes the plain jumps of its body, a switch the plain breaks of its cases. -/
def insideLoop (allowed : Comp → Bool) (c : Comp) : Bool :=
  allowed c || c == .break none || c == .continue none

def insideSwitch (allowed : Comp → Bool) (c : Comp) : Bool := allowed c || c == .break none

mutual

/-- Every jump that may leave the statement is allowed. -/
def jumpsWithin (allowed : Comp → Bool) : Stmt → Bool
  | .break => allowed (.break none)
  | .continue => allowed (.continue none)
  | .labeledBreak l => allowed (.break (some l))
  | .labeledContinue l => allowed (.continue (some l))
  | .if _ t e => jumpsWithinAll allowed t && jumpsWithinBlock allowed e
  | .while _ b | .doWhile b _ => jumpsWithinAll (insideLoop allowed) b
  | .for i _ _ b => jumpsWithinInit allowed i && jumpsWithinAll (insideLoop allowed) b
  | .labeled _ s => jumpsWithin allowed s
  | .try b h f => jumpsWithinAll allowed b && jumpsWithinCatch allowed h && jumpsWithinBlock allowed f
  | .switch _ cases => jumpsWithinCases (insideSwitch allowed) cases
  | _ => true

def jumpsWithinAll (allowed : Comp → Bool) : List Stmt → Bool
  | [] => true
  | s :: ss => jumpsWithin allowed s && jumpsWithinAll allowed ss

def jumpsWithinInit (allowed : Comp → Bool) : Option Stmt → Bool
  | none => true
  | some s => jumpsWithin allowed s

def jumpsWithinCatch (allowed : Comp → Bool) : Option CatchClause → Bool
  | none => true
  | some (.mk _ body) => jumpsWithinAll allowed body

def jumpsWithinBlock (allowed : Comp → Bool) : Option (List Stmt) → Bool
  | none => true
  | some body => jumpsWithinAll allowed body

def jumpsWithinCases (allowed : Comp → Bool) : List SwitchCase → Bool
  | [] => true
  | .mk _ body :: cases => jumpsWithinAll allowed body && jumpsWithinCases allowed cases

end

section

-- equations, made here once and not by the first proofs that unfold these
attribute [local simp] jumpsWithin jumpsWithinAll jumpsWithinInit
  jumpsWithinCatch jumpsWithinBlock jumpsWithinCases

end

theorem jumpsWithinBlock_eq (allowed : Comp → Bool) (block : Option (List Stmt)) :
    jumpsWithinBlock allowed block = jumpsWithinAll allowed (block.getD []) := by
  cases block <;> rfl

end syntactic

/-- The completions that are no jumps are allowed. -/
structure Calm (allowed : Comp → Bool) : Prop where
  returns : ∀ v, allowed (.return v) = true
  throws : ∀ v, allowed (.throw v) = true
  closes : ∀ v, allowed (.close v) = true
  halts : allowed .halt = true
  timeouts : allowed .timeout = true

theorem Calm.insideLoop {allowed : Comp → Bool} (calm : Calm allowed) : Calm (insideLoop allowed) where
  returns v := by simp [Hir.insideLoop,calm.returns]
  throws v := by simp [Hir.insideLoop,calm.throws]
  closes v := by simp [Hir.insideLoop,calm.closes]
  halts := by simp [Hir.insideLoop,calm.halts]
  timeouts := by simp [Hir.insideLoop,calm.timeouts]

theorem Calm.insideSwitch {allowed : Comp → Bool} (calm : Calm allowed) : Calm (insideSwitch allowed) where
  returns v := by simp [Hir.insideSwitch,calm.returns]
  throws v := by simp [Hir.insideSwitch,calm.throws]
  closes v := by simp [Hir.insideSwitch,calm.closes]
  halts := by simp [Hir.insideSwitch,calm.halts]
  timeouts := by simp [Hir.insideSwitch,calm.timeouts]

section raises

variable {W : Type} {host : Host W} {mode : Mode} {n : Nat} {allowed : Comp → Bool}

theorem Calm.perform (calm : Calm allowed) {α : Type} (m : Eval W α) :
    Run.Raises (allowed · = true) (perform m) := by
  intro s c
  rw [Hir.perform,Run.mapError]
  rcases m s with ⟨e | a,s'⟩ <;> intro ended
  · cases ended
    cases e with
    | throw v => exact calm.throws v
    | close v => exact calm.closes v
    | halt => exact calm.halts
  · cases ended

theorem raises_complete {α : Type} {r : Except Comp α} (known : ∀ c, r = .error c → allowed c = true) :
    Run.Raises (allowed · = true) (complete r : Act W α) := by
  cases r with
  | error c => exact Run.Raises.raise (known c rfl)
  | ok a => exact Run.Raises.pure a

theorem raises_loopAgain {labels : List String} {r : Except Comp Unit}
    (known : ∀ c, r = .error c → insideLoop allowed c = true) :
    Run.Raises (allowed · = true) (loopAgain labels r : Act W Bool) := by
  unfold loopAgain
  split
  · exact Run.Raises.pure _
  · exact Run.Raises.pure _
  · next l =>
    refine Run.Raises.ite (fun _ => Run.Raises.pure _) fun _ => Run.Raises.raise ?_
    simpa [insideLoop] using known _ rfl
  · exact Run.Raises.pure _
  · next c plainContinue _ plainBreak =>
    refine Run.Raises.raise ?_
    have this := known c rfl
    simp only [insideLoop,Bool.or_eq_true,beq_iff_eq] at this
    rcases this with (holds | rfl) | rfl
    · exact holds
    · exact absurd rfl plainBreak
    · exact absurd rfl plainContinue

theorem raises_whileLoop (calm : Calm allowed) {labels : List String} {b : List Stmt} {test : Eval W Bool}
    {run : Act W Unit} {next : Eval W Unit} (body : Run.Raises (insideLoop allowed · = true) run) :
    Run.Raises (allowed · = true) (whileLoop n labels b test run next) := by
  refine Run.Raises.iterate (Q := (allowed · = true)) calm.timeouts (Run.Raises.bind (calm.perform _) fun go =>
    Run.Raises.ite (fun _ => ?_) fun _ => Run.Raises.pure _) n
  refine Run.Raises.bind (fun s c ended => by cases ended) fun _ => ?_
  refine Run.Raises.bind (body.observe fun r known => raises_loopAgain known) fun again => ?_
  exact Run.Raises.ite (fun _ => Run.Raises.bind (calm.perform _) fun _ => Run.Raises.pure _)
    fun _ => Run.Raises.pure _

theorem raises_doWhileLoop (calm : Calm allowed) {labels : List String} {b : List Stmt} {test : Eval W Bool}
    {run : Act W Unit} (body : Run.Raises (insideLoop allowed · = true) run) (n : Nat) :
    Run.Raises (allowed · = true) (doWhileLoop labels b run test n) := by
  cases n with
  | zero => exact Run.Raises.raise calm.timeouts
  | succ n =>
    refine Run.Raises.bind (fun s c ended => by cases ended) fun _ => ?_
    refine Run.Raises.bind (body.observe fun r known => raises_loopAgain known) fun again => ?_
    exact Run.Raises.ite (fun _ => raises_whileLoop calm body) fun _ => Run.Raises.pure _

private theorem raises_all_of_each {ss : List Stmt} {labels : List String} (within : jumpsWithinAll allowed ss = true)
    (each : ∀ s ∈ ss, ∀ {allowed} labels, jumpsWithin allowed s = true → Calm allowed →
      Run.Raises (allowed · = true) (exec host mode n labels s)) (calm : Calm allowed) :
    Run.Raises (allowed · = true) (execList host mode n labels ss) := by
  induction ss with
  | nil => exact Run.Raises.pure ()
  | cons s ss ih =>
    simp only [jumpsWithinAll,Bool.and_eq_true] at within
    exact Run.Raises.bind (each s (by simp) labels within.1 calm) fun _ =>
      ih within.2 fun t member => each t (by simp [member])

/-- A statement ends abruptly only by a jump written in it, or not by a jump. -/
theorem raises_jumps {s : Stmt} (labels : List String) (within : jumpsWithin allowed s = true) (calm : Calm allowed) :
    Run.Raises (allowed · = true) (exec host mode n labels s) := by
  induction s using Stmt.induct generalizing labels allowed with
  | letNone id m => exact calm.perform _
  | letSome id m e => exact calm.perform _
  | expr e => exact calm.perform _
  | returnStmt value => exact Run.Raises.bind (calm.perform _) fun v => Run.Raises.raise (calm.returns v)
  | throwStmt e => exact Run.Raises.bind (calm.perform _) fun v => Run.Raises.raise (calm.throws v)
  | ifStmt c t e iht ihe =>
    simp only [jumpsWithin,jumpsWithinBlock_eq,Bool.and_eq_true] at within
    rw [exec_if]
    exact Run.Raises.bind (calm.perform _) fun v =>
      Run.Raises.ite (fun _ => raises_all_of_each within.1 iht calm) fun _ => raises_all_of_each within.2 ihe calm
  | whileStmt c b ih => exact raises_whileLoop calm (raises_all_of_each within ih calm.insideLoop)
  | doWhile b c ih => exact raises_doWhileLoop calm (raises_all_of_each within ih calm.insideLoop) n
  | forStmt i c u b ihi ihb =>
    simp only [jumpsWithin,Bool.and_eq_true] at within
    refine Run.Raises.bind ?_ fun _ => raises_whileLoop calm (raises_all_of_each within.2 ihb calm.insideLoop)
    cases i with
    | none => exact Run.Raises.pure ()
    | some s => exact ihi s rfl [] within.1 calm
  | labeled l b ih =>
    refine (ih (l :: labels) within calm).observe fun r known => ?_
    unfold catchLabel
    split
    · exact Run.Raises.ite (fun _ => Run.Raises.pure ()) fun _ => Run.Raises.raise (known _ rfl)
    · exact Run.Raises.ite (fun _ => Run.Raises.pure ()) fun _ => Run.Raises.raise (known _ rfl)
    · exact raises_complete known
  | breakStmt => exact Run.Raises.raise within
  | continueStmt => exact Run.Raises.raise within
  | labeledBreak l => exact Run.Raises.raise within
  | labeledContinue l => exact Run.Raises.raise within
  | tryStmt b h f ihb ihh ihf =>
    simp only [jumpsWithin,Bool.and_eq_true] at within
    have handled : Run.Raises (allowed · = true) ((execList host mode n [] b).observe (execCatch host mode n h)) := by
      refine (raises_all_of_each within.1.1 ihb calm).observe fun r known => ?_
      cases h with
      | none => exact raises_complete known
      | some c =>
        rcases c with ⟨param,body⟩
        unfold execCatch
        split
        · exact Run.Raises.bind (calm.perform _) fun _ => raises_all_of_each within.1.2 (ihh _ rfl) calm
        · exact raises_complete known
    cases f with
    | none => exact handled
    | some fin =>
      refine handled.observe fun r known => Run.Raises.ite (fun _ => ?_) fun _ => raises_complete known
      exact Run.Raises.bind (raises_all_of_each within.2 (ihf _ rfl) calm) fun _ => raises_complete known
  | switch d cases ih =>
    have bodies (k : Nat) : Run.Raises (insideSwitch allowed · = true) (execFrom host mode n k cases) := by
      simp only [jumpsWithin] at within
      induction cases generalizing k with
      | nil => cases k <;> exact Run.Raises.pure ()
      | cons c cases ihc =>
        rcases c with ⟨test,body⟩
        simp only [jumpsWithinCases,Bool.and_eq_true] at within
        have rest := ihc (fun c member => ih c (by simp [member])) within.2
        cases k with
        | zero =>
          exact Run.Raises.bind (raises_all_of_each within.1 (ih (.mk test body) (by simp)) calm.insideSwitch) fun _ => rest 0
        | succ k => exact rest k
    refine Run.Raises.bind (calm.perform _) fun k => ?_
    cases k.or (defaultCase cases) with
    | none => exact Run.Raises.pure ()
    | some k =>
      refine (bodies k).observe fun r known => ?_
      unfold catchBreak
      split
      · exact Run.Raises.pure ()
      · next plain =>
        refine raises_complete fun c same => ?_
        have this := known c same
        simp only [insideSwitch,Bool.or_eq_true,beq_iff_eq] at this
        rcases this with holds | rfl
        · exact holds
        · exact absurd same plain
  | preallocateBoxes ids => exact calm.perform _
  | preallocateTdzBoxes ids => exact calm.perform _
  | releaseBoxes ids => exact calm.perform _

theorem raises_jumpsAll {ss : List Stmt} (labels : List String) (within : jumpsWithinAll allowed ss = true)
    (calm : Calm allowed) : Run.Raises (allowed · = true) (execList host mode n labels ss) :=
  raises_all_of_each within (fun _ _ _ labels within calm => raises_jumps labels within calm) calm

end raises

end Perry.Hir
