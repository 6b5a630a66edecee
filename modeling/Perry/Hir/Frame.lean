import Mathlib.Data.List.Forall2
import Perry.Hir.Semantics

/-! The locals a program can read and write, and the frame rule: a relation
between two states that fixes the world and the locals read, and survives equal
writes, is kept by running the program on both sides, whatever it says about every
other local. -/
namespace Perry.Hir

open Perry.Effect

inductive Access where
  | read (id : LocalId)
  | write (id : LocalId)
  deriving DecidableEq, Repr

def Access.id : Access → LocalId
  | read id | write id => id

def WithSetFallback.accesses : WithSetFallback → List Access
  | .local id | .sloppyImplicit id => [.write id]
  | _ => []

mutual

/-- The locals an evaluation may read or write. The body of a closure runs in
another activation and reaches this one's locals through captures only. -/
def Expr.accesses : Expr → List Access
  | .lit _ => []
  | .localGet id => [.read id]
  | .localSet id value => .write id :: value.accesses
  | .update id _ _ => [.read id,.write id]
  | .strict _ args => accessesOfList args
  | .logical _ left right => left.accesses ++ right.accesses
  | .conditional c t e => c.accesses ++ t.accesses ++ e.accesses
  | .sequence items => accessesOfList items
  | .arrayMut _ id args => .read id :: accessesOfList args
  | .withSet object _ value fallback _ => object.accesses ++ value.accesses ++ fallback.accesses
  | .closure _ _ _ captures _ _ _ => captures.map .read
  | .await operand => operand.accesses
  | .yield value _ => accessesOfOption value

def accessesOfList : List Expr → List Access
  | [] => []
  | e :: es => e.accesses ++ accessesOfList es

def accessesOfOption : Option Expr → List Access
  | none => []
  | some e => e.accesses

end

section

-- equations, made here once and not by the first proofs that unfold these
attribute [local simp] Expr.accesses accessesOfList accessesOfOption

end

mutual

def Stmt.accesses : Stmt → List Access
  | .let id _ init => .write id :: accessesOfOption init
  | .expr e => e.accesses
  | .return value => accessesOfOption value
  | .if c t e => c.accesses ++ accessesOfStmts t ++ accessesOfBlock e
  | .while c b => c.accesses ++ accessesOfStmts b
  | .doWhile b c => accessesOfStmts b ++ c.accesses
  | .for i c u b => accessesOfInit i ++ accessesOfOption c ++ accessesOfOption u ++ accessesOfStmts b
  | .labeled _ s => s.accesses
  | .throw e => e.accesses
  | .try b h f => accessesOfStmts b ++ accessesOfCatch h ++ accessesOfBlock f
  | .switch d cases => d.accesses ++ accessesOfCases cases
  | _ => []

def accessesOfStmts : List Stmt → List Access
  | [] => []
  | s :: ss => s.accesses ++ accessesOfStmts ss

def accessesOfInit : Option Stmt → List Access
  | none => []
  | some s => s.accesses

def accessesOfCatch : Option CatchClause → List Access
  | none => []
  | some (.mk param body) => param.toList.map .write ++ accessesOfStmts body

def accessesOfBlock : Option (List Stmt) → List Access
  | none => []
  | some body => accessesOfStmts body

def accessesOfCases : List SwitchCase → List Access
  | [] => []
  | .mk test body :: cases => accessesOfOption test ++ accessesOfStmts body ++ accessesOfCases cases

end

section

-- equations, made here once and not by the first proofs that unfold these
attribute [local simp] Stmt.accesses accessesOfStmts accessesOfInit
  accessesOfCatch accessesOfBlock accessesOfCases

end

theorem accessesOfBlock_eq (block : Option (List Stmt)) : accessesOfBlock block = accessesOfStmts (block.getD []) := by
  cases block <;> rfl

theorem mem_accessesOfList {a : Access} {es : List Expr} :
    a ∈ accessesOfList es ↔ ∃ e ∈ es, a ∈ e.accesses := by
  induction es with
  | nil => simp [accessesOfList]
  | cons e es ih => simp [accessesOfList,ih]

theorem mem_accessesOfStmts {a : Access} {ss : List Stmt} :
    a ∈ accessesOfStmts ss ↔ ∃ s ∈ ss, a ∈ s.accesses := by
  induction ss with
  | nil => simp [accessesOfStmts]
  | cons s ss ih => simp [accessesOfStmts,ih]

theorem mem_accessesOfCases {a : Access} {cases : List SwitchCase} :
    a ∈ accessesOfCases cases ↔
      ∃ c ∈ cases, a ∈ accessesOfOption c.test ∨ a ∈ accessesOfStmts c.body := by
  induction cases with
  | nil => simp [accessesOfCases]
  | cons c cases ih =>
    cases c with
    | mk test body => simp [accessesOfCases,ih,or_assoc]

variable {W : Type}

/-- A relation that identifies the world and the locals that may be read, and
survives equal changes to the world and to the locals that may be written, and any
change to the ghost trace. -/
structure Framed (allowed : Access → Prop) (R : State W → State W → Prop) : Prop where
  locals : ∀ {s t id}, R s t → allowed (.read id) → s.store id = t.store id
  worlds : ∀ {s t}, R s t → s.world = t.world
  assign : ∀ {s t id} (v : Val), R s t → allowed (.write id) →
    R { s with store := Function.update s.store id v } { t with store := Function.update t.store id v }
  advance : ∀ {s t} (w : W), R s t → R { s with world := w } { t with world := w }
  forget : ∀ {s t} (a b : List Event), R s t → R { s with trace := a } { t with trace := b }

section congruence

variable {R : State W → State W → Prop} {host host' : Host W}

theorem Keeps.evalArgs {args args' : List Expr}
    (each : List.Forall₂ (fun a b => Keeps R (eval host a) (eval host' b)) args args') :
    Keeps R (evalArgs host args) (evalArgs host' args') := by
  induction each with
  | nil => exact Keeps.pure []
  | cons first _ ih => exact first.bind fun v => ih.bind fun vs => Keeps.pure _

theorem Keeps.evalSequence {items items' : List Expr}
    (each : List.Forall₂ (fun a b => Keeps R (eval host a) (eval host' b)) items items') (last : Val) :
    Keeps R (evalSequence host last items) (evalSequence host' last items') := by
  induction each generalizing last with
  | nil => exact Keeps.pure last
  | cons first _ ih => exact first.bind fun v => ih v

theorem Keeps.complete {α : Type} (r : Except Comp α) :
    Keeps R (complete r : Act W α) (complete r : Act W α) := by
  cases r with
  | error c => exact Keeps.raise c
  | ok a => exact Keeps.pure a

theorem Keeps.loopAgain (labels : List String) (r : Except Comp Unit) :
    Keeps R (loopAgain labels r : Act W Bool) (loopAgain labels r : Act W Bool) := by
  unfold Hir.loopAgain
  split
  · exact Keeps.pure true
  · exact Keeps.pure true
  · exact Keeps.ite (fun _ => Keeps.pure true) fun _ => Keeps.raise _
  · exact Keeps.pure false
  · exact Keeps.raise _

theorem Keeps.catchBreak (r : Except Comp Unit) :
    Keeps R (catchBreak r : Act W Unit) (catchBreak r : Act W Unit) := by
  unfold Hir.catchBreak
  split
  · exact Keeps.pure ()
  · exact Keeps.complete _

theorem Keeps.catchLabel (label : String) (r : Except Comp Unit) :
    Keeps R (catchLabel label r : Act W Unit) (catchLabel label r : Act W Unit) := by
  unfold Hir.catchLabel
  split
  · exact Keeps.ite (fun _ => Keeps.pure ()) fun _ => Keeps.raise _
  · exact Keeps.ite (fun _ => Keeps.pure ()) fun _ => Keeps.raise _
  · exact Keeps.complete _

theorem Keeps.perform {α : Type} {m l : Eval W α} (same : Keeps R m l) :
    Keeps R (perform m) (perform l) := same.mapError _

theorem Keeps.execList {mode mode' : Mode} {n : Nat} {labels : List String} {ss ss' : List Stmt}
    (each : List.Forall₂ (fun s t => Keeps R (exec host mode n labels s) (exec host' mode' n labels t)) ss ss') :
    Keeps R (execList host mode n labels ss) (execList host' mode' n labels ss') := by
  induction each with
  | nil => exact Keeps.pure ()
  | cons first _ ih => exact first.bind fun _ => ih

theorem Keeps.execFrom {mode mode' : Mode} {n : Nat} {cases cases' : List SwitchCase}
    (each : List.Forall₂ (fun c d => Keeps R (Hir.execList host mode n [] c.body)
      (Hir.execList host mode' n [] d.body)) cases cases') (k : Nat) :
    Keeps R (execFrom host mode n k cases) (execFrom host mode' n k cases') := by
  induction each generalizing k with
  | nil => cases k <;> exact Keeps.pure ()
  | @cons c d _ _ first _ ih =>
    cases c with
    | mk test body =>
      cases d with
      | mk test' body' =>
        cases k with
        | zero => exact Keeps.bind first fun _ => ih 0
        | succ k => exact ih k

theorem Keeps.finalize {mode : Mode} {f f' : Act W Unit} (finals : Keeps R f f')
    (r : Except Comp Unit) : Keeps R (finalize mode f r) (finalize mode f' r) :=
  Keeps.ite (fun _ => finals.bind fun _ => Keeps.complete r) fun _ => Keeps.complete r

end congruence

namespace Framed

variable {allowed : Access → Prop} {R : State W → State W → Prop} (framed : Framed allowed R) (host : Host W)
include framed

theorem lift {α : Type} (m : Run W Signal α) : Keeps R (Host.lift m) (Host.lift m) := by
  intro s t h
  have same := framed.worlds h
  unfold Host.lift
  rw [same]
  rcases m t.world with ⟨_ | a,w⟩
  · exact ⟨rfl,framed.advance w h⟩
  · exact ⟨rfl,framed.advance w h⟩

theorem emit {ε : Type} (e f : Event) :
    Keeps R (emit e : Run (State W) ε Unit) (Hir.emit f : Run (State W) ε Unit) :=
  fun _ _ h => ⟨rfl,framed.forget _ _ h⟩

theorem setStore {id : LocalId} (writable : allowed (.write id)) (v : Val) :
    Keeps R (setStore id v) (Hir.setStore id v) :=
  fun _ _ h => ⟨rfl,framed.assign v h writable⟩

theorem fetchLocal {id : LocalId} (readable : allowed (.read id)) :
    Keeps R (fetchLocal host id) (Hir.fetchLocal host id) := by
  unfold Hir.fetchLocal
  refine Keeps.ite (fun _ => framed.lift _) fun _ => ?_
  intro s t h
  exact ⟨framed.locals h readable,h⟩

theorem readLocal {id : LocalId} (readable : allowed (.read id)) :
    Keeps R (readLocal host id) (Hir.readLocal host id) :=
  (framed.emit _ _).bind fun _ => framed.fetchLocal host readable

theorem storeLocal {id : LocalId} (writable : allowed (.write id)) (v : Val) :
    Keeps R (storeLocal host id v) (Hir.storeLocal host id v) :=
  Keeps.ite (fun _ => framed.lift _) fun _ => framed.setStore writable v

theorem writeLocal {id : LocalId} (writable : allowed (.write id)) (v : Val) :
    Keeps R (writeLocal host id v) (Hir.writeLocal host id v) :=
  (framed.emit _ _).bind fun _ => framed.storeLocal host writable v

theorem declareLocal {id : LocalId} (writable : allowed (.write id)) (v : Val) :
    Keeps R (declareLocal host id v) (Hir.declareLocal host id v) :=
  (framed.emit _ _).bind fun _ => Keeps.ite (fun _ => framed.lift _) fun _ => framed.setStore writable v

theorem applyOp (op : Op) (vs : List Val) : Keeps R (applyOp host op vs) (Hir.applyOp host op vs) := by
  unfold Hir.applyOp
  cases op.pure? vs with
  | none => exact framed.lift _
  | some v => exact Keeps.pure v

theorem withStore {fallback : WithSetFallback} (inside : ∀ a ∈ fallback.accesses, allowed a) (object v : Val)
    (property : String) (strict : Bool) :
    Keeps R (withStore host object property v fallback strict)
      (Hir.withStore host object property v fallback strict) := by
  refine (framed.applyOp host _ _).bind fun has => Keeps.ite (fun _ => framed.applyOp host _ _) fun _ => ?_
  cases fallback with
  | «local» id =>
    exact (framed.writeLocal host (inside (.write id) (by simp [WithSetFallback.accesses])) v).bind fun _ => Keeps.pure v
  | sloppyImplicit id =>
    exact (framed.writeLocal host (inside (.write id) (by simp [WithSetFallback.accesses])) v).bind fun _ => Keeps.pure v
  | ignore => exact Keeps.pure v
  | throwReferenceError => exact framed.lift _
  | throwConstAssignment => exact framed.lift _

theorem updateLocal {id : LocalId} (readable : allowed (.read id)) (writable : allowed (.write id))
    (op : UpdateOp) (pre : Bool) : Keeps R (updateLocal host id op pre) (Hir.updateLocal host id op pre) :=
  (framed.readLocal host readable).bind fun _ => (framed.applyOp host _ _).bind fun _ =>
    (framed.applyOp host _ _).bind fun _ => (framed.writeLocal host writable _).bind fun _ => Keeps.pure _

theorem captureLocals {ids : List LocalId} (inside : ∀ id ∈ ids, allowed (.read id)) :
    Keeps R (captureLocals host ids) (Hir.captureLocals host ids) := by
  induction ids with
  | nil => exact Keeps.pure []
  | cons id ids ih =>
    have first := framed.readLocal host (inside id (by simp))
    refine Keeps.bind (Keeps.ite (fun _ => Keeps.pure _) fun _ => first) fun v => ?_
    exact (ih fun i member => inside i (by simp [member])).bind fun vs => Keeps.pure _

theorem suspendOn (m : Run W Signal Val) : Keeps R (suspendOn m) (Hir.suspendOn m) :=
  (framed.emit _ _).bind fun _ => framed.lift m

/-- The frame rule for expressions. -/
theorem eval {e : Expr} (inside : ∀ a ∈ e.accesses, allowed a) : Keeps R (eval host e) (Hir.eval host e) := by
  have members (es : List Expr) (inside : ∀ a ∈ accessesOfList es, allowed a) :
      ∀ e ∈ es, ∀ a ∈ e.accesses, allowed a := by
    intro e member id touched
    exact inside id (mem_accessesOfList.mpr ⟨e,member,touched⟩)
  induction e using Expr.induct with
  | lit l => exact Keeps.pure _
  | localGet id => exact framed.readLocal host (inside (.read id) (by simp [Expr.accesses]))
  | localSet id value ih =>
    simp only [Expr.accesses,List.mem_cons,forall_eq_or_imp] at inside
    exact (ih inside.2).bind fun v => (framed.writeLocal host inside.1 v).bind fun _ => Keeps.pure v
  | update id op pre => exact framed.updateLocal host (inside (.read id) (by simp [Expr.accesses])) (inside (.write id) (by simp [Expr.accesses])) op pre
  | strict op args ih =>
    refine Keeps.bind (Keeps.evalArgs ?_) fun vs => framed.applyOp host op vs
    exact List.forall₂_same.mpr fun a member => ih a member (members args inside a member)
  | logical op left right ihl ihr =>
    simp only [Expr.accesses,List.mem_append] at inside
    refine (ihl fun id h => inside id (.inl h)).bind fun v => ?_
    exact Keeps.ite (fun _ => Keeps.pure v) fun _ => ihr fun id h => inside id (.inr h)
  | conditional c t e ihc iht ihe =>
    simp only [Expr.accesses,List.mem_append] at inside
    refine (ihc fun id h => inside id (.inl (.inl h))).bind fun v => ?_
    exact Keeps.ite (fun _ => iht fun id h => inside id (.inl (.inr h)))
      fun _ => ihe fun id h => inside id (.inr h)
  | sequence items ih =>
    refine Keeps.evalSequence ?_ _
    exact List.forall₂_same.mpr fun a member => ih a member (members items inside a member)
  | arrayMut kind id args ih =>
    simp only [Expr.accesses,List.mem_cons,forall_eq_or_imp] at inside
    refine (framed.readLocal host inside.1).bind fun r => ?_
    refine Keeps.bind (Keeps.evalArgs ?_) fun vs => framed.applyOp host _ _
    exact List.forall₂_same.mpr fun a member => ih a member (members args inside.2 a member)
  | withSet object property value fallback strict iho ihv =>
    simp only [Expr.accesses,List.mem_append] at inside
    refine (iho fun id h => inside id (.inl (.inl h))).bind fun o => ?_
    refine (ihv fun id h => inside id (.inl (.inr h))).bind fun v => ?_
    exact framed.withStore host (fun id h => inside id (.inr h)) o v property strict
  | closure funcId params defaults captures mutableCaptures flags body _ =>
    refine Keeps.bind (framed.captureLocals host fun id member => ?_) fun vs => framed.lift _
    exact inside (.read id) (List.mem_map_of_mem member)
  | await operand ih => exact (ih inside).bind fun v => framed.suspendOn _
  | yieldNone delegate => exact (Keeps.pure _).bind fun v => framed.suspendOn _
  | yieldSome value delegate ih => exact (ih inside).bind fun v => framed.suspendOn _

theorem evalOption {e : Option Expr} (inside : ∀ a ∈ accessesOfOption e, allowed a) :
    Keeps R (evalOption host e) (Hir.evalOption host e) := by
  cases e with
  | none => exact Keeps.pure _
  | some e => exact framed.eval host inside

theorem evalTest {e : Expr} (inside : ∀ a ∈ e.accesses, allowed a) :
    Keeps R (evalTest host e) (Hir.evalTest host e) :=
  (framed.eval host inside).bind fun _ => Keeps.pure _

theorem evalTest? {e : Option Expr} (inside : ∀ a ∈ accessesOfOption e, allowed a) :
    Keeps R (evalTest? host e) (Hir.evalTest? host e) := by
  cases e with
  | none => exact Keeps.pure _
  | some e => exact framed.evalTest host inside

theorem evalDiscard {e : Option Expr} (inside : ∀ a ∈ accessesOfOption e, allowed a) :
    Keeps R (evalDiscard host e) (Hir.evalDiscard host e) := by
  cases e with
  | none => exact Keeps.pure _
  | some e => exact (framed.eval host inside).bind fun _ => Keeps.pure _

theorem whileLoop {labels : List String} {b b' : List Stmt} {test test' : Eval W Bool}
    {run run' : Act W Unit} {next next' : Eval W Unit} (tests : Keeps R test test') (runs : Keeps R run run')
    (nexts : Keeps R next next') (n : Nat) :
    Keeps R (whileLoop n labels b test run next) (Hir.whileLoop n labels b' test' run' next') := by
  refine Keeps.iterate ((Keeps.perform tests).bind fun go => Keeps.ite (fun _ => ?_) fun _ => Keeps.pure false) n
  refine (framed.emit _ _).bind fun _ => (runs.observe fun r => Keeps.loopAgain labels r).bind fun again => ?_
  exact Keeps.ite (fun _ => (Keeps.perform nexts).bind fun _ => Keeps.pure true) fun _ => Keeps.pure false

theorem doWhileLoop {labels : List String} {b b' : List Stmt} {test test' : Eval W Bool}
    {run run' : Act W Unit} (runs : Keeps R run run') (tests : Keeps R test test') (n : Nat) :
    Keeps R (doWhileLoop labels b run test n) (Hir.doWhileLoop labels b' run' test' n) := by
  cases n with
  | zero => exact Keeps.raise _
  | succ n =>
    refine (framed.emit _ _).bind fun _ => (runs.observe fun r => Keeps.loopAgain labels r).bind fun again => ?_
    exact Keeps.ite (fun _ => framed.whileLoop tests runs (Keeps.pure ()) n) fun _ => Keeps.pure ()

theorem bindParam (param : Option LocalId) (inside : ∀ id ∈ param, allowed (.write id)) (v : Val) :
    Keeps R (bindParam host param v) (Hir.bindParam host param v) := by
  cases param with
  | none => exact Keeps.pure ()
  | some id => exact framed.declareLocal host (inside id rfl) v

theorem selectCase {cases : List SwitchCase} (inside : ∀ a ∈ accessesOfCases cases, allowed a) (v : Val) :
    Keeps R (selectCase host v cases) (Hir.selectCase host v cases) := by
  induction cases with
  | nil => exact Keeps.pure none
  | cons c cases ih =>
    cases c with
    | mk test body =>
      simp only [accessesOfCases,List.mem_append] at inside
      have rest := (ih fun id h => inside id (.inr h)).bind fun k => Keeps.pure (k.map (· + 1))
      cases test with
      | none => exact rest
      | some t =>
        refine (framed.eval host fun id h => inside id (.inl (.inl h))).bind fun w => ?_
        exact Keeps.ite (fun _ => Keeps.pure _) fun _ => rest

section exec

variable (mode : Mode) (n : Nat)

/-- The frame rule for statements. -/
theorem exec {s : Stmt} (inside : ∀ a ∈ s.accesses, allowed a) (labels : List String) :
    Keeps R (exec host mode n labels s) (Hir.exec host mode n labels s) := by
  have members (ss : List Stmt) (inside : ∀ a ∈ accessesOfStmts ss, allowed a)
      (ih : ∀ s ∈ ss, (∀ a ∈ s.accesses, allowed a) → ∀ labels,
        Keeps R (Hir.exec host mode n labels s) (Hir.exec host mode n labels s)) (labels : List String) :
      Keeps R (execList host mode n labels ss) (execList host mode n labels ss) := by
    refine Keeps.execList (List.forall₂_same.mpr fun s member => ?_)
    exact ih s member (fun id touched => inside id (mem_accessesOfStmts.mpr ⟨s,member,touched⟩)) labels
  induction s using Stmt.induct generalizing labels with
  | letNone id m =>
    refine Keeps.perform ((Keeps.pure _).bind fun v => ?_)
    exact framed.declareLocal host (inside (.write id) (by simp [Stmt.accesses])) v
  | letSome id m e =>
    simp only [Stmt.accesses,List.mem_cons,forall_eq_or_imp] at inside
    exact Keeps.perform ((framed.eval host inside.2).bind fun v => framed.declareLocal host inside.1 v)
  | expr e => exact Keeps.perform ((framed.eval host inside).bind fun _ => Keeps.pure ())
  | returnStmt value => exact (Keeps.perform (framed.evalOption host inside)).bind fun v => Keeps.raise _
  | ifStmt c t e iht ihe =>
    simp only [Stmt.accesses,accessesOfBlock_eq,List.mem_append] at inside
    rw [exec_if]
    refine (Keeps.perform (framed.evalTest host fun id h => inside id (.inl (.inl h)))).bind fun v => ?_
    exact Keeps.ite (fun _ => members t (fun id h => inside id (.inl (.inr h))) iht labels)
      fun _ => members (e.getD []) (fun id h => inside id (.inr h)) ihe labels
  | whileStmt c b ih =>
    simp only [Stmt.accesses,List.mem_append] at inside
    exact framed.whileLoop (framed.evalTest host fun id h => inside id (.inl h))
      (members b (fun id h => inside id (.inr h)) ih []) (Keeps.pure ()) n
  | doWhile b c ih =>
    simp only [Stmt.accesses,List.mem_append] at inside
    exact framed.doWhileLoop (members b (fun id h => inside id (.inl h)) ih [])
      (framed.evalTest host fun id h => inside id (.inr h)) n
  | forStmt i c u b ihi ihb =>
    simp only [Stmt.accesses,List.mem_append] at inside
    have start : Keeps R (execOption host mode n i) (execOption host mode n i) := by
      cases i with
      | none => exact Keeps.pure ()
      | some s => exact ihi s rfl (fun id h => inside id (.inl (.inl (.inl h)))) []
    refine start.bind fun _ => ?_
    exact framed.whileLoop (framed.evalTest? host fun id h => inside id (.inl (.inl (.inr h))))
      (members b (fun id h => inside id (.inr h)) ihb [])
      (framed.evalDiscard host fun id h => inside id (.inl (.inr h))) n
  | labeled l b ih => exact (ih inside _).observe fun r => Keeps.catchLabel l r
  | breakStmt => exact Keeps.raise _
  | continueStmt => exact Keeps.raise _
  | labeledBreak l => exact Keeps.raise _
  | labeledContinue l => exact Keeps.raise _
  | throwStmt e => exact (Keeps.perform (framed.eval host inside)).bind fun v => Keeps.raise _
  | tryStmt b h f ihb ihh ihf =>
    simp only [Stmt.accesses,List.mem_append] at inside
    have body := members b (fun id h => inside id (.inl (.inl h))) ihb []
    have handler (r : Except Comp Unit) : Keeps R (execCatch host mode n h r) (execCatch host mode n h r) := by
      cases h with
      | none => exact Keeps.complete r
      | some c =>
        cases c with
        | mk param handlerBody =>
          simp only [accessesOfCatch,List.mem_append] at inside
          have rest := members handlerBody (fun id h => inside id (.inl (.inr (.inr h)))) (ihh _ rfl) []
          have bound := framed.bindParam host _ fun id h =>
            inside (.write id) (.inl (.inr (.inl (List.mem_map_of_mem (Option.mem_toList.mpr h)))))
          simp only [execCatch]
          split
          · exact (Keeps.perform (bound _)).bind fun _ => rest
          · exact Keeps.complete _
    cases f with
    | none => exact body.observe handler
    | some fin =>
      have final := members fin (fun id h => inside id (.inr h)) (ihf _ rfl) []
      exact (body.observe handler).observe fun r => Keeps.finalize final r
  | switch d cases ih =>
    simp only [Stmt.accesses,List.mem_append] at inside
    have selected : Keeps R (do let v ← Hir.eval host d; Hir.selectCase host v cases)
        (do let v ← Hir.eval host d; Hir.selectCase host v cases) :=
      (framed.eval host fun id h => inside id (.inl h)).bind fun v =>
        framed.selectCase host (fun id h => inside id (.inr h)) v
    refine (Keeps.perform selected).bind fun k => ?_
    cases k.or (defaultCase cases) with
    | none => exact Keeps.pure ()
    | some k =>
      refine Keeps.observe (Keeps.execFrom (List.forall₂_same.mpr fun c member => ?_) k)
        fun r => Keeps.catchBreak r
      refine members c.body (fun id h => inside id (.inr ?_)) (ih c member) []
      exact mem_accessesOfCases.mpr ⟨c,member,.inr h⟩
  | preallocateBoxes ids => exact Keeps.perform (Keeps.forM ids fun id => framed.lift _)
  | preallocateTdzBoxes ids => exact Keeps.perform (Keeps.forM ids fun id => framed.lift _)
  | releaseBoxes ids => exact Keeps.perform (Keeps.forM ids fun id => framed.lift _)

theorem execList {ss : List Stmt} (inside : ∀ a ∈ accessesOfStmts ss, allowed a) (labels : List String) :
    Keeps R (execList host mode n labels ss) (Hir.execList host mode n labels ss) := by
  refine Keeps.execList (List.forall₂_same.mpr fun s member => framed.exec host mode n ?_ labels)
  intro id touched
  exact inside id (mem_accessesOfStmts.mpr ⟨s,member,touched⟩)

end exec

end Framed

/-- Equal worlds and equal locals below `bound`. The second program may use the
locals from `bound` on for itself; those in `kept` still are as in `temps`. -/
structure Agrees (bound : LocalId) (kept : LocalId → Prop) (temps : LocalId → Val) (s t : State W) :
    Prop where
  locals : ∀ id < bound, s.store id = t.store id
  worlds : s.world = t.world
  temps : ∀ id, bound ≤ id → kept id → t.store id = temps id

section temporaries

variable {host : Host W} {bound id : LocalId} {kept : LocalId → Prop} {temps : LocalId → Val}

theorem framed_agrees (bound : LocalId) (kept : LocalId → Prop) (temps : LocalId → Val) :
    Framed (W := W) (·.id < bound) (Agrees bound kept temps) where
  locals h inside := h.locals _ inside
  worlds h := h.worlds
  assign {s t id} v h inside := by
    refine ⟨fun i small => ?_,h.worlds,fun i large keeps => ?_⟩
    · by_cases same : i = id
      · subst same
        simp
      · simpa [Function.update_of_ne same] using h.locals i small
    · have apart : i ≠ id := fun same => Nat.not_lt.mpr large (same ▸ inside)
      simpa [Function.update_of_ne apart] using h.temps i large keeps
  advance w h := ⟨h.locals,rfl,h.temps⟩
  forget a b h := ⟨h.locals,h.worlds,h.temps⟩

theorem declareLocal_unboxed (unboxed : host.boxed id = false) (v : Val) (t : State W) :
    declareLocal host id v t = (.ok (),{ t with store := Function.update t.store id v
                                                trace := .declare id v :: t.trace }) := by
  simp only [declareLocal,unboxed]
  rfl

theorem writeLocal_unboxed (unboxed : host.boxed id = false) (v : Val) (t : State W) :
    writeLocal host id v t = (.ok (),{ t with store := Function.update t.store id v
                                              trace := .write id v :: t.trace }) := by
  simp only [writeLocal,storeLocal,unboxed]
  rfl

theorem readLocal_unboxed (unboxed : host.boxed id = false) (t : State W) :
    readLocal host id t = (.ok (t.store id),{ t with trace := .read id :: t.trace }) := by
  simp only [readLocal,fetchLocal,unboxed]
  rfl

variable {ε α : Type} {post : α → α → State W → State W → Prop} {fail : ε → ε → State W → State W → Prop}
  {m l : Run (State W) ε α}

/-- A fresh temporary of the second program takes a value. -/
theorem Sim.declareTemp (unboxed : host.boxed id = false) (large : bound ≤ id) (v : Val) (f : Signal → ε)
    (rest : Sim (Agrees bound kept (Function.update temps id v)) post fail m l) :
    Sim (Agrees bound kept temps) post fail m
      ((declareLocal host id v).mapError f >>= fun _ => l) := by
  intro s t h
  rw [Run.bind_ok (by rw [Run.mapError,declareLocal_unboxed unboxed])]
  refine rest _ _ ⟨fun i small => ?_,h.worlds,fun i wide keeps => ?_⟩
  · have apart : i ≠ id := fun same => Nat.not_lt.mpr large (same ▸ small)
    simpa [Function.update_of_ne apart] using h.locals i small
  · by_cases same : i = id
    · subst same
      simp
    · simpa [Function.update_of_ne same] using h.temps i wide keeps

/-- A temporary is read back. -/
theorem Sim.readTemp (unboxed : host.boxed id = false) (large : bound ≤ id) (keeps : kept id)
    (f : Signal → ε) {k : Val → Run (State W) ε α}
    (rest : Sim (Agrees bound kept temps) post fail m (k (temps id))) :
    Sim (Agrees bound kept temps) post fail m ((readLocal host id).mapError f >>= k) := by
  intro s t h
  rw [Run.bind_ok (by rw [Run.mapError,readLocal_unboxed unboxed])]
  rw [h.temps id large keeps]
  exact rest _ _ ⟨h.locals,h.worlds,h.temps⟩

/-- The temporaries of the second program can be named before it starts. -/
theorem Sim.nameTemps (run : ∀ temps, Sim (Agrees bound (fun _ => True) temps) post fail m l) :
    Sim (Agrees bound kept temps) post fail m l :=
  fun s t h => run t.store s t ⟨h.locals,h.worlds,fun _ _ _ => rfl⟩

end temporaries

/-- A computation that keeps some temporaries can be used where fewer are known. -/
theorem Keeps.loosen {ε α : Type} {bound : LocalId} {kept kept' : LocalId → Prop} {m l : Run (State W) ε α}
    (same : ∀ temps, Keeps (Agrees bound kept temps) m l) (implied : ∀ id, kept' id → kept id)
    (temps : LocalId → Val) : Keeps (Agrees bound kept' temps) m l := by
  refine Keeps.of_apply fun s t h => ?_
  obtain ⟨equal,related⟩ := (same t.store).apply ⟨h.locals,h.worlds,fun _ _ _ => rfl⟩
  refine ⟨equal,related.locals,related.worlds,fun id large keeps => ?_⟩
  rw [related.temps id large (implied id keeps)]
  exact h.temps id large keeps

variable {W : Type}

theorem raises_perform {α : Type} {Q : Comp → Prop} (signals : ∀ s : Signal, Q s.comp) (m : Eval W α) :
    Run.Raises Q (perform m) := by
  intro s c
  rw [perform,Run.mapError]
  rcases m s with ⟨signal | a,t⟩ <;> intro ended
  · cases ended
    exact signals signal
  · cases ended

end Perry.Hir
