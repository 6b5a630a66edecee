import Perry.Hir.Escapes
import Perry.Hir.Jumps
import Perry.Transform.SwitchDesugar

/-! The desugared switch runs as the switch does, whenever the `finally` blocks of its
case bodies let its breaks pass. -/
namespace Perry.Transform.SwitchDesugar

open Perry.Effect Perry.Hir Perry.Transform
open Perry.Transform.FinallyInline (stops)

section condition

variable {W : Type} (host : Host W) (n : Nat)

/-- The block after a try neither stops a break for the switch, nor takes one in place of
another completion. -/
structure LetsBreaksPass (b : List Stmt) (h : Option CatchClause) (f : List Stmt) : Prop where
  broke : ∀ s t, (execList host .ecma n [] b).observe (execCatch host .ecma n h) s = (.error (.break none),t) →
    stmtsMayBreakSwitch f = false ∧ ∀ c u, execList host .ecma n [] f t = (.error c,u) → stops c
  left : ∀ s c t, (execList host .ecma n [] b).observe (execCatch host .ecma n h) s = (.error c,t) →
    c ≠ .break none → ¬stops c → ∀ u, execList host .ecma n [] f t ≠ (.error (.break none),u)

mutual

/-- Every break for the switch reaches it through the ifs and tries around it; a label
stands on a statement that takes its own breaks, and a loop is not entered by one. -/
def BreaksReach : Stmt → Prop
  | .if _ t e => AllBreaksReach t ∧ BlockBreaksReach e
  | .try b h f => AllBreaksReach b ∧ CatchBreaksReach h ∧ BlockBreaksReach f ∧ ∀ body ∈ f, LetsBreaksPass host n b h body
  | .labeled _ s => jumpsWithin (· != .break none) s = true
  | .for i _ _ _ => jumpsWithinInit (· != .break none) i = true
  | _ => True

def AllBreaksReach : List Stmt → Prop
  | [] => True
  | s :: ss => BreaksReach s ∧ AllBreaksReach ss

def CatchBreaksReach : Option CatchClause → Prop
  | none => True
  | some (.mk _ body) => AllBreaksReach body

def BlockBreaksReach : Option (List Stmt) → Prop
  | none => True
  | some body => AllBreaksReach body

end

section

-- equations, made here once and not by the first proofs that unfold these
attribute [local simp] BreaksReach AllBreaksReach CatchBreaksReach BlockBreaksReach

end

variable {host n}

theorem blockBreaksReach_eq (block : Option (List Stmt)) :
    BlockBreaksReach host n block ↔ AllBreaksReach host n (block.getD []) := by
  cases block <;> rfl

theorem allBreaksReach_iff {ss : List Stmt} : AllBreaksReach host n ss ↔ ∀ s ∈ ss, BreaksReach host n s := by
  induction ss with
  | nil => simp [AllBreaksReach]
  | cons s ss ih => simp [AllBreaksReach,ih]

end condition

section jumps

variable {W : Type} {host : Host W} {n : Nat}

theorem insideLoop_any (c : Comp) : insideLoop (· != .break none) c = true := by
  by_cases plain : c = .break none
  · subst plain
    rfl
  · simp [insideLoop,plain]

theorem insideSwitch_any (c : Comp) : insideSwitch (· != .break none) c = true := by
  by_cases plain : c = .break none
  · subst plain
    rfl
  · simp [insideSwitch,plain]

private theorem jumpsWithinAll_of_each {allowed : Comp → Bool} {ss : List Stmt}
    (each : ∀ s ∈ ss, jumpsWithin allowed s = true) : jumpsWithinAll allowed ss = true := by
  induction ss with
  | nil => rfl
  | cons s ss ih =>
    simp only [jumpsWithinAll,Bool.and_eq_true]
    exact ⟨each s (by simp),ih fun t member => each t (by simp [member])⟩

/-- Every jump is allowed. -/
theorem jumpsWithin_any {allowed : Comp → Bool} (any : ∀ c, allowed c = true) (s : Stmt) : jumpsWithin allowed s = true := by
  have loop {allowed : Comp → Bool} (any : ∀ c, allowed c = true) (c : Comp) : insideLoop allowed c = true := by
    simp [insideLoop,any c]
  have switch {allowed : Comp → Bool} (any : ∀ c, allowed c = true) (c : Comp) : insideSwitch allowed c = true := by
    simp [insideSwitch,any c]
  induction s using Stmt.induct generalizing allowed with
  | ifStmt c t e iht ihe =>
    simp only [jumpsWithin,jumpsWithinBlock_eq,Bool.and_eq_true]
    exact ⟨jumpsWithinAll_of_each fun s member => iht s member any,jumpsWithinAll_of_each fun s member => ihe s member any⟩
  | whileStmt c b ih => exact jumpsWithinAll_of_each fun s member => ih s member (loop any)
  | doWhile b c ih => exact jumpsWithinAll_of_each fun s member => ih s member (loop any)
  | forStmt i c u b ihi ihb =>
    simp only [jumpsWithin,Bool.and_eq_true]
    refine ⟨?_,jumpsWithinAll_of_each fun s member => ihb s member (loop any)⟩
    cases i with
    | none => rfl
    | some s => exact ihi s rfl any
  | labeled l b ih => exact ih any
  | breakStmt => exact any _
  | continueStmt => exact any _
  | labeledBreak l => exact any _
  | labeledContinue l => exact any _
  | tryStmt b h f ihb ihh ihf =>
    simp only [jumpsWithin,Bool.and_eq_true]
    refine ⟨⟨jumpsWithinAll_of_each fun s member => ihb s member any,?_⟩,?_⟩
    · cases h with
      | none => rfl
      | some c =>
        obtain ⟨param,body⟩ := c
        exact jumpsWithinAll_of_each fun s member => ihh _ rfl s member any
    · cases f with
      | none => rfl
      | some body => exact jumpsWithinAll_of_each fun s member => ihf _ rfl s member any
  | switch d cases ih =>
    simp only [jumpsWithin]
    induction cases with
    | nil => rfl
    | cons c cases ihc =>
      obtain ⟨test,body⟩ := c
      simp only [jumpsWithinCases,Bool.and_eq_true]
      exact ⟨jumpsWithinAll_of_each fun s member => ih (.mk test body) (by simp) s member (switch any),
        ihc fun c member => ih c (by simp [member])⟩
  | _ => rfl

theorem jumpsWithinCases_any {allowed : Comp → Bool} (any : ∀ c, allowed c = true) (cases : List SwitchCase) :
    jumpsWithinCases allowed cases = true := by
  induction cases with
  | nil => rfl
  | cons c cases ih =>
    obtain ⟨test,body⟩ := c
    simp only [jumpsWithinCases,Bool.and_eq_true]
    exact ⟨jumpsWithinAll_of_each fun s _ => jumpsWithin_any any s,ih⟩

theorem calm_notBreak : Calm (· != .break none) where
  returns _ := rfl
  throws _ := rfl
  closes _ := rfl
  halts := rfl
  timeouts := rfl

/-- A statement that cannot break the switch lets no break out. -/
theorem jumpsWithin_of_calm {s : Stmt} (calm : stmtMayBreakSwitch s = false) (reach : BreaksReach host n s) :
    jumpsWithin (· != .break none) s = true := by
  induction s using Stmt.induct with
  | ifStmt c t e iht ihe =>
    simp only [stmtMayBreakSwitch,blockMayBreakSwitch_eq,Bool.or_eq_false_iff,stmtsMayBreakSwitch_eq_false] at calm
    simp only [BreaksReach,blockBreaksReach_eq,allBreaksReach_iff] at reach
    simp only [jumpsWithin,jumpsWithinBlock_eq,Bool.and_eq_true]
    exact ⟨jumpsWithinAll_of_each fun s member => iht s member (calm.1 s member) (reach.1 s member),
      jumpsWithinAll_of_each fun s member => ihe s member (calm.2 s member) (reach.2 s member)⟩
  | whileStmt c b ih => exact jumpsWithinAll_of_each fun s _ => jumpsWithin_any insideLoop_any s
  | doWhile b c ih => exact jumpsWithinAll_of_each fun s _ => jumpsWithin_any insideLoop_any s
  | forStmt i c u b ihi ihb =>
    simp only [jumpsWithin,Bool.and_eq_true]
    exact ⟨reach,jumpsWithinAll_of_each fun s _ => jumpsWithin_any insideLoop_any s⟩
  | labeled l b ih => exact reach
  | breakStmt => cases calm
  | tryStmt b h f ihb ihh ihf =>
    simp only [stmtMayBreakSwitch,Bool.or_eq_false_iff,stmtsMayBreakSwitch_eq_false] at calm
    simp only [BreaksReach,allBreaksReach_iff] at reach
    simp only [jumpsWithin,Bool.and_eq_true]
    refine ⟨⟨jumpsWithinAll_of_each fun s member => ihb s member (calm.1.1 s member) (reach.1 s member),?_⟩,?_⟩
    · cases h with
      | none => rfl
      | some c =>
        obtain ⟨param,body⟩ := c
        simp only [catchMayBreakSwitch,stmtsMayBreakSwitch_eq_false] at calm
        simp only [CatchBreaksReach,allBreaksReach_iff] at reach
        exact jumpsWithinAll_of_each fun s member => ihh _ rfl s member (calm.1.2 s member) (reach.2.1 s member)
    · cases f with
      | none => rfl
      | some body =>
        simp only [blockMayBreakSwitch,stmtsMayBreakSwitch_eq_false] at calm
        simp only [BlockBreaksReach,allBreaksReach_iff] at reach
        exact jumpsWithinAll_of_each fun s member => ihf _ rfl s member (calm.2 s member) (reach.2.2.1 s member)
  | switch d cases ih => exact jumpsWithinCases_any insideSwitch_any cases
  | _ => rfl

theorem raises_of_calm {s : Stmt} (labels : List String) (calm : stmtMayBreakSwitch s = false) (reach : BreaksReach host n s) :
    Run.Raises (· ≠ .break none) (exec host .ecma n labels s) :=
  (raises_jumps labels (jumpsWithin_of_calm calm reach) calm_notBreak).mono fun c allowed => by simpa using allowed

end jumps

section flag

variable {W : Type} {host : Host W} {n : Nat} {inside : LocalId → Prop} {temps : LocalId → Option Val} {done : LocalId}

/-- `done` stands for the break of the switch. -/
def breakFlag (host : Host W) (spare : Spare host inside temps done) : Escape (State W) (State W) Comp Bool where
  holds b := AgreesOn inside (Function.update temps done (some (.bool b)))
  related := AgreesOn inside temps
  idle := false
  code c := if c = .break none then some true else none
  plain c := c ≠ .break none
  final := stops
  forget h := h.weaken fun _ _ known => spare.keep known

/-- With the flag set the statements end normally. -/
def passing : Bool → Except Comp Unit := fun _ => .ok ()

theorem outward_passing : Outward passing where
  throws _ _ same := by cases same
  finalizes _ := rfl

variable (spare : Spare host inside temps done) (apart : ∀ i v, temps i = some v → ¬inside i)

theorem breakFlag_coded {c : Comp} {b : Bool} (coded : (breakFlag host spare).code c = some b) :
    c = .break none ∧ b = true := by
  by_cases plain : c = .break none
  · simp only [breakFlag,plain,if_true,Option.some.injEq] at coded
    exact ⟨plain,coded.symm⟩
  · simp [breakFlag,plain] at coded

include apart in
theorem breakFlag_framed (b : Bool) : Framed (fun a => inside a.id) ((breakFlag host spare).holds b) :=
  framed_agreesOn fun _ _ known => spare.apart apart _ known

include apart in
theorem breakFlag_jumping : Jumping inside (breakFlag host spare) where
  framed := breakFlag_framed spare apart false
  final c := by cases c <;> simp [breakFlag,stops,Mode.finalizes]
  jump coded := ⟨none,.inl (breakFlag_coded spare coded).1⟩
  signals s := by cases s <;> exact fun same => by cases same
  timeouts := by exact fun same => by cases same

theorem breakFlag_notDone {b : Bool} {s t : State W} (held : (breakFlag host spare).holds b s t) :
    Yields (evalTest host (notDone done)) t (.ok !b) := by
  have value := (yields_not spare.unboxed t).test
  rw [held.temps done (.bool b) (by simp)] at value
  exact value

theorem breakFlag_forgets {b : Bool} {s t : State W} (trace : List Event) (held : (breakFlag host spare).holds b s t) :
    (breakFlag host spare).holds b s { t with trace := trace } := held.traces s.trace trace

section statements

variable {s : Stmt} {ss : List Stmt} {labels : List String}

include apart in
/-- A statement that cannot break the switch runs as before. -/
theorem flags_of_calm (calm : stmtMayBreakSwitch s = false) (reach : BreaksReach host n s)
    (reads : ∀ a ∈ s.accesses, inside a.id) :
    (breakFlag host spare).Flags passing (exec host .ecma n labels s) (exec host .ecma n labels s) :=
  (breakFlag_jumping spare apart).statement reads (raises_of_calm labels calm reach)

/-- The statements behind one that may break, under their guard. -/
theorem flags_guard (rest : (breakFlag host spare).Flags passing (execList host .ecma n labels ss)
    (execList host .ecma n labels (guardSwitchBreaks done ss))) :
    (breakFlag host spare).Flags passing (execList host .ecma n labels ss)
      (exec host .ecma n labels (.if (notDone done) (guardSwitchBreaks done ss) none)) := by
  intro s t idle
  obtain ⟨trace,same⟩ := exec_if_taken (breakFlag_notDone spare idle) .ecma n
  rw [same]
  exact rest s _ (breakFlag_forgets spare trace idle)

theorem skips_guard (c : Comp) (b : Bool) (s t : State W) (coded : (breakFlag host spare).code c = some b)
    (held : (breakFlag host spare).holds b s t) :
    ∃ u, exec host .ecma n labels (.if (notDone done) ss none) t = (.ok (),u) ∧ (breakFlag host spare).holds b s u := by
  obtain ⟨rfl,rfl⟩ := breakFlag_coded spare coded
  obtain ⟨trace,same⟩ := exec_if_skipped (breakFlag_notDone spare held) .ecma n
  exact ⟨_,same,breakFlag_forgets spare trace held⟩

include apart in
private theorem flags_of_each (each : ∀ s ∈ ss, s ≠ .break → (breakFlag host spare).Flags passing
      (exec host .ecma n labels s) (exec host .ecma n labels (rewriteSwitchBreaksInStmt done s)))
    (reach : AllBreaksReach host n ss) (reads : ∀ a ∈ accessesOfStmts ss, inside a.id) :
    (breakFlag host spare).Flags passing (execList host .ecma n labels ss)
      (execList host .ecma n labels (guardSwitchBreaks done ss)) := by
  induction ss with
  | nil => exact .pure ()
  | cons s ss ih =>
    simp only [AllBreaksReach] at reach
    simp only [accessesOfStmts,List.mem_append] at reads
    have rest := ih (fun t member => each t (by simp [member])) reach.2 fun a h => reads a (.inr h)
    by_cases plain : s = .break
    · subst plain
      have sets : (breakFlag host spare).Flags passing (Run.raise (.break none))
          (execList host .ecma n labels (guardSwitchBreaks done (.break :: ss))) := by
        refine .sets (v := true) (by simp [breakFlag]) fun s t idle => ?_
        rw [guardSwitchBreaks,execList_singleton]
        exact ⟨_,exec_set spare.unboxed rfl,AgreesOn.reset idle spare.outside _ _⟩
      exact sets
    · rw [guard_cons plain]
      by_cases calm : stmtMayBreakSwitch s = false
      · rw [calm,rewrite_of_calm calm]
        exact .after ((breakFlag_framed spare apart false).exec host .ecma n (fun a h => reads a (.inl h)) labels)
          (raises_of_calm labels calm reach.1) fun _ => rest
      · rw [Bool.not_eq_false] at calm
        rw [calm,Bool.true_and]
        have first := each s (by simp) plain
        cases ss with
        | nil => exact .bind first (fun _ => .pure ()) fun c v s t coded held => ⟨t,rfl,held⟩
        | cons t ts =>
          have together := Escape.Flags.bind first (fun _ => flags_guard spare rest) (skips_guard spare)
          rw [List.isEmpty_cons,Bool.not_false,if_pos rfl,execList_pair]
          exact together

include apart in
/-- A `catch` on both sides. -/
theorem flags_catch {m l : Act W Unit} {h : Option CatchClause} (first : (breakFlag host spare).Flags passing m l)
    (reads : ∀ a ∈ accessesOfCatch h, inside a.id)
    (handlers : ∀ c ∈ h, (breakFlag host spare).Flags passing (execList host .ecma n [] c.body)
      (execList host .ecma n [] (guardSwitchBreaks done c.body))) :
    (breakFlag host spare).Flags passing (m.observe (execCatch host .ecma n h)) (l.observe (execCatch host .ecma n (guardCatch done h))) := by
  cases h with
  | none => exact flags_uncaught first
  | some c =>
    obtain ⟨param,body⟩ := c
    refine (breakFlag_jumping spare apart).catches outward_passing first (fun id member => ?_) (handlers _ rfl)
    exact reads (.write id) (List.mem_append_left _ (List.mem_map_of_mem (Option.mem_toList.mpr member)))

include apart in
/-- A `finally` that lets the breaks pass. -/
theorem flags_finally {m l : Act W Unit} {body : List Stmt} (first : (breakFlag host spare).Flags passing m l)
    (reads : ∀ a ∈ accessesOfStmts body, inside a.id)
    (finals : (breakFlag host spare).Flags passing (execList host .ecma n [] body)
      (execList host .ecma n [] (guardSwitchBreaks done body)))
    (broke : ∀ s t, m s = (.error (.break none),t) →
      stmtsMayBreakSwitch body = false ∧ ∀ c u, execList host .ecma n [] body t = (.error c,u) → stops c)
    (kept : ∀ s c t, m s = (.error c,t) → c ≠ .break none → ¬stops c →
      ∀ u, execList host .ecma n [] body t ≠ (.error (.break none),u)) :
    (breakFlag host spare).Flags passing (m.observe (finalize .ecma (execList host .ecma n [] body)))
      (l.observe (finalize .ecma (execList host .ecma n [] (guardSwitchBreaks done body)))) := by
  refine (breakFlag_jumping spare apart).finalizer outward_passing first finals (fun s c v u t ran coded held => ?_)
    fun s c u ran plain goes d x v ended coded => ?_
  · obtain ⟨rfl,rfl⟩ := breakFlag_coded spare coded
    obtain ⟨calm,completes⟩ := broke s u ran
    rw [guard_of_calm calm]
    obtain ⟨equal,related⟩ := ((breakFlag_framed spare apart true).execList host .ecma n reads []).apply held
    rw [Run.bind_apply,Run.bind_apply]
    revert completes equal related
    rcases execList host .ecma n [] body u with ⟨c | _,x⟩ <;> rcases execList host .ecma n [] body t with ⟨d | _,y⟩ <;>
      intro completes equal related
    · cases equal
      have stop := completes c x rfl
      refine .left ?_ (absurd stop) ((breakFlag host spare).forget related)
      rintro rfl
      exact stop
    · cases equal
    · cases equal
    · exact .escaped coded related
  · obtain ⟨rfl,_⟩ := breakFlag_coded spare coded
    exact absurd ended (kept s c u ran plain goes x)

include apart in
/-- Every statement of a case body, rewritten. -/
theorem flags_rewrite (reach : BreaksReach host n s) (reads : ∀ a ∈ s.accesses, inside a.id) (other : s ≠ .break) :
    (breakFlag host spare).Flags passing (exec host .ecma n labels s) (exec host .ecma n labels (rewriteSwitchBreaksInStmt done s)) := by
  have members (ss : List Stmt) (labels : List String) (ih : ∀ s ∈ ss, ∀ {labels}, BreaksReach host n s →
      (∀ a ∈ s.accesses, inside a.id) → s ≠ .break → (breakFlag host spare).Flags passing (exec host .ecma n labels s)
        (exec host .ecma n labels (rewriteSwitchBreaksInStmt done s)))
      (reach : AllBreaksReach host n ss) (reads : ∀ a ∈ accessesOfStmts ss, inside a.id) :
      (breakFlag host spare).Flags passing (execList host .ecma n labels ss)
        (execList host .ecma n labels (guardSwitchBreaks done ss)) := by
    refine flags_of_each spare apart (fun s member other => ?_) reach reads
    exact ih s member (allBreaksReach_iff.mp reach s member) (fun a h => reads a (mem_accessesOfStmts.mpr ⟨s,member,h⟩)) other
  induction s using Stmt.induct generalizing labels with
  | ifStmt c t e iht ihe =>
    simp only [BreaksReach,blockBreaksReach_eq] at reach
    simp only [Stmt.accesses,accessesOfBlock_eq,List.mem_append] at reads
    refine (breakFlag_jumping spare apart).branches (fun a h => reads a (.inl (.inl h))) ?_ ?_
    · exact members t labels iht reach.1 fun a h => reads a (.inl (.inr h))
    · rw [guardBlock_getD]
      exact members (e.getD []) labels ihe reach.2 fun a h => reads a (.inr h)
  | tryStmt b h f ihb ihh ihf =>
    simp only [BreaksReach] at reach
    simp only [Stmt.accesses,List.mem_append] at reads
    have body := members b [] ihb reach.1 fun a h => reads a (.inl (.inl h))
    have tried := flags_catch spare apart body (fun a h => reads a (.inl (.inr h))) fun c member => by
      obtain ⟨param,handler⟩ := c
      cases member
      exact members handler [] (ihh _ rfl) reach.2.1 fun a h => reads a (.inl (.inr (List.mem_append_right _ h)))
    cases f with
    | none => exact tried
    | some final =>
      obtain ⟨broke,left⟩ := reach.2.2.2 final rfl
      exact flags_finally spare apart tried (fun a h => reads a (.inr h))
        (members final [] (ihf _ rfl) reach.2.2.1 fun a h => reads a (.inr h)) broke left
  | breakStmt => exact absurd rfl other
  | _ => exact flags_of_calm spare apart rfl reach reads

include apart in
/-- A case body, guarded. -/
theorem flags_body (reach : AllBreaksReach host n ss) (labels : List String) (reads : ∀ a ∈ accessesOfStmts ss, inside a.id) :
    (breakFlag host spare).Flags passing (execList host .ecma n labels ss)
      (execList host .ecma n labels (guardSwitchBreaks done ss)) := by
  refine flags_of_each spare apart (fun s member other => ?_) reach reads
  exact flags_rewrite spare apart (allBreaksReach_iff.mp reach s member)
    (fun a h => reads a (mem_accessesOfStmts.mpr ⟨s,member,h⟩)) other

end statements

end flag

section chain

variable {W : Type} {host : Host W} {n : Nat} {inside : LocalId → Prop} {temps : LocalId → Option Val}
  {d idx done : LocalId} {cases : List SwitchCase}

def CasesReach (host : Host W) (n : Nat) (cases : List SwitchCase) : Prop := ∀ c ∈ cases, AllBreaksReach host n c.body

section bodies

variable (spare : Spare host inside temps done) (apart : ∀ i v, temps i = some v → ¬inside i)
  (unboxed : host.boxed idx = false) {k : Nat} (found : temps idx = some (.int k))

include unboxed found in
/-- Whether the body at position `i` runs. -/
theorem yields_guard {b : Bool} {s t : State W} (held : (breakFlag host spare).holds b s t) (i : Nat) :
    Yields (evalTest host (.logical .and (notDone done) (.compare .le (.localGet idx) (.number (.int i))))) t
      (.ok (!b && decide (k ≤ i))) := by
  have index : t.store idx = .int k := held.temps idx _ (spare.keep found)
  have marked : t.store done = .bool b := held.temps done _ (by simp)
  have tested := (Yields.logical .and (yields_not spare.unboxed t)
    (fun trace => yields_compare unboxed (s := { t with trace := trace }) index .le i)).test
  rw [marked] at tested
  cases b with
  | true => exact tested
  | false =>
    have same : decide ((k : Int) ≤ i) = decide (k ≤ i) := by simp
    rw [← same]
    exact tested

include unboxed found in
theorem skips_bodies {s t : State W} (held : (breakFlag host spare).holds true s t) (i : Nat) :
    ∃ u, execList host .ecma n [] (bodyStmts idx done i cases) t = (.ok (),u) ∧ (breakFlag host spare).holds true s u := by
  induction cases generalizing i t with
  | nil => exact ⟨t,rfl,held⟩
  | cons c cases ih =>
    obtain ⟨test,body⟩ := c
    obtain ⟨trace,same⟩ := exec_if_skipped (yields_guard spare unboxed found held i) .ecma n
    rw [bodyStmts,execList,Run.bind_ok same]
    exact ih (breakFlag_forgets spare trace held) (i + 1)

include apart unboxed found in
/-- The bodies from position `i` on, once the index is known. -/
theorem flags_bodies (reach : CasesReach host n cases) (reads : ∀ a ∈ accessesOfCases cases, inside a.id) (i : Nat) :
    (breakFlag host spare).Flags passing (execFrom host .ecma n (k - i) cases)
      (execList host .ecma n [] (bodyStmts idx done i cases)) := by
  induction cases generalizing i with
  | nil =>
    cases k - i <;> exact .pure ()
  | cons c cases ih =>
    obtain ⟨test,body⟩ := c
    simp only [accessesOfCases,List.mem_append] at reads
    have rest := ih (fun c member => reach c (by simp [member])) (fun a h => reads a (.inr h)) (i + 1)
    by_cases entered : k ≤ i
    · have first : (breakFlag host spare).Flags passing (execList host .ecma n [] body) (exec host .ecma n []
          (.if (.logical .and (notDone done) (.compare .le (.localGet idx) (.number (.int i)))) (guardSwitchBreaks done body) none)) := by
        intro s t idle
        have tested := yields_guard spare unboxed found idle i
        rw [decide_eq_true entered] at tested
        obtain ⟨trace,same⟩ := exec_if_taken tested .ecma n
        rw [same]
        have guarded := flags_body spare apart (reach (.mk test body) (by simp)) [] fun a h => reads a (.inl (.inr h))
        exact guarded s _ (breakFlag_forgets spare trace idle)
      rw [Nat.sub_eq_zero_of_le (Nat.le_succ_of_le entered)] at rest
      rw [Nat.sub_eq_zero_of_le entered]
      exact .bind first (fun _ => rest) fun c b s t coded held => by
        obtain ⟨rfl,rfl⟩ := breakFlag_coded spare coded
        exact skips_bodies spare unboxed found held (i + 1)
    · intro s t idle
      have tested := yields_guard spare unboxed found idle i
      rw [decide_eq_false entered] at tested
      obtain ⟨trace,same⟩ := exec_if_skipped tested .ecma n
      have later : k - i = k - (i + 1) + 1 := by omega
      rw [bodyStmts,execList,Run.bind_ok same,later]
      exact rest s _ (breakFlag_forgets spare trace idle)

end bodies

/-- The switch takes its break, the chain has set its flag. -/
theorem closes (spare : Spare host inside temps done) {m l : Act W Unit} (flags : (breakFlag host spare).Flags passing m l) :
    Sim ((breakFlag host spare).holds false) (fun _ _ => AgreesOn inside temps) (fun c d s t => c = d ∧ AgreesOn inside temps s t)
      (m.observe catchBreak) l := by
  intro s t idle
  have ends := flags s t idle
  revert ends
  rw [Run.observe_apply]
  rcases m s with ⟨r,u⟩
  rcases l t with ⟨q,w⟩
  intro ends
  cases ends with
  | normal idle => exact (breakFlag host spare).forget idle
  | escaped coded held =>
    obtain ⟨rfl,rfl⟩ := breakFlag_coded spare coded
    exact (breakFlag host spare).forget held
  | left plain idle related =>
    rename_i c
    have other : c ≠ .break none := plain
    have passes : (catchBreak (.error c) : Act W Unit) = Run.raise c := by
      unfold catchBreak
      split
      · next same => exact absurd (Except.error.inj same) other
      · rfl
    rw [passes]
    exact ⟨rfl,related⟩

section tests

variable {v : Val} {unmatched : Int}

/-- The value of the index after the tests from position `i` on. -/
def found (unmatched : Int) (i : Nat) : Option Nat → Int
  | none => unmatched
  | some j => (i + j : Nat)

theorem found_next (unmatched : Int) (i : Nat) (k : Option Nat) : found unmatched i (k.map (· + 1)) = found unmatched (i + 1) k := by
  cases k with
  | none => rfl
  | some j => exact congrArg Nat.cast (by omega : i + (j + 1) = i + 1 + j)

theorem yields_unmatched (unmatched : Int) (unboxed : host.boxed idx = false) {j : Int} (index : temps idx = some (.int j)) {s t : State W}
    (agrees : AgreesOn inside temps s t) :
    Yields (evalTest host (idxIsUnmatched idx unmatched)) t (.ok (decide (j = unmatched))) :=
  (yields_compare unboxed (agrees.temps idx _ index) .eq unmatched).test

/-- Once a case is found the other tests are skipped. -/
theorem stutters_tests (cases : List SwitchCase) (unboxed : host.boxed idx = false) {j : Int} (index : temps idx = some (.int j)) (apart : j ≠ unmatched)
    (i : Nat) (next : LocalId) : Stutters (AgreesOn (W := W) inside temps) (AgreesOn inside temps)
      (execList host .ecma n [] ((testStmts d idx unmatched i cases).run next).1) := by
  induction cases generalizing i next with
  | nil => exact .pure
  | cons c cases ih =>
    obtain ⟨test,body⟩ := c
    cases test with
    | none => exact ih (i + 1) next
    | some test =>
      refine Stutters.bind (stutters_skip (fun s t agrees => ?_) fun s t trace agrees => agrees.traces s.trace trace) (ih (i + 1) (next + 1))
      exact decide_eq_false apart ▸ yields_unmatched _ unboxed index agrees

/-- One test: its value against the discriminant, and the index set when they are equal. -/
theorem tested {next : LocalId} (spare : Spare host inside temps next) (apart : ∀ i v, temps i = some v → ¬inside i)
    (switched : temps d = some v) (unboxed : host.boxed d = false) (own : host.boxed idx = false) (index : temps idx = some (.int unmatched))
    {test : Expr} (reads : ∀ a ∈ test.accesses, inside a.id) (i : Nat) :
    Sim (AgreesOn inside temps)
      (fun hit _ => AgreesOn inside (if hit then Function.update temps idx (some (.int i)) else temps))
      (fun c d s t => c = d ∧ AgreesOn inside temps s t)
      (perform (eval host test >>= fun w => pure (v.strictEq w)))
      (exec host .ecma n [] (.if (idxIsUnmatched idx unmatched)
        [.expr (.localSet next test),.if (.compare .eq (.localGet d) (.localGet next)) [setIdx idx i] none] none)) := by
  have outside : ¬inside idx := apart idx _ index
  refine Sim.enter (fun s t agrees => decide_eq_true (rfl : unmatched = unmatched) ▸ yields_unmatched _ own index agrees)
    (fun s t trace agrees => agrees.traces s.trace trace) ?_
  rw [perform_bind,execList_pair]
  refine Sim.bind (Sim.setTemp apart spare.unboxed spare.outside reads) fun w _ s t agrees => ?_
  have compared := (yields_same unboxed spare.unboxed t).test
  rw [agrees.temps d v (spare.keep switched),agrees.temps next w (by simp)] at compared
  cases equal : v.strictEq w with
  | true =>
    rw [equal] at compared
    obtain ⟨trace,same⟩ := exec_if_taken compared .ecma n
    rw [same,execList_singleton,setIdx,exec_set own rfl]
    have moved := (agrees.traces s.trace trace).set outside (.int i) (.write idx (.int i) :: trace)
    refine moved.weaken fun id w known => ?_
    by_cases same : id = idx
    · subst same
      simpa using known
    · simp only [if_true,Function.update_of_ne same] at known ⊢
      exact spare.keep known
  | false =>
    rw [equal] at compared
    obtain ⟨trace,same⟩ := exec_if_skipped compared .ecma n
    rw [same]
    exact (agrees.traces s.trace trace).weaken fun id w known => spare.keep known

/-- The tests find the case the switch enters. -/
theorem selects {next : LocalId} (room : ∀ id, next ≤ id → Spare host inside temps id)
    (apart : ∀ i v, temps i = some v → ¬inside i) (switched : temps d = some v) (unboxed : host.boxed d = false)
    (own : host.boxed idx = false) (index : temps idx = some (.int unmatched))
    (reads : ∀ a ∈ accessesOfCases cases, inside a.id) (i : Nat) (beyond : (i + cases.length : Nat) < unmatched) :
    Sim (AgreesOn inside temps)
      (fun k _ s t => (∀ j, k = some j → j < cases.length) ∧
        AgreesOn inside (Function.update temps idx (some (.int (found unmatched i k)))) s t)
      (fun c d s t => c = d ∧ AgreesOn inside temps s t)
      (perform (selectCase host v cases))
      (execList host .ecma n [] ((testStmts d idx unmatched i cases).run next).1) := by
  have stays : Function.update temps idx (some (.int unmatched)) = temps := by
    rw [← index]
    exact Function.update_eq_self idx temps
  induction cases generalizing i next with
  | nil =>
    refine Sim.pure fun s t agrees => ⟨fun j known => ?_,?_⟩
    · cases known
    · rwa [found,stays]
  | cons c cases ih =>
    obtain ⟨test,body⟩ := c
    simp only [accessesOfCases,List.mem_append] at reads
    simp only [List.length_cons] at beyond
    have later := fun next room => @ih next room (fun a h => reads a (.inr h)) (i + 1) (by omega)
    -- a case behind this one is found one position further
    have shifted {next : LocalId} (room : ∀ id, next ≤ id → Spare host inside temps id) :
        Sim (AgreesOn inside temps)
          (fun k _ s t => (∀ j, k = some j → j < cases.length + 1) ∧
            AgreesOn inside (Function.update temps idx (some (.int (found unmatched i k)))) s t)
          (fun c d s t => c = d ∧ AgreesOn inside temps s t)
          (perform (selectCase host v cases >>= fun k => pure (k.map (· + 1))))
          (execList host .ecma n [] ((testStmts d idx unmatched (i + 1) cases).run next).1) := by
      rw [perform_bind,← bind_pure (execList host .ecma n [] _)]
      refine Sim.bind (later next room) fun k _ => Sim.pure fun s t h => ⟨fun j known => ?_,?_⟩
      · obtain ⟨j',rfl,rfl⟩ := Option.map_eq_some_iff.mp known
        exact Nat.succ_lt_succ (h.1 j' rfl)
      · rw [found_next]
        exact h.2
    cases test with
    | none => exact shifted room
    | some test =>
      have parts : selectCase host v (.mk (some test) body :: cases) =
          (eval host test >>= fun w => pure (v.strictEq w)) >>= fun hit =>
            if hit then pure (some 0) else selectCase host v cases >>= fun k => pure (k.map (· + 1)) := by
        simp only [selectCase,bind_assoc,pure_bind]
      rw [parts,perform_bind]
      refine Sim.bind (tested (room next (Nat.le_refl _)) apart switched unboxed own index
        (fun a h => reads a (.inl (.inl h))) i) fun hit _ => ?_
      cases hit with
      | true =>
        have here : (i : Int) ≠ unmatched := by omega
        have skipped : Stutters (AgreesOn inside (Function.update temps idx (some (.int i)))) _ _ :=
          stutters_tests (n := n) (d := d) cases own (Function.update_self idx _ temps) here (i + 1) (next + 1)
        rw [← bind_pure (execList host .ecma n [] _)]
        change Sim _ _ _ (pure (some 0)) (_ >>= fun _ => pure ())
        refine Sim.stutter skipped (Sim.pure fun s t agrees => ⟨fun j known => ?_,agrees⟩)
        cases known
        exact Nat.succ_pos _
      | false => exact shifted fun id large => room id (Nat.le_of_succ_le large)

end tests

/-- What is left to do once the tests are over, for an index that is a position or the end. -/
def entry (cases : List SwitchCase) (k : Option Nat) : Nat :=
  (k.or (defaultCase cases)).getD cases.length

theorem defaultCase_eq (cases : List SwitchCase) : (cases.findIdx? fun c => c.test.isNone) = defaultCase cases := by
  induction cases with
  | nil => rfl
  | cons c cases ih =>
    obtain ⟨test,body⟩ := c
    cases test with
    | none => rfl
    | some test =>
      rw [List.findIdx?_cons,ih]
      rfl

theorem execFrom_length (cases : List SwitchCase) : execFrom host .ecma n cases.length cases = pure () := by
  induction cases with
  | nil => rfl
  | cons c cases ih =>
    obtain ⟨test,body⟩ := c
    exact ih

/-- A switch as its two halves, entering past the last case when nothing is found. -/
theorem exec_switch (discriminant : Expr) (labels : List String) :
    exec host .ecma n labels (.switch discriminant cases) = perform (eval host discriminant) >>= fun v =>
      perform (selectCase host v cases) >>= fun k => (execFrom host .ecma n (entry cases k) cases).observe catchBreak := by
  rw [exec,perform_bind,bind_assoc]
  congr 1
  funext v
  congr 1
  funext k
  unfold entry
  cases k.or (defaultCase cases) with
  | none =>
    rw [Option.getD_none,execFrom_length]
    rfl
  | some k => rfl

/-- The default applies when no test succeeded. -/
theorem stutters_default (own : host.boxed idx = false) (outside : ¬inside idx) {k : Option Nat}
    (near : ∀ j, k = some j → j < cases.length)
    (index : temps idx = some (.int (found (cases.length + 1) 0 k))) :
    Stutters (AgreesOn (W := W) inside temps) (AgreesOn inside (Function.update temps idx (some (.int (entry cases k)))))
      (exec host .ecma n [] (.if (idxIsUnmatched idx (cases.length + 1))
        [setIdx idx ((cases.findIdx? fun c => c.test.isNone).getD cases.length : Nat)] none)) := by
  have tested (s t : State W) (agrees : AgreesOn inside temps s t) :=
    yields_unmatched (cases.length + 1) own index agrees
  have forgets (s t : State W) (trace : List Event) (agrees : AgreesOn inside temps s t) := agrees.traces s.trace trace
  cases k with
  | none =>
    have reached : entry cases none = (cases.findIdx? fun c => c.test.isNone).getD cases.length := by
      rw [defaultCase_eq]
      rfl
    rw [found,decide_eq_true rfl] at tested
    rw [reached]
    refine stutters_if tested forgets ?_
    rw [execList_singleton]
    exact stutters_set own outside _
  | some j =>
    have apart : found (cases.length + 1) 0 (some j) ≠ cases.length + 1 := by
      have small := near j rfl
      simp only [found]
      omega
    have stays : Function.update temps idx (some (.int (entry cases (some j)))) = temps := by
      have same : found (cases.length + 1) 0 (some j) = (entry cases (some j) : Int) := by
        rw [found,Nat.zero_add]
        rfl
      rw [← same,← index]
      exact Function.update_eq_self idx temps
    rw [stays]
    rw [decide_eq_false apart] at tested
    exact stutters_skip tested forgets

/-- The chain behind the discriminant, which is held in a temporary. -/
theorem runs_chain {next : LocalId} {kept : LocalId → Option Val} {v : Val}
    (room : ∀ id, next ≤ id → Spare host inside temps id) (flag : Spare host inside temps done)
    (apart : ∀ i w, temps i = some w → ¬inside i) (unboxed : host.boxed d = false) (switched : temps d = some v)
    (own : host.boxed idx = false) (index : temps idx = some (.int (cases.length + 1)))
    (fewer : ∀ id w, kept id = some w → id ≠ idx ∧ temps id = some w)
    (reads : ∀ a ∈ accessesOfCases cases, inside a.id) (reach : CasesReach host n cases) :
    Sim (AgreesOn inside temps) (fun _ _ => AgreesOn inside kept) (fun c d s t => c = d ∧ AgreesOn inside kept s t)
      (perform (selectCase host v cases) >>= fun k => (execFrom host .ecma n (entry cases k) cases).observe catchBreak)
      (execList host .ecma n [] ((testStmts d idx (cases.length + 1) 0 cases).run next).1 >>= fun _ =>
        exec host .ecma n [] (.if (idxIsUnmatched idx (cases.length + 1))
          [setIdx idx ((cases.findIdx? fun c => c.test.isNone).getD cases.length : Nat)] none) >>= fun _ =>
        exec host .ecma n [] (.expr (.localSet done (.bool false))) >>= fun _ =>
        execList host .ecma n [] (bodyStmts idx done 0 cases)) := by
  have outside : ¬inside idx := apart idx _ index
  have other : done ≠ idx := by
    rintro rfl
    rw [flag.unused] at index
    cases index
  have beyond : ((0 + cases.length : Nat) : Int) < cases.length + 1 := by omega
  have selected := selects (n := n) room apart switched unboxed own index reads 0 beyond
  refine Sim.bind (selected.conseq (fun _ _ h => h) (fun _ _ _ _ h => h) fun c e s t h => ?_) fun k _ s t h => ?_
  · exact ⟨h.1,h.2.weaken fun id w known => (fewer id w known).2⟩
  · obtain ⟨near,agrees⟩ := h
    have defaulted := stutters_default (W := W) (n := n) own outside near (Function.update_self idx _ temps)
    rw [Function.update_idem] at defaulted
    have spare := flag.update other (some (.int (entry cases k)))
    have apart' (id : LocalId) (w : Val) (known : Function.update temps idx (some (.int (entry cases k))) id = some w) : ¬inside id := by
      by_cases same : id = idx
      · exact same ▸ outside
      · rw [Function.update_of_ne same] at known
        exact apart id w known
    have bodies := flags_bodies spare apart' own (Function.update_self idx _ temps) reach reads 0
    have marked : Stutters (AgreesOn inside (Function.update temps idx (some (.int (entry cases k))))) _
        (exec host .ecma n [] (.expr (.localSet done (.bool false)))) := stutters_set spare.unboxed spare.outside (.bool false)
    have ran := Sim.stutter defaulted (Sim.stutter marked (closes spare bodies))
    refine (ran.conseq (fun _ _ h => h) (fun _ _ s t h => ?_) fun c e s t h => ⟨h.1,?_⟩) s t agrees
    · exact h.weaken fun id w known => by
        rw [Function.update_of_ne (fewer id w known).1]
        exact (fewer id w known).2
    · exact h.2.weaken fun id w known => by
        rw [Function.update_of_ne (fewer id w known).1]
        exact (fewer id w known).2

/-- The chain runs as the switch, from states that agree on the locals of the program. -/
theorem keeps_desugared {discriminant : Expr} {next : LocalId} {labels : List String}
    (room : ∀ id, next ≤ id → Spare host inside temps id) (apart : ∀ i v, temps i = some v → ¬inside i)
    (reads : ∀ a ∈ (Stmt.switch discriminant cases).accesses, inside a.id) (reach : CasesReach host n cases) :
    Keeps (AgreesOn inside temps) (exec host .ecma n labels (.switch discriminant cases))
      (execList host .ecma n [] ((desugarSwitchToIfs discriminant cases).run next).1) := by
  have unrolled : execList host .ecma n [] ((desugarSwitchToIfs discriminant cases).run next).1 =
      exec host .ecma n [] (.expr (.localSet next discriminant)) >>= fun _ =>
      exec host .ecma n [] (setIdx (next + 1) (cases.length + 1)) >>= fun _ =>
      execList host .ecma n [] ((testStmts next (next + 1) (cases.length + 1) 0 cases).run (next + 3)).1 >>= fun _ =>
      exec host .ecma n [] (.if (idxIsUnmatched (next + 1) (cases.length + 1))
        [setIdx (next + 1) ((cases.findIdx? fun c => c.test.isNone).getD cases.length : Nat)] none) >>= fun _ =>
      exec host .ecma n [] (.expr (.localSet (next + 2) (.bool false))) >>= fun _ =>
      execList host .ecma n [] (bodyStmts (next + 1) (next + 2) 0 cases) := by
    simp only [desugarSwitchToIfs,Fresh.bind_run,freshLocal_run,Fresh.pure_run,List.cons_append,execList,execList_append]
  rw [exec_switch,unrolled]
  simp only [Stmt.accesses,List.mem_append] at reads
  have first := room next (Nat.le_refl _)
  have second := room (next + 1) (Nat.le_succ _)
  refine Sim.bind (Sim.setTemp apart first.unboxed first.outside fun a h => reads a (.inl h)) fun v _ => ?_
  have apart' (id : LocalId) (w : Val) (known : Function.update temps next (some v) id = some w) : ¬inside id :=
    first.apart apart _ known
  have second' := second.update (Nat.succ_ne_self next) (some v)
  have free (id : LocalId) (large : next + 2 ≤ id) : Spare host inside (Function.update (Function.update temps next (some v))
      (next + 1) (some (.int (cases.length + 1)))) id := by
    have here : next ≤ id := Nat.le_trans (Nat.le_add_right _ _) large
    have one : id ≠ next := Nat.ne_of_gt (Nat.lt_of_lt_of_le (Nat.lt_succ_of_lt (Nat.lt_succ_self _)) large)
    exact ((room id here).update one _).update (Nat.ne_of_gt large) _
  have switched : Function.update (Function.update temps next (some v)) (next + 1) (some (.int (cases.length + 1))) next = some v := by
    rw [Function.update_of_ne (Nat.succ_ne_self next).symm,Function.update_self]
  have fewer (id : LocalId) (w : Val) (known : temps id = some w) : id ≠ next + 1 ∧
      Function.update (Function.update temps next (some v)) (next + 1) (some (.int (cases.length + 1))) id = some w := by
    have away : id ≠ next + 1 := by
      rintro rfl
      rw [second.unused] at known
      cases known
    refine ⟨away,?_⟩
    rw [Function.update_of_ne away]
    exact first.keep known
  have chain := runs_chain (n := n) (fun id large => free id (Nat.le_of_succ_le large)) (free (next + 2) (Nat.le_refl _))
    (fun id w known => second'.apart apart' _ known) first.unboxed switched second.unboxed (Function.update_self ..)
    fewer (fun a h => reads a (.inr h)) reach
  exact Sim.stutter (stutters_set second.unboxed second.outside _)
    (chain.conseq (fun _ _ h => h) (fun _ _ _ _ h => ⟨rfl,h⟩) fun _ _ _ _ h => h)

end chain

/-- Under every host the desugared switch makes the requests the switch makes, in order, and
ends as it does, with the locals of the program as it leaves them. -/
theorem desugarSwitchToIfs_faithful {W : Type} {host : Host W} {n : Nat} {discriminant : Expr} {cases : List SwitchCase}
    {next : LocalId} (below : ∀ a ∈ (Stmt.switch discriminant cases).accesses, a.id < next)
    (unboxed : ∀ id, next ≤ id → host.boxed id = false) (reach : CasesReach host n cases) (labels : List String) :
    Keeps (AgreesOn (· < next) fun _ => none) (exec host .ecma n labels (.switch discriminant cases))
      (execList host .ecma n [] ((desugarSwitchToIfs discriminant cases).run next).1) :=
  keeps_desugared (fun id large => ⟨unboxed id large,Nat.not_lt.mpr large,rfl⟩) (fun _ v known => (Option.some_ne_none v known.symm).elim) below reach

section samples

/-- `switch (x) { case 1: if (y) break; f(); default: try { break; } catch (z) {} case 2: g(); }`,
where `f` and `g` are `3` and `4`. -/
def fallthrough : List SwitchCase :=
  [.mk (some (.number (.int 1))) [.if (.localGet 1) [.break] none,.expr (.call (.localGet 3) [])],
    .mk none [.try [.break] (some (.mk (some 2) [])) none],
    .mk (some (.number (.int 2))) [.expr (.call (.localGet 4) [])]]

theorem desugarSwitchToIfs_fallthrough : Keeps (AgreesOn (· < 5) fun _ => none)
    (exec Host.recording .ecma 1 [] (.switch (.localGet 0) fallthrough))
    (execList Host.recording .ecma 1 [] ((desugarSwitchToIfs (.localGet 0) fallthrough).run 5).1) := by
  refine desugarSwitchToIfs_faithful (by decide) (fun _ _ => rfl) ?_ []
  intro c member
  simp only [fallthrough,List.mem_cons,List.not_mem_nil,or_false] at member
  obtain rfl | rfl | rfl := member
  · simp [AllBreaksReach,BreaksReach,BlockBreaksReach]
  · simp [AllBreaksReach,BreaksReach,CatchBreaksReach,BlockBreaksReach]
  · simp [AllBreaksReach,BreaksReach]

/-- `switch (0) { default: try { throw 1; } finally { break; } }` -/
def overriding : List SwitchCase := [.mk none [.try [.throw (.number (.int 1))] none (some [.break])]]

/-- The break of the `finally` ends the switch in place of the exception; the flag does not. -/
theorem desugarSwitchToIfs_overriding : ¬Keeps (AgreesOn (· < 0) fun _ => none)
    (exec Host.recording .ecma 1 [] (.switch (.number (.int 0)) overriding))
    (execList Host.recording .ecma 1 [] ((desugarSwitchToIfs (.number (.int 0)) overriding).run 0).1) := by
  intro same
  let s : State (List Request) := ⟨fun _ => .undefined,[],[]⟩
  have run := (same.apply (s := s) (t := s) ⟨fun _ _ => rfl,rfl,fun _ v known => (Option.some_ne_none v known.symm).elim⟩).1
  have ended : (Except.ok () : Except Comp Unit) = .error (.throw (.int 1)) := run
  cases ended

end samples

end Perry.Transform.SwitchDesugar
