import Perry.Hir.Frame

/-! Evaluations that change nothing but the ghost trace, and the temporaries a pass adds to a
program: locals the program itself does not touch. -/
namespace Perry.Hir

open Perry.Effect

section quiet

variable {W : Type} {host : Host W}

/-- The evaluation has this result and changes nothing. -/
def Yields {α : Type} (m : Eval W α) (s : State W) (r : Except Val α) : Prop :=
  ∃ trace, m s = (r.mapError Signal.throw,{ s with trace := trace })

namespace Yields

variable {α β : Type} {m : Eval W α} {k : α → Eval W β} {s : State W}

theorem pure (a : α) (s : State W) : Yields (Pure.pure a : Eval W α) s (.ok a) := ⟨s.trace,rfl⟩

theorem bind {r : Except Val α} {q : α → Except Val β} (first : Yields m s r)
    (rest : ∀ a trace, r = .ok a → Yields (k a) { s with trace := trace } (q a)) : Yields (m >>= k) s (r >>= q) := by
  obtain ⟨trace,ran⟩ := first
  cases r with
  | error x => exact ⟨trace,Run.bind_error ran⟩
  | ok a =>
    obtain ⟨trace',ran'⟩ := rest a trace rfl
    exact ⟨trace',(Run.bind_ok ran).trans ran'⟩

theorem ok {r : Except Val α} {a : α} {t : State W} (yields : Yields m s r) (ran : m s = (.ok a,t)) : r = .ok a := by
  obtain ⟨trace,same⟩ := yields
  cases r with
  | error x => cases ran.symm.trans same
  | ok b =>
    cases ran.symm.trans same
    rfl

section operators

variable {op : Op} {left right : Expr} {r q : Except Val Val}

theorem apply {vs : List Val} {v : Val} (pure : op.pure? vs = some v) (s : State W) :
    Yields (applyOp host op vs) s (.ok v) := by
  refine ⟨s.trace,?_⟩
  rw [applyOp,pure]
  rfl

theorem one (answer : Val → Except Val Val) (first : Yields (eval host left) s r)
    (rest : ∀ v trace, Yields (applyOp host op [v]) { s with trace := trace } (answer v)) :
    Yields (eval host (.strict op [left])) s (r >>= answer) := by
  simp only [eval,evalArgs,bind_assoc,pure_bind]
  exact first.bind fun v trace _ => rest v trace

theorem two {answer : Val → Val → Except Val Val} (first : Yields (eval host left) s r)
    (second : ∀ trace, Yields (eval host right) { s with trace := trace } q)
    (rest : ∀ v w trace, Yields (applyOp host op [v,w]) { s with trace := trace } (answer v w)) :
    Yields (eval host (.strict op [left,right])) s (r >>= fun v => q >>= answer v) := by
  simp only [eval,evalArgs,bind_assoc,pure_bind]
  exact first.bind fun v trace _ => (second trace).bind fun w trace' _ => rest v w trace'

theorem logical (op : LogicalOp) (first : Yields (eval host left) s r)
    (second : ∀ trace, Yields (eval host right) { s with trace := trace } q) :
    Yields (eval host (.logical op left right)) s (r >>= fun v => if op.stops v then .ok v else q) := by
  refine first.bind fun v trace _ => ?_
  cases op.stops v with
  | true => exact Yields.pure v _
  | false => exact second trace

end operators

end Yields

theorem strictEq_int (a b : Int) : (Val.num (.int a)).strictEq (.num (.int b)) = decide (a = b) := by
  show ((Val.num (.int a)) == .num (.int b)) = decide (a = b)
  rw [Bool.eq_iff_iff]
  simp

/-- The strict comparisons need no host. -/
theorem compare_pure {op : CompareOp} (strict : (op == .eq || op == .ne) = true) (v w : Val) :
    Op.pure? (.compare op) [v,w] = some (.bool (if op = .eq then v.strictEq w else !v.strictEq w)) := by
  have ints (a b : Int) : op.decideInt a b =
      (if op = .eq then (Val.num (.int a)).strictEq (.num (.int b)) else !(Val.num (.int a)).strictEq (.num (.int b))) := by
    rw [strictEq_int]
    obtain rfl | rfl : op = .eq ∨ op = .ne := by simpa using strict
    · rfl
    · simp [CompareOp.decideInt]
  have others (apart : ∀ a b, v = .num (.int a) → w ≠ .num (.int b)) :
      Op.pure? (.compare op) [v,w] = some (.bool (if op = .eq then v.strictEq w else !v.strictEq w)) := by
    obtain rfl | rfl : op = .eq ∨ op = .ne := by simpa using strict
    · rw [Op.pure?]
      · rfl
      · exact fun a b one two => apart a b one two
    · rw [Op.pure?]
      · rfl
      · exact fun a b one two => apart a b one two
  by_cases both : ∃ a b, v = .num (.int a) ∧ w = .num (.int b)
  · obtain ⟨a,b,rfl,rfl⟩ := both
    exact congrArg (fun r => some (Val.bool r)) (ints a b)
  · exact others fun a b one two => both ⟨a,b,one,two⟩

end quiet

section temporaries

variable {W : Type} {host : Host W} {s t : State W} {id : LocalId}

theorem yields_temp (unboxed : host.boxed id = false) (s : State W) :
    Yields (eval host (.localGet id)) s (.ok (s.store id)) := ⟨.read id :: s.trace,readLocal_unboxed unboxed s⟩

theorem Yields.test {e : Expr} {r : Except Val Val} (value : Yields (eval host e) s r) :
    Yields (evalTest host e) s (r >>= fun v => .ok v.truthy) :=
  value.bind fun v trace _ => Yields.pure v.truthy { s with trace := trace }

/-- A temporary that holds an integer, compared with a number. -/
theorem yields_compare (unboxed : host.boxed id = false) {k : Int} (held : s.store id = .int k) (op : CompareOp) (n : Int) :
    Yields (eval host (.compare op (.localGet id) (.number (.int n)))) s (.ok (.bool (op.decideInt k n))) := by
  obtain ⟨trace,ran⟩ := yields_temp unboxed s
  rw [held] at ran
  refine ⟨trace,?_⟩
  simp only [eval,evalArgs,bind_assoc,pure_bind] at ran ⊢
  rw [Run.bind_ok ran]
  rfl

/-- Two temporaries compared. -/
theorem yields_same (unboxed : host.boxed id = false) {other : LocalId} (plain : host.boxed other = false) (s : State W) :
    Yields (eval host (.compare .eq (.localGet id) (.localGet other))) s
      (.ok (.bool ((s.store id).strictEq (s.store other)))) := by
  have compares (v w : Val) : Op.pure? (.compare .eq) [v,w] = some (.bool (v.strictEq w)) := compare_pure rfl v w
  have second (trace : List Event) : Yields (eval host (.localGet other)) { s with trace := trace } (.ok (s.store other)) :=
    yields_temp plain { s with trace := trace }
  exact Yields.two (yields_temp unboxed s) second fun v w trace => Yields.apply (compares v w) { s with trace := trace }

theorem yields_not (unboxed : host.boxed id = false) (s : State W) :
    Yields (eval host (.unary .not (.localGet id))) s (.ok (.bool !(s.store id).truthy)) := by
  have negates (v : Val) : Op.pure? (.unary .not) [v] = some (.bool !v.truthy) := rfl
  exact Yields.one _ (yields_temp unboxed s) fun v trace => Yields.apply (negates v) { s with trace := trace }

variable {mode : Mode} {n : Nat} {labels : List String}

theorem exec_if_taken {c : Expr} {t : List Stmt} {e : Option (List Stmt)} (tested : Yields (evalTest host c) s (.ok true)) (mode : Mode) (n : Nat) :
    ∃ trace, exec host mode n labels (.if c t e) s = execList host mode n labels t { s with trace := trace } := by
  obtain ⟨trace,ran⟩ := tested
  refine ⟨trace,?_⟩
  rw [exec,Run.bind_ok (perform_ok ran)]
  rfl

theorem exec_if_skipped {c : Expr} {t : List Stmt} {e : Option (List Stmt)} (tested : Yields (evalTest host c) s (.ok false)) (mode : Mode) (n : Nat) :
    ∃ trace, exec host mode n labels (.if c t e) s = execList host mode n labels (e.getD []) { s with trace := trace } := by
  obtain ⟨trace,ran⟩ := tested
  refine ⟨trace,?_⟩
  rw [exec_if,Run.bind_ok (perform_ok ran)]
  rfl

/-- A temporary is set to what an expression gives. -/
theorem exec_set (unboxed : host.boxed id = false) {e : Expr} {v : Val} {u : State W} (value : eval host e s = (.ok v,u)) :
    exec host mode n labels (.expr (.localSet id e)) s =
      (.ok (),{ u with store := Function.update u.store id v, trace := .write id v :: u.trace }) := by
  rw [exec,eval]
  refine perform_ok ?_
  have written : (eval host e >>= fun v => writeLocal host id v >>= fun _ => pure v) s =
      (.ok v,{ u with store := Function.update u.store id v, trace := .write id v :: u.trace }) := by
    rw [Run.bind_ok value,Run.bind_ok (writeLocal_unboxed unboxed v u)]
    rfl
  rw [Run.bind_ok written]
  rfl

/-- Equal worlds and equal locals inside the program; the second program's own temporaries hold
`temps`. -/
structure AgreesOn (inside : LocalId → Prop) (temps : LocalId → Option Val) (s t : State W) : Prop where
  locals : ∀ id, inside id → s.store id = t.store id
  worlds : s.world = t.world
  temps : ∀ id v, temps id = some v → t.store id = v

variable {inside : LocalId → Prop} {temps : LocalId → Option Val}

theorem framed_agreesOn (apart : ∀ id v, temps id = some v → ¬inside id) :
    Framed (W := W) (fun a => inside a.id) (AgreesOn inside temps) where
  locals h member := h.locals _ member
  worlds h := h.worlds
  assign {s t id} v h member := by
    refine ⟨fun i within => ?_,h.worlds,fun i w known => ?_⟩
    · by_cases same : i = id
      · subst same
        simp
      · simpa [Function.update_of_ne same] using h.locals i within
    · have other : i ≠ id := fun same => apart i w known (same ▸ member)
      simpa [Function.update_of_ne other] using h.temps i w known
  advance w h := ⟨h.locals,rfl,h.temps⟩
  forget a b h := ⟨h.locals,h.worlds,h.temps⟩

namespace AgreesOn

theorem traces (agrees : AgreesOn inside temps s t) (a b : List Event) :
    AgreesOn inside temps { s with trace := a } { t with trace := b } := ⟨agrees.locals,agrees.worlds,agrees.temps⟩

/-- The second program sets one of its own temporaries. -/
theorem set (agrees : AgreesOn inside temps s t) (outside : ¬inside id) (v : Val) (trace : List Event) :
    AgreesOn inside (Function.update temps id (some v)) s { t with store := Function.update t.store id v, trace := trace } := by
  refine ⟨fun i within => ?_,agrees.worlds,fun i w known => ?_⟩
  · have other : i ≠ id := fun same => outside (same ▸ within)
    simpa [Function.update_of_ne other] using agrees.locals i within
  · by_cases same : i = id
    · subst same
      simpa using known
    · simp only [Function.update_of_ne same] at known ⊢
      exact agrees.temps i w known

/-- A temporary takes another value. -/
theorem reset {w : Option Val} (agrees : AgreesOn inside (Function.update temps id w) s t) (outside : ¬inside id) (v : Val)
    (trace : List Event) : AgreesOn inside (Function.update temps id (some v)) s
      { t with store := Function.update t.store id v, trace := trace } := by
  rw [← Function.update_idem (a := id) w (some v) temps]
  exact agrees.set outside v trace

theorem weaken {temps' : LocalId → Option Val} (agrees : AgreesOn inside temps s t)
    (fewer : ∀ id v, temps' id = some v → temps id = some v) : AgreesOn inside temps' s t :=
  ⟨agrees.locals,agrees.worlds,fun id v known => agrees.temps id v (fewer id v known)⟩

end AgreesOn

/-- A local the second program may use for itself. -/
structure Spare (host : Host W) (inside : LocalId → Prop) (temps : LocalId → Option Val) (id : LocalId) : Prop where
  unboxed : host.boxed id = false
  outside : ¬inside id
  unused : temps id = none

namespace Spare

variable (spare : Spare host inside temps id) {other : LocalId}
include spare

theorem keep {i : LocalId} {v : Val} {w : Option Val} (known : temps i = some v) : Function.update temps id w i = some v := by
  have apart : i ≠ id := by
    rintro rfl
    rw [spare.unused] at known
    cases known
  rwa [Function.update_of_ne apart]

theorem update (apart : id ≠ other) (w : Option Val) : Spare host inside (Function.update temps other w) id :=
  ⟨spare.unboxed,spare.outside,by rw [Function.update_of_ne apart,spare.unused]⟩

theorem apart (apart : ∀ i v, temps i = some v → ¬inside i) (w : Option Val) {i : LocalId} {v : Val}
    (known : Function.update temps id w i = some v) : ¬inside i := by
  by_cases same : i = id
  · exact same ▸ spare.outside
  · rw [Function.update_of_ne same] at known
    exact apart i v known

end Spare

theorem stutters_set (unboxed : host.boxed id = false) (outside : ¬inside id) (l : Lit) :
    Stutters (AgreesOn inside temps) (AgreesOn inside (Function.update temps id (some l.val)))
      (exec host mode n labels (.expr (.localSet id (.lit l)))) :=
  fun _ _ agrees => ⟨_,exec_set unboxed rfl,agrees.set outside l.val _⟩

section branches

variable {pre post : State W → State W → Prop} {c : Expr} {b : List Stmt} {e : Option (List Stmt)}

/-- A test of the second program alone that comes out true. -/
theorem stutters_if (tested : ∀ s t, pre s t → Yields (evalTest host c) t (.ok true))
    (forgets : ∀ s t trace, pre s t → pre s { t with trace := trace })
    (branch : Stutters pre post (execList host mode n labels b)) :
    Stutters pre post (exec host mode n labels (.if c b e)) := by
  intro s t related
  obtain ⟨trace,same⟩ := exec_if_taken (tested s t related) mode n
  rw [same]
  exact branch s _ (forgets s t trace related)

theorem stutters_skip (tested : ∀ s t, pre s t → Yields (evalTest host c) t (.ok false))
    (forgets : ∀ s t trace, pre s t → pre s { t with trace := trace }) :
    Stutters pre pre (exec host mode n labels (.if c b none)) := by
  intro s t related
  obtain ⟨trace,same⟩ := exec_if_skipped (tested s t related) mode n
  exact ⟨_,same,forgets s t trace related⟩

theorem Sim.enter {α : Type} {m : Act W α} {after : α → Unit → State W → State W → Prop}
    {fail : Comp → Comp → State W → State W → Prop}
    (tested : ∀ s t, pre s t → Yields (evalTest host c) t (.ok true))
    (forgets : ∀ s t trace, pre s t → pre s { t with trace := trace })
    (branch : Sim pre after fail m (execList host mode n labels b)) :
    Sim pre after fail m (exec host mode n labels (.if c b e)) := by
  intro s t related
  obtain ⟨trace,same⟩ := exec_if_taken (tested s t related) mode n
  rw [same]
  exact branch s _ (forgets s t trace related)

end branches

/-- A temporary takes the value the first program computes. -/
theorem Sim.setTemp (apart : ∀ i v, temps i = some v → ¬inside i) (unboxed : host.boxed id = false)
    (outside : ¬inside id) {e : Expr} (reads : ∀ a ∈ e.accesses, inside a.id) :
    Sim (AgreesOn inside temps) (fun v _ => AgreesOn inside (Function.update temps id (some v)))
      (fun c d s t => c = d ∧ AgreesOn inside temps s t) (perform (eval host e))
      (exec host mode n labels (.expr (.localSet id e))) := by
  intro s t agrees
  obtain ⟨equal,related⟩ := ((framed_agreesOn apart).eval host reads).apply agrees
  revert equal related
  rcases ran : eval host e s with ⟨x | v,u⟩
  · rcases ran' : eval host e t with ⟨y | w,q⟩
    · intro equal related
      cases equal
      rw [exec,eval,perform,perform,Run.mapError,Run.mapError,ran,bind_assoc,Run.bind_error ran']
      exact ⟨rfl,related⟩
    · intro equal
      cases equal
  · rcases ran' : eval host e t with ⟨y | w,q⟩
    · intro equal
      cases equal
    · intro equal related
      cases equal
      rw [perform_ok ran,exec_set unboxed ran']
      exact related.set outside v _

end temporaries

end Perry.Hir
