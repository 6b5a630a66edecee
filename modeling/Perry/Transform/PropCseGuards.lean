import Perry.Hir.Quiet
import Perry.Transform.PropCse

/-! What guards evaluate to when property reads are pure, and what substituting a
temporary for a read changes in them: nothing. -/
namespace Perry.Transform.PropCse

open Perry.Effect Perry.Hir

section syntactic

variable {key other : ReadKey} {tmp : LocalId} {e : Expr} {tag : Nat} {args : List Expr}

theorem isLeaf_cases (leaf : isLeaf tag args = true) :
    (tag = 7 ∨ tag = 51 ∨ tag = 69) ∧ ∀ a ∈ args, ∃ l, a = .lit l := by
  simp only [isLeaf,Bool.and_eq_true,Bool.or_eq_true,beq_iff_eq,List.all_eq_true] at leaf
  refine ⟨by omega,fun a member => ?_⟩
  have literal := leaf.2 a member
  cases a with
  | lit l => exact ⟨l,rfl⟩
  | _ => cases literal

theorem substituteReads_leaf (leaf : isLeaf tag args = true) :
    substituteReads key tmp (.strict (.variant tag) args) = .strict (.variant tag) args := by
  obtain ⟨rfl | rfl | rfl,_⟩ := isLeaf_cases leaf <;> rfl

theorem guardExprIsAnalyzable_leaf (leaf : isLeaf tag args = true) :
    guardExprIsAnalyzable (.strict (.variant tag) args) = true := by
  obtain ⟨rfl | rfl | rfl,_⟩ := isLeaf_cases leaf <;> exact leaf

theorem analyzable_substituteReads (analyzable : guardExprIsAnalyzable e = true) :
    guardExprIsAnalyzable (substituteReads key tmp e) = true := by
  fun_induction guardExprIsAnalyzable e with
  | case4 property id =>
    simp only [substituteReads]
    split <;> rfl
  | case5 op left right ihl ihr =>
    simp only [Bool.and_eq_true] at analyzable
    simp only [substituteReads,guardExprIsAnalyzable,Bool.and_eq_true]
    exact ⟨⟨analyzable.1.1,ihl analyzable.1.2⟩,ihr analyzable.2⟩
  | case6 op left right ihl ihr =>
    simp only [Bool.and_eq_true] at analyzable
    simp only [substituteReads,guardExprIsAnalyzable,Bool.and_eq_true]
    exact ⟨ihl analyzable.1,ihr analyzable.2⟩
  | case7 op operand ih =>
    simp only [Bool.and_eq_true] at analyzable
    simp only [substituteReads,guardExprIsAnalyzable,Bool.and_eq_true]
    exact ⟨analyzable.1,ih analyzable.2⟩
  | case8 operand ih => exact ih analyzable
  | case9 tag args apart =>
    rw [substituteReads_leaf analyzable]
    exact guardExprIsAnalyzable_leaf analyzable
  | case10 e => cases analyzable
  | _ => rfl

/-- Other reads stay as they are. -/
theorem countReadsOf_substituteReads (apart : other ≠ key) :
    countReadsOf other (substituteReads key tmp e) = countReadsOf other e := by
  fun_induction substituteReads key tmp e with
  | case1 property id =>
    rename_i same
    obtain ⟨rfl,rfl⟩ := same
    simp only [countReadsOf]
    rw [if_neg]
    rintro ⟨one,two⟩
    exact apart (Prod.ext one.symm two.symm)
  | case2 property id => rfl
  | case3 op left right ihl ihr => simp only [countReadsOf,ihl,ihr]
  | case4 op left right ihl ihr => simp only [countReadsOf,ihl,ihr]
  | case5 op operand ih => simp only [countReadsOf,ih]
  | case6 operand ih => simp only [countReadsOf,ih]
  | case7 e => rfl

theorem firstUnconditionalRead_accesses (first : firstUnconditionalRead e = some key) :
    .read key.1 ∈ e.accesses := by
  fun_induction firstUnconditionalRead e with
  | case1 property id =>
    cases first
    simp [Expr.accesses,accessesOfList]
  | case2 op left right ihl ihr =>
    simp only [Expr.accesses,accessesOfList,List.mem_append]
    obtain found | ⟨_,found⟩ := Option.or_eq_some_iff.mp first
    · exact .inl (ihl found)
    · exact .inr (.inl (ihr found))
  | case3 op left right ih =>
    simp only [Expr.accesses,List.mem_append]
    exact .inl (ih first)
  | case4 op operand ih =>
    simp only [Expr.accesses,accessesOfList,List.append_nil]
    exact ih first
  | case5 operand ih =>
    simp only [Expr.accesses,accessesOfList,List.append_nil]
    exact ih first
  | case6 e => cases first

/-- The operands evaluated in front of the first unconditional read. -/
def leads : Expr → List Expr
  | .compare _ left right =>
    if (firstUnconditionalRead left).isSome then leads left else left :: leads right
  | .logical _ left _ => leads left
  | .unary _ operand => leads operand
  | typeOf operand => leads operand
  | _ => []

section

-- equations, made here once and not by the first proofs that unfold these
attribute [local simp] leads

end

theorem analyzable_leads (analyzable : guardExprIsAnalyzable e = true) :
    ∀ l ∈ leads e, guardExprIsAnalyzable l = true := by
  fun_induction leads e with
  | case1 op left right isSome ih =>
    simp only [guardExprIsAnalyzable,Bool.and_eq_true] at analyzable
    exact ih analyzable.1.2
  | case2 op left right isNone ih =>
    simp only [guardExprIsAnalyzable,Bool.and_eq_true] at analyzable
    exact List.forall_mem_cons.mpr ⟨analyzable.1.2,ih analyzable.2⟩
  | case3 op left right ih =>
    simp only [guardExprIsAnalyzable,Bool.and_eq_true] at analyzable
    exact ih analyzable.1
  | case4 op operand ih =>
    simp only [guardExprIsAnalyzable,Bool.and_eq_true] at analyzable
    exact ih analyzable.2
  | case5 operand ih => exact ih analyzable
  | case6 e => simp

end syntactic

section values

/-- The variants whose evaluation is left to the host. -/
def hosted (tag : Nat) : Prop := tag = 7 ∨ tag = 39 ∨ tag = 51 ∨ tag = 69

variable {W : Type}

/-- A host where property reads are pure, except that null and undefined refuse them,
and where a local always has a value. -/
structure PureReads (host : Host W) where
  cell : LocalId → W → Val
  property : String → Val → W → Val
  refusal : Val → Val
  answer : Nat → List Val → W → Val
  locals : ∀ id w, host.boxed id = true → host.readBox id w = (.ok (cell id w),w)
  reads : ∀ p v w, v.nullish = false → host.op (.propertyGet p) [v] w = (.ok (property p v w),w)
  refuses : ∀ p v w, v.nullish = true → host.op (.propertyGet p) [v] w = (.error (.throw (refusal v)),w)
  answers : ∀ tag args w, hosted tag → host.op (.variant tag) args w = (.ok (answer tag args w),w)

namespace PureReads

variable {host : Host W} (reads : PureReads host)

def held (s : State W) (id : LocalId) : Val :=
  if host.boxed id then reads.cell id s.world else s.store id

def literal : Expr → Val
  | .lit l => l.val
  | _ => .undefined

/-- The value of a guard, or what it throws. -/
def value (s : State W) : Expr → Except Val Val
  | .lit l => .ok l.val
  | .localGet id => .ok (reads.held s id)
  | .strict (.funcRef id) [] => .ok (.func id)
  | .strict (.propertyGet p) [.localGet id] =>
    if (reads.held s id).nullish then .error (reads.refusal (reads.held s id))
    else .ok (reads.property p (reads.held s id) s.world)
  | .compare op left right => do
    let v ← value s left
    let w ← value s right
    pure (.bool (if op = .eq then v.strictEq w else !v.strictEq w))
  | .logical op left right => do
    let v ← value s left
    if op.stops v then pure v else value s right
  | .unary _ operand => do
    let v ← value s operand
    pure (.bool !v.truthy)
  | typeOf operand => do
    let v ← value s operand
    pure (reads.answer 39 [v] s.world)
  | .strict (.variant tag) args => .ok (reads.answer tag (args.map literal) s.world)
  | _ => .ok .undefined

section

-- equations, made here once and not by the first proofs that unfold these
attribute [local simp] value

end

end PureReads

namespace PureReads

variable {host : Host W} (reads : PureReads host) {e : Expr} {s t : State W}

theorem value_congr (world : s.world = t.world)
    (locals : ∀ id, .read id ∈ e.accesses → reads.held s id = reads.held t id) :
    reads.value s e = reads.value t e := by
  fun_induction value reads s e with
  | case2 id => rw [value,locals id (by simp [Expr.accesses])]
  | case4 p id isNullish =>
    rw [locals id (by simp [Expr.accesses,accessesOfList])] at isNullish ⊢
    simp only [value,isNullish,if_true]
  | case5 p id isValue =>
    rw [locals id (by simp [Expr.accesses,accessesOfList])] at isValue ⊢
    simp only [value,isValue,world]
    rfl
  | case6 op left right ihl ihr =>
    simp only [Expr.accesses,accessesOfList,List.append_nil,List.mem_append] at locals
    simp only [value,← ihl fun id h => locals id (.inl h),← ihr fun id h => locals id (.inr h)]
  | case7 op left right ihl ihr =>
    simp only [Expr.accesses,List.mem_append] at locals
    simp only [value,← ihl fun id h => locals id (.inl h),← ihr fun id h => locals id (.inr h)]
  | case8 op operand ih =>
    simp only [Expr.accesses,accessesOfList,List.append_nil] at locals
    simp only [value,← ih locals]
  | case9 operand ih =>
    simp only [Expr.accesses,accessesOfList,List.append_nil] at locals
    simp only [value,← ih locals,world]
  | case10 tag args apart =>
    rw [value,world]
    exact apart
  | case11 e =>
    rw [value] <;> assumption
  | _ => rfl

theorem value_trace (s : State W) (trace : List Event) (e : Expr) :
    reads.value { s with trace := trace } e = reads.value s e := reads.value_congr rfl fun _ _ => rfl

theorem yields_read (s : State W) (id : LocalId) : Yields (readLocal host id) s (.ok (reads.held s id)) := by
  refine ⟨.read id :: s.trace,?_⟩
  unfold held
  cases boxed : host.boxed id with
  | false => exact readLocal_unboxed boxed s
  | true =>
    simp only [readLocal,fetchLocal,boxed,if_true]
    simp only [emit,Run.update,Run.bind_apply,Host.lift,reads.locals id _ boxed]
    rfl

theorem yields_lift {α : Type} {m : Run W Signal α} {r : Except Signal α} {q : Except Val α}
    (ran : m s.world = (r,s.world)) (same : q.mapError Signal.throw = r) : Yields (Host.lift m) s q := by
  refine ⟨s.trace,?_⟩
  subst same
  rw [Host.lift,ran]
  cases q <;> rfl

theorem yields_literals {args : List Expr} (literals : ∀ a ∈ args, ∃ l, a = .lit l) (s : State W) :
    Yields (evalArgs host args) s (.ok (args.map literal)) := by
  induction args with
  | nil => exact Yields.pure [] s
  | cons a args ih =>
    obtain ⟨l,rfl⟩ := literals a (by simp)
    obtain ⟨trace,ran⟩ := ih fun b member => literals b (by simp [member])
    refine ⟨trace,?_⟩
    simp only [evalArgs,eval,pure_bind]
    rw [Run.bind_ok ran]
    rfl

theorem yields_property (p : String) (v : Val) (s : State W) :
    Yields (applyOp host (.propertyGet p) [v]) s
      (if v.nullish then .error (reads.refusal v) else .ok (reads.property p v s.world)) := by
  cases isNullish : v.nullish with
  | true => exact yields_lift (reads.refuses p v s.world isNullish) rfl
  | false => exact yields_lift (reads.reads p v s.world isNullish) rfl

theorem yields_hosted {tag : Nat} (isHosted : hosted tag) (args : List Val) (s : State W) :
    Yields (applyOp host (.variant tag) args) s (.ok (reads.answer tag args s.world)) :=
  yields_lift (reads.answers tag args s.world isHosted) rfl

/-- A guard evaluates to its value. -/
theorem yields_value (analyzable : guardExprIsAnalyzable e = true) (s : State W) :
    Yields (eval host e) s (reads.value s e) := by
  fun_induction guardExprIsAnalyzable e generalizing s with
  | case1 l => exact Yields.pure _ s
  | case2 id => exact reads.yields_read s id
  | case3 id => exact ⟨s.trace,rfl⟩
  | case4 p id =>
    have receiver : Yields (eval host (.localGet id)) s (.ok (reads.held s id)) := reads.yields_read s id
    exact Yields.one (fun v => if v.nullish then .error (reads.refusal v) else .ok (reads.property p v s.world))
      receiver fun v trace => reads.yields_property p v { s with trace := trace }
  | case5 op left right ihl ihr =>
    simp only [Bool.and_eq_true] at analyzable
    refine Yields.two (ihl analyzable.1.2 s) (fun trace => ?_) fun v w trace =>
      Yields.apply (compare_pure analyzable.1.1 v w) _
    rw [← reads.value_trace s trace]
    exact ihr analyzable.2 _
  | case6 op left right ihl ihr =>
    simp only [Bool.and_eq_true] at analyzable
    refine (ihl analyzable.1 s).bind fun v trace _ => ?_
    cases op.stops v with
    | true => exact Yields.pure v _
    | false =>
      rw [← reads.value_trace s trace]
      exact ihr analyzable.2 _
  | case7 op operand ih =>
    simp only [Bool.and_eq_true,beq_iff_eq] at analyzable
    obtain ⟨rfl,analyzable⟩ := analyzable
    exact Yields.one _ (ih analyzable s) fun v trace => Yields.apply rfl _
  | case8 operand ih =>
    exact Yields.one _ (ih analyzable s) fun v trace =>
      reads.yields_hosted (.inr (.inl rfl)) [v] { s with trace := trace }
  | case9 tag args apart =>
    obtain ⟨tags,literals⟩ := isLeaf_cases analyzable
    have here : reads.value s (.strict (.variant tag) args) =
        Except.ok (args.map literal) >>= fun vs => .ok (reads.answer tag vs s.world) := by
      rw [value]
      · rfl
      · exact apart
    have isHosted : hosted tag := by
      obtain rfl | rfl | rfl := tags <;> simp [hosted]
    rw [here,eval]
    exact (yields_literals literals s).bind fun vs trace _ =>
      reads.yields_hosted isHosted vs { s with trace := trace }
  | case10 e => cases analyzable

/-- A temporary that holds the value of the read stands for it. -/
theorem value_substituteReads {key : ReadKey} {tmp : LocalId}
    (holds : reads.value s (readOf key) = .ok (reads.held s tmp)) :
    reads.value s (substituteReads key tmp e) = reads.value s e := by
  fun_induction substituteReads key tmp e with
  | case1 property id =>
    rename_i same
    obtain ⟨rfl,rfl⟩ := same
    exact holds.symm
  | case3 op left right ihl ihr => simp only [value,ihl,ihr]
  | case4 op left right ihl ihr => simp only [value,ihl,ihr]
  | case5 op operand ih => simp only [value,ih]
  | case6 operand ih => simp only [value,ih]
  | _ => rfl

/-- A guard whose first unconditional read is refused ends with that refusal, if the first of the
operands in front of the read to throw, throws the same. -/
theorem value_refused {key : ReadKey} {x : Val} (first : firstUnconditionalRead e = some key)
    (refused : reads.value s (readOf key) = .error x)
    (clear : ∀ before l after, leads e = before ++ l :: after → (∀ b ∈ before, ∃ v, reads.value s b = .ok v) →
      ∀ y, reads.value s l = .error y → y = x) :
    reads.value s e = .error x := by
  fun_induction firstUnconditionalRead e with
  | case1 property id =>
    cases first
    exact refused
  | case2 op left right ihl ihr =>
    rw [leads] at clear
    by_cases isSome : (firstUnconditionalRead left).isSome
    · rw [if_pos isSome] at clear
      obtain ⟨found,inside⟩ := Option.isSome_iff_exists.mp isSome
      rw [inside,Option.some_or] at first
      rw [value,ihl (inside.trans first) clear]
      rfl
    · rw [if_neg isSome] at clear
      rw [Option.not_isSome_iff_eq_none.mp isSome,Option.none_or] at first
      rw [value]
      cases known : reads.value s left with
      | error y =>
        rw [clear [] left (leads right) rfl (by simp) y known]
        rfl
      | ok v =>
        rw [ihr first fun before l after split passed => clear (left :: before) l after (by rw [split]; rfl)
          (List.forall_mem_cons.mpr ⟨⟨v,known⟩,passed⟩)]
        rfl
  | case3 op left right ih =>
    rw [value,ih first clear]
    rfl
  | case4 op operand ih =>
    rw [value,ih first clear]
    rfl
  | case5 operand ih =>
    rw [value,ih first clear]
    rfl
  | case6 e => cases first

end PureReads

end values

end Perry.Transform.PropCse
