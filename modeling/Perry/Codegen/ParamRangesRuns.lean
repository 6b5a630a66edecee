import Mathlib.Data.List.ReduceOption
import Perry.Codegen.ParamRangesSound

/-! Reported parameter ranges hold in every run of the module. -/
namespace Perry.Codegen.ParamRanges

open Perry.Effect Perry.Hir

section walks

/-- The closures an expression builds, as a property of its parts. -/
def IsClosure : Expr → Prop
  | .closure .. => True
  | _ => False

private theorem visits_of_list {c : Expr} {es : List Expr} (each : ∀ e ∈ es, c ∈ e.parts → visitExpr c ⊆ visitExpr e)
    (inside : c ∈ partsOfList es) : visitExpr c ⊆ visitList es := by
  induction es with
  | nil => cases inside
  | cons e es ih =>
    simp only [partsOfList,List.mem_append] at inside
    rcases inside with first | rest
    · exact fun v member => List.mem_append_left _ (each e (by simp) first member)
    · exact fun v member => List.mem_append_right _ (ih (fun a h => each a (by simp [h])) rest member)

private theorem visits_of_args {c : Expr} {op : Op} {args : List Expr} (closure : IsClosure c)
    (each : ∀ e ∈ args, c ∈ e.parts → visitExpr c ⊆ visitExpr e) (inside : c ∈ partsOfList args) :
    visitExpr c ⊆ visitArgs op args := by
  cases args with
  | nil => cases inside
  | cons e es =>
    simp only [partsOfList,List.mem_append] at inside
    rcases inside with first | rest
    · have node : isDirectCallee op e = false := by
        -- the callee of a direct call has itself as its only part
        cases direct : isDirectCallee op e with
        | false => rfl
        | true =>
          unfold isDirectCallee at direct
          split at direct
          · cases List.mem_singleton.mp first
            exact closure.elim
          · cases direct
      intro v member
      simp only [visitArgs,node,Bool.false_eq_true,if_false]
      exact List.mem_append_left _ (each e (by simp) first member)
    · intro v member
      exact List.mem_append_right _ (visits_of_list (fun a h => each a (by simp [h])) rest member)

/-- The walk enters every closure an expression builds. -/
theorem visits_of_parts {c e : Expr} (closure : IsClosure c) (inside : c ∈ e.parts) : visitExpr c ⊆ visitExpr e := by
  induction e using Expr.induct with
  | lit l =>
    cases List.mem_singleton.mp inside
    exact List.Subset.refl _
  | localGet id =>
    cases List.mem_singleton.mp inside
    exact List.Subset.refl _
  | update id op pre =>
    cases List.mem_singleton.mp inside
    exact List.Subset.refl _
  | closure funcId params defaults captures mutableCaptures flags body =>
    cases List.mem_singleton.mp inside
    exact List.Subset.refl _
  | localSet id value ih =>
    rcases List.mem_cons.mp inside with rfl | inner
    · exact closure.elim
    · exact fun v member => List.mem_cons_of_mem _ (ih inner member)
  | strict op args ih =>
    rcases List.mem_cons.mp inside with rfl | inner
    · exact closure.elim
    · exact fun v member => List.mem_cons_of_mem _ (visits_of_args closure ih inner member)
  | logical op left right ihl ihr =>
    rcases List.mem_cons.mp inside with rfl | inner
    · exact closure.elim
    · refine fun v member => List.mem_cons_of_mem _ (List.mem_append.mpr ?_)
      rcases List.mem_append.mp inner with first | second
      · exact .inl (ihl first member)
      · exact .inr (ihr second member)
  | conditional cond t e ihc iht ihe =>
    rcases List.mem_cons.mp inside with rfl | inner
    · exact closure.elim
    · refine fun v member => List.mem_cons_of_mem _ ?_
      simp only [List.mem_append] at inner ⊢
      rcases inner with (first | second) | third
      · exact .inl (.inl (ihc first member))
      · exact .inl (.inr (iht second member))
      · exact .inr (ihe third member)
  | sequence items ih =>
    rcases List.mem_cons.mp inside with rfl | inner
    · exact closure.elim
    · exact fun v member => List.mem_cons_of_mem _ (visits_of_list ih inner member)
  | arrayMut kind id args ih =>
    rcases List.mem_cons.mp inside with rfl | inner
    · exact closure.elim
    · exact fun v member => List.mem_cons_of_mem _ (visits_of_list ih inner member)
  | withSet object property value fallback strict iho ihv =>
    rcases List.mem_cons.mp inside with rfl | inner
    · exact closure.elim
    · refine fun v member => List.mem_cons_of_mem _ (List.mem_append.mpr ?_)
      rcases List.mem_append.mp inner with first | second
      · exact .inl (iho first member)
      · exact .inr (ihv second member)
  | await operand ih =>
    rcases List.mem_cons.mp inside with rfl | inner
    · exact closure.elim
    · exact fun v member => List.mem_cons_of_mem _ (ih inner member)
  | yieldNone delegate =>
    rcases List.mem_cons.mp inside with rfl | inner
    · exact closure.elim
    · cases inner
  | yieldSome value delegate ih =>
    rcases List.mem_cons.mp inside with rfl | inner
    · exact closure.elim
    · exact fun v member => List.mem_cons_of_mem _ (ih inner member)

private theorem visits_of_option {c : Expr} {e : Option Expr} (closure : IsClosure c) (inside : c ∈ partsOfOption e) :
    visitExpr c ⊆ visitOption e := by
  cases e with
  | none => cases inside
  | some e => exact visits_of_parts closure inside

private theorem visits_of_stmts_each {c : Expr} {ss : List Stmt}
    (each : ∀ s ∈ ss, c ∈ s.parts → visitExpr c ⊆ visitStmt s) (inside : c ∈ partsOfStmts ss) :
    visitExpr c ⊆ visitStmts ss := by
  induction ss with
  | nil => cases inside
  | cons s ss ih =>
    simp only [partsOfStmts,List.mem_append] at inside
    rcases inside with first | rest
    · exact fun v member => List.mem_append_left _ (each s (by simp) first member)
    · exact fun v member => List.mem_append_right _ (ih (fun a h => each a (by simp [h])) rest member)

private theorem visits_of_cases {c : Expr} {cases : List SwitchCase} (closure : IsClosure c)
    (each : ∀ d ∈ cases, ∀ s ∈ d.body, c ∈ s.parts → visitExpr c ⊆ visitStmt s) (inside : c ∈ partsOfCases cases) :
    visitExpr c ⊆ visitCases cases := by
  induction cases with
  | nil => cases inside
  | cons d cases ih =>
    rcases d with ⟨test,body⟩
    intro v member
    simp only [partsOfCases,List.mem_append] at inside
    simp only [visitCases,List.mem_append]
    rcases inside with (first | second) | rest
    · exact .inl (.inl (visits_of_option closure first member))
    · exact .inl (.inr (visits_of_stmts_each (each (.mk test body) (by simp)) second member))
    · exact .inr (ih (fun a h => each a (by simp [h])) rest member)

theorem visits_of_stmt {c : Expr} {s : Stmt} (closure : IsClosure c) (inside : c ∈ s.parts) :
    visitExpr c ⊆ visitStmt s := by
  induction s using Stmt.induct with
  | letNone id m => cases inside
  | letSome id m e => exact fun v member => List.mem_cons_of_mem _ (visits_of_parts closure inside member)
  | expr e => exact visits_of_parts closure inside
  | returnStmt value => exact visits_of_option closure inside
  | throwStmt e => exact visits_of_parts closure inside
  | ifStmt cond t e iht ihe =>
    intro v member
    simp only [Stmt.parts,partsOfBlock_eq,List.mem_append] at inside
    simp only [visitStmt,visitBlock_eq,List.mem_append]
    rcases inside with (first | second) | third
    · exact .inl (.inl (visits_of_parts closure first member))
    · exact .inl (.inr (visits_of_stmts_each iht second member))
    · exact .inr (visits_of_stmts_each ihe third member)
  | whileStmt cond b ih =>
    intro v member
    simp only [Stmt.parts,List.mem_append] at inside
    simp only [visitStmt,List.mem_append]
    rcases inside with first | second
    · exact .inl (visits_of_parts closure first member)
    · exact .inr (visits_of_stmts_each ih second member)
  | doWhile b cond ih =>
    intro v member
    simp only [Stmt.parts,List.mem_append] at inside
    simp only [visitStmt,List.mem_append]
    rcases inside with first | second
    · exact .inr (visits_of_stmts_each ih first member)
    · exact .inl (visits_of_parts closure second member)
  | forStmt i cond u b ihi ihb =>
    intro v member
    simp only [Stmt.parts,List.mem_append] at inside
    simp only [visitStmt,List.mem_append]
    rcases inside with ((first | second) | third) | fourth
    · refine .inl (.inl (.inl ?_))
      cases i with
      | none => cases first
      | some s => exact ihi s rfl first member
    · exact .inl (.inl (.inr (visits_of_option closure second member)))
    · exact .inl (.inr (visits_of_option closure third member))
    · exact .inr (visits_of_stmts_each ihb fourth member)
  | labeled l b ih => exact ih inside
  | tryStmt b h f ihb ihh ihf =>
    intro v member
    simp only [Stmt.parts,List.mem_append] at inside
    simp only [visitStmt,List.mem_append]
    rcases inside with (first | second) | third
    · exact .inl (.inl (visits_of_stmts_each ihb first member))
    · refine .inl (.inr ?_)
      rcases h with _ | ⟨param,caught⟩
      · cases second
      · exact List.mem_append_right _ (visits_of_stmts_each (ihh _ rfl) second member)
    · refine .inr ?_
      cases f with
      | none => cases third
      | some final => exact visits_of_stmts_each (ihf _ rfl) third member
  | switch d cases ih =>
    intro v member
    simp only [Stmt.parts,List.mem_append] at inside
    simp only [visitStmt,List.mem_append]
    rcases inside with first | second
    · exact .inl (visits_of_parts closure first member)
    · exact .inr (visits_of_cases closure ih second member)
  | breakStmt => cases inside
  | continueStmt => cases inside
  | labeledBreak l => cases inside
  | labeledContinue l => cases inside
  | preallocateBoxes ids => cases inside
  | preallocateTdzBoxes ids => cases inside
  | releaseBoxes ids => cases inside

theorem visits_of_code {c : Expr} {code : Code} (closure : IsClosure c) (inside : c ∈ code.parts) :
    visitExpr c ⊆ visitCode code := by
  intro v member
  simp only [Code.parts,List.mem_append,List.mem_flatMap] at inside
  simp only [visitCode,visitParams,List.mem_append,List.mem_flatMap]
  rcases inside with ⟨p,held,first⟩ | second
  · exact .inl ⟨p,held,visits_of_option closure first member⟩
  · exact .inr (visits_of_stmts_each (fun s _ h => visits_of_stmt closure h) second member)

theorem visitParams_eq (params : List Param) : visitParams params = visitList (params.filterMap (·.default)) := by
  induction params with
  | nil => rfl
  | cons p ps ih =>
    rw [visitParams,List.flatMap_cons,← visitParams,ih]
    cases given : p.default with
    | none => rw [List.filterMap_cons_none given,visitOption,List.nil_append]
    | some d => rw [List.filterMap_cons_some given,visitOption,visitList]

end walks

section scan

variable {constants : LocalId → Option Hir.Num}

/-- The scan knows what a node does. -/
def Scan.Has (constants : LocalId → Option Hir.Num) (scan : Scan) : Visit → Prop
  | .bind id => id ∈ scan.rebinds
  | .expr (.strict .call (.strict (.funcRef id) [] :: args)) => (id,args.map (constantArg constants)) ∈ scan.callSites
  | .expr (.strict (.funcRef id) _) => id ∈ scan.poisoned
  | .expr (.closure id ..) => id ∈ scan.poisoned
  | .expr (.localSet id _) | .expr (.update id ..) | .expr (.strict (.globalSet id) _) => id ∈ scan.writes
  | .expr _ => True

theorem has_record (scan : Scan) (v : Visit) : (scan.record constants v).Has constants v := by
  unfold Scan.record Scan.Has
  split <;> simp_all

theorem Scan.Has.record {scan : Scan} {v : Visit} (has : scan.Has constants v) (w : Visit) :
    (scan.record constants w).Has constants v := by
  have grows : scan.rebinds ⊆ (scan.record constants w).rebinds ∧ scan.callSites ⊆ (scan.record constants w).callSites ∧
      scan.poisoned ⊆ (scan.record constants w).poisoned ∧ scan.writes ⊆ (scan.record constants w).writes := by
    unfold Scan.record
    split <;> simp
  unfold Scan.Has at has ⊢
  split at has
  · exact grows.1 has
  · exact grows.2.1 has
  · exact grows.2.2.1 has
  · exact grows.2.2.1 has
  · exact grows.2.2.2 has
  · exact grows.2.2.2 has
  · exact grows.2.2.2 has
  · trivial

theorem has_foldl {visits : List Visit} {v : Visit} (scan : Scan) (visited : v ∈ visits ∨ scan.Has constants v) :
    (visits.foldl (Scan.record constants) scan).Has constants v := by
  induction visits generalizing scan with
  | nil =>
    rcases visited with none | has
    · cases none
    · exact has
  | cons w visits ih =>
    refine ih _ ?_
    rcases visited with member | has
    · rcases List.mem_cons.mp member with rfl | later
      · exact .inr (has_record scan v)
      · exact .inl later
    · exact .inr (has.record w)

theorem meetSites_spec {i : Nat} {sites : List (List (Option Int))} {start range : IntRange}
    (met : meetSites i sites start = some range) : range.min ≤ start.min ∧ start.max ≤ range.max ∧
      ∀ site ∈ sites, ∃ k, site[i]?.join = some k ∧ range.min ≤ k ∧ k ≤ range.max := by
  induction sites generalizing start with
  | nil =>
    cases met
    exact ⟨Int.le_refl _,Int.le_refl _,by simp⟩
  | cons site sites ih =>
    rw [meetSites] at met
    split at met
    · next k constant =>
      obtain ⟨lower,upper,rest⟩ := ih met
      refine ⟨Int.le_trans lower (Int.min_le_left ..),Int.le_trans (Int.le_max_left ..) upper,fun s member => ?_⟩
      rcases List.mem_cons.mp member with rfl | later
      · exact ⟨k,constant,Int.le_trans lower (Int.min_le_right ..),Int.le_trans (Int.le_max_right ..) upper⟩
      · exact rest s later
    · cases met

end scan

section reported

variable (constants : LocalId → Option Hir.Num)

/-- A node the scan judges rightly for a parameter: no dynamic `with` write falls back
to it, the constant passed for it is the value it has, and no other closure binds it. -/
def Visit.fine (f : Function) (i : Nat) (p : LocalId) : Visit → Bool
  | .expr (.strict .call (.strict (.funcRef id) [] :: args)) => id != f.id || args[i]?.all (exactArg constants)
  | .expr (.withSet _ _ _ (.local id) _) | .expr (.withSet _ _ _ (.sloppyImplicit id) _) => id != p
  | .expr (.closure id params ..) => id == f.id || !params.contains p
  | _ => true

/-- No other function has the parameter. -/
def bindsOnce (m : Module) (f : Function) (p : LocalId) : Bool :=
  m.functions.all (fun g => g.id == f.id || g.params.all (·.id != p)) &&
    m.classes.all fun c => c.functions.all fun g => g.params.all (·.id != p)

def judgesRightly (m : Module) : Bool :=
  m.functions.all fun f => !functionShapeIsSummarizable f || (decide (f.params.map (·.id)).Nodup &&
    f.params.zipIdx.all fun (p,i) => bindsOnce m f p.id && (visitModule m).all (Visit.fine constants f i p.id))

variable {constants} {m : Module}

/-- What a reported range tells about its module. -/
structure Reported (constants : LocalId → Option Hir.Num) (m : Module) (slot : Slot) : Prop where
  origin : ∃ f ∈ m.functions, f.id = slot.func ∧ isSummarized m (scanModule constants m) f = true ∧
    ∃ p, f.params[slot.index]? = some p ∧ p.id = slot.param
  unwritten : slot.param ∉ (scanModule constants m).writes
  unbound : slot.param ∉ (scanModule constants m).rebinds
  meets : ∀ site ∈ sitesOf (scanModule constants m) slot.func,
    ∃ k, site[slot.index]?.join = some k ∧ slot.range.min ≤ k ∧ k ≤ slot.range.max

theorem reported_of_mem {slot : Slot} (member : slot ∈ collectSlots constants m) : Reported constants m slot := by
  obtain ⟨f,inside,reports⟩ := List.mem_flatMap.mp member
  unfold functionSlots at reports
  split at reports
  · next summarized =>
    obtain ⟨i,bound,made⟩ := List.mem_mapIdx.mp (List.reduceOption_mem_iff.mp reports)
    unfold paramSlot at made
    split at made
    · cases made
    · next free =>
      obtain ⟨range,met,rfl⟩ := Option.map_eq_some_iff.mp made
      simp only [Bool.or_eq_true,List.contains_iff_mem,not_or] at free
      exact ⟨⟨f,inside,rfl,summarized,_,List.getElem?_eq_getElem bound,rfl⟩,free.1,free.2,(meetSites_spec met).2.2⟩
  · cases reports

/-- What the slot's function and the nodes of the module are like when the module is
judged rightly. -/
structure Traced (constants : LocalId → Option Hir.Num) (m : Module) (slot : Slot) (f : Function) : Prop where
  id : f.id = slot.func
  only : ∀ g ∈ m.functions, g.id = slot.func → g = f
  hidden : ¬m.offers f
  plain : ∀ p ∈ f.params, p.isRest = false ∧ p.argumentsObject = false ∧ p.default = none
  position : ∀ k p, f.params[k]? = some p → p.id = slot.param → k = slot.index
  others : ∀ g ∈ m.functions, g.id ≠ slot.func → ∀ p ∈ g.params, p.id ≠ slot.param
  members : ∀ c ∈ m.classes, ∀ g ∈ c.functions, ∀ p ∈ g.params, p.id ≠ slot.param
  spares : ∀ v ∈ visitModule m, slot.Spares constants v

theorem only_of_summarized {f : Function} (inside : f ∈ m.functions)
    (summarized : isSummarized m (scanModule constants m) f = true) : ∀ g ∈ m.functions, g.id = f.id → g = f := by
  intro g member same
  simp only [isSummarized,Bool.and_eq_true,beq_iff_eq] at summarized
  obtain ⟨x,single⟩ := List.length_eq_one_iff.mp summarized.1.1.1.2
  have first : g ∈ m.functions.filter (·.id = f.id) := by simp [member,same]
  have second : f ∈ m.functions.filter (·.id = f.id) := by simp [inside]
  rw [single] at first second
  rw [List.mem_singleton.mp first,List.mem_singleton.mp second]

theorem hidden_of_summarized {f : Function} (summarized : isSummarized m (scanModule constants m) f = true) :
    ¬m.offers f := by
  simp only [isSummarized,isPoisoned,functionShapeIsSummarizable,Bool.and_eq_true,Bool.not_eq_true',Bool.or_eq_false_iff,
    Bool.and_eq_false_iff,beq_iff_eq] at summarized
  obtain ⟨⟨⟨⟨⟨⟨⟨_,reflected⟩,exported⟩,named⟩,_⟩,shape⟩,_⟩,_⟩ := summarized
  rintro (flag | listed | aliased | ⟨mentioned,reflects⟩)
  · rw [shape.1.1.1.1] at flag
    cases flag
  · simp [listed] at exported
  · simp [aliased] at named
  · simp [mentioned,reflects] at reflected

theorem plain_of_summarized {f : Function} (shape : functionShapeIsSummarizable f = true) :
    ∀ p ∈ f.params, p.isRest = false ∧ p.argumentsObject = false ∧ p.default = none := by
  intro p member
  simp only [functionShapeIsSummarizable,Bool.and_eq_true,List.all_eq_true,Bool.not_eq_true',Option.isNone_iff_eq_none] at shape
  exact ⟨(shape.2 p member).1.1,(shape.2 p member).2,(shape.2 p member).1.2⟩

/-- A node that the scan has seen and that is fine spares the slot. -/
theorem spares_of_has {slot : Slot} {f : Function} (reported : Reported constants m slot) (id : f.id = slot.func)
    (clear : slot.func ∉ (scanModule constants m).poisoned) {v : Visit} (has : (scanModule constants m).Has constants v)
    (fine : v.fine constants f slot.index slot.param = true) : slot.Spares constants v := by
  unfold Slot.Spares
  split
  · exact fun same => reported.unbound (same ▸ has)
  · next callee args =>
    intro same
    have site : args.map (constantArg constants) ∈ sitesOf (scanModule constants m) slot.func := by
      refine List.mem_filterMap.mpr ⟨_,has,?_⟩
      rw [if_pos same]
    obtain ⟨k,constant,lower,upper⟩ := reported.meets _ site
    rw [List.getElem?_map] at constant
    rcases position : args[slot.index]? with _ | e
    · simp [position] at constant
    · simp only [position,Option.map_some,Option.join_some] at constant
      have exact : exactArg constants e = true := by
        simpa [Visit.fine,same,id,position] using fine
      exact ⟨e,k,position,constant,exact,lower,upper⟩
  · exact fun same => clear (same ▸ has)
  · next callee params _ _ _ _ _ =>
    have other : callee ≠ slot.func := fun same => clear (same ▸ has)
    refine ⟨other,?_⟩
    simpa [Visit.fine,id,other] using fine
  · exact fun same => reported.unwritten (same ▸ has)
  · exact fun same => reported.unwritten (same ▸ has)
  · simpa [Visit.fine] using fine
  · simpa [Visit.fine] using fine
  · trivial

theorem traced_of_reported {slot : Slot} (reported : Reported constants m slot) (right : judgesRightly constants m = true) :
    ∃ f, Traced constants m slot f := by
  obtain ⟨f,inside,id,summarized,p,position,param⟩ := reported.origin
  have only := only_of_summarized inside summarized
  have hidden := hidden_of_summarized summarized
  simp only [isSummarized,isPoisoned,Bool.and_eq_true,Bool.not_eq_true',Bool.or_eq_false_iff] at summarized
  have shape := summarized.1.1.2
  have clear : slot.func ∉ (scanModule constants m).poisoned := by
    rw [← id]
    simpa using summarized.1.1.1.1.1.1.1
  have judged := List.all_eq_true.mp right f inside
  simp only [shape,Bool.not_true,Bool.false_or,Bool.and_eq_true,decide_eq_true_eq,List.all_eq_true] at judged
  obtain ⟨distinct,each⟩ := judged
  have at? := each (p,slot.index) (List.mem_zipIdx_iff_getElem?.mpr position)
  rw [param] at at?
  simp only [bindsOnce,Bool.and_eq_true,List.all_eq_true,Bool.or_eq_true,beq_iff_eq,bne_iff_ne] at at?
  obtain ⟨⟨functions,classes⟩,nodes⟩ := at?
  refine ⟨f,id,fun g member same => only g member (same.trans id.symm),hidden,plain_of_summarized shape,?_,?_,classes,?_⟩
  · intro k q place same
    have bound := (List.getElem?_eq_some_iff.mp place).1
    refine (List.getElem?_inj (by simpa using bound) distinct).mp ?_
    rw [List.getElem?_map,List.getElem?_map,place,position]
    simp [same,param]
  · intro g member other
    rcases functions g member with same | apart
    · exact absurd (same.trans id) other
    · exact apart
  · intro v visited
    exact spares_of_has reported id clear (has_foldl _ (.inl visited)) (nodes v visited)

end reported

section runs

variable {constants : LocalId → Option Hir.Num} {m : Module} {slot : Slot} {f : Function}

/-- What can happen without breaking the slot's range. -/
def Slot.Expects (constants : LocalId → Option Hir.Num) (slot : Slot) : Occurrence → Prop
  | .know id => id ≠ slot.func
  | .enter code args => (∀ v ∈ visitCode code, slot.Spares constants v) ∧ (∀ v ∈ args, slot.Clean v) ∧
      slot.Binds args 0 code.params
  | .run _ _ ended asked trace => (∀ r ∈ asked, slot.Allowed r) ∧ (∀ v ∈ handedAtEnd ended, slot.Clean v) ∧
      ∀ e ∈ trace, slot.Fits e

theorem clean_of_known {args : List Val} (known : ∀ id, .func id ∈ args → slot.Expects constants (.know id)) :
    ∀ v ∈ args, slot.Clean v := by
  rintro v member rfl
  exact known _ member rfl

theorem binds_of_absent {args : List Val} {params : List Param} (absent : ∀ p ∈ params, p.id ≠ slot.param) :
    slot.Binds args 0 params := fun _ p place same => absurd same (absent p (List.mem_of_getElem? place))

variable (traced : Traced constants m slot f)
include traced

theorem spares_function {g : Function} (member : g ∈ m.functions) : ∀ v ∈ visitCode g.code, slot.Spares constants v := by
  intro v visited
  refine traced.spares v ?_
  simp only [visitModule,List.mem_append,List.mem_flatMap]
  exact .inl (.inr ⟨g,member,visited⟩)

theorem spares_class {c : Hir.Class} {code : Code} (member : c ∈ m.classes) (inside : code ∈ c.code) :
    ∀ v ∈ visitCode code, slot.Spares constants v := by
  intro v visited
  refine traced.spares v ?_
  simp only [visitModule,List.mem_append,List.mem_flatMap]
  refine .inr ⟨c,member,?_⟩
  simp only [Hir.Class.code,List.mem_append,List.mem_map] at inside
  simp only [visitClass,List.mem_append,List.mem_flatMap]
  rcases inside with ⟨g,held,rfl⟩ | ⟨e,held,rfl⟩
  · exact .inl ⟨g,held,visited⟩
  · refine .inr ⟨e,held,?_⟩
    simpa [visitCode,Code.ofExpr,visitParams,visitStmts,visitStmt] using visited

theorem binds_class {c : Hir.Class} {code : Code} (member : c ∈ m.classes) (inside : code ∈ c.code) (args : List Val) :
    slot.Binds args 0 code.params := by
  simp only [Hir.Class.code,List.mem_append,List.mem_map] at inside
  rcases inside with ⟨g,held,rfl⟩ | ⟨e,held,rfl⟩
  · exact binds_of_absent (traced.members c member g held)
  · exact fun k p place => by cases place

/-- The function is entered with good arguments only. -/
theorem binds_function {args : List Val} (good : slot.Good args) : slot.Binds args 0 f.code.params := by
  intro k p place same
  obtain ⟨rest,arguments,default⟩ := traced.plain p (List.mem_of_getElem? place)
  refine ⟨rest,arguments,default,?_⟩
  rw [Nat.zero_add,traced.position k p place same]
  exact good.2

/-- By induction on how it came about, nothing that happens breaks the range. -/
theorem expects_of_happens {o : Occurrence} (happens : m.Happens constants o) : slot.Expects constants o := by
  induction happens with
  | start =>
    refine ⟨fun v visited => traced.spares v ?_,by simp,fun k p place => by cases place⟩
    simp only [visitCode,visitParams,List.flatMap_nil,List.nil_append] at visited
    exact List.mem_append_left _ (List.mem_append_left _ visited)
  | offered g member offers =>
    intro same
    exact traced.hidden (traced.only g member same ▸ offers)
  | called g args member known given ihKnown ihGiven =>
    exact ⟨spares_function traced member,clean_of_known ihGiven,binds_of_absent (traced.others g member ihKnown)⟩
  | member c code args member inside given ihGiven =>
    exact ⟨spares_class traced member inside,clean_of_known ihGiven,binds_class traced member inside args⟩
  | closure code args args' funcId params defaults captures mutableCaptures flags body entered inside aligned given ih ihGiven =>
    have visits := visits_of_code (by trivial) inside
    have node := ih.1 _ (visits (List.mem_cons_self ..))
    refine ⟨fun v visited => ih.1 v (visits (List.mem_cons_of_mem _ ?_)),clean_of_known ihGiven,?_⟩
    · rw [visitCode,visitParams_eq,aligned] at visited
      exact visited
    · exact binds_of_absent fun p member same => node.2 (same ▸ List.mem_map_of_mem member)
  | built code args funcId params defaults captures mutableCaptures flags body entered inside ih =>
    exact (ih.1 _ (visits_of_code (by trivial) inside (List.mem_cons_self ..))).1
  | @run W host mode n code args store world entered folds honest stored ih ihHonest ihStored =>
    have clean (v : Val) (hands : host.Hands v) : slot.Clean v := by
      rintro rfl
      exact ihHonest _ hands rfl
    have start : slot.Kept (⟨store,(world,[]),[]⟩ : State (W × List Request)) :=
      ⟨fun x same => ihStored x _ same rfl,by simp,by simp⟩
    have ended := ends_activation clean folds mode n ih.2.1 ih.1 ih.2.2 _ start
    rcases ran : activation host.watched mode n code args ⟨store,(world,[]),[]⟩ with ⟨c | _,s⟩
    · rw [ran] at ended
      exact ⟨ended.2.asked,ended.1,ended.2.trace⟩
    · rw [ran] at ended
      exact ⟨ended.2.asked,by simp [handedAtEnd],ended.2.trace⟩
  | calls code args args' ended asked trace g ran member request ih =>
    have allowed := ih.1 _ request
    refine ⟨spares_function traced member,allowed.handed,?_⟩
    by_cases same : g.id = slot.func
    · rw [traced.only g member same]
      exact binds_function traced (allowed.called args' (by rw [same]))
    · exact binds_of_absent (traced.others g member same)
  | hands code args ended asked trace id ran handed ih =>
    intro same
    subst same
    rcases List.mem_append.mp handed with requested | final
    · obtain ⟨r,member,held⟩ := List.mem_flatMap.mp requested
      exact (ih.1 r member).handed _ held rfl
    · exact ih.2.1 _ final rfl

end runs

/-- Whatever a run stores in a local with a reported range is an integer in it. -/
def RangesHold (constants : LocalId → Option Hir.Num) (m : Module) : Prop :=
  ∀ p range, (p,range) ∈ collectParamIntRanges constants m →
    ∀ code args ended asked trace, m.Happens constants (.run code args ended asked trace) →
      ∀ v, .declare p v ∈ trace ∨ .write p v ∈ trace → range.holds v = true

/-- The reported ranges of a module that the scan judges rightly hold in all its runs. -/
theorem collectParamIntRanges_sound (constants : LocalId → Option Hir.Num) (m : Module)
    (right : judgesRightly constants m = true) : RangesHold constants m := by
  intro p range member code args ended asked trace happens v stored
  obtain ⟨slot,inside,same⟩ := List.mem_map.mp member
  cases same
  obtain ⟨f,traced⟩ := traced_of_reported (reported_of_mem inside) right
  have fits := (expects_of_happens traced happens).2.2
  rcases stored with declared | written
  · exact fits _ declared v (.inl rfl)
  · exact fits _ written v (.inr rfl)

/-- `const n = 64; f(4); f(n); function f(x) { if (x === 4) f(16); return x; }` -/
def constantCalls : Module where
  init := [.let 1 false (some (.integer 64)),.expr (.call (.funcRef 1) [.integer 4]),
    .expr (.call (.funcRef 1) [.localGet 1])]
  functions := [{ id := 1, name := "f", params := [{ id := 7 }], body :=
    [.if (.compare .eq (.localGet 7) (.integer 4)) [.expr (.call (.funcRef 1) [.integer 16])] none,
      .return (some (.localGet 7))] }]

def sixtyFour : LocalId → Option Hir.Num
  | 1 => some (.int 64)
  | _ => none

theorem constantCalls_sound : collectParamIntRanges sixtyFour constantCalls = [(7,⟨4,64⟩)] ∧
    RangesHold sixtyFour constantCalls :=
  ⟨by decide,collectParamIntRanges_sound sixtyFour constantCalls (by decide)⟩

/-- `f(5); function f(x) { with ({}) { x = 6; } }` -/
def writesThroughWith : Module where
  init := [.expr (.call (.funcRef 1) [.integer 5])]
  functions := [{ id := 1, name := "f", params := [{ id := 7 }], body :=
    [.expr (.withSet (.strict (.object []) []) "x" (.integer 6) (.local 7) false)] }]

/-- Objects are fresh and bind no names; nothing else is asked. -/
def emptyObjects : Host Unit where
  boxed _ := false
  readBox _ := pure .undefined
  writeBox _ _ := pure ()
  declareBox _ _ := pure ()
  allocateBox _ _ := pure ()
  releaseBox _ := pure ()
  op
    | .object _,_ => pure (.ref 0)
    | .withHas _,_ => pure (.bool false)
    | _,_ => pure .undefined
  closure _ _ _ := pure .undefined
  refuseWith _ _ := Run.raise .halt
  await _ := pure .undefined
  yield _ _ := pure .undefined

theorem emptyObjects_hands {id : FuncId} : ¬emptyObjects.Hands (.func id) := by
  rintro (⟨_,_,h⟩ | ⟨_,_,_,h⟩ | ⟨_,_,_,h⟩ | ⟨_,_,_,h⟩ | ⟨_,_,h⟩ | ⟨op,_,_,h⟩ | ⟨_,_,_,_,h⟩ | ⟨_,_,_,h⟩ | ⟨_,_,h⟩ |
    ⟨_,_,_,h⟩)
  case op => cases op <;> simp [emptyObjects,Run.pure_apply] at h
  all_goals simp [emptyObjects,Run.pure_apply,Run.raise,Signal.values] at h

/-- The assignment finds no binding on the object and writes the parameter. -/
theorem writesThroughWith_unsound : ¬RangesHold (fun _ => none) writesThroughWith := by
  intro sound
  have folds : emptyObjects.Folds fun _ => none := ⟨fun _ _ h => (by cases h),fun _ _ _ h => (by cases h)⟩
  have ran {code : Code} {args : List Val} (entered : writesThroughWith.Happens (fun _ => none) (.enter code args)) :=
    Module.Happens.run emptyObjects .ecma 1 code args (fun _ => .undefined) () entered folds
      (fun id hands => absurd hands emptyObjects_hands) fun _ _ h => by cases h
  have first := ran .start
  have second := ran (.calls _ _ [.int 5] _ _ _ _ first (List.mem_singleton.mpr rfl) (by decide))
  have holds := sound 7 ⟨5,5⟩ (by decide) _ _ _ _ _ second (.int 6) (.inr (List.mem_cons_self ..))
  exact absurd holds (by decide)

end Perry.Codegen.ParamRanges
