import Perry.Containers.Additions
import Perry.Containers.DepthFirst

/-! The order in which the modules of a program initialise: which of them at the start, and where a circle of
imports is broken. -/
namespace Perry.Compile

open Perry.Containers

structure Import (P : Type*) where
  isDynamic : Bool
  typeOnly : Bool
  runtimeErased : Bool
  isDeferredRequire : Bool
  resolvedPath : Option P

inductive Export
  | exportAll (source : String)
  | reExport (source : String)
  | namespaceReExport (source : String)
  | named

structure Module (P : Type*) where
  name : String
  imports : List (Import P)
  exports : List Export

structure CompilationContext (P : Type*) [LinearOrder P] where
  nativeModules : List (P × Module P)
  /-- The modules are in a `BTreeMap`. -/
  sorted : (nativeModules.map Prod.fst).Pairwise (· < ·)
  resolveImport : String → P → Option P

/-- Whether an import takes part in the initialisation of its module. -/
def Import.initialises {P : Type*} (i : Import P) : Bool := !i.isDynamic && !i.typeOnly && !i.runtimeErased && !i.isDeferredRequire

def Export.source : Export → Option String
  | exportAll source | reExport source | namespaceReExport source => some source
  | named => none

def Module.staticTargets {P : Type*} (module : Module P) : List P :=
  (module.imports.filter Import.initialises).filterMap Import.resolvedPath

section Marks

/-- What a part of a round does to the eager modules. -/
structure Marks {P : Type*} (added : P → Prop) (state after : List P × Bool) : Prop where
  kept : ∀ x ∈ state.1,x ∈ after.1
  new : ∀ x ∈ after.1,x ∈ state.1 ∨ added x
  nodup : state.1.Nodup → after.1.Nodup
  length : state.1.length ≤ after.1.length
  unchanged : after.2 = false → after.1 = state.1 ∧ state.2 = false
  changed : after.2 = true → state.2 = true ∨ state.1.length < after.1.length

variable {P : Type*} {added : P → Prop} {state after : List P × Bool}

theorem Marks.refl (state : List P × Bool) : Marks added state state :=
  ⟨fun _ => id,fun _ => .inl,id,Nat.le_refl _,fun same => ⟨rfl,same⟩,.inl⟩

theorem Marks.trans {last : List P × Bool} (first : Marks added state after) (second : Marks added after last) : Marks added state last where
  kept x member := second.kept x (first.kept x member)
  new x member := (second.new x member).elim (first.new x) .inr
  nodup distinct := second.nodup (first.nodup distinct)
  length := first.length.trans second.length
  unchanged same := by
    obtain ⟨same_list,before⟩ := second.unchanged same
    obtain ⟨first_list,unset⟩ := first.unchanged before
    exact ⟨same_list.trans first_list,unset⟩
  changed set := by
    obtain set | longer := second.changed set
    · exact (first.changed set).imp_right fun longer => longer.trans_le second.length
    · exact .inr (first.length.trans_lt longer)

theorem Marks.foldl {ε : Type*} {step : List P × Bool → ε → List P × Bool} {es : List ε}
    (one : ∀ state,∀ e ∈ es,Marks added state (step state e)) (state : List P × Bool) : Marks added state (es.foldl step state) := by
  induction es generalizing state with
  | nil => exact .refl state
  | cons e es ih =>
    exact (one state e (List.mem_cons_self ..)).trans (ih (fun state e member => one state e (List.mem_cons_of_mem _ member)) _)

/-- A target that comes up in the course of a fold is marked at its end. -/
theorem foldl_reaches {ε : Type*} {step : List P × Bool → ε → List P × Bool} (one : ∀ state e,Marks (fun _ => True) state (step state e))
    {es : List ε} {e : ε} (member : e ∈ es) {x : P} (state : List P × Bool)
    (marks : ∀ now : List P × Bool,(∀ y ∈ state.1,y ∈ now.1) → x ∈ (step now e).1) : x ∈ (es.foldl step state).1 := by
  obtain ⟨front,back,rfl⟩ := List.append_of_mem member
  rw [List.foldl_append,List.foldl_cons]
  exact (Marks.foldl (fun state e _ => one state e) _).kept x (marks _ (Marks.foldl (fun state e _ => one state e) state).kept)

end Marks

variable {P : Type*} [LinearOrder P]

namespace CompilationContext

variable (ctx : CompilationContext P)

def get (path : P) : Option (Module P) := (ctx.nativeModules.find? (·.1 = path)).map Prod.snd

def contains (path : P) : Bool := (ctx.get path).isSome

/-- What a module imports or re-exports from, in the order of the source. -/
def sources (path : P) (module : Module P) : List P :=
  module.staticTargets ++ (module.exports.filterMap Export.source).filterMap fun source => ctx.resolveImport source path

/-- One target of a module that is eager. -/
def markEager (state : List P × Bool) (target : P) : List P × Bool :=
  if ctx.contains target && !(state.1.contains target) then (state.1 ++ [target],true) else state

def eagerModule (state : List P × Bool) (entry : P × Module P) : List P × Bool :=
  if entry.1 ∈ state.1 then (ctx.sources entry.1 entry.2).foldl ctx.markEager state else state

/-- The loop of `classify_eager_modules`, which goes over all modules until nothing changes. -/
def eagerLoop : Nat → List P → Option (List P)
  | 0,_ => none
  | rounds + 1,eager =>
    let round := ctx.nativeModules.foldl ctx.eagerModule (eager,false)
    if round.2 then eagerLoop rounds round.1 else some round.1

def classifyEagerModules (entry : P) : Option (List P) := ctx.eagerLoop (ctx.nativeModules.length + 2) [entry]

variable (entry : P)

def nonEntryPaths : List P := (ctx.nativeModules.map Prod.fst).filter (· ≠ entry)

/-- The native modules that a module refers to. -/
def targets (path : P) : List P := (ctx.get path).elim [] fun module => (ctx.sources path module).filter ctx.contains

/-- The dependencies of a module, among the modules other than the entry. -/
def deps (path : P) : List P := if path = entry then [] else (ctx.targets path).filter (· ≠ entry)

/-- The walk starts with the imports of the entry. What they do not lead to comes behind, by path. -/
def roots : List P :=
  (ctx.get entry).elim [] (fun module => module.staticTargets.filter (· ∈ ctx.nonEntryPaths entry)) ++
    (ctx.nonEntryPaths entry).insertionSort (· ≤ ·)

/-- The paths in the order of `topo_sort_non_entry_modules`. -/
def topoSort : Option (List P) :=
  (visitAll (ctx.deps entry) ((ctx.nonEntryPaths entry).length + 1) (ctx.roots entry)).map Walk.visited

def topoSortNonEntryModules : Option (List String) :=
  (ctx.topoSort entry).map fun order => order.filterMap fun path => (ctx.get path).map Module.name

variable {ctx entry}

theorem get_eq {path : P} {module : Module P} : ctx.get path = some module ↔ (path,module) ∈ ctx.nativeModules := by
  rw [get,Option.map_eq_some_iff]
  constructor
  · rintro ⟨⟨other,_⟩,found,rfl⟩
    obtain rfl : other = path := by simpa using List.find?_some found
    exact List.mem_of_find?_eq_some found
  · intro member
    have there : (ctx.nativeModules.find? (·.1 = path)).isSome := List.find?_isSome.mpr ⟨_,member,decide_eq_true rfl⟩
    obtain ⟨⟨other,value⟩,found⟩ := Option.isSome_iff_exists.mp there
    obtain rfl : other = path := by simpa using List.find?_some found
    have nodup : (ctx.nativeModules.map Prod.fst).Nodup := ctx.sorted.imp ne_of_lt
    exact ⟨_,found,congrArg Prod.snd (List.inj_on_of_nodup_map nodup (List.mem_of_find?_eq_some found) member rfl)⟩

theorem contains_iff {path : P} : ctx.contains path ↔ path ∈ ctx.nativeModules.map Prod.fst := by
  rw [contains,Option.isSome_iff_exists,List.mem_map]
  exact ⟨fun ⟨module,found⟩ => ⟨_,get_eq.mp found,rfl⟩,fun ⟨⟨_,module⟩,member,same⟩ => ⟨module,get_eq.mpr (same ▸ member)⟩⟩

theorem mem_nonEntryPaths {path : P} : path ∈ ctx.nonEntryPaths entry ↔ ctx.contains path ∧ path ≠ entry := by
  rw [nonEntryPaths,List.mem_filter,contains_iff,decide_eq_true_eq]

theorem mem_targets {path target : P} :
    target ∈ ctx.targets path ↔ ∃ module,ctx.get path = some module ∧ target ∈ ctx.sources path module ∧ ctx.contains target := by
  rw [targets]
  cases ctx.get path with
  | none => simp
  | some module => simp [List.mem_filter]

theorem mem_deps {path target : P} : target ∈ ctx.deps entry path ↔ path ≠ entry ∧ target ∈ ctx.targets path ∧ target ≠ entry := by
  rw [deps]
  split
  · next same => simp [same]
  · next different => simp [different,List.mem_filter]

section Eager

variable {added : P → Prop} {state after : List P × Bool}

theorem marks_markEager {target : P} (may : ctx.contains target → added target) (state : List P × Bool) :
    Marks added state (ctx.markEager state target) := by
  rw [markEager]
  split
  · next fresh =>
    simp only [Bool.and_eq_true,Bool.not_eq_true',List.contains_eq_mem,decide_eq_false_iff_not] at fresh
    refine ⟨fun x member => List.mem_append_left _ member,?_,?_,by simp,by simp,fun _ => .inr (by simp)⟩
    · intro x member
      refine (List.mem_append.mp member).imp_right fun single => ?_
      exact List.mem_singleton.mp single ▸ may fresh.1
    · intro distinct
      refine List.nodup_append.mpr ⟨distinct,List.nodup_singleton _,?_⟩
      rintro a member b single rfl
      exact fresh.2 (List.mem_singleton.mp single ▸ member)
  · exact .refl state

theorem marked {target : P} (known : ctx.contains target) (state : List P × Bool) : target ∈ (ctx.markEager state target).1 := by
  rw [markEager]
  split
  · exact List.mem_append_right _ (List.mem_singleton_self _)
  · next old =>
    simpa [known] using old

theorem marks_module (entry : P × Module P) (state : List P × Bool) : Marks (fun _ => True) state (ctx.eagerModule state entry) := by
  rw [eagerModule]
  split
  · exact .foldl (fun state _ _ => marks_markEager (fun _ => trivial) state) state
  · exact .refl state

/-- What a round marks, its modules lead to. -/
theorem marks_round {eager : List P} (reached : ∀ x ∈ eager,Leads ctx.targets entry x) :
    ∀ x ∈ (ctx.nativeModules.foldl ctx.eagerModule (eager,false)).1,Leads ctx.targets entry x := by
  have whole : ∀ modules : List (P × Module P),(∀ e ∈ modules,e ∈ ctx.nativeModules) → ∀ state : List P × Bool,
      (∀ x ∈ state.1,Leads ctx.targets entry x) → ∀ x ∈ (modules.foldl ctx.eagerModule state).1,Leads ctx.targets entry x := by
    intro modules
    induction modules with
    | nil => exact fun _ _ => id
    | cons e modules ih =>
      intro native state reached
      refine ih (fun e member => native e (List.mem_cons_of_mem _ member)) _ ?_
      rw [eagerModule]
      split
      · next eager_here =>
        have edges : ∀ target ∈ ctx.sources e.1 e.2,ctx.contains target → Leads ctx.targets entry target := by
          intro target source known
          refine (reached e.1 eager_here).tail (mem_targets.mpr ⟨e.2,get_eq.mpr (native e (List.mem_cons_self ..)),source,known⟩)
        have marks : Marks (Leads ctx.targets entry) state ((ctx.sources e.1 e.2).foldl ctx.markEager state) :=
          .foldl (fun state target source => marks_markEager (edges target source) state) state
        exact fun x member => (marks.new x member).elim (reached x) id
      · exact reached
  exact whole _ (fun _ => id) _ reached

theorem eagerLoop_spec {rounds : Nat} {eager : List P} (start : entry ∈ eager) (distinct : eager.Nodup)
    (reached : ∀ x ∈ eager,Leads ctx.targets entry x) (inside : ∀ x ∈ eager,x = entry ∨ ctx.contains x)
    (enough : ctx.nativeModules.length + 2 ≤ rounds + eager.length) :
    ∃ result,ctx.eagerLoop rounds eager = some result ∧ ∀ x,x ∈ result ↔ Leads ctx.targets entry x := by
  have bound : ∀ {xs : List P},xs.Nodup → (∀ x ∈ xs,x = entry ∨ ctx.contains x) → xs.length ≤ ctx.nativeModules.length + 1 := by
    intro xs distinct inside
    have subset : xs ⊆ entry :: ctx.nativeModules.map Prod.fst := fun x member =>
      List.mem_cons.mpr ((inside x member).imp_right contains_iff.mp)
    have := (distinct.subperm subset).length_le
    rwa [List.length_cons,List.length_map] at this
  induction rounds generalizing eager with
  | zero =>
    have := bound distinct inside
    omega
  | succ rounds ih =>
    have marks : Marks (fun _ => True) (eager,false) (ctx.nativeModules.foldl ctx.eagerModule (eager,false)) :=
      .foldl (fun state e _ => marks_module e state) _
    have led := marks_round reached
    rw [eagerLoop]
    split
    · next changed =>
      have longer := (marks.changed changed).resolve_left Bool.false_ne_true
      dsimp only at longer
      refine ih (marks.kept _ start) (marks.nodup distinct) led ?_ (by omega)
      intro x member
      obtain same | ⟨y,_,edge⟩ := (led x member).cases_tail
      · exact .inl same
      · exact .inr (mem_targets.mp edge).choose_spec.2.2
    · next unchanged =>
      obtain ⟨same,_⟩ := marks.unchanged (Bool.not_eq_true _ ▸ unchanged)
      refine ⟨_,rfl,fun x => ⟨led x,fun leads => ?_⟩⟩
      induction leads with
      | refl => exact marks.kept _ start
      | @tail y z _ edge ih =>
        obtain ⟨module,found,source,known⟩ := mem_targets.mp edge
        rw [same] at ih
        refine foldl_reaches (fun state e => marks_module e state) (get_eq.mp found) _ fun now kept => ?_
        rw [eagerModule,if_pos (kept y ih)]
        exact foldl_reaches (fun state _ => marks_markEager (fun _ => trivial) state) source _ fun now _ => marked known now

/-- A module is eager exactly if the imports and re-exports that take part in initialisation lead to it. -/
theorem classifyEagerModules_spec (ctx : CompilationContext P) (entry : P) :
    ∃ eager,ctx.classifyEagerModules entry = some eager ∧ ∀ x,x ∈ eager ↔ Leads ctx.targets entry x :=
  eagerLoop_spec (List.mem_singleton_self _) (List.nodup_singleton _) (fun x single => List.mem_singleton.mp single ▸ .refl)
    (fun x single => .inl (List.mem_singleton.mp single)) (by simp)

end Eager

/-- The order has each module once, but for the entry, and breaks only circles. -/
theorem topoSort_spec (ctx : CompilationContext P) (entry : P) :
    ∃ order,ctx.topoSort entry = some order ∧ order.Nodup ∧ (∀ path,path ∈ order ↔ path ∈ ctx.nonEntryPaths entry) ∧
      Ordered (ctx.deps entry) order := by
  have closed : ∀ path ∈ ctx.nonEntryPaths entry,∀ d ∈ ctx.deps entry path,d ∈ ctx.nonEntryPaths entry := by
    intro path _ d edge
    obtain ⟨_,target,different⟩ := mem_deps.mp edge
    obtain ⟨_,_,_,known⟩ := mem_targets.mp target
    exact mem_nonEntryPaths.mpr ⟨known,different⟩
  have inside : ∀ root ∈ ctx.roots entry,root ∈ ctx.nonEntryPaths entry := by
    intro root member
    obtain imported | rest := List.mem_append.mp member
    · cases found : ctx.get entry with
      | none => simp [found] at imported
      | some module =>
        rw [found,Option.elim_some,List.mem_filter,decide_eq_true_eq] at imported
        exact imported.2
    · exact (List.perm_insertionSort _ _).mem_iff.mp rest
  obtain ⟨walk,walked,_,nodup,ordered,rooted,led⟩ := visitAll_spec closed inside (Nat.lt_succ_self _)
  refine ⟨walk.visited,by rw [topoSort,walked]; rfl,nodup,fun path => ⟨fun member => ?_,fun member => ?_⟩,ordered⟩
  · obtain ⟨root,rooted,leads⟩ := led path member
    clear member
    induction leads with
    | refl => exact inside root rooted
    | tail _ edge ih => exact closed _ ih _ edge
  · exact rooted path (List.mem_append_right _ ((List.perm_insertionSort _ _).mem_iff.mpr member))

end CompilationContext

end Perry.Compile
