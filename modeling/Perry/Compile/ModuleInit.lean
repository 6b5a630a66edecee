import Perry.Compile.InitOrder

/-! The initialisation of the modules as the program runs: each has a guarded wrapper that first calls
those of its dependencies. The main program calls the wrappers of the eager modules, and a dynamic import
that of its target. Dynamic imports that are made while the prelude runs are not modelled. -/
namespace Perry.Compile

open Perry.Containers

structure Started where
  /-- The modules whose guard is set. -/
  done : List String
  /-- The modules whose body has run, in order. -/
  ran : List String

def init (initDeps : String → List String) : Nat → Started → String → Option Started
  | 0,_,_ => none
  | rounds + 1,state,self =>
    if self ∈ state.done then some state
    else (((initDeps self).filter (· ≠ self)).foldlM (init initDeps rounds) { state with done := state.done ++ [self] }).map
      fun state => { state with ran := state.ran ++ [self] }

/-- The guard is set while a module is visited, and stays. -/
structure Mirrors (state : Started) (walk : Walk String) : Prop where
  ran : state.ran = walk.visited
  done : ∀ x,x ∈ state.done ↔ x ∈ walk.visited ∨ x ∈ walk.visiting

theorem foldl_mirrors {one : Started → String → Option Started} {other : Walk String → String → Option (Walk String)}
    (mirrored : ∀ {state : Started} {walk after : Walk String} (x : String),Mirrors state walk → other walk x = some after →
      ∃ next,one state x = some next ∧ Mirrors next after ∧ state.done ⊆ next.done)
    {xs : List String} {state : Started} {walk after : Walk String} (mirrors : Mirrors state walk) (walked : xs.foldlM other walk = some after) :
    ∃ next,xs.foldlM one state = some next ∧ Mirrors next after ∧ state.done ⊆ next.done := by
  induction xs generalizing state walk with
  | nil =>
    obtain rfl := Option.some.inj walked
    exact ⟨state,rfl,mirrors,fun _ => id⟩
  | cons x xs ih =>
    rw [List.foldlM_cons] at walked
    obtain ⟨middle,first,rest⟩ := Option.bind_eq_some_iff.mp walked
    obtain ⟨next,ran,mirrors,kept⟩ := mirrored x mirrors first
    obtain ⟨last,runs,mirrors,still⟩ := ih mirrors rest
    exact ⟨last,by rw [List.foldlM_cons,ran]; exact runs,mirrors,List.Subset.trans kept still⟩

/-- A wrapper is a depth-first walk. -/
theorem init_mirrors {initDeps : String → List String} {rounds : Nat} {state : Started} {walk after : Walk String} (self : String)
    (mirrors : Mirrors state walk) (walked : visit (fun self => (initDeps self).filter (· ≠ self)) rounds walk self = some after) :
    ∃ next,init initDeps rounds state self = some next ∧ Mirrors next after ∧ state.done ⊆ next.done := by
  induction rounds generalizing state walk self after with
  | zero => cases walked
  | succ rounds ih =>
    rw [visit] at walked
    rw [init]
    by_cases seen : self ∈ walk.visited ∨ self ∈ walk.visiting
    · rw [if_pos seen] at walked
      rw [if_pos ((mirrors.done self).mpr seen)]
      obtain rfl := Option.some.inj walked
      exact ⟨state,rfl,mirrors,fun _ => id⟩
    · rw [if_neg seen] at walked
      rw [if_neg (mt (mirrors.done self).mp seen)]
      obtain ⟨inner,visited,rfl⟩ := Option.map_eq_some_iff.mp walked
      have entered : Mirrors { state with done := state.done ++ [self] } { walk with visiting := self :: walk.visiting } := by
        refine ⟨mirrors.ran,fun x => ?_⟩
        rw [List.mem_append,List.mem_singleton,mirrors.done,List.mem_cons]
        tauto
      obtain ⟨next,called,mirrored,kept⟩ :=
        foldl_mirrors (fun {_ _ _} x mirrors walked => ih x mirrors walked) entered visited
      refine ⟨{ next with ran := next.ran ++ [self] },by rw [called]; rfl,⟨?_,fun x => ?_⟩,List.Subset.trans (List.subset_append_left _ _) kept⟩
      · rw [mirrored.ran]
      · rw [List.mem_append,List.mem_singleton]
        by_cases same : x = self
        · subst same
          exact ⟨fun _ => .inl (.inr rfl),fun _ => kept (List.mem_append_right _ (List.mem_singleton_self x))⟩
        · rw [mirrored.done,List.mem_erase_of_ne same]
          simp [same]

namespace CompilationContext

variable {P : Type*} [LinearOrder P] (ctx : CompilationContext P) (entry : P) (sanitizeName : String → String)

/-- The prefix of a module's symbols. -/
def modulePrefix (path : P) : String := (ctx.get path).elim "" fun module => sanitizeName module.name

/-- Where the modules stand in the order, by prefix. -/
def initPos (names : List String) : String → Option Nat :=
  names.zipIdx.foldl (fun positions entry => Function.update positions (sanitizeName entry.1) (some entry.2)) fun _ => none

/-- The dependencies whose wrappers a module's wrapper calls: those in front of it in the order. -/
def moduleInitDeps (names : List String) (path : P) : List String :=
  let pushed := ((ctx.targets path).map (ctx.modulePrefix sanitizeName)).foldl
    (fun deps dep => if dep = ctx.modulePrefix sanitizeName entry ∧ ctx.contains entry then deps else appendNew deps dep) []
  match initPos sanitizeName names (ctx.modulePrefix sanitizeName path) with
  | none => pushed
  | some self => pushed.filter fun dep => (initPos sanitizeName names dep).elim true (· < self)

/-- The calls in the wrapper with a prefix. -/
def initDepsOf (names : List String) (self : String) : List String :=
  ((ctx.nonEntryPaths entry).find? fun path => ctx.modulePrefix sanitizeName path = self).elim []
    (ctx.moduleInitDeps entry sanitizeName names)

/-- The wrappers that a wrapper calls, which passes over itself. -/
def calls (names : List String) (self : String) : List String := (ctx.initDepsOf entry sanitizeName names self).filter (· ≠ self)

/-- The prelude of the main program. -/
def startup (rounds : Nat) (names : List String) (eager : List P) : Option Started :=
  let deferred := (ctx.nativeModules.filter fun module => !eager.contains module.1).map fun module => sanitizeName module.2.name
  ((names.map sanitizeName).filter (· ∉ deferred)).foldlM (init (ctx.initDepsOf entry sanitizeName names) rounds) ⟨[],[]⟩

section Order

variable {ctx entry sanitizeName} {order : List P} {names : List String}

/-- The prefixes of the modules differ; two of one name would not link. -/
def Linkable (ctx : CompilationContext P) (sanitizeName : String → String) : Prop :=
  (ctx.nativeModules.map fun module => sanitizeName module.2.name).Nodup

theorem modulePrefix_eq {path : P} {module : Module P} (native : (path,module) ∈ ctx.nativeModules) :
    ctx.modulePrefix sanitizeName path = sanitizeName module.name := by
  rw [modulePrefix,get_eq.mpr native,Option.elim_some]

theorem native_of_contains {path : P} (known : ctx.contains path) : ∃ module,(path,module) ∈ ctx.nativeModules := by
  obtain ⟨⟨_,module⟩,native,rfl⟩ := List.mem_map.mp (contains_iff.mp known)
  exact ⟨module,native⟩

theorem modulePrefix_inj (linkable : ctx.Linkable sanitizeName) {path other : P} (known : ctx.contains path) (other_known : ctx.contains other)
    (same : ctx.modulePrefix sanitizeName path = ctx.modulePrefix sanitizeName other) : path = other := by
  obtain ⟨module,native⟩ := native_of_contains known
  obtain ⟨module',native'⟩ := native_of_contains other_known
  rw [modulePrefix_eq native,modulePrefix_eq native'] at same
  exact congrArg Prod.fst (List.inj_on_of_nodup_map linkable native native' same)

theorem initPos_eq {front back : List String} {name : String} (last : sanitizeName name ∉ back.map sanitizeName) :
    initPos sanitizeName (front ++ name :: back) (sanitizeName name) = some front.length := by
  have later : ∀ (rest : List (String × Nat)) (positions : String → Option Nat),(∀ entry ∈ rest,sanitizeName entry.1 ≠ sanitizeName name) →
      rest.foldl (fun positions entry => Function.update positions (sanitizeName entry.1) (some entry.2)) positions (sanitizeName name) =
        positions (sanitizeName name) := by
    intro rest
    induction rest with
    | nil => exact fun _ _ => rfl
    | cons entry rest ih =>
      intro positions others
      obtain ⟨here,others⟩ := List.forall_mem_cons.mp others
      rw [List.foldl_cons,ih _ others,Function.update_of_ne here.symm]
  rw [initPos,List.zipIdx_append,List.foldl_append,List.zipIdx_cons,List.foldl_cons,later,Function.update_self,Nat.zero_add]
  intro entry member same
  exact last (List.mem_map.mpr ⟨entry.1,List.fst_mem_of_mem_zipIdx member,same⟩)

/-- The names of an order, as they come out of the sort. -/
def namesOf (ctx : CompilationContext P) (order : List P) : List String := order.filterMap fun path => (ctx.get path).map Module.name

theorem namesOf_prefixes (known : ∀ path ∈ order,ctx.contains path) :
    (ctx.namesOf order).map sanitizeName = order.map (ctx.modulePrefix sanitizeName) := by
  induction order with
  | nil => rfl
  | cons path order ih =>
    obtain ⟨here,later⟩ := List.forall_mem_cons.mp known
    obtain ⟨module,native⟩ := native_of_contains here
    rw [List.map_cons,← ih later,modulePrefix_eq native,namesOf,List.filterMap_cons_some (b := module.name) (by rw [get_eq.mpr native]; rfl)]
    rfl

/-- What an order has to be for the positions of the prefixes to be those of the modules. -/
structure Sorts (ctx : CompilationContext P) (entry : P) (order : List P) : Prop where
  nodup : order.Nodup
  mem : ∀ path,path ∈ order ↔ path ∈ ctx.nonEntryPaths entry

namespace Sorts

variable (sorts : ctx.Sorts entry order) (linkable : ctx.Linkable sanitizeName) {path : P}

include sorts

theorem known (member : path ∈ order) : ctx.contains path := (mem_nonEntryPaths.mp ((sorts.mem path).mp member)).1

include linkable

theorem prefix_mem_iff {others : List P} (within : others ⊆ order) (member : path ∈ order) :
    ctx.modulePrefix sanitizeName path ∈ others.map (ctx.modulePrefix sanitizeName) ↔ path ∈ others := by
  refine ⟨fun mapped => ?_,List.mem_map_of_mem⟩
  obtain ⟨other,there,same⟩ := List.mem_map.mp mapped
  rwa [← modulePrefix_inj linkable (sorts.known (within there)) (sorts.known member) same]

theorem initPos_modulePrefix (member : path ∈ order) :
    initPos sanitizeName (ctx.namesOf order) (ctx.modulePrefix sanitizeName path) = some (order.idxOf path) := by
  obtain ⟨front,back,rfl⟩ := List.append_of_mem member
  obtain ⟨module,native⟩ := native_of_contains (sorts.known member)
  have split := List.nodup_append.mp sorts.nodup
  have out : path ∉ front := fun twice => split.2.2 path twice path (List.mem_cons_self ..) rfl
  have names : ctx.namesOf (front ++ path :: back) = ctx.namesOf front ++ module.name :: ctx.namesOf back := by
    rw [namesOf,List.filterMap_append,List.filterMap_cons_some (by rw [get_eq.mpr native]; rfl)]
    rfl
  have known_back : ∀ other ∈ back,ctx.contains other := fun other there =>
    sorts.known (List.mem_append_right _ (List.mem_cons_of_mem _ there))
  have known_front : ∀ other ∈ front,ctx.contains other := fun other there => sorts.known (List.mem_append_left _ there)
  have lengths : (ctx.namesOf front).length = front.length := by
    have prefixes : (ctx.namesOf front).map sanitizeName = front.map (ctx.modulePrefix sanitizeName) := namesOf_prefixes known_front
    simpa using congrArg List.length prefixes
  rw [modulePrefix_eq native,names,initPos_eq,List.idxOf_append_of_notMem out,List.idxOf_cons_self,lengths,Nat.add_zero]
  have named : sanitizeName module.name = ctx.modulePrefix sanitizeName path := (modulePrefix_eq native).symm
  rw [namesOf_prefixes known_back,named,
    sorts.prefix_mem_iff linkable (fun other there => List.mem_append_right _ (List.mem_cons_of_mem _ there)) member]
  exact (List.nodup_cons.mp split.2.1).1

theorem initDepsOf_modulePrefix (names : List String) (member : path ∈ order) :
    ctx.initDepsOf entry sanitizeName names (ctx.modulePrefix sanitizeName path) = ctx.moduleInitDeps entry sanitizeName names path := by
  have there : ((ctx.nonEntryPaths entry).find? fun other => ctx.modulePrefix sanitizeName other = ctx.modulePrefix sanitizeName path).isSome :=
    List.find?_isSome.mpr ⟨path,(sorts.mem path).mp member,decide_eq_true rfl⟩
  obtain ⟨other,found⟩ := Option.isSome_iff_exists.mp there
  have same : ctx.modulePrefix sanitizeName other = ctx.modulePrefix sanitizeName path := by simpa using List.find?_some found
  obtain rfl := modulePrefix_inj linkable (mem_nonEntryPaths.mp (List.mem_of_find?_eq_some found)).1 (sorts.known member) same
  rw [initDepsOf,found,Option.elim_some]

theorem mem_moduleInitDeps (member : path ∈ order) {dep : String} :
    dep ∈ ctx.moduleInitDeps entry sanitizeName (ctx.namesOf order) path ↔
      ∃ target ∈ ctx.deps entry path,ctx.modulePrefix sanitizeName target = dep ∧ order.idxOf target < order.idxOf path := by
  have pushed : ∀ (prefixes deps : List String) (dep : String),
      dep ∈ prefixes.foldl (fun deps dep =>
        if dep = ctx.modulePrefix sanitizeName entry ∧ ctx.contains entry then deps else appendNew deps dep) deps ↔
      dep ∈ deps ∨ dep ∈ prefixes ∧ ¬(dep = ctx.modulePrefix sanitizeName entry ∧ ctx.contains entry) := by
    intro prefixes
    induction prefixes with
    | nil => simp
    | cons first prefixes ih =>
      intro deps dep
      rw [List.foldl_cons,ih,List.mem_cons]
      split
      · next skip =>
        by_cases same : dep = first
        · simp [same,skip]
        · simp [same]
      · next counts =>
        rw [mem_appendNew]
        by_cases same : dep = first
        · simp [same,counts]
        · simp [same]
  have other : path ≠ entry := (mem_nonEntryPaths.mp ((sorts.mem path).mp member)).2
  rw [moduleInitDeps,sorts.initPos_modulePrefix linkable member]
  dsimp only
  rw [List.mem_filter,pushed,List.mem_map]
  constructor
  · rintro ⟨none_first | ⟨⟨target,edge,rfl⟩,counts⟩,before⟩
    · cases none_first
    · obtain ⟨module,_,_,known⟩ := mem_targets.mp edge
      have different : target ≠ entry := by
        rintro rfl
        exact counts ⟨rfl,known⟩
      have inside : target ∈ order := (sorts.mem target).mpr (mem_nonEntryPaths.mpr ⟨known,different⟩)
      rw [sorts.initPos_modulePrefix linkable inside,Option.elim_some,decide_eq_true_eq] at before
      exact ⟨target,mem_deps.mpr ⟨other,edge,different⟩,rfl,before⟩
  · rintro ⟨target,edge,rfl,before⟩
    obtain ⟨_,edge,different⟩ := mem_deps.mp edge
    obtain ⟨module,_,_,known⟩ := mem_targets.mp edge
    have inside : target ∈ order := (sorts.mem target).mpr (mem_nonEntryPaths.mpr ⟨known,different⟩)
    refine ⟨.inr ⟨⟨target,edge,rfl⟩,fun ⟨same,entry_known⟩ => different (modulePrefix_inj linkable known entry_known same)⟩,?_⟩
    rw [sorts.initPos_modulePrefix linkable inside,Option.elim_some,decide_eq_true_eq]
    exact before

theorem mem_calls (member : path ∈ order) {dep : String} :
    dep ∈ ctx.calls entry sanitizeName (ctx.namesOf order) (ctx.modulePrefix sanitizeName path) ↔
      ∃ target ∈ ctx.deps entry path,ctx.modulePrefix sanitizeName target = dep ∧ order.idxOf target < order.idxOf path := by
  rw [calls,List.mem_filter,sorts.initDepsOf_modulePrefix linkable _ member,sorts.mem_moduleInitDeps linkable member,decide_eq_true_eq]
  refine ⟨And.left,fun found => ⟨found,?_⟩⟩
  obtain ⟨target,edge,rfl,before⟩ := found
  intro same
  obtain ⟨_,edge,_⟩ := mem_deps.mp edge
  obtain ⟨_,_,_,known⟩ := mem_targets.mp edge
  obtain rfl := modulePrefix_inj linkable known (sorts.known member) same
  exact Nat.lt_irrefl _ before

theorem calls_closed : ∀ self ∈ order.map (ctx.modulePrefix sanitizeName),∀ dep ∈ ctx.calls entry sanitizeName (ctx.namesOf order) self,
    dep ∈ order.map (ctx.modulePrefix sanitizeName) := by
  rintro _ there dep edge
  obtain ⟨path,member,rfl⟩ := List.mem_map.mp there
  obtain ⟨target,imported,rfl,_⟩ := (sorts.mem_calls linkable member).mp edge
  obtain ⟨_,imported,different⟩ := mem_deps.mp imported
  obtain ⟨_,_,_,known⟩ := mem_targets.mp imported
  exact List.mem_map_of_mem ((sorts.mem target).mpr (mem_nonEntryPaths.mpr ⟨known,different⟩))

/-- Calls follow dependencies, to the front of the order only. -/
theorem leads_of_calls (member : path ∈ order) {last : String}
    (leads : Leads (ctx.calls entry sanitizeName (ctx.namesOf order)) (ctx.modulePrefix sanitizeName path) last) :
    ∃ other ∈ order,ctx.modulePrefix sanitizeName other = last ∧ order.idxOf other ≤ order.idxOf path ∧
      Leads (ctx.deps entry) path other := by
  induction leads with
  | refl => exact ⟨path,member,rfl,Nat.le_refl _,.refl⟩
  | tail _ edge ih =>
    obtain ⟨middle,inside,rfl,before,led⟩ := ih
    obtain ⟨target,imported,rfl,earlier⟩ := (sorts.mem_calls linkable inside).mp edge
    have further := led.tail imported
    obtain ⟨_,imported,different⟩ := mem_deps.mp imported
    obtain ⟨_,_,_,known⟩ := mem_targets.mp imported
    exact ⟨target,(sorts.mem target).mpr (mem_nonEntryPaths.mpr ⟨known,different⟩),rfl,(earlier.trans_le before).le,further⟩

/-- The main program calls the wrappers of the eager modules, in the order. -/
theorem called (eager : List P) :
    (((ctx.namesOf order).map sanitizeName).filter fun name =>
        name ∉ (ctx.nativeModules.filter fun module => !eager.contains module.1).map fun module => sanitizeName module.2.name) =
      (order.filter (· ∈ eager)).map (ctx.modulePrefix sanitizeName) := by
  rw [namesOf_prefixes (fun _ => sorts.known),List.filter_map]
  congr 1
  refine List.filter_congr fun path member => ?_
  obtain ⟨module,native⟩ := native_of_contains (sorts.known member)
  rw [Function.comp_apply,decide_eq_decide]
  constructor
  · intro counts
    by_contra deferred
    refine counts (List.mem_map.mpr ⟨_,List.mem_filter.mpr ⟨native,by simpa using deferred⟩,?_⟩)
    exact (modulePrefix_eq native).symm
  · intro counts mapped
    obtain ⟨⟨other,module'⟩,there,same⟩ := List.mem_map.mp mapped
    obtain ⟨native',deferred⟩ := List.mem_filter.mp there
    have equal := congrArg Prod.fst (List.inj_on_of_nodup_map linkable native native' ((modulePrefix_eq native).symm.trans same.symm))
    dsimp only at equal
    subst equal
    exact absurd counts (by simpa using deferred)

theorem prefixes_nodup {eager : List P} : ((order.filter (· ∈ eager)).map (ctx.modulePrefix sanitizeName)).Nodup :=
  List.Nodup.map_on (fun _ member _ there => modulePrefix_inj linkable (sorts.known (List.mem_filter.mp member).1)
    (sorts.known (List.mem_filter.mp there).1)) (sorts.nodup.filter _)

/-- Where nothing eager depends on a module that is not, the eager modules come behind what they call. -/
theorem calls_in_front {eager : List P} (closed : ∀ path ∈ eager,∀ target ∈ ctx.targets path,target ∈ eager)
    {front back : List String} {name : String}
    (split : (order.filter (· ∈ eager)).map (ctx.modulePrefix sanitizeName) = front ++ name :: back) :
    ∀ dep ∈ ctx.calls entry sanitizeName (ctx.namesOf order) name,dep ∈ front := by
  intro dep edge
  obtain ⟨before,rest,whole,rfl,mapped⟩ := List.map_eq_append_iff.mp split
  obtain ⟨path,after,rfl,rfl,-⟩ := List.map_eq_cons_iff.mp mapped
  have member : path ∈ order.filter (· ∈ eager) := whole ▸ List.mem_append_right _ (List.mem_cons_self ..)
  obtain ⟨inside,counts⟩ := List.mem_filter.mp member
  obtain ⟨target,imported,rfl,earlier⟩ := (sorts.mem_calls linkable inside).mp edge
  obtain ⟨_,imported,different⟩ := mem_deps.mp imported
  obtain ⟨_,_,_,known⟩ := mem_targets.mp imported
  have there : target ∈ order.filter (· ∈ eager) := List.mem_filter.mpr
    ⟨(sorts.mem target).mpr (mem_nonEntryPaths.mpr ⟨known,different⟩),decide_eq_true (closed path (of_decide_eq_true counts) target imported)⟩
  have increasing : order.Pairwise fun path other => order.idxOf path < order.idxOf other := by
    refine List.pairwise_iff_getElem.mpr fun i j hi hj before => ?_
    rwa [sorts.nodup.idxOf_getElem,sorts.nodup.idxOf_getElem]
  have sorted := whole ▸ increasing.sublist List.filter_sublist
  rw [whole] at there
  obtain front | back := List.mem_append.mp there
  · exact List.mem_map_of_mem front
  · obtain rfl | back := List.mem_cons.mp back
    · exact absurd earlier (Nat.lt_irrefl _)
    · have later := (List.pairwise_cons.mp (List.pairwise_append.mp sorted).2.1).1 target back
      omega

theorem startup_mirrors {eager : List P} (closed : ∀ path ∈ eager,∀ target ∈ ctx.targets path,target ∈ eager) (rounds : Nat) :
    ∃ started,ctx.startup entry sanitizeName (rounds + 2) (ctx.namesOf order) eager = some started ∧
      Mirrors started ⟨(order.filter (· ∈ eager)).map (ctx.modulePrefix sanitizeName),[]⟩ := by
  have walked : ((order.filter (· ∈ eager)).map (ctx.modulePrefix sanitizeName)).foldlM
      (visit (ctx.calls entry sanitizeName (ctx.namesOf order)) (rounds + 2)) ⟨[],[]⟩ =
        some ⟨(order.filter (· ∈ eager)).map (ctx.modulePrefix sanitizeName),[]⟩ :=
    foldlM_ready (sorts.prefixes_nodup linkable) fun _ _ _ split => sorts.calls_in_front linkable closed split
  have fresh : Mirrors ⟨[],[]⟩ ⟨[],[]⟩ := ⟨rfl,by simp⟩
  obtain ⟨started,ran,mirrors,_⟩ := foldl_mirrors (fun {_ _ _} self mirrors walked => init_mirrors self mirrors walked) fresh walked
  refine ⟨started,?_,mirrors⟩
  rw [startup,sorts.called linkable]
  exact ran

/-- The requests add what they lead to, each module once and behind what it calls. -/
theorem requests_mirror {eager requested : List P} (closed : ∀ path ∈ eager,∀ target ∈ ctx.targets path,target ∈ eager)
    (asked : ∀ path ∈ requested,path ∈ order) {started : Started}
    (mirrors : Mirrors started ⟨(order.filter (· ∈ eager)).map (ctx.modulePrefix sanitizeName),[]⟩) :
    ∃ final walk,(requested.map (ctx.modulePrefix sanitizeName)).foldlM
        (init (ctx.initDepsOf entry sanitizeName (ctx.namesOf order)) (order.length + 2)) started = some final ∧
      final.ran = walk.visited ∧ Adds (ctx.calls entry sanitizeName (ctx.namesOf order)) (requested.map (ctx.modulePrefix sanitizeName))
        ⟨(order.filter (· ∈ eager)).map (ctx.modulePrefix sanitizeName),[]⟩ walk := by
  have sound : Sound (ctx.calls entry sanitizeName (ctx.namesOf order))
      ⟨(order.filter (· ∈ eager)).map (ctx.modulePrefix sanitizeName),[]⟩ :=
    ⟨sorts.prefixes_nodup linkable,List.nodup_nil,by simp,fun _ _ _ split dep edge =>
      .inl (sorts.calls_in_front linkable closed split dep edge)⟩
  have node : ∀ {name : String},name ∈ requested.map (ctx.modulePrefix sanitizeName) → name ∈ order.map (ctx.modulePrefix sanitizeName) := by
    intro name member
    obtain ⟨path,there,rfl⟩ := List.mem_map.mp member
    exact List.mem_map_of_mem (asked path there)
  have few : (order.map (ctx.modulePrefix sanitizeName)).length < order.length + 2 := by
    rw [List.length_map]
    omega
  obtain ⟨walk,walked,adds⟩ := fold_visits (order.map (ctx.modulePrefix sanitizeName)) (order.length + 2)
    (fun member sound stack enough => visit_spec (sorts.calls_closed linkable) (node member) sound stack enough) sound (by simp)
    (List.countP_le_length.trans_lt few)
  obtain ⟨final,ran,mirrored,_⟩ := foldl_mirrors (fun {_ _ _} self mirrors walked => init_mirrors self mirrors walked) mirrors walked
  exact ⟨final,walk,ran,mirrored.ran,adds⟩

end Sorts

end Order

/-- A whole run: the prelude, then dynamic imports, one by one. -/
def run (requested : List P) : Option Started :=
  (ctx.topoSortNonEntryModules entry).bind fun names => (ctx.classifyEagerModules entry).bind fun eager =>
    (ctx.startup entry sanitizeName ((ctx.nonEntryPaths entry).length + 2) names eager).bind fun started =>
      (requested.map (ctx.modulePrefix sanitizeName)).foldlM
        (init (ctx.initDepsOf entry sanitizeName names) ((ctx.nonEntryPaths entry).length + 2)) started

end CompilationContext

variable {P : Type*} [LinearOrder P] {ctx : CompilationContext P} {entry : P} {sanitizeName : String → String} {requested : List P}

/-- In a run the eager modules initialise first, in the order of the sort; a module initialises at most once, only if it is
eager or a request leads to it, and behind each module it depends on, unless the two are on a circle. -/
theorem initialises_in_order (linkable : ctx.Linkable sanitizeName) (asked : ∀ path ∈ requested,path ∈ ctx.nonEntryPaths entry) :
    ∃ order eager final,ctx.topoSort entry = some order ∧ ctx.classifyEagerModules entry = some eager ∧
      ctx.run entry sanitizeName requested = some final ∧ final.ran.Nodup ∧
      (order.filter (· ∈ eager)).map (ctx.modulePrefix sanitizeName) <+: final.ran ∧
      (∀ path ∈ requested,ctx.modulePrefix sanitizeName path ∈ final.ran) ∧
      (∀ name ∈ final.ran,∃ path ∈ order,ctx.modulePrefix sanitizeName path = name ∧
        (Leads ctx.targets entry path ∨ ∃ request ∈ requested,Leads (ctx.deps entry) request path)) ∧
      ∀ path ∈ order,ctx.modulePrefix sanitizeName path ∈ final.ran → ∀ dep ∈ ctx.deps entry path,
        ctx.modulePrefix sanitizeName dep ∈ final.ran ∧
          final.ran.idxOf (ctx.modulePrefix sanitizeName dep) < final.ran.idxOf (ctx.modulePrefix sanitizeName path) ∨
        Leads (ctx.deps entry) dep path := by
  obtain ⟨order,sorted,nodup,mem,ordered⟩ := ctx.topoSort_spec entry
  obtain ⟨eager,classified,reached⟩ := ctx.classifyEagerModules_spec entry
  have sorts : ctx.Sorts entry order := ⟨nodup,mem⟩
  have closed : ∀ path ∈ eager,∀ target ∈ ctx.targets path,target ∈ eager := fun path member target edge =>
    (reached target).mpr (((reached path).mp member).tail edge)
  have lengths : (ctx.nonEntryPaths entry).length = order.length := by
    refine List.Perm.length_eq ((List.perm_ext_iff_of_nodup ?_ nodup).mpr fun path => (mem path).symm)
    exact (ctx.sorted.imp ne_of_lt).filter _
  obtain ⟨started,prelude,mirrors⟩ := sorts.startup_mirrors linkable closed order.length
  have asked_inside : ∀ path ∈ requested,path ∈ order := fun path member => (mem path).mpr (asked path member)
  obtain ⟨final,walk,ran,same,adds⟩ := sorts.requests_mirror linkable closed asked_inside mirrors
  obtain ⟨new,visited,led⟩ := adds.visited
  have whole : ctx.run entry sanitizeName requested = some final := by
    have names : ctx.topoSortNonEntryModules entry = some (ctx.namesOf order) := by
      rw [CompilationContext.topoSortNonEntryModules,sorted]
      rfl
    rw [CompilationContext.run,names,classified,lengths,Option.bind_some,Option.bind_some,prelude]
    exact ran
  refine ⟨order,eager,final,sorted,classified,whole,same ▸ adds.sound.nodup,⟨new,by rw [same,visited]⟩,?_,?_,?_⟩
  · intro path member
    rw [same]
    simpa using adds.started _ (List.mem_map_of_mem member)
  · intro name member
    rw [same,visited] at member
    obtain early | late := List.mem_append.mp member
    · obtain ⟨path,there,rfl⟩ := List.mem_map.mp early
      obtain ⟨inside,counts⟩ := List.mem_filter.mp there
      exact ⟨path,inside,rfl,.inl ((reached path).mp (of_decide_eq_true counts))⟩
    · obtain ⟨_,start,leads⟩ := led name late
      obtain ⟨request,there,rfl⟩ := List.mem_map.mp start
      obtain ⟨path,inside,rfl,_,walks⟩ := sorts.leads_of_calls linkable (asked_inside request there) leads
      exact ⟨path,inside,rfl,.inr ⟨request,there,walks⟩⟩
  · intro path inside member dep edge
    obtain ⟨there,before⟩ | circle := ordered.idxOf nodup inside edge
    · rw [same] at member ⊢
      refine (adds.sound.ordered.idxOf adds.sound.nodup member ((sorts.mem_calls linkable inside).mpr ⟨dep,edge,rfl,before⟩)).imp_right ?_
      intro back
      obtain ⟨other,inside',named,le,_⟩ := sorts.leads_of_calls linkable there back
      obtain rfl := CompilationContext.modulePrefix_inj linkable (sorts.known inside') (sorts.known inside) named
      omega
    · exact .inr circle

/-- An entry that imports one of two modules in a circle, and a module that is only imported dynamically. -/
def circleWithRequest : CompilationContext Nat where
  nativeModules :=
    [(0,⟨"main",[⟨false,false,false,false,some 1⟩,⟨true,false,false,false,some 3⟩],[]⟩),
      (1,⟨"index",[⟨false,false,false,false,some 2⟩],[]⟩),
      (2,⟨"internal",[],[.reExport "./index"]⟩),
      (3,⟨"late",[⟨false,false,false,false,some 1⟩],[]⟩)]
  sorted := by simp
  resolveImport source _ := if source = "./index" then some 1 else none

theorem initialises_in_order_circle : ∃ final,circleWithRequest.run 0 id [3] = some final ∧ final.ran.Nodup ∧ "late" ∈ final.ran := by
  have linkable : circleWithRequest.Linkable id := by
    simp [CompilationContext.Linkable,circleWithRequest]
  have asked : ∀ path ∈ [3],path ∈ circleWithRequest.nonEntryPaths 0 := by decide
  obtain ⟨_,_,final,_,_,ran,nodup,_,requests,_⟩ := initialises_in_order linkable asked
  exact ⟨final,ran,nodup,requests 3 (List.mem_singleton_self 3)⟩

end Perry.Compile
