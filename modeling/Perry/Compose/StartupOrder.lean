import Perry.Compose.Spec
import Perry.Containers.Precedence

/-! The order in which `up` starts the services: Kahn's algorithm on the in-degrees, with a
sorted set of the services that are ready. -/

namespace Perry.Compose

open Perry.Containers

section algorithm

variable (spec : ComposeSpec)

structure Graph where
  inDegree : List (String × Nat)
  dependents : List (String × List String)

def emptyGraph : Graph :=
  ⟨assignAll (spec.services.map fun entry => (entry.1,0)) [],assignAll (spec.services.map fun entry => (entry.1,[])) []⟩

def addDependency (name : String) (graph : Graph) (dep : String) : Except Halt Graph :=
  if (getEntry dep spec.services).isNone then
    .error (.fails (.validationError ("Service '" ++ name ++ "' depends on '" ++ dep ++ "' which is not defined")))
  else do
    let degree ← unwrap (getEntry name graph.inDegree)
    let waiting ← unwrap (getEntry dep graph.dependents)
    pure ⟨assign name (degree + 1) graph.inDegree,assign dep (waiting ++ [name]) graph.dependents⟩

def ComposeService.dependencies (service : ComposeService) : List String :=
  (service.dependsOn.map DependsOnSpec.serviceNames).getD []

def buildGraph : Except Halt Graph :=
  spec.services.foldlM (fun graph entry => entry.2.dependencies.foldlM (addDependency spec entry.1) graph) (emptyGraph spec)

/-- What the loop over the queue changes. The queue is a `BTreeSet`. -/
structure Placing where
  inDegree : List (String × Nat)
  queue : Finset String
  order : List String

def popFirst (queue : Finset String) : Option (String × Finset String) :=
  if filled : queue.Nonempty then some (queue.min' filled,queue.erase (queue.min' filled)) else none

def release (state : Placing) (dependent : String) : Except Halt Placing := do
  let degree ← unwrap (getEntry dependent state.inDegree)
  let left ← subtract degree 1
  let inDegree := assign dependent left state.inDegree
  pure (if left = 0 then { state with inDegree,queue := insert dependent state.queue } else { state with inDegree })

def placeAll (dependents : List (String × List String)) : Nat → Placing → Except Halt Placing
  | 0,_ => .error .runsOn
  | turns + 1,state =>
    match popFirst state.queue with
    | none => .ok state
    | some (service,queue) => do
      let released ← ((getEntry service dependents).getD []).foldlM release
        { state with queue,order := state.order ++ [service] }
      placeAll dependents turns released

/-- Each turn of the loop places a service, and one more finds the queue empty. -/
def resolveStartupOrder : Except Halt (List String) := do
  let graph ← buildGraph spec
  let queue := ((graph.inDegree.filter fun entry => entry.2 = 0).map Prod.fst).toFinset
  let placed ← placeAll graph.dependents (spec.services.length + 1) ⟨graph.inDegree,queue,[]⟩
  if placed.order.length ≠ spec.services.length then
    .error (.fails (.dependencyCycle ((placed.inDegree.filter fun entry => 0 < entry.2).map Prod.fst)))
  else pure placed.order

end algorithm

def ComposeSpec.names (spec : ComposeSpec) : List String := spec.services.map Prod.fst

def ComposeSpec.dependencies (spec : ComposeSpec) (name : String) : List String :=
  ((getEntry name spec.services).map ComposeService.dependencies).getD []

/-- Every dependency of every service, as often as it is declared. -/
def ComposeSpec.edges (spec : ComposeSpec) : List (String × String) :=
  spec.services.flatMap fun entry => entry.2.dependencies.map fun dep => (entry.1,dep)

section graph

variable {spec : ComposeSpec} {graph : Graph} {es : List (String × String)} {name dep : String}

theorem mem_names_iff : name ∈ spec.names ↔ (getEntry name spec.services).isSome := getEntry_isSome.symm

theorem mem_edges : (name,dep) ∈ spec.edges ↔ name ∈ spec.names ∧ dep ∈ spec.dependencies name := by
  rw [ComposeSpec.edges,List.mem_flatMap,mem_names_iff,Option.isSome_iff_exists]
  constructor
  · rintro ⟨⟨other,service⟩,member,within⟩
    obtain ⟨_,declared,same⟩ := List.mem_map.mp within
    obtain ⟨rfl,rfl⟩ := Prod.mk.inj same
    have found := (mem_iff_getEntry spec.distinct).mp member
    refine ⟨⟨service,found⟩,?_⟩
    rwa [ComposeSpec.dependencies,found]
  · rintro ⟨⟨service,found⟩,declared⟩
    rw [ComposeSpec.dependencies,found] at declared
    exact ⟨(name,service),(mem_iff_getEntry spec.distinct).mpr found,List.mem_map_of_mem declared⟩

/-- The maps after the given dependencies were added. -/
structure Counts (spec : ComposeSpec) (es : List (String × String)) (graph : Graph) : Prop where
  keys : graph.inDegree.map Prod.fst = spec.names
  degrees : ∀ name ∈ spec.names,getEntry name graph.inDegree = some (es.countP (·.1 = name))
  waiting : ∀ dep ∈ spec.names,getEntry dep graph.dependents = some ((es.filter (·.2 = dep)).map Prod.fst)

theorem assignAll_names {V : Type} (spec : ComposeSpec) (value : V) :
    assignAll (spec.services.map fun entry => (entry.1,value)) [] = spec.services.map fun entry => (entry.1,value) := by
  refine assignAll_distinct ?_
  rw [List.nil_append,List.map_map]
  exact spec.distinct

theorem getEntry_names {V : Type} (value : V) (known : name ∈ spec.names) :
    getEntry name (spec.services.map fun entry => (entry.1,value)) = some value := by
  refine (mem_iff_getEntry ?_).mp ?_
  · rw [List.map_map]
    exact spec.distinct
  · obtain ⟨entry,member,rfl⟩ := List.mem_map.mp known
    exact List.mem_map_of_mem (f := fun entry => (entry.1,value)) member

theorem Counts.empty : Counts spec [] (emptyGraph spec) := by
  rw [emptyGraph,assignAll_names,assignAll_names]
  refine ⟨?_,fun name known => getEntry_names 0 known,fun dep known => getEntry_names [] known⟩
  rw [List.map_map]
  rfl

theorem keys_assign_of_mem {V : Type} {key : String} {entries : List (String × V)} (value : V) (member : key ∈ entries.map Prod.fst) :
    (assign key value entries).map Prod.fst = entries.map Prod.fst := by
  rw [keys_assign,if_pos member]

theorem Counts.add (counts : Counts spec es graph) (known : name ∈ spec.names) (defined : dep ∈ spec.names) :
    ∃ graph',addDependency spec name graph dep = .ok graph' ∧ Counts spec (es ++ [(name,dep)]) graph' := by
  have found := mem_names_iff.mp defined
  rw [addDependency,if_neg (by rw [Option.isNone_iff_eq_none]; exact Option.isSome_iff_ne_none.mp found),counts.degrees name known,
    counts.waiting dep defined]
  refine ⟨_,rfl,?_,fun other member => ?_,fun other member => ?_⟩
  · rw [keys_assign_of_mem _ (counts.keys ▸ known),counts.keys]
  · rw [getEntry_assign,counts.degrees other member,List.countP_append,List.countP_singleton]
    split
    · next same => simp [same]
    · next apart => simp [apart]
  · rw [getEntry_assign,counts.waiting other member,List.filter_append,List.map_append,List.filter_singleton]
    split
    · next same => simp [same]
    · next apart => simp [apart]

theorem foldlM_flatMap {α β σ : Type} {m : Type → Type} [Monad m] [LawfulMonad m] (step : σ → β → m σ) (f : α → List β)
    (l : List α) (s : σ) : (l.flatMap f).foldlM step s = l.foldlM (fun s a => (f a).foldlM step s) s := by
  induction l generalizing s with
  | nil => rfl
  | cons a l ih =>
    rw [List.flatMap_cons,List.foldlM_append,List.foldlM_cons]
    exact bind_congr ih

theorem buildGraph_eq (spec : ComposeSpec) :
    buildGraph spec = spec.edges.foldlM (fun graph edge => addDependency spec edge.1 graph edge.2) (emptyGraph spec) := by
  rw [ComposeSpec.edges,foldlM_flatMap]
  simp only [List.foldlM_map]
  rfl

theorem Counts.addAll {more : List (String × String)} (counts : Counts spec es graph)
    (known : ∀ edge ∈ more,edge.1 ∈ spec.names ∧ edge.2 ∈ spec.names) :
    ∃ graph',more.foldlM (fun graph edge => addDependency spec edge.1 graph edge.2) graph = .ok graph' ∧
      Counts spec (es ++ more) graph' := by
  induction more generalizing es graph with
  | nil => exact ⟨graph,rfl,by rwa [List.append_nil]⟩
  | cons edge more ih =>
    obtain ⟨first,others⟩ := List.forall_mem_cons.mp known
    obtain ⟨next,added,counted⟩ := counts.add first.1 first.2
    obtain ⟨last,rest,whole⟩ := ih counted others
    refine ⟨last,?_,?_⟩
    · rw [List.foldlM_cons,added]
      exact rest
    · rwa [List.append_assoc] at whole

theorem addDependency_undefined (undefined : dep ∉ spec.names) : ∃ error,addDependency spec name graph dep = .error (.fails error) := by
  rw [mem_names_iff,Option.not_isSome_iff_eq_none] at undefined
  rw [addDependency,undefined]
  exact ⟨_,rfl⟩

theorem Counts.refused {more : List (String × String)} (counts : Counts spec es graph) (known : ∀ edge ∈ more,edge.1 ∈ spec.names)
    {edge : String × String} (member : edge ∈ more) (undefined : edge.2 ∉ spec.names) :
    ∃ error,more.foldlM (fun graph edge => addDependency spec edge.1 graph edge.2) graph = .error (.fails error) := by
  induction more generalizing es graph with
  | nil => cases member
  | cons first more ih =>
    obtain ⟨here,others⟩ := List.forall_mem_cons.mp known
    by_cases defined : first.2 ∈ spec.names
    · obtain ⟨next,added,counted⟩ := counts.add here defined
      have later : edge ∈ more := (List.mem_cons.mp member).resolve_left fun same => undefined (same ▸ defined)
      obtain ⟨error,fails⟩ := ih counted others later
      refine ⟨error,?_⟩
      rw [List.foldlM_cons,added]
      exact fails
    · obtain ⟨error,fails⟩ := addDependency_undefined defined
      refine ⟨error,?_⟩
      rw [List.foldlM_cons,fails]
      rfl

/-- What every dependency of a service is: a service. -/
def ComposeSpec.Defined (spec : ComposeSpec) : Prop := ∀ name ∈ spec.names,∀ dep ∈ spec.dependencies name,dep ∈ spec.names

theorem buildGraph_defined (defined : spec.Defined) : ∃ graph,buildGraph spec = .ok graph ∧ Counts spec spec.edges graph := by
  rw [buildGraph_eq]
  refine Counts.empty.addAll fun edge member => ?_
  obtain ⟨known,declared⟩ := mem_edges.mp member
  exact ⟨known,defined _ known _ declared⟩

theorem buildGraph_undefined (undefined : ¬ spec.Defined) : ∃ error,buildGraph spec = .error (.fails error) := by
  simp only [ComposeSpec.Defined,not_forall] at undefined
  obtain ⟨name,known,dep,declared,absent⟩ := undefined
  rw [buildGraph_eq]
  exact Counts.empty.refused (fun edge member => (mem_edges.mp member).1) (mem_edges.mpr ⟨known,declared⟩) absent

end graph

section placing

variable {spec : ComposeSpec} {state : Placing}

theorem release_spec {dependent : String} {left : Nat} (found : getEntry dependent state.inDegree = some (left + 1)) :
    ∃ next,release state dependent = .ok next ∧ next.order = state.order ∧
      (∀ name,getEntry name next.inDegree = if dependent = name then some left else getEntry name state.inDegree) ∧
      ∀ name,name ∈ next.queue ↔ name ∈ state.queue ∨ name = dependent ∧ left = 0 := by
  rw [release,found]
  change ∃ next,Except.ok (ε := Halt) (if left = 0 then _ else _) = .ok next ∧ _
  split
  · next zero =>
    refine ⟨_,rfl,rfl,fun name => getEntry_assign _ name _ _,fun name => ?_⟩
    rw [Finset.mem_insert,or_comm,and_iff_left zero]
  · next positive =>
    refine ⟨_,rfl,rfl,fun name => getEntry_assign _ name _ _,fun name => ?_⟩
    exact (or_iff_left fun both => positive both.2).symm

theorem release_all {degree : String → Nat} {dependents : List String}
    (degrees : ∀ name ∈ spec.names,getEntry name state.inDegree = some (degree name))
    (known : ∀ name ∈ dependents,name ∈ spec.names) (enough : ∀ name,dependents.count name ≤ degree name) :
    ∃ state',dependents.foldlM release state = .ok state' ∧ state'.order = state.order ∧
      (∀ name ∈ spec.names,getEntry name state'.inDegree = some (degree name - dependents.count name)) ∧
      ∀ name,name ∈ state'.queue ↔ name ∈ state.queue ∨ name ∈ dependents ∧ degree name = dependents.count name := by
  induction dependents generalizing state degree with
  | nil => exact ⟨state,rfl,rfl,degrees,fun name => by simp⟩
  | cons first dependents ih =>
    obtain ⟨here,others⟩ := List.forall_mem_cons.mp known
    obtain ⟨left,positive⟩ : ∃ left,degree first = left + 1 := by
      have least := enough first
      rw [List.count_cons_self] at least
      exact ⟨_,(Nat.sub_add_cancel (by omega)).symm⟩
    obtain ⟨next,released,order,counts,queue⟩ := release_spec ((degrees first here).trans (congrArg some positive))
    have lower (name : String) : Function.update degree first left name = degree name - (if first = name then 1 else 0) := by
      rw [Function.update_apply]
      split
      · next same => rw [same,if_pos rfl,positive,Nat.add_sub_cancel]
      · next apart => rw [if_neg (Ne.symm apart),Nat.sub_zero]
    have counted (name : String) : (first :: dependents).count name = dependents.count name + (if first = name then 1 else 0) := by
      rw [List.count_cons]
      simp
    have fewer (name : String) : dependents.count name ≤ Function.update degree first left name := by
      have least := enough name
      rw [counted] at least
      rw [lower]
      omega
    have degrees' : ∀ name ∈ spec.names,getEntry name next.inDegree = some (Function.update degree first left name) := by
      intro name member
      rw [counts,degrees name member,Function.update_apply]
      split
      · next same => rw [if_pos same.symm]
      · next apart => rw [if_neg (Ne.symm apart)]
    obtain ⟨last,rest,order',counts',queue'⟩ := ih degrees' others fewer
    refine ⟨last,?_,order'.trans order,fun name member => ?_,fun name => ?_⟩
    · rw [List.foldlM_cons,released]
      exact rest
    · rw [counts' name member,lower,counted,Nat.sub_sub,Nat.add_comm]
    · rw [queue',queue,lower,counted,List.mem_cons,or_assoc]
      refine or_congr_right ?_
      by_cases same : first = name
      · subst same
        have least := fewer first
        rw [Function.update_self] at least
        rw [if_pos rfl,positive,Nat.add_sub_cancel,Nat.add_right_cancel_iff]
        constructor
        · rintro (⟨-,zero⟩ | ⟨-,all⟩)
          · exact ⟨.inl rfl,by omega⟩
          · exact ⟨.inl rfl,all⟩
        · rintro ⟨-,all⟩
          by_cases zero : left = 0
          · exact .inl ⟨rfl,zero⟩
          · exact .inr ⟨List.count_pos_iff.mp (by omega),all⟩
      · rw [if_neg same,Nat.sub_zero,Nat.add_zero]
        exact (or_iff_right fun both => same both.1.symm).trans
          (and_congr_left' (or_iff_right fun here => same here.symm).symm)

/-- What holds before each turn: the queue has what is available behind the order so far. -/
structure Placed (spec : ComposeSpec) (state : Placing) : Prop where
  degrees : ∀ name ∈ spec.names,
    getEntry name state.inDegree = some (spec.edges.countP fun edge => edge.1 = name ∧ edge.2 ∉ state.order)
  queue : ∀ name,name ∈ state.queue ↔ Available spec.names spec.dependencies state.order name
  least : TakesLeast spec.names spec.dependencies state.order

theorem popFirst_spec (queue : Finset String) : queue = ∅ ∧ popFirst queue = none ∨
    ∃ service,IsLeast { name | name ∈ queue } service ∧ popFirst queue = some (service,queue.erase service) := by
  rw [popFirst]
  split
  · next filled => exact .inr ⟨_,queue.isLeast_min' filled,rfl⟩
  · next empty => exact .inl ⟨Finset.not_nonempty_iff_eq_empty.mp empty,rfl⟩

/-- The dependents that stand in the map for a service count its edges. -/
theorem count_dependents (service name : String) : ((spec.edges.filter (·.2 = service)).map Prod.fst).count name =
    spec.edges.countP fun edge => edge.1 = name ∧ edge.2 = service := by
  rw [List.count,List.countP_map,List.countP_filter]
  refine List.countP_congr fun edge _ => ?_
  simp

theorem mem_dependents {service name : String} : name ∈ (spec.edges.filter (·.2 = service)).map Prod.fst ↔
    name ∈ spec.names ∧ service ∈ spec.dependencies name := by
  rw [← mem_edges,List.mem_map]
  constructor
  · rintro ⟨⟨name,dep⟩,member,rfl⟩
    obtain ⟨edge,same⟩ := List.mem_filter.mp member
    rwa [← of_decide_eq_true same]
  · intro member
    exact ⟨(name,service),List.mem_filter.mpr ⟨member,decide_eq_true rfl⟩,rfl⟩

/-- The edges that are left behind an order, and behind one more service. -/
theorem countP_concat {order : List String} {service : String} (left : service ∉ order) (name : String) :
    (spec.edges.countP fun edge => edge.1 = name ∧ edge.2 ∉ order) =
      (spec.edges.countP fun edge => edge.1 = name ∧ edge.2 ∉ order ++ [service]) +
        spec.edges.countP fun edge => edge.1 = name ∧ edge.2 = service := by
  rw [List.countP_eq_countP_filter_add _ _ (fun edge => edge.2 ≠ service),List.countP_filter,List.countP_filter]
  congr 1
  · refine List.countP_congr fun edge _ => ?_
    simp [and_assoc]
  · refine List.countP_congr fun edge _ => ?_
    simp only [Bool.and_eq_true,decide_eq_true_eq,Bool.not_eq_true',decide_eq_false_iff_not,not_not]
    refine ⟨fun both => ⟨both.1.1,both.2⟩,fun both => ⟨⟨both.1,?_⟩,both.2⟩⟩
    exact both.2 ▸ left

theorem countP_eq_zero {order : List String} {name : String} (known : name ∈ spec.names) :
    (spec.edges.countP fun edge => edge.1 = name ∧ edge.2 ∉ order) = 0 ↔ ∀ dep ∈ spec.dependencies name,dep ∈ order := by
  rw [List.countP_eq_zero]
  constructor
  · intro none dep declared
    have here := none _ (mem_edges.mpr ⟨known,declared⟩)
    simpa using here
  · rintro ready ⟨name,dep⟩ member left
    obtain ⟨rfl,absent⟩ := of_decide_eq_true left
    exact absent (ready dep (mem_edges.mp member).2)

theorem available_concat {order : List String} {service name : String} (least : TakesLeast spec.names spec.dependencies order)
    (placed : Available spec.names spec.dependencies order service) :
    Available spec.names spec.dependencies (order ++ [service]) name ↔
      name ≠ service ∧ Available spec.names spec.dependencies order name ∨
        (name ∈ spec.names ∧ service ∈ spec.dependencies name) ∧ ∀ dep ∈ spec.dependencies name,dep ∈ order ++ [service] := by
  constructor
  · rintro ⟨node,left,ready⟩
    rw [List.mem_append,List.mem_singleton,not_or] at left
    by_cases waits : service ∈ spec.dependencies name
    · exact .inr ⟨⟨node,waits⟩,ready⟩
    · refine .inl ⟨left.2,node,left.1,fun dep declared => ?_⟩
      refine (List.mem_append.mp (ready dep declared)).resolve_right fun single => waits ?_
      exact List.mem_singleton.mp single ▸ declared
  · rintro (⟨other,node,left,ready⟩ | ⟨⟨node,waits⟩,ready⟩)
    · refine ⟨node,?_,fun dep declared => List.mem_append_left _ (ready dep declared)⟩
      rw [List.mem_append,List.mem_singleton,not_or]
      exact ⟨left,other⟩
    · refine ⟨node,?_,ready⟩
      rw [List.mem_append,List.mem_singleton,not_or]
      refine ⟨fun earlier => placed.left (least.mem_deps earlier waits),?_⟩
      rintro rfl
      exact placed.left (placed.ready _ waits)

theorem Placed.turn {graph : Graph} (counts : Counts spec spec.edges graph) (placed : Placed spec state) {service : String}
    (next : IsLeast { name | name ∈ state.queue } service) :
    ∃ state',((getEntry service graph.dependents).getD []).foldlM release
        { state with queue := state.queue.erase service,order := state.order ++ [service] } = .ok state' ∧
      state'.order = state.order ++ [service] ∧ Placed spec state' := by
  have available := (placed.queue service).mp next.1
  have waiting := counts.waiting service available.node
  have enough (name : String) : ((spec.edges.filter (·.2 = service)).map Prod.fst).count name ≤
      spec.edges.countP fun edge => edge.1 = name ∧ edge.2 ∉ state.order := by
    rw [count_dependents,countP_concat available.left name]
    exact Nat.le_add_left ..
  obtain ⟨state',released,order,degrees,queue⟩ := @release_all spec
    { state with queue := state.queue.erase service,order := state.order ++ [service] } _ _ placed.degrees
    (fun name member => (mem_dependents.mp member).1) enough
  rw [waiting,Option.getD_some]
  refine ⟨state',released,order,fun name known => ?_,fun name => ?_,?_⟩
  · rw [degrees name known,order,count_dependents,countP_concat available.left name,Nat.add_sub_cancel]
  · rw [queue,order,available_concat placed.least available,Finset.mem_erase,placed.queue,mem_dependents]
    refine or_congr_right (and_congr_right fun waits => ?_)
    rw [count_dependents,countP_concat available.left name,Nat.add_eq_right,countP_eq_zero waits.1]
  · rw [order]
    refine placed.least.concat ?_
    simpa only [placed.queue] using next

theorem Placed.start {graph : Graph} (counts : Counts spec spec.edges graph) :
    Placed spec ⟨graph.inDegree,((graph.inDegree.filter fun entry => entry.2 = 0).map Prod.fst).toFinset,[]⟩ := by
  have degrees : ∀ name ∈ spec.names,
      getEntry name graph.inDegree = some (spec.edges.countP fun edge => edge.1 = name ∧ edge.2 ∉ ([] : List String)) := by
    intro name known
    rw [counts.degrees name known]
    simp
  have distinct : (graph.inDegree.map Prod.fst).Nodup := counts.keys ▸ spec.distinct
  refine ⟨degrees,fun name => ?_,.nil⟩
  rw [List.mem_toFinset,List.mem_map]
  constructor
  · rintro ⟨⟨name,degree⟩,member,rfl⟩
    obtain ⟨entry,zero⟩ := List.mem_filter.mp member
    have known : name ∈ spec.names := counts.keys ▸ List.mem_map_of_mem entry
    have found := (mem_iff_getEntry distinct).mp entry
    rw [degrees name known,show degree = 0 from of_decide_eq_true zero,Option.some_inj,countP_eq_zero known] at found
    exact ⟨known,List.not_mem_nil,found⟩
  · rintro ⟨known,-,ready⟩
    refine ⟨(name,0),List.mem_filter.mpr ⟨(mem_iff_getEntry distinct).mpr ?_,decide_eq_true rfl⟩,rfl⟩
    rw [degrees name known,(countP_eq_zero known).mpr ready]

/-- As many turns as services are left, and one, are enough. -/
theorem placeAll_spec {graph : Graph} (counts : Counts spec spec.edges graph) (turns : Nat) (placed : Placed spec state)
    (enough : spec.names.length < state.order.length + turns) :
    ∃ state',placeAll graph.dependents turns state = .ok state' ∧ Placed spec state' ∧ state'.queue = ∅ := by
  induction turns generalizing state with
  | zero =>
    have fits := (placed.least.nodup.subperm fun name => placed.least.mem_nodes).length_le
    omega
  | succ turns ih =>
    rw [placeAll]
    obtain ⟨empty,popped⟩ | ⟨service,next,popped⟩ := popFirst_spec state.queue
    · rw [popped]
      exact ⟨state,rfl,placed,empty⟩
    · rw [popped]
      obtain ⟨state',released,order,placed'⟩ := placed.turn counts next
      obtain ⟨last,rest,whole⟩ := ih placed' (by rw [order,List.length_append,List.length_singleton]; omega)
      refine ⟨last,?_,whole⟩
      dsimp only
      rw [released]
      exact rest

/-- With nothing available everything is placed, unless there is a cycle. -/
theorem Placed.perm_iff (defined : spec.Defined) (placed : Placed spec state) (empty : state.queue = ∅) :
    state.order.Perm spec.names ↔ Acyclic spec.names spec.dependencies := by
  constructor
  · exact fun all => placed.least.acyclic fun name known => all.mem_iff.mpr known
  · intro acyclic
    refine (List.perm_ext_iff_of_nodup placed.least.nodup spec.distinct).mpr fun name => ⟨placed.least.mem_nodes,fun known => ?_⟩
    by_contra left
    obtain ⟨next,available⟩ := exists_available acyclic defined known left
    have queued := (placed.queue next).mpr available
    rw [empty] at queued
    cases queued

theorem Placed.length_eq_iff (placed : Placed spec state) : state.order.length = spec.services.length ↔ state.order.Perm spec.names := by
  have fits := placed.least.nodup.subperm fun name => placed.least.mem_nodes
  have size : spec.names.length = spec.services.length := List.length_map ..
  rw [← size]
  exact ⟨fun same => fits.perm_of_length_le same.ge,List.Perm.length_eq⟩

end placing

/-- The order is found exactly where every dependency is defined and nothing depends on itself; then
every service has its place behind what it depends on, the least that is available at each step. -/
theorem resolveStartupOrder_exact (spec : ComposeSpec) :
    (∀ halt,resolveStartupOrder spec = .error halt → ∃ error,halt = .fails error) ∧
      ((∃ order,resolveStartupOrder spec = .ok order) ↔ spec.Defined ∧ Acyclic spec.names spec.dependencies) ∧
      ∀ order,resolveStartupOrder spec = .ok order → order.Perm spec.names ∧
        ∀ front service back,order = front ++ service :: back →
          (∀ dep ∈ spec.dependencies service,dep ∈ front) ∧
            IsLeast { name | name ∈ spec.names ∧ name ∉ front ∧ ∀ dep ∈ spec.dependencies name,dep ∈ front } service := by
  by_cases defined : spec.Defined
  · obtain ⟨graph,built,counts⟩ := buildGraph_defined defined
    obtain ⟨state,placedAll,placed,empty⟩ := placeAll_spec counts (spec.services.length + 1) (.start counts)
      (by rw [List.length_nil,Nat.zero_add,ComposeSpec.names,List.length_map]; exact Nat.lt_succ_self _)
    have result : resolveStartupOrder spec = if state.order.length ≠ spec.services.length then
        .error (.fails (.dependencyCycle ((state.inDegree.filter fun entry => 0 < entry.2).map Prod.fst)))
        else .ok state.order := by
      rw [resolveStartupOrder,built]
      change placeAll graph.dependents _ _ >>= _ = _
      rw [placedAll]
      rfl
    have whole := placed.length_eq_iff.trans (placed.perm_iff defined empty)
    by_cases acyclic : Acyclic spec.names spec.dependencies
    · rw [if_neg (not_not.mpr (whole.mpr acyclic))] at result
      rw [result]
      refine ⟨nofun,iff_of_true ⟨_,rfl⟩ ⟨defined,acyclic⟩,?_⟩
      rintro order ⟨⟩
      refine ⟨(placed.perm_iff defined empty).mpr acyclic,fun front service back shape => ?_⟩
      obtain ⟨available,least⟩ := placed.least front service back shape
      refine ⟨available.ready,⟨available.node,available.left,available.ready⟩,?_⟩
      rintro name ⟨node,left,ready⟩
      exact least ⟨node,left,ready⟩
    · rw [if_pos (fun same => acyclic (whole.mp same))] at result
      rw [result]
      refine ⟨?_,iff_of_false nofun fun both => acyclic both.2,nofun⟩
      rintro halt ⟨⟩
      exact ⟨_,rfl⟩
  · obtain ⟨error,fails⟩ := buildGraph_undefined defined
    have result : resolveStartupOrder spec = .error (.fails error) := by
      rw [resolveStartupOrder,fails]
      rfl
    rw [result]
    refine ⟨?_,iff_of_false nofun fun both => defined both.1,nofun⟩
    rintro halt ⟨⟩
    exact ⟨_,rfl⟩

end Perry.Compose
