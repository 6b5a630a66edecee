import Perry.Machine.Runs
import Perry.Runtime.Reactions

/-! The slot of a promise and the tables beside it hold one list of reactions, and the task queue the jobs
that ECMAScript has. -/
namespace Perry.Runtime.Reactions

open Perry.Machine Perry.Runtime.KeyedTable Perry.Runtime.PromiseJobs

section Tables

variable {T : Type*}

/-- A table with its rows in the order of registration. -/
structure Parked (table : PromiseKeyedTable T) (rows : List (Nat × Nat × T)) : Prop where
  wf : table.WellFormed
  perm : table.rows.Perm rows
  sorted : rows.Pairwise (·.1 < ·.1)

def Room (table : PromiseKeyedTable T) : Prop := table.entries.length < 2 ^ 32 ∧ table.nextSeq + 1 < 2 ^ 64

instance (table : PromiseKeyedTable T) : Decidable (Room table) := inferInstanceAs (Decidable (_ ∧ _))

def waiting (rows : List (Nat × Nat × T)) (key : Nat) : List T := (rows.filter (·.2.1 = key)).map (·.2.2)

variable {table : PromiseKeyedTable T} {rows : List (Nat × Nat × T)}

theorem Parked.push (parked : Parked table rows) (room : Room table) (key : Nat) (value : T) :
    ∃ after,table.push key value = some after ∧ Parked after (rows ++ [(table.nextSeq,key,value)]) := by
  obtain ⟨after,pushed,wf,same,_⟩ := PromiseKeyedTable.push_spec parked.wf room key value
  refine ⟨after,pushed,wf,same ▸ parked.perm.append_right _,List.pairwise_append.mpr ⟨parked.sorted,List.pairwise_singleton ..,?_⟩⟩
  intro row member last single
  obtain rfl := List.mem_singleton.mp single
  obtain ⟨e,present,rfl⟩ := List.mem_map.mp (parked.perm.mem_iff.mpr member)
  exact parked.wf.fresh e present

theorem Parked.takeAll (parked : Parked table rows) (key : Nat) :
    ∃ after,table.takeAll key = some (after,waiting rows key) ∧ Parked after (rows.filter (·.2.1 ≠ key)) := by
  obtain ⟨after,taken,wf,left,_⟩ := PromiseKeyedTable.takeAll_spec parked.wf key parked.perm parked.sorted
  exact ⟨after,taken,wf,left,parked.sorted.sublist List.filter_sublist⟩

theorem waiting_append (rows : List (Nat × Nat × T)) (seq key : Nat) (value : T) (other : Nat) :
    waiting (rows ++ [(seq,key,value)]) other = waiting rows other ++ if other = key then [value] else [] := by
  rw [waiting,List.filter_append,List.map_append,waiting]
  by_cases same : other = key
  · simp [same]
  · simp [same,Ne.symm same]

theorem waiting_filter (rows : List (Nat × Nat × T)) {key other : Nat} (different : other ≠ key) :
    waiting (rows.filter (·.2.1 ≠ key)) other = waiting rows other := by
  rw [waiting,List.filter_filter,waiting]
  congr 1
  refine List.filter_congr fun row _ => ?_
  by_cases same : row.2.1 = other <;> simp [same,different]

theorem waiting_none {bound key : Nat} (known : ∀ row ∈ rows,row.2.1 < bound) (outside : bound ≤ key) : waiting rows key = [] := by
  rw [waiting,List.map_eq_nil_iff,List.filter_eq_nil_iff]
  intro row member
  have := known row member
  rw [decide_eq_true_eq]
  omega

end Tables

variable {H V C : Type*}

/-- A reaction has something to do: it runs a handler for both outcomes, or settles a promise. -/
def Works (f r : Option H) (next : Option Nat) : Prop := f.isSome ∧ r.isSome ∨ next.isSome

inductive Heard : PromiseSettleListener H C → Reaction H C → Prop
  | mk (f r : H) (c : C) : Heard ⟨some (.user f),some (.user r),c⟩ ⟨some f,some r,none,c⟩

/-- A parked reaction, where the closures that forward an outcome stand for a reaction without handlers. -/
inductive Meant : OverflowReaction H C → Reaction H C → Prop
  | handlers {f r : Option H} {next : Option Nat} {c : C} (works : Works f r next) :
    Meant ⟨f.map .user,r.map .user,next,c⟩ ⟨f,r,next,c⟩
  | forward (outer : Nat) (c c' : C) : Meant ⟨some (.forwardResolve outer),some (.forwardReject outer),none,c⟩ ⟨none,none,some outer,c'⟩

/-- The reaction in a promise's own slot, if there is one. -/
inductive Slot : Promise H V → Option C → List (Reaction H C) → Prop
  | free (state : PromiseState V) (c : Option C) : Slot ⟨state,none,none,none⟩ c []
  | handlers {state : PromiseState V} {f r : Option H} {next : Option Nat} {c : C} (works : Works f r next) :
    Slot ⟨state,f.map .user,r.map .user,next⟩ (some c) [⟨f,r,next,c⟩]
  | edge (state : PromiseState V) (outer : Nat) (c : Option C) (c' : C) : Slot ⟨state,none,none,some outer⟩ c [⟨none,none,some outer,c'⟩]

structure Waits (promise : Promise H V) (context : Option C) (heard : List (PromiseSettleListener H C))
    (parked : List (OverflowReaction H C)) (cell : Cell H V C) : Prop where
  listeners : List.Forall₂ Heard heard cell.listeners
  /-- Reactions are parked only behind one in the slot. -/
  reactions : ∃ front back,Slot promise context front ∧ List.Forall₂ Meant parked back ∧ cell.reactions = front ++ back ∧
    (front = [] → back = [])

def Settled (promise : Promise H V) : Prop := promise.state.outcome.isSome

instance (promise : Promise H V) : Decidable (Settled promise) := inferInstanceAs (Decidable (_ = true))

inductive Means (promises : Nat → Promise H V) (count : Nat) : Task H V C → Job H V C → Prop
  | promise {p : Nat} {value : V} {k : Bool} {c c' : C} {f r : Option H} {next : Option Nat} {state : PromiseState V}
    (slot : promises p = ⟨state,f.map .user,r.map .user,next⟩) (settled : Settled (promises p)) (works : Works f r next)
    (context : (if k then f else r).isSome → c = c') :
    Means promises count (.promise p value k c) (.react (if k then f else r) value k next c')
  | handler {h : H} {value : V} {next : Option Nat} {k : Bool} {c : C} :
    Means promises count (.inline (some (.user h)) value next k c) (.react (some h) value k next c)
  | pass {value : V} {next : Option Nat} {k : Bool} {c c' : C} :
    Means promises count (.inline none value next k c) (.react none value k next c')
  | forward {outer : Nat} {value : V} {k : Bool} {c c' : C} :
    Means promises count (.inline (some (if k then .forwardResolve outer else .forwardReject outer)) value none k c)
      (.react none value k (some outer) c')
  | asyncStep {value : V} {next : Nat} {k : Bool} {c c' : C} :
    Means promises count (.asyncStep value next (!k) c) (.react none value k (some next) c')
  | adoption {outer inner : Nat} {c : C} (known : inner < count) : Means promises count (.adoption outer inner c) (.adopt outer inner)

/-- A settled promise with an occupied slot stays as it is. -/
structure Keeps (loop after : Loop H V C) : Prop where
  fixed : ∀ p,Settled (loop.promises p) → (loop.promises p).slotOccupied → after.promises p = loop.promises p
  count : loop.count ≤ after.count
  running : after.running = loop.running
  context : after.context = loop.context
  log : after.log = loop.log

structure Shows (loop : Loop H V C) (agent : Agent H V C) (heard : List (Nat × Nat × PromiseSettleListener H C))
    (parked : List (Nat × Nat × OverflowReaction H C)) : Prop where
  count : loop.count = agent.count
  listeners : Parked loop.settleListeners heard
  reactions : Parked loop.overflowReactions parked
  known : (∀ row ∈ heard,row.2.1 < loop.count) ∧ ∀ row ∈ parked,row.2.1 < loop.count
  outside : ∀ p,loop.count ≤ p → (loop.promises p).slotOccupied = false
  state : ∀ p,(loop.promises p).state = (agent.promises p).state
  waits : ∀ p,(loop.promises p).state.outcome = none →
    Waits (loop.promises p) (loop.promiseContexts p) (waiting heard p) (waiting parked p) (agent.promises p)
  jobs : List.Forall₂ (Means loop.promises loop.count) loop.taskQueue agent.jobs

def Stored (loop : Loop H V C) (agent : Agent H V C) : Prop := ∃ heard parked,Shows loop agent heard parked

variable {loop after : Loop H V C} {agent : Agent H V C} {heard : List (Nat × Nat × PromiseSettleListener H C)}
  {parked : List (Nat × Nat × OverflowReaction H C)}

theorem Keeps.refl (loop : Loop H V C) : Keeps loop loop := ⟨fun _ _ _ => rfl,Nat.le_refl _,rfl,rfl,rfl⟩

theorem Keeps.trans {last : Loop H V C} (first : Keeps loop after) (second : Keeps after last) : Keeps loop last where
  fixed p settled occupied := by
    have same := first.fixed p settled occupied
    rw [second.fixed p (same ▸ settled) (same ▸ occupied),same]
  count := first.count.trans second.count
  running := second.running.trans first.running
  context := second.context.trans first.context
  log := second.log.trans first.log

theorem Works.occupied {state : PromiseState V} {f r : Option H} {next : Option Nat} (works : Works f r next) :
    (⟨state,f.map .user,r.map .user,next⟩ : Promise H V).slotOccupied := by
  rw [Promise.slotOccupied,Option.isSome_map,Option.isSome_map]
  obtain ⟨some_f,_⟩ | some_next := works
  · rw [some_f,Bool.true_or,Bool.true_or]
  · rw [some_next,Bool.or_true]

theorem Works.either {f r : Option H} {next : Option Nat} (works : Works f r next) (k : Bool) :
    ((if k then f else r).isSome || next.isSome) = true := by
  obtain ⟨some_f,some_r⟩ | some_next := works
  · cases k <;> simp [some_f,some_r]
  · rw [some_next,Bool.or_true]

theorem not_occupied {promise : Promise H V} (free : ¬promise.slotOccupied) : promise = ⟨promise.state,none,none,none⟩ := by
  obtain ⟨state,f,r,next⟩ := promise
  simp only [Promise.slotOccupied,Bool.or_eq_true,not_or,Bool.not_eq_true,Option.isSome_eq_false_iff,Option.isNone_iff_eq_none] at free
  obtain ⟨⟨rfl,rfl⟩,rfl⟩ := free
  rfl

theorem Slot.occupied {promise : Promise H V} {c : Option C} {front : List (Reaction H C)} (slot : Slot promise c front) :
    promise.slotOccupied ↔ front ≠ [] := by
  cases slot with
  | free => simp [Promise.slotOccupied]
  | handlers works => simp [works.occupied]
  | edge => simp [Promise.slotOccupied]

theorem Means.mono {promises others : Nat → Promise H V} {count more : Nat} {task : Task H V C} {job : Job H V C}
    (means : Means promises count task job)
    (fixed : ∀ p,Settled (promises p) → (promises p).slotOccupied → others p = promises p) (grown : count ≤ more) :
    Means others more task job := by
  cases means with
  | promise slot settled works context =>
    have same := fixed _ settled (slot ▸ works.occupied)
    exact .promise (same.trans slot) (same ▸ settled) works context
  | handler => exact .handler
  | pass => exact .pass
  | forward => exact .forward
  | asyncStep => exact .asyncStep
  | adoption known => exact .adoption (known.trans_le grown)

theorem Meant.means {promises : Nat → Promise H V} {count : Nat} {parked : OverflowReaction H C} {reaction : Reaction H C}
    (meant : Meant parked reaction) (k : Bool) (value : V) :
    Means promises count (.inline (if k then parked.onFulfilled else parked.onRejected) value parked.next k parked.context)
      (reaction.job k value) := by
  cases meant with
  | @handlers f r next c works =>
    cases k
    · cases r with
      | none => exact .pass
      | some h => exact .handler
    · cases f with
      | none => exact .pass
      | some h => exact .handler
  | forward outer c c' =>
    cases k
    · exact .forward (k := false)
    · exact .forward (k := true)

theorem Heard.means {promises : Nat → Promise H V} {count : Nat} {heard : List (PromiseSettleListener H C)}
    {reactions : List (Reaction H C)} (all : List.Forall₂ Heard heard reactions) (k : Bool) (value : V) :
    List.Forall₂ (Means promises count)
      (heard.filterMap fun listener => (if k then listener.onFulfilled else listener.onRejected).map
        fun callback => .inline (some callback) value none k listener.context)
      (reactions.map (·.job k value)) := by
  induction all with
  | nil => exact .nil
  | cons first _ ih =>
    obtain ⟨f,r,c⟩ := first
    cases k <;> exact .cons .handler ih

theorem Meant.all_means {promises : Nat → Promise H V} {count : Nat} {parked : List (OverflowReaction H C)}
    {reactions : List (Reaction H C)} (all : List.Forall₂ Meant parked reactions) (k : Bool) (value : V) :
    List.Forall₂ (Means promises count)
      (parked.map fun r => .inline (if k then r.onFulfilled else r.onRejected) value r.next k r.context)
      (reactions.map (·.job k value)) := by
  induction all with
  | nil => exact .nil
  | cons first _ ih => exact .cons (first.means k value) ih

/-- The task for the slot, of a promise that has just been settled. -/
theorem Slot.means {promises : Nat → Promise H V} {count p : Nat} {promise : Promise H V} {context : Option C} {current : C}
    {front : List (Reaction H C)} (slot : Slot promise context front) (k : Bool) (value : V)
    (at_p : promises p = { promise with state := .settled k value }) :
    List.Forall₂ (Means promises count)
      (if (promise.callback k).isSome || promise.next.isSome then [.promise p value k (context.getD current)] else [])
      (front.map (·.job k value)) := by
  have settled : Settled (promises p) := by rw [Settled,at_p,PromiseState.outcome_settled]; rfl
  cases slot with
  | free => cases k <;> exact .nil
  | @handlers state f r next c works =>
    have some_task : ((Promise.callback ⟨state,f.map .user,r.map .user,next⟩ k).isSome || next.isSome) = true := by
      have either := works.either k
      cases k <;> simpa [Promise.callback] using either
    rw [if_pos some_task]
    exact .cons (.promise at_p settled works fun _ => rfl) .nil
  | edge state outer c c' =>
    have works : Works (none : Option H) none (some outer) := .inr rfl
    have means : Means promises count (.promise p value k (context.getD current))
        (.react (if k then none else none) value k (some outer) c') :=
      .promise (f := none) (r := none) at_p settled works (by cases k <;> simp)
    cases k <;> exact .cons means .nil

theorem Keeps.state (keeps : Keeps loop after) {p : Nat} (settled : Settled (loop.promises p))
    (occupied : (loop.promises p).slotOccupied) : Settled (after.promises p) ∧ (after.promises p).slotOccupied := by
  rw [keeps.fixed p settled occupied]
  exact ⟨settled,occupied⟩

theorem promises_settleDrained (k : Bool) (p : Nat) (value : V)
    (listeners : PromiseKeyedTable (PromiseSettleListener H C) × List (PromiseSettleListener H C))
    (reactions : PromiseKeyedTable (OverflowReaction H C) × List (OverflowReaction H C)) :
    (loop.settleDrained k p value listeners reactions).promises =
      Function.update loop.promises p { loop.promises p with state := .settled k value } := rfl

/-- The tasks of a settlement, also where there is nothing to queue. -/
theorem taskQueue_settleDrained (k : Bool) (p : Nat) (value : V)
    (listeners : PromiseKeyedTable (PromiseSettleListener H C) × List (PromiseSettleListener H C))
    (reactions : PromiseKeyedTable (OverflowReaction H C) × List (OverflowReaction H C)) :
    (loop.settleDrained k p value listeners reactions).taskQueue =
      loop.taskQueue ++ (listeners.2.filterMap (fun listener => (if k then listener.onFulfilled else listener.onRejected).map
          fun callback => .inline (some callback) value none k listener.context) ++
        (if ((loop.promises p).callback k).isSome || (loop.promises p).next.isSome then
          [.promise p value k (loop.contextForPromise p)] else []) ++
        reactions.2.map fun r => .inline (if k then r.onFulfilled else r.onRejected) value r.next k r.context) := by
  rw [Loop.settleDrained]
  dsimp only
  split
  · rw [List.append_assoc,List.append_assoc,List.append_assoc]
  · next nothing =>
    simp only [Bool.or_eq_true,Bool.not_eq_true',not_or,Bool.not_eq_false,List.isEmpty_iff] at nothing
    obtain ⟨⟨no_listener,no_handler⟩,no_reaction⟩ := nothing
    simp [no_listener,no_handler,no_reaction]

theorem Shows.settle (shows : Shows loop agent heard parked) (k : Bool) (p : Nat) (value : V) :
    ∃ after,loop.settle k p value = some after ∧ Stored after (agent.settle k p value) ∧ Keeps loop after := by
  rw [Loop.settle,Agent.settle,← shows.state]
  cases pending : (loop.promises p).state.outcome with
  | some _ => exact ⟨loop,rfl,⟨heard,parked,shows⟩,.refl loop⟩
  | none =>
  dsimp only
  obtain ⟨listeners,taken,left⟩ := shows.listeners.takeAll p
  obtain ⟨reactions,drained,rest⟩ := shows.reactions.takeAll p
  obtain ⟨listened,front,back,slot,meant,all,_⟩ := shows.waits p pending
  rw [taken,drained]
  have keeps : Keeps loop (loop.settleDrained k p value (listeners,waiting heard p) (reactions,waiting parked p)) := by
    refine ⟨fun other settled _ => Function.update_of_ne ?_ _ _,Nat.le_refl _,rfl,rfl,rfl⟩
    rintro rfl
    rw [Settled,pending] at settled
    cases settled
  refine ⟨_,rfl,⟨heard.filter (·.2.1 ≠ p),parked.filter (·.2.1 ≠ p),?_⟩,keeps⟩
  refine ⟨shows.count,left,rest,⟨?_,?_⟩,?_,?_,?_,?_⟩
  · exact fun row member => shows.known.1 row (List.mem_of_mem_filter member)
  · exact fun row member => shows.known.2 row (List.mem_of_mem_filter member)
  · intro other above
    rw [← shows.outside other above,promises_settleDrained]
    by_cases same : other = p
    · rw [same,Function.update_self]
      rfl
    · rw [Function.update_of_ne same]
  · intro other
    by_cases same : other = p
    · subst same
      simp [Loop.settleDrained]
    · simp [Loop.settleDrained,same,shows.state]
  · intro other waits
    by_cases same : other = p
    · subst same
      simp [Loop.settleDrained] at waits
    · rw [waiting_filter heard same,waiting_filter parked same]
      have before : (loop.settleDrained k p value (listeners,waiting heard p) (reactions,waiting parked p)).promises other =
          loop.promises other := Function.update_of_ne same _ _
      have context : (loop.settleDrained k p value (listeners,waiting heard p) (reactions,waiting parked p)).promiseContexts other =
          loop.promiseContexts other := by
        rw [Loop.settleDrained]
        dsimp only
        split
        · exact Function.update_of_ne same _ _
        · rfl
      rw [before] at waits ⊢
      rw [context]
      dsimp only
      rw [Function.update_of_ne same]
      exact shows.waits other waits
  · rw [taskQueue_settleDrained]
    refine List.rel_append (shows.jobs.imp fun _ _ means => means.mono keeps.fixed keeps.count) ?_
    rw [all,← List.append_assoc,List.map_append,List.map_append]
    refine List.rel_append (List.rel_append (Heard.means listened k value) ?_) (Meant.all_means meant k value)
    exact slot.means k value (Function.update_self ..)

theorem Shows.queue (shows : Shows loop agent heard parked) {task : Task H V C} {job : Job H V C}
    (means : Means loop.promises loop.count task job) :
    Shows { loop with taskQueue := loop.taskQueue ++ [task] } { agent with jobs := agent.jobs ++ [job] } heard parked :=
  { shows with jobs := List.rel_append shows.jobs (.cons means .nil) }

/-- A new promise is one that nothing waits for and no settled promise has. -/
theorem Shows.create (shows : Shows loop agent heard parked) :
    Shows loop.jsPromiseNew agent.create heard parked ∧ Keeps loop loop.jsPromiseNew := by
  have fresh := shows.outside loop.count (Nat.le_refl _)
  have keeps : Keeps loop loop.jsPromiseNew := by
    refine ⟨fun other _ occupied => Function.update_of_ne ?_ _ _,Nat.le_succ _,rfl,rfl,rfl⟩
    rintro rfl
    rw [fresh] at occupied
    cases occupied
  refine ⟨⟨congrArg (· + 1) shows.count,shows.listeners,shows.reactions,?_,?_,?_,?_,?_⟩,keeps⟩
  · exact ⟨fun row member => Nat.lt_succ_of_lt (shows.known.1 row member),fun row member => Nat.lt_succ_of_lt (shows.known.2 row member)⟩
  · intro p above
    dsimp only [Loop.jsPromiseNew] at above ⊢
    rw [Function.update_of_ne (by omega),shows.outside p (by omega)]
  · intro p
    rw [Loop.jsPromiseNew,Agent.create,← shows.count]
    dsimp only
    by_cases same : p = loop.count
    · rw [same,Function.update_self,Function.update_self]
      rfl
    · rw [Function.update_of_ne same,Function.update_of_ne same,shows.state]
  · intro p waits
    rw [Loop.jsPromiseNew] at waits ⊢
    rw [Agent.create,← shows.count]
    dsimp only at waits ⊢
    by_cases same : p = loop.count
    · rw [same,Function.update_self,Function.update_self,waiting_none shows.known.1 (Nat.le_refl _),
        waiting_none shows.known.2 (Nat.le_refl _)]
      exact ⟨.nil,[],[],.free ..,.nil,rfl,fun _ => rfl⟩
    · rw [Function.update_of_ne same] at waits ⊢
      rw [Function.update_of_ne same]
      exact shows.waits p waits
  · exact shows.jobs.imp fun _ _ means => means.mono keeps.fixed keeps.count

/-- The cell of a pending promise with one reaction more. -/
def waitingFor (agent : Agent H V C) (p : Nat) (reaction : Reaction H C) : Agent H V C :=
  let cell := agent.promises p
  { agent with promises := Function.update agent.promises p { cell with reactions := cell.reactions ++ [reaction] } }

theorem performThen_pending {p : Nat} (pending : (agent.promises p).state.outcome = none) (reaction : Reaction H C) :
    agent.performThen p reaction = waitingFor agent p reaction := by
  rw [Agent.performThen,pending,waitingFor]

theorem state_waitingFor (p other : Nat) (reaction : Reaction H C) :
    ((waitingFor agent p reaction).promises other).state = (agent.promises other).state := by
  rw [waitingFor]
  by_cases same : other = p
  · rw [same]
    dsimp only
    rw [Function.update_self]
  · dsimp only
    rw [Function.update_of_ne same]

/-- A reaction behind one that is in the slot. -/
theorem Shows.park (shows : Shows loop agent heard parked) {p seq : Nat} (known : p < loop.count)
    (occupied : (loop.promises p).slotOccupied) {entry : OverflowReaction H C} {reaction : Reaction H C} (meant : Meant entry reaction)
    {table : PromiseKeyedTable (OverflowReaction H C)} (sorted : Parked table (parked ++ [(seq,p,entry)])) :
    Shows { loop with overflowReactions := table } (waitingFor agent p reaction) heard (parked ++ [(seq,p,entry)]) := by
  refine ⟨shows.count,shows.listeners,sorted,⟨shows.known.1,?_⟩,shows.outside,?_,?_,shows.jobs⟩
  · exact List.forall_mem_append.mpr ⟨shows.known.2,by simpa using known⟩
  · exact fun other => (shows.state other).trans (state_waitingFor p other reaction).symm
  · intro other waits
    obtain ⟨listened,front,back,slot,all_meant,all,behind⟩ := shows.waits other waits
    dsimp only [waitingFor]
    rw [waiting_append]
    by_cases same : other = p
    · subst same
      rw [if_pos rfl,Function.update_self]
      refine ⟨listened,front,back ++ [reaction],slot,List.rel_append all_meant (.cons meant .nil),?_,?_⟩
      · rw [all,List.append_assoc]
      · exact fun none => absurd none (slot.occupied.mp occupied)
    · rw [if_neg same,List.append_nil,Function.update_of_ne same]
      exact ⟨listened,front,back,slot,all_meant,all,behind⟩

/-- The slot of a promise is taken. -/
def taken (loop : Loop H V C) (p : Nat) (promise : Promise H V) (contexts : Nat → Option C) : Loop H V C :=
  { loop with promises := Function.update loop.promises p promise, promiseContexts := contexts }

theorem keeps_taken {p : Nat} (free : ¬(loop.promises p).slotOccupied) (promise : Promise H V) (contexts : Nat → Option C) :
    Keeps loop (taken loop p promise contexts) := by
  refine ⟨fun other _ occupied => Function.update_of_ne ?_ _ _,Nat.le_refl _,rfl,rfl,rfl⟩
  rintro rfl
  exact free occupied

/-- The first reaction goes into the slot, in front of none that is parked. -/
theorem Shows.place (shows : Shows loop agent heard parked) {p : Nat} (known : p < loop.count)
    (free : ¬(loop.promises p).slotOccupied) {promise : Promise H V} (same_state : promise.state = (loop.promises p).state)
    {contexts : Nat → Option C} (others : ∀ other,other ≠ p → contexts other = loop.promiseContexts other) {reaction : Reaction H C}
    (slot : Slot promise (contexts p) [reaction]) :
    Shows (taken loop p promise contexts) (if Settled (loop.promises p) then agent else waitingFor agent p reaction) heard parked := by
  have keeps := keeps_taken free promise contexts
  have state : ∀ other,((taken loop p promise contexts).promises other).state = (loop.promises other).state := by
    intro other
    rw [taken]
    by_cases same : other = p
    · subst same
      simp [same_state]
    · simp [same]
  have outside : ∀ other,loop.count ≤ other → ((taken loop p promise contexts).promises other).slotOccupied = false := by
    intro other above
    rw [taken]
    dsimp only
    rw [Function.update_of_ne (by omega),shows.outside other above]
  have away : ∀ {other : Nat},other ≠ p → ((taken loop p promise contexts).promises other).state.outcome = none →
      Waits ((taken loop p promise contexts).promises other) ((taken loop p promise contexts).promiseContexts other)
        (waiting heard other) (waiting parked other) (agent.promises other) := by
    intro other different waits
    rw [state] at waits
    rw [taken]
    dsimp only
    rw [Function.update_of_ne different,others other different]
    exact shows.waits other waits
  have jobs := shows.jobs.imp fun _ _ means => means.mono keeps.fixed keeps.count
  split
  · next settled =>
    refine ⟨shows.count,shows.listeners,shows.reactions,shows.known,outside,fun other => (state other).trans (shows.state other),?_,jobs⟩
    intro other waits
    refine away ?_ waits
    rintro rfl
    rw [state,← Option.not_isSome_iff_eq_none] at waits
    exact waits settled
  · next pending =>
    refine ⟨shows.count,shows.listeners,shows.reactions,shows.known,outside,?_,?_,jobs⟩
    · exact fun other => (state other).trans ((shows.state other).trans (state_waitingFor p other reaction).symm)
    · intro other waits
      by_cases same : other = p
      · subst same
        obtain ⟨listened,front,back,old,meant,all,behind⟩ := shows.waits other (by rwa [state] at waits)
        obtain rfl : front = [] := not_not.mp (mt old.occupied.mpr free)
        obtain rfl := behind rfl
        dsimp only [taken,waitingFor]
        rw [Function.update_self,Function.update_self]
        refine ⟨listened,[reaction],[],slot,meant,?_,fun none => absurd none (List.cons_ne_nil _ _)⟩
        rw [all]
        rfl
      · dsimp only [waitingFor]
        rw [Function.update_of_ne same]
        exact away same waits

/-- A reaction goes into the slot, into the table behind it, or straight into the queue. -/
theorem Shows.register (shows : Shows loop agent heard parked) (room : Room loop.overflowReactions) {p : Nat} (known : p < loop.count)
    {f r : Option H} {next : Option Nat} (works : Works f r next) :
    ∃ after,loop.register p (f.map .user) (r.map .user) next = some after ∧
      Stored after (agent.performThen p ⟨f,r,next,loop.context⟩) ∧ Keeps loop after := by
  have chosen : ∀ k : Bool,((if k then f.map Callback.user else r.map .user).isSome || next.isSome) = true := by
    intro k
    refine Eq.trans ?_ (works.either k)
    cases k <;> simp
  rw [Loop.register]
  dsimp only
  split
  · next occupied =>
    cases pending : (loop.promises p).state.outcome with
    | some settled =>
      obtain ⟨k,value⟩ := settled
      rw [Agent.performThen,← shows.state,pending]
      dsimp only
      rw [if_pos (chosen k)]
      exact ⟨_,rfl,⟨heard,parked,shows.queue ((Meant.handlers works).means k value)⟩,fun _ _ _ => rfl,Nat.le_refl _,rfl,rfl,rfl⟩
    | none =>
      obtain ⟨table,pushed,sorted⟩ := shows.reactions.push room p ⟨f.map .user,r.map .user,next,loop.context⟩
      rw [performThen_pending (shows.state p ▸ pending)]
      dsimp only
      rw [pushed]
      exact ⟨_,rfl,⟨heard,_,shows.park known occupied (.handlers works) sorted⟩,fun _ _ _ => rfl,Nat.le_refl _,rfl,rfl,rfl⟩
  · next free =>
    have others : ∀ other,other ≠ p → Function.update loop.promiseContexts p (some loop.context) other = loop.promiseContexts other :=
      fun other different => Function.update_of_ne different _ _
    have slot : Slot (⟨(loop.promises p).state,f.map .user,r.map .user,next⟩ : Promise H V)
        (Function.update loop.promiseContexts p (some loop.context) p) [⟨f,r,next,loop.context⟩] := by
      rw [Function.update_self]
      exact .handlers works
    have same_state : (⟨(loop.promises p).state,f.map .user,r.map .user,next⟩ : Promise H V).state = (loop.promises p).state := rfl
    have placed := shows.place known free same_state others slot
    have keeps := keeps_taken free ⟨(loop.promises p).state,f.map .user,r.map .user,next⟩
      (Function.update loop.promiseContexts p (some loop.context))
    cases pending : (loop.promises p).state.outcome with
    | some settled =>
      obtain ⟨k,value⟩ := settled
      have is_settled : Settled (loop.promises p) := by rw [Settled,pending]; rfl
      rw [if_pos is_settled] at placed
      rw [Agent.performThen,← shows.state,pending]
      dsimp only
      rw [if_pos (chosen k)]
      have means : Means (taken loop p ⟨(loop.promises p).state,f.map .user,r.map .user,next⟩
          (Function.update loop.promiseContexts p (some loop.context))).promises loop.count
          (.promise p value k loop.context) (.react (if k then f else r) value k next loop.context) := by
        refine .promise (Function.update_self ..) ?_ works fun _ => rfl
        dsimp only [taken]
        rw [Function.update_self]
        exact is_settled
      have context : ({ loop with
            promises := Function.update loop.promises p ⟨(loop.promises p).state,f.map .user,r.map .user,next⟩
            promiseContexts := Function.update loop.promiseContexts p (some loop.context) } : Loop H V C).contextForPromise p = loop.context := by
        rw [Loop.contextForPromise]
        dsimp only
        rw [Function.update_self,Option.getD_some]
      rw [context]
      exact ⟨_,rfl,⟨heard,parked,placed.queue means⟩,keeps.fixed,keeps.count,rfl,rfl,rfl⟩
    | none =>
      rw [if_neg (by rw [Settled,pending]; exact Bool.false_ne_true)] at placed
      rw [performThen_pending (shows.state p ▸ pending)]
      exact ⟨_,rfl,⟨heard,parked,placed⟩,keeps⟩

/-- A listener is parked, or goes straight into the queue. -/
theorem Shows.listen (shows : Shows loop agent heard parked) (room : Room loop.settleListeners) {p : Nat} (known : p < loop.count)
    (f r : H) :
    ∃ after,loop.jsPromiseAttachSettleListener p (some (.user f)) (some (.user r)) = some after ∧
      Stored after (agent.listen p ⟨some f,some r,none,loop.context⟩) ∧ Keeps loop after := by
  rw [Loop.jsPromiseAttachSettleListener,Agent.listen,← shows.state]
  cases pending : (loop.promises p).state.outcome with
  | some settled =>
    obtain ⟨k,value⟩ := settled
    refine ⟨{ loop with taskQueue := loop.taskQueue ++ [.inline (some (.user (if k then f else r))) value none k loop.context] },?_,?_,
      fun _ _ _ => rfl,Nat.le_refl _,rfl,rfl,rfl⟩
    · cases k <;> rfl
    · refine ⟨heard,parked,?_⟩
      cases k <;> exact shows.queue .handler
  | none =>
    obtain ⟨table,pushed,sorted⟩ := shows.listeners.push room p ⟨some (.user f),some (.user r),loop.context⟩
    dsimp only
    rw [pushed]
    refine ⟨_,rfl,⟨_,parked,shows.count,sorted,shows.reactions,⟨?_,shows.known.2⟩,shows.outside,?_,?_,shows.jobs⟩,
      fun _ _ _ => rfl,Nat.le_refl _,rfl,rfl,rfl⟩
    · exact List.forall_mem_append.mpr ⟨shows.known.1,by simpa using known⟩
    · intro other
      by_cases same : other = p
      · subst same
        simp [shows.state]
      · simp [same,shows.state]
    · intro other waits
      obtain ⟨listened,reactions⟩ := shows.waits other waits
      dsimp only
      rw [waiting_append]
      by_cases same : other = p
      · subst same
        rw [if_pos rfl,Function.update_self]
        exact ⟨List.rel_append listened (.cons (.mk f r loop.context) .nil),reactions⟩
      · rw [if_neg same,List.append_nil,Function.update_of_ne same]
        exact ⟨listened,reactions⟩

/-- An edge in the slot and a pair of forwarding closures are both a reaction that hands the outcome on. -/
theorem Shows.follow (shows : Shows loop agent heard parked) (room : Room loop.overflowReactions) (outer : Nat) {inner : Nat}
    (known : inner < loop.count) (other : (loop.promises inner).next ≠ some outer) :
    ∃ after,loop.jsPromiseResolveWithPromise outer inner = some after ∧ Stored after (agent.follow outer inner) ∧ Keeps loop after := by
  rw [Loop.jsPromiseResolveWithPromise,Agent.follow,← shows.state]
  cases pending : (loop.promises outer).state.outcome with
  | some _ => exact ⟨loop,rfl,⟨heard,parked,shows⟩,.refl loop⟩
  | none =>
  dsimp only
  rw [← shows.state]
  cases inner_state : (loop.promises inner).state with
  | fulfilled value => exact shows.settle true outer value
  | rejected reason => exact shows.settle false outer reason
  | pending =>
    have waits : (loop.promises inner).state.outcome = none := by rw [inner_state]; rfl
    dsimp only [PromiseState.outcome]
    rw [performThen_pending (shows.state inner ▸ waits)]
    split
    · next occupied =>
      obtain ⟨table,pushed,sorted⟩ :=
        shows.reactions.push room inner ⟨some (.forwardResolve outer),some (.forwardReject outer),none,loop.context⟩
      rw [pushed]
      exact ⟨_,rfl,⟨heard,_,shows.park known occupied (.forward ..) sorted⟩,fun _ _ _ => rfl,Nat.le_refl _,rfl,rfl,rfl⟩
    · next free =>
      have slot : Slot (⟨.pending,(loop.promises inner).onFulfilled,(loop.promises inner).onRejected,some outer⟩ : Promise H V)
          (loop.promiseContexts inner) [⟨none,none,some outer,agent.context⟩] := by
        rw [not_occupied free]
        exact .edge ..
      have placed := shows.place known free inner_state.symm (fun _ _ => rfl) slot
      rw [if_neg (by rw [Settled,waits]; exact Bool.false_ne_true)] at placed
      exact ⟨_,rfl,⟨heard,parked,placed⟩,keeps_taken free _ _⟩

theorem Shows.resolveWith (shows : Shows loop agent heard parked) (p : Nat) (resolution : Resolution V)
    (known : ∀ inner,resolution = .promise inner → inner < loop.count) :
    ∃ after,loop.promiseResolveAssimilating p resolution = some after ∧ Stored after (agent.resolveWith p resolution) ∧ Keeps loop after := by
  rw [Loop.promiseResolveAssimilating.eq_def,Agent.resolveWith.eq_def,← shows.state]
  cases pending : (loop.promises p).state.outcome with
  | some _ => exact ⟨loop,rfl,⟨heard,parked,shows⟩,.refl loop⟩
  | none => cases resolution with
    | plain value => exact shows.settle true p value
    | promise inner =>
      exact ⟨_,rfl,⟨heard,parked,shows.queue (.adoption (known inner rfl))⟩,fun _ _ _ => rfl,Nat.le_refl _,rfl,rfl,rfl⟩

theorem Shows.propagate (shows : Shows loop agent heard parked) (values : Values V) (result : Resolution V) (next : Option Nat)
    (known : ∀ inner,result = .promise inner → inner < loop.count) :
    ∃ after,loop.propagateCallbackResult values result next = some after ∧ Stored after (agent.propagate values next result) ∧
      Keeps loop after := by
  cases next with
  | none => exact ⟨loop,rfl,⟨heard,parked,shows⟩,.refl loop⟩
  | some next => cases result with
    | plain value => exact shows.resolveWith next (.plain value) known
    | promise inner =>
      rw [Loop.propagateCallbackResult,Agent.propagate]
      split
      · obtain ⟨after,settled,stored,keeps⟩ := shows.settle false next values.cycleError
        refine ⟨after,?_,stored,keeps⟩
        rw [← settled,Loop.jsPromiseReject]
        cases pending : (loop.promises next).state.outcome with
        | none => rfl
        | some _ =>
          rw [Loop.settle,pending]
      · exact shows.resolveWith next (.promise inner) known

end Perry.Runtime.Reactions
