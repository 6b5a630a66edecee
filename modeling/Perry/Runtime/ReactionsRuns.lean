import Perry.Runtime.ReactionsSound

/-! Runs of the promise runtime: whatever the program does between two tasks, its handlers run as
ECMAScript's job queue runs them. -/
namespace Perry.Runtime.Reactions

open Perry.Machine Perry.Runtime.KeyedTable Perry.Runtime.PromiseJobs

variable {H V C : Type*}

/-- The callback that runs, and the promise that it is to settle. -/
inductive Within (promises : Nat → Promise H V) : Option (Running C) → Option (Option Nat × C) → Prop
  | idle : Within promises none none
  | promise {p : Nat} {next : Option Nat} {c : C} (settled : Settled (promises p)) (occupied : (promises p).slotOccupied)
    (edge : (promises p).next = next) : Within promises (some ⟨some p,next,c⟩) (some (next,c))
  | inline {next : Option Nat} {c : C} : Within promises (some ⟨none,next,c⟩) (some (next,c))

structure Refines (loop : Loop H V C) (agent : Agent H V C) : Prop where
  stored : Stored loop agent
  running : Within loop.promises loop.running agent.running
  context : loop.context = agent.context
  log : loop.log = agent.log

/-- What only the runner changes. -/
structure SameRun (agent next : Agent H V C) : Prop where
  running : next.running = agent.running
  context : next.context = agent.context
  log : next.log = agent.log

section Agents

variable (agent : Agent H V C)

theorem same_settle (k : Bool) (p : Nat) (value : V) : SameRun agent (agent.settle k p value) := by
  rw [Agent.settle]
  split <;> exact ⟨rfl,rfl,rfl⟩

theorem same_performThen (p : Nat) (reaction : Reaction H C) : SameRun agent (agent.performThen p reaction) := by
  rw [Agent.performThen]
  split <;> exact ⟨rfl,rfl,rfl⟩

theorem same_listen (p : Nat) (reaction : Reaction H C) : SameRun agent (agent.listen p reaction) := by
  rw [Agent.listen]
  split <;> exact ⟨rfl,rfl,rfl⟩

theorem same_follow (outer inner : Nat) : SameRun agent (agent.follow outer inner) := by
  rw [Agent.follow]
  split
  · exact ⟨rfl,rfl,rfl⟩
  · split
    · exact same_settle agent _ _ _
    · exact same_performThen agent _ _

theorem same_resolveWith (p : Nat) (resolution : Resolution V) : SameRun agent (agent.resolveWith p resolution) := by
  rw [Agent.resolveWith.eq_def]
  split
  · exact ⟨rfl,rfl,rfl⟩
  · cases resolution with
    | plain value => exact same_settle agent _ _ _
    | promise inner => exact ⟨rfl,rfl,rfl⟩

theorem same_propagate (values : Values V) (next : Option Nat) (result : Resolution V) :
    SameRun agent (agent.propagate values next result) := by
  cases next with
  | none => exact ⟨rfl,rfl,rfl⟩
  | some next => cases result with
    | plain value => exact same_resolveWith agent next (.plain value)
    | promise inner =>
      rw [Agent.propagate]
      split
      · exact same_settle agent _ _ _
      · exact same_resolveWith agent next (.promise inner)

end Agents

variable {loop after : Loop H V C} {agent known : Agent H V C} {heard : List (Nat × Nat × PromiseSettleListener H C)}
  {parked : List (Nat × Nat × OverflowReaction H C)}

theorem Within.mono {promises others : Nat → Promise H V} {running : Option (Running C)} {known : Option (Option Nat × C)}
    (within : Within promises running known)
    (fixed : ∀ p,Settled (promises p) → (promises p).slotOccupied → others p = promises p) : Within others running known := by
  cases within with
  | idle => exact .idle
  | promise settled occupied edge =>
    have same := fixed _ settled occupied
    exact .promise (same ▸ settled) (same ▸ occupied) (same ▸ edge)
  | inline => exact .inline

theorem Refines.store (refines : Refines loop agent) (stored : Stored after known) (keeps : Keeps loop after) (same : SameRun agent known) :
    Refines after known where
  stored := stored
  running := by
    rw [keeps.running,same.running]
    exact refines.running.mono keeps.fixed
  context := by rw [keeps.context,same.context,refines.context]
  log := by rw [keeps.log,same.log,refines.log]

/-- The store does not know what is running, and needs the contexts of pending promises only. -/
theorem Shows.frame (shows : Shows loop agent heard parked) {contexts : Nat → Option C}
    (same : ∀ p,(loop.promises p).state.outcome = none → contexts p = loop.promiseContexts p) (running : Option (Running C)) (context : C)
    (log : List (H × V × C)) (uncaught : List V) (running' : Option (Option Nat × C)) (context' : C) (log' : List (H × V × C)) :
    Shows { loop with promiseContexts := contexts, running := running, context := context, log := log, uncaught := uncaught }
      { agent with running := running', context := context', log := log' } heard parked where
  count := shows.count
  listeners := shows.listeners
  reactions := shows.reactions
  known := shows.known
  outside := shows.outside
  state := shows.state
  waits p pending := by
    dsimp only
    rw [same p pending]
    exact shows.waits p pending
  jobs := shows.jobs

/-- The contexts after a task: that of its promise goes, which is settled. -/
def cleared (running : Running C) (contexts : Nat → Option C) : Nat → Option C :=
  running.promise.elim contexts fun promise => Function.update contexts promise none

theorem cleared_pending {running : Running C} {contexts : Nat → Option C} {promises : Nat → Promise H V}
    (settled : ∀ p,running.promise = some p → Settled (promises p)) (p : Nat) (pending : (promises p).state.outcome = none) :
    cleared running contexts p = contexts p := by
  rw [cleared]
  cases task : running.promise with
  | none => rfl
  | some q =>
    refine Function.update_of_ne ?_ _ _
    rintro rfl
    have := settled p task
    rw [Settled,pending] at this
    cases this

/-- What a task leaves that hands its value on. -/
theorem Shows.passOn (shows : Shows loop agent heard parked) (value : V) (k : Bool) (running : Running C)
    (settled : ∀ p,running.promise = some p → Settled (loop.promises p) ∧ (loop.promises p).slotOccupied) (c : C) :
    ∃ after,Loop.passOn { loop with context := c } value k running = some after ∧
      Stored after (running.next.elim agent fun next => agent.settle k next value) ∧
      Keeps { loop with context := running.previous } after := by
  have entered := shows.frame (fun _ _ => rfl) loop.running c loop.log loop.uncaught agent.running agent.context agent.log
  have finish : ∀ {after : Loop H V C} {agent : Agent H V C},Keeps { loop with context := c } after → Stored after agent →
      Stored { after with promiseContexts := cleared running after.promiseContexts, context := running.previous } agent ∧
        Keeps { loop with context := running.previous }
          { after with promiseContexts := cleared running after.promiseContexts, context := running.previous } := by
    intro after agent keeps ⟨heard,parked,shows⟩
    refine ⟨⟨heard,parked,?_⟩,keeps.fixed,keeps.count,keeps.running,rfl,keeps.log⟩
    refine shows.frame (cleared_pending fun p task => ?_) after.running running.previous after.log after.uncaught agent.running
      agent.context agent.log
    obtain ⟨is_settled,occupied⟩ := settled p task
    have same := keeps.fixed p is_settled occupied
    exact same ▸ is_settled
  rw [Loop.passOn]
  cases running_next : running.next with
  | none =>
    obtain ⟨stored,keeps⟩ := finish (.refl _) ⟨heard,parked,entered⟩
    exact ⟨_,rfl,stored,keeps⟩
  | some next =>
    obtain ⟨after,settle,stored,keeps⟩ := entered.settle k next value
    obtain ⟨stored,keeps⟩ := finish keeps stored
    refine ⟨_,?_,stored,keeps⟩
    rw [Option.elim_some,settle]
    rfl

theorem Shows.enter (shows : Shows loop agent heard parked) (c : C) : Shows { loop with context := c } agent heard parked :=
  shows.frame (fun _ _ => rfl) loop.running c loop.log loop.uncaught agent.running agent.context agent.log

/-- An adoption that does not run in a circle. -/
def Direct (loop : Loop H V C) : Task H V C → Prop
  | .adoption outer inner _ => (loop.promises inner).next ≠ some outer
  | _ => True

theorem Refines.passOn (refines : Refines loop agent) (value : V) (k : Bool) {running : Running C}
    (settled : ∀ p,running.promise = some p → Settled (loop.promises p) ∧ (loop.promises p).slotOccupied)
    (previous : running.previous = loop.context) (c : C) :
    ∃ after,Loop.passOn { loop with context := c } value k running = some after ∧
      Refines after (running.next.elim agent fun next => agent.settle k next value) := by
  obtain ⟨heard,parked,shows⟩ := refines.stored
  obtain ⟨after,passed,stored,keeps⟩ := shows.passOn value k running settled c
  rw [previous] at keeps
  refine ⟨after,passed,refines.store stored keeps ?_⟩
  cases running.next with
  | none => exact ⟨rfl,rfl,rfl⟩
  | some next => exact same_settle agent k next value

theorem Refines.call (refines : Refines loop agent) (values : Values V) (h : H) (value : V) {running : Running C} {next : Option Nat}
    (within : Within loop.promises (some running) (some (next,agent.context))) (c : C) :
    ∃ after,Loop.call { loop with context := c } values (.user h) value running = some after ∧
      Refines after { agent with running := some (next,agent.context), context := c, log := agent.log ++ [(h,value,c)] } := by
  obtain ⟨heard,parked,shows⟩ := refines.stored
  refine ⟨_,rfl,⟨heard,parked,?_⟩,within,rfl,?_⟩
  · exact shows.frame (fun _ _ => rfl) _ c _ loop.uncaught _ _ _
  · dsimp only
    rw [refines.log]

theorem Refines.forward (refines : Refines loop agent) (idle : loop.running = none) (values : Values V) (k : Bool) (outer : Nat) (value : V)
    (c : C) :
    ∃ after,Loop.call { loop with context := c } values (if k then .forwardResolve outer else .forwardReject outer) value
        ⟨none,none,loop.context⟩ = some after ∧ Refines after (agent.settle k outer value) := by
  obtain ⟨heard,parked,shows⟩ := refines.stored
  obtain ⟨after,settled,⟨heard,parked,stored⟩,keeps⟩ := (shows.enter c).settle k outer value
  have finished : Shows { after with running := none, context := loop.context } (agent.settle k outer value) heard parked :=
    stored.frame (fun _ _ => rfl) none loop.context after.log after.uncaught _ _ _
  refine ⟨_,?_,refines.store ⟨heard,parked,finished⟩ ⟨keeps.fixed,keeps.count,idle.symm,rfl,keeps.log⟩ (same_settle agent k outer value)⟩
  cases k
  · rw [if_neg Bool.false_ne_true,Loop.call,Loop.jsPromiseReject,settled]
    rfl
  · rw [if_pos rfl,Loop.call,Loop.jsPromiseResolve,settled]
    rfl

theorem Refines.dispatch (refines : Refines loop agent) (idle : loop.running = none) (room : Room loop.overflowReactions)
    (values : Values V) {task : Task H V C} {job : Job H V C} (means : Means loop.promises loop.count task job)
    (direct : Direct loop task) : ∃ after,loop.dispatch values task = some after ∧ Refines after (agent.perform job) := by
  cases means with
  | @promise p value k c c' f r next state slot settled works context =>
    have occupied : (loop.promises p).slotOccupied := slot ▸ works.occupied
    have edge : (loop.promises p).next = next := by rw [slot]
    have callback : (loop.promises p).callback k = (if k then f else r).map .user := by
      rw [slot]
      cases k <;> rfl
    rw [Loop.dispatch,callback]
    generalize (if k then f else r) = chosen at context ⊢
    rw [edge]
    cases chosen with
    | none => exact refines.passOn value k (by rintro _ ⟨⟩; exact ⟨settled,occupied⟩) rfl c
    | some h =>
      obtain rfl := context rfl
      rw [refines.context]
      exact refines.call values h value (.promise settled occupied edge) c
  | @handler h value next k c =>
    rw [Loop.dispatch,refines.context]
    exact refines.call values h value .inline c
  | @pass value next k c c' => exact refines.passOn value k (by rintro _ ⟨⟩) rfl c
  | @forward outer value k c c' => exact refines.forward idle values k outer value c
  | @asyncStep value next k c c' =>
    rw [Loop.dispatch,Bool.not_not]
    exact refines.passOn value k (by rintro _ ⟨⟩) rfl c
  | @adoption outer inner c known =>
    obtain ⟨heard,parked,shows⟩ := refines.stored
    rw [Loop.dispatch,Loop.nativePromiseAdoptionJob,Agent.perform,← shows.state]
    cases pending : (loop.promises inner).state.outcome with
    | some settled =>
      obtain ⟨k,value⟩ := settled
      refine ⟨_,rfl,refines.store ⟨heard,parked,shows.queue .asyncStep⟩ ⟨fun _ _ _ => rfl,Nat.le_refl _,rfl,rfl,rfl⟩ ⟨rfl,rfl,rfl⟩⟩
    | none =>
      obtain ⟨after,followed,⟨heard,parked,stored⟩,keeps⟩ := (shows.enter c).follow room outer known direct
      dsimp only
      rw [followed]
      exact ⟨_,rfl,refines.store ⟨heard,parked,stored.enter loop.context⟩ ⟨keeps.fixed,keeps.count,keeps.running,rfl,keeps.log⟩
        (same_follow agent outer inner)⟩

theorem Refines.idle (refines : Refines loop agent) : Refines { loop with running := none } { agent with running := none } := by
  obtain ⟨heard,parked,shows⟩ := refines.stored
  exact ⟨⟨heard,parked,shows.frame (fun _ _ => rfl) none loop.context loop.log loop.uncaught none agent.context agent.log⟩,.idle,
    refines.context,refines.log⟩

/-- Back to the context of before, once a callback has come to its end. -/
theorem Refines.leave (refines : Refines loop agent) {running : Running C}
    (settled : ∀ p,running.promise = some p → Settled (loop.promises p)) (uncaught : List V) :
    Refines { loop with promiseContexts := cleared running loop.promiseContexts, context := running.previous, uncaught := uncaught }
      { agent with context := running.previous } := by
  obtain ⟨heard,parked,shows⟩ := refines.stored
  refine ⟨⟨heard,parked,?_⟩,refines.running,rfl,refines.log⟩
  exact shows.frame (cleared_pending settled) loop.running running.previous loop.log uncaught agent.running running.previous agent.log

/-- The handlers are there that an internal caller gives, no promise follows one that it is itself derived from,
and a task is taken when no callback is running. -/
def Proper (loop : Loop H V C) (op : Op H V C) : Prop :=
  Room loop.settleListeners ∧ Room loop.overflowReactions ∧
    match op with
    | .resolveWith _ resolution => ∀ inner,resolution = .promise inner → inner < loop.count
    | .follow outer inner => inner < loop.count ∧ (loop.promises inner).next ≠ some outer
    | .promiseThen promise _ _ => promise < loop.count
    | .attach promise onFulfilled onRejected => promise < loop.count ∧ onFulfilled.isSome ∧ onRejected.isSome
    | .listen promise onFulfilled onRejected => promise < loop.count ∧ onFulfilled.isSome ∧ onRejected.isSome
    | .next => loop.running = none ∧ ∀ task ∈ loop.taskQueue.head?,Direct loop task
    | .returned result => loop.running.isSome ∧ ∀ inner,result = .promise inner → inner < loop.count
    | .threw _ => loop.running.isSome
    | _ => True

theorem Refines.next (refines : Refines loop agent) (values : Values V) (room : Room loop.overflowReactions) (idle : loop.running = none)
    (direct : ∀ task ∈ loop.taskQueue.head?,Direct loop task) :
    ∃ after,step values loop .next = some after ∧ Refines after (PromiseJobs.spec values agent .next) := by
  obtain ⟨heard,parked,shows⟩ := refines.stored
  have jobs := shows.jobs
  rw [step,PromiseJobs.spec]
  cases queue : loop.taskQueue with
  | nil =>
    rw [queue,List.forall₂_nil_left_iff] at jobs
    rw [jobs]
    exact ⟨loop,rfl,refines⟩
  | cons task tasks =>
    rw [queue] at jobs
    obtain ⟨job,rest,means,others,jobs⟩ := List.forall₂_cons_left_iff.mp jobs
    rw [jobs]
    have popped : Refines { loop with taskQueue := tasks } { agent with jobs := rest } :=
      ⟨⟨heard,parked,{ shows with jobs := others }⟩,refines.running,refines.context,refines.log⟩
    exact popped.dispatch idle room values means (direct task (by rw [queue]; rfl))

theorem Refines.returned (refines : Refines loop agent) (values : Values V) {result : Resolution V} (running : loop.running.isSome)
    (known : ∀ inner,result = .promise inner → inner < loop.count) :
    ∃ after,step values loop (.returned result) = some after ∧ Refines after (PromiseJobs.spec values agent (.returned result)) := by
  obtain ⟨run,runs⟩ := Option.isSome_iff_exists.mp running
  have within := refines.running
  obtain ⟨heard,parked,shows⟩ := refines.idle.stored
  obtain ⟨after,propagated,stored,keeps⟩ := shows.propagate values result run.next known
  have idle := refines.idle.store stored keeps (same_propagate _ values run.next result)
  rw [step,PromiseJobs.spec,runs,Option.elim_some,Loop.finish]
  dsimp only
  rw [propagated]
  rw [runs] at within
  generalize agent.running = known_run at within ⊢
  cases within with
  | @promise p next c settled occupied edge =>
    refine ⟨_,rfl,idle.leave ?_ after.uncaught⟩
    rintro _ ⟨⟩
    exact (keeps.state settled occupied).1
  | inline => exact ⟨_,rfl,idle.leave (by rintro _ ⟨⟩) after.uncaught⟩

theorem Refines.threw (refines : Refines loop agent) (values : Values V) (reason : V) (running : loop.running.isSome) :
    ∃ after,step values loop (.threw reason) = some after ∧ Refines after (PromiseJobs.spec values agent (.threw reason)) := by
  obtain ⟨run,runs⟩ := Option.isSome_iff_exists.mp running
  have within := refines.running
  obtain ⟨heard,parked,shows⟩ := refines.stored
  rw [step,PromiseJobs.spec,runs,Option.elim_some,Loop.trap]
  rw [runs] at within
  have unwound : ∀ uncaught,Refines { loop with running := none, context := run.previous, uncaught := uncaught }
      { agent with running := none, context := run.previous } := fun uncaught =>
    ⟨⟨heard,parked,shows.frame (fun _ _ => rfl) none run.previous loop.log uncaught none run.previous agent.log⟩,.idle,rfl,refines.log⟩
  have rejects : ∀ next,∃ after,Loop.jsPromiseReject { loop with running := none, context := run.previous } next reason = some after ∧
      Refines after (Agent.settle { agent with running := none, context := run.previous } false next reason) := by
    intro next
    obtain ⟨heard,parked,shows⟩ := (unwound loop.uncaught).stored
    obtain ⟨after,settled,stored,keeps⟩ := shows.settle false next reason
    exact ⟨after,settled,(unwound loop.uncaught).store stored keeps (same_settle _ false next reason)⟩
  generalize agent.running = known_run at within ⊢
  cases within with
  | @promise p next c settled occupied edge =>
    dsimp only
    rw [edge]
    cases next with
    | none => exact ⟨_,rfl,unwound loop.uncaught⟩
    | some next => exact rejects next
  | @inline next c => cases next with
    | none => exact ⟨_,rfl,unwound _⟩
    | some next => exact rejects next

theorem Refines.step (refines : Refines loop agent) (values : Values V) {op : Op H V C} (proper : Proper loop op) :
    ∃ after,step values loop op = some after ∧ Refines after (PromiseJobs.spec values agent op) := by
  obtain ⟨heard,parked,shows⟩ := refines.stored
  obtain ⟨room_heard,room,proper⟩ := proper
  cases op with
  | create => exact ⟨_,rfl,refines.store ⟨heard,parked,shows.create.1⟩ shows.create.2 ⟨rfl,rfl,rfl⟩⟩
  | resolve p value =>
    obtain ⟨after,settled,stored,keeps⟩ := shows.settle true p value
    exact ⟨after,settled,refines.store stored keeps (same_settle agent true p value)⟩
  | reject p reason =>
    obtain ⟨after,settled,stored,keeps⟩ := shows.settle false p reason
    exact ⟨after,settled,refines.store stored keeps (same_settle agent false p reason)⟩
  | resolveWith p resolution =>
    obtain ⟨after,resolved,stored,keeps⟩ := shows.resolveWith p resolution proper
    exact ⟨after,resolved,refines.store stored keeps (same_resolveWith agent p resolution)⟩
  | follow outer inner =>
    obtain ⟨after,followed,stored,keeps⟩ := shows.follow room outer proper.1 proper.2
    exact ⟨after,followed,refines.store stored keeps (same_follow agent outer inner)⟩
  | promiseThen p f r =>
    obtain ⟨created,fresh⟩ := shows.create
    have known : p < loop.jsPromiseNew.count := Nat.lt_succ_of_lt proper
    have works : Works f r (some loop.count) := .inr rfl
    obtain ⟨after,registered,stored,keeps⟩ := created.register room known works
    have same : loop.jsPromiseNew.context = agent.context := refines.context
    rw [same,shows.count] at stored
    have same_run := same_performThen agent.create p ⟨f,r,some agent.count,agent.context⟩
    exact ⟨after,registered,refines.store stored (fresh.trans keeps) ⟨same_run.running,same_run.context,same_run.log⟩⟩
  | attach p f r =>
    have works : Works f r none := .inl proper.2
    obtain ⟨after,registered,stored,keeps⟩ := shows.register room proper.1 works
    rw [refines.context] at stored
    exact ⟨after,registered,refines.store stored keeps (same_performThen agent p _)⟩
  | listen p f r =>
    obtain ⟨known,some_f,some_r⟩ := proper
    obtain ⟨f,rfl⟩ := Option.isSome_iff_exists.mp some_f
    obtain ⟨r,rfl⟩ := Option.isSome_iff_exists.mp some_r
    obtain ⟨after,listened,stored,keeps⟩ := shows.listen room_heard known f r
    rw [refines.context] at stored
    exact ⟨after,listened,refines.store stored keeps (same_listen agent p _)⟩
  | enter context =>
    exact ⟨_,rfl,⟨heard,parked,shows.frame (fun _ _ => rfl) loop.running context loop.log loop.uncaught agent.running context agent.log⟩,
      refines.running,rfl,refines.log⟩
  | next => exact refines.next values room proper.1 proper.2
  | returned result => exact refines.returned values proper.1 proper.2
  | threw reason => exact refines.threw values reason proper

theorem refines_start (context : C) : Refines (.start context : Loop H V C) (.start context) where
  stored := by
    have empty : ∀ {T : Type _},Parked (.new : PromiseKeyedTable T) [] := ⟨PromiseKeyedTable.wellFormed_new,.refl _,.nil⟩
    refine ⟨[],[],rfl,empty,empty,by simp,fun _ _ => rfl,fun _ => rfl,fun _ _ => ?_,.nil⟩
    exact ⟨.nil,[],[],.free ..,.nil,rfl,fun _ => rfl⟩
  running := .idle
  context := rfl
  log := rfl

/-- Over any run, no step fails, and the handlers that have run, with their values, their contexts and their order, and
the states of all promises are those of the job queue of ECMAScript. -/
theorem runs_as_jobs (values : Values V) (context : C) (ops : List (Op H V C))
    (proper : Throughout (step values) Proper (.start context) ops) :
    ∃ loop,Runs (step values) (.start context) ops loop ∧ loop.log = (ops.foldl (PromiseJobs.spec values) (.start context)).log ∧
      ∀ p,(loop.promises p).state = ((ops.foldl (PromiseJobs.spec values) (.start context)).promises p).state := by
  obtain ⟨loop,run,refines⟩ := Throughout.refines
    (fun refines proper => refines.step values proper) proper (refines_start context)
  obtain ⟨_,_,shows⟩ := refines.stored
  exact ⟨loop,run,refines.log,shows.state⟩

/-- Two reactions of one promise: the first one is in the slot, the second one in the table. -/
theorem runs_as_jobs_twice : ∃ loop : Loop Char Nat Bool,
    Runs (step ⟨0,0⟩) (.start false)
      [.create,.promiseThen 0 (some 'a') none,.enter true,.promiseThen 0 (some 'b') none,.resolve 0 7,.next,.returned (.plain 1),.next] loop ∧
      loop.log = [('a',7,false),('b',7,true)] := by
  obtain ⟨loop,run,log,_⟩ := runs_as_jobs (⟨0,0⟩ : Values Nat) false
    [.create,.promiseThen 0 (some 'a') none,.enter true,.promiseThen 0 (some 'b') none,.resolve 0 7,.next,.returned (.plain 1),.next] <| by
    refine ⟨⟨by decide,by decide,trivial⟩,?_⟩
    rintro _ ⟨⟩
    refine ⟨⟨by decide,by decide,by decide⟩,?_⟩
    rintro _ ⟨⟩
    refine ⟨⟨by decide,by decide,trivial⟩,?_⟩
    rintro _ ⟨⟩
    refine ⟨⟨by decide,by decide,by decide⟩,?_⟩
    rintro _ ⟨⟩
    refine ⟨⟨by decide,by decide,trivial⟩,?_⟩
    rintro _ ⟨⟩
    refine ⟨⟨by decide,by decide,rfl,by rintro _ ⟨⟩; trivial⟩,?_⟩
    rintro _ ⟨⟩
    refine ⟨⟨by decide,by decide,rfl,by rintro _ ⟨⟩⟩,?_⟩
    rintro _ ⟨⟩
    refine ⟨⟨by decide,by decide,rfl,by rintro _ ⟨⟩; trivial⟩,?_⟩
    rintro _ -
    trivial
  exact ⟨loop,run,log.trans (by decide)⟩

end Perry.Runtime.Reactions
