import Perry.Runtime.KeyedTable
import Perry.Runtime.PromiseJobs

/-! The promises of the runtime. A promise has room for one reaction of its own; later ones and the
runtime's listeners are parked in tables beside it. -/
namespace Perry.Runtime.Reactions

open Perry.Runtime.KeyedTable Perry.Runtime.PromiseJobs

/-- A handler of the program, or one of the two closures that forward an outcome. -/
inductive Callback (H : Type*)
  | user (handler : H)
  | forwardResolve (outer : Nat)
  | forwardReject (outer : Nat)

structure Promise (H V : Type*) where
  state : PromiseState V
  onFulfilled : Option (Callback H)
  onRejected : Option (Callback H)
  next : Option Nat

structure PromiseSettleListener (H C : Type*) where
  onFulfilled : Option (Callback H)
  onRejected : Option (Callback H)
  context : C

structure OverflowReaction (H C : Type*) where
  onFulfilled : Option (Callback H)
  onRejected : Option (Callback H)
  next : Option Nat
  context : C

inductive Task (H V C : Type*)
  | promise (promise : Nat) (value : V) (isFulfilled : Bool) (context : C)
  | inline (callback : Option (Callback H)) (value : V) (next : Option Nat) (isFulfilled : Bool) (context : C)
  /-- A microtask whose closure is `native_promise_adoption_job`. -/
  | adoption (outer inner : Nat) (context : C)
  /-- An async step without a closure. -/
  | asyncStep (value : V) (next : Nat) (isError : Bool) (context : C)

/-- The callback that runs: the promise of the task, the promise that it settles, and the context to go
back to. -/
structure Running (C : Type*) where
  promise : Option Nat
  next : Option Nat
  previous : C

structure Loop (H V C : Type*) where
  promises : Nat → Promise H V
  count : Nat
  settleListeners : PromiseKeyedTable (PromiseSettleListener H C)
  overflowReactions : PromiseKeyedTable (OverflowReaction H C)
  promiseContexts : Nat → Option C
  taskQueue : List (Task H V C)
  running : Option (Running C)
  context : C
  log : List (H × V × C)
  uncaught : List V

variable {H V C : Type*}

def Promise.new : Promise H V := ⟨.pending,none,none,none⟩

def Promise.callback (promise : Promise H V) (isFulfilled : Bool) : Option (Callback H) :=
  if isFulfilled then promise.onFulfilled else promise.onRejected

def Promise.slotOccupied (promise : Promise H V) : Bool :=
  promise.onFulfilled.isSome || promise.onRejected.isSome || promise.next.isSome

namespace Loop

def start (context : C) : Loop H V C :=
  ⟨fun _ => .new,0,.new,.new,fun _ => none,[],none,context,[],[]⟩

variable (rt : Loop H V C)

def contextForPromise (promise : Nat) : C := (rt.promiseContexts promise).getD rt.context

def jsPromiseNew : Loop H V C :=
  { rt with promises := Function.update rt.promises rt.count .new, count := rt.count + 1 }

/-- The state and the tasks of a settlement, once the tables have been drained. -/
def settleDrained (isFulfilled : Bool) (promise : Nat) (value : V)
    (listeners : PromiseKeyedTable (PromiseSettleListener H C) × List (PromiseSettleListener H C))
    (reactions : PromiseKeyedTable (OverflowReaction H C) × List (OverflowReaction H C)) : Loop H V C :=
  let p := rt.promises promise
  let hasNormalHandler := (p.callback isFulfilled).isSome || p.next.isSome
  let hasReactions := !listeners.2.isEmpty || hasNormalHandler || !reactions.2.isEmpty
  { rt with
    promises := Function.update rt.promises promise { p with state := .settled isFulfilled value }
    settleListeners := listeners.1
    overflowReactions := reactions.1
    taskQueue := if hasReactions then
        rt.taskQueue ++
          listeners.2.filterMap (fun listener => (if isFulfilled then listener.onFulfilled else listener.onRejected).map
            fun callback => .inline (some callback) value none isFulfilled listener.context) ++
          (if hasNormalHandler then [.promise promise value isFulfilled (rt.contextForPromise promise)] else []) ++
          reactions.2.map fun r =>
            .inline (if isFulfilled then r.onFulfilled else r.onRejected) value r.next isFulfilled r.context
      else rt.taskQueue
    promiseContexts :=
      if hasReactions && !hasNormalHandler then Function.update rt.promiseContexts promise none else rt.promiseContexts }

/-- What `js_promise_resolve` and `js_promise_reject` do alike. -/
def settle (isFulfilled : Bool) (promise : Nat) (value : V) : Option (Loop H V C) :=
  match (rt.promises promise).state.outcome with
  | some _ => some rt
  | none => (rt.settleListeners.takeAll promise).bind fun listeners =>
    (rt.overflowReactions.takeAll promise).map fun reactions => rt.settleDrained isFulfilled promise value listeners reactions

def jsPromiseResolve (promise : Nat) (value : V) : Option (Loop H V C) := rt.settle true promise value

def jsPromiseReject (promise : Nat) (reason : V) : Option (Loop H V C) := rt.settle false promise reason

def jsPromiseResolveWithPromise (outer inner : Nat) : Option (Loop H V C) :=
  match (rt.promises outer).state.outcome with
  | some _ => some rt
  | none => match (rt.promises inner).state with
    | .fulfilled value => rt.jsPromiseResolve outer value
    | .rejected reason => rt.jsPromiseReject outer reason
    | .pending =>
      let p := rt.promises inner
      if p.slotOccupied then
        -- An earlier dependent keeps its edge; only one to `outer` itself is cut.
        let promises := if p.next = some outer then Function.update rt.promises inner { p with next := none } else rt.promises
        (rt.overflowReactions.push inner ⟨some (.forwardResolve outer),some (.forwardReject outer),none,rt.context⟩).map
          ({ rt with overflowReactions := ·, promises := promises })
      else some { rt with promises := Function.update rt.promises inner { p with next := some outer } }

/-- `js_promise_then` once the chained promise is there, and `js_promise_attach_handlers` without one. -/
def register (promise : Nat) (onFulfilled onRejected : Option (Callback H)) (next : Option Nat) :
    Option (Loop H V C) :=
  let p := rt.promises promise
  if p.slotOccupied then
    match p.state.outcome with
    | none => (rt.overflowReactions.push promise ⟨onFulfilled,onRejected,next,rt.context⟩).map
        ({ rt with overflowReactions := · })
    | some (isFulfilled,value) =>
      let callback := if isFulfilled then onFulfilled else onRejected
      if callback.isSome || next.isSome then
        some { rt with taskQueue := rt.taskQueue ++ [.inline callback value next isFulfilled rt.context] }
      else some rt
  else
    let rt := { rt with
      promises := Function.update rt.promises promise ⟨p.state,onFulfilled,onRejected,next⟩
      promiseContexts := Function.update rt.promiseContexts promise (some rt.context) }
    match p.state.outcome with
    | none => some rt
    | some (isFulfilled,value) =>
      if (if isFulfilled then onFulfilled else onRejected).isSome || next.isSome then
        some { rt with taskQueue := rt.taskQueue ++ [.promise promise value isFulfilled (rt.contextForPromise promise)] }
      else some rt

def jsPromiseThen (promise : Nat) (onFulfilled onRejected : Option (Callback H)) : Option (Loop H V C) :=
  rt.jsPromiseNew.register promise onFulfilled onRejected (some rt.count)

def jsPromiseAttachHandlers (promise : Nat) (onFulfilled onRejected : Option (Callback H)) : Option (Loop H V C) :=
  rt.register promise onFulfilled onRejected none

def jsPromiseAttachSettleListener (promise : Nat) (onFulfilled onRejected : Option (Callback H)) : Option (Loop H V C) :=
  match (rt.promises promise).state.outcome with
  | none => (rt.settleListeners.push promise ⟨onFulfilled,onRejected,rt.context⟩).map ({ rt with settleListeners := · })
  | some (isFulfilled,value) => match if isFulfilled then onFulfilled else onRejected with
    | none => some rt
    | some callback => some { rt with taskQueue := rt.taskQueue ++ [.inline (some callback) value none isFulfilled rt.context] }

/-- A native promise is adopted by a job, so that the settlement comes two jobs later. -/
def promiseResolveAssimilating (promise : Nat) (resolution : Resolution V) : Option (Loop H V C) :=
  match (rt.promises promise).state.outcome with
  | some _ => some rt
  | none => match resolution with
    | .plain value => rt.jsPromiseResolve promise value
    | .promise inner => some { rt with taskQueue := rt.taskQueue ++ [.adoption promise inner rt.context] }

def propagateCallbackResult (values : Values V) (result : Resolution V) (next : Option Nat) : Option (Loop H V C) :=
  match next with
  | none => some rt
  | some next => match result with
    | .plain value => rt.promiseResolveAssimilating next (.plain value)
    | .promise inner =>
      if inner = next then
        match (rt.promises next).state.outcome with
        | some _ => some rt
        | none => rt.jsPromiseReject next values.cycleError
      else rt.promiseResolveAssimilating next (.promise inner)

/-- The tail of a task whose callback has returned. -/
def finish (values : Values V) (running : Running C) (result : Resolution V) : Option (Loop H V C) :=
  let rt : Loop H V C := { rt with running := none }
  (rt.propagateCallbackResult values result running.next).map fun rt =>
    { rt with
      promiseContexts := running.promise.elim rt.promiseContexts fun promise => Function.update rt.promiseContexts promise none
      context := running.previous }

def call (values : Values V) (callback : Callback H) (value : V) (running : Running C) : Option (Loop H V C) :=
  match callback with
  | .user handler => some { rt with running := some running, log := rt.log ++ [(handler,value,rt.context)] }
  | .forwardResolve outer => (rt.jsPromiseResolve outer value).bind fun rt => rt.finish values running (.plain values.zero)
  | .forwardReject outer => (rt.jsPromiseReject outer value).bind fun rt => rt.finish values running (.plain values.zero)

/-- A task without a callback hands its value on. -/
def passOn (value : V) (isFulfilled : Bool) (running : Running C) : Option (Loop H V C) :=
  (running.next.elim (some rt) fun next => rt.settle isFulfilled next value).map fun rt =>
    { rt with
      promiseContexts := running.promise.elim rt.promiseContexts fun promise => Function.update rt.promiseContexts promise none
      context := running.previous }

def nativePromiseAdoptionJob (outer inner : Nat) : Option (Loop H V C) :=
  match (rt.promises inner).state.outcome with
  | some (isFulfilled,value) =>
    some { rt with taskQueue := rt.taskQueue ++ [.asyncStep value outer (!isFulfilled) rt.context] }
  | none => rt.jsPromiseResolveWithPromise outer inner

/-- One task of the microtask runner, in the context of the task. -/
def dispatch (values : Values V) : Task H V C → Option (Loop H V C)
  | .promise promise value isFulfilled context =>
    let p := rt.promises promise
    let running : Running C := ⟨some promise,p.next,rt.context⟩
    match p.callback isFulfilled with
    | none => passOn { rt with context := context } value isFulfilled running
    | some callback => call { rt with context := context } values callback value running
  | .inline callback value next isFulfilled context =>
    let running : Running C := ⟨none,next,rt.context⟩
    match callback with
    | none => passOn { rt with context := context } value isFulfilled running
    | some callback => call { rt with context := context } values callback value running
  | .adoption outer inner context =>
    (nativePromiseAdoptionJob { rt with context := context } outer inner).map ({ · with context := rt.context })
  | .asyncStep value next isError context =>
    passOn { rt with context := context } value (!isError) ⟨none,some next,rt.context⟩

/-- The trap of the runner: the callback has thrown. -/
def trap (running : Running C) (reason : V) : Option (Loop H V C) :=
  let rt := { rt with running := none, context := running.previous }
  match running.promise with
  | some promise => (rt.promises promise).next.elim (some rt) fun next => rt.jsPromiseReject next reason
  | none => running.next.elim (some { rt with uncaught := rt.uncaught ++ [reason] }) fun next => rt.jsPromiseReject next reason

end Loop

def step (values : Values V) (rt : Loop H V C) : Op H V C → Option (Loop H V C)
  | .create => some rt.jsPromiseNew
  | .resolve promise value => rt.jsPromiseResolve promise value
  | .reject promise reason => rt.jsPromiseReject promise reason
  | .resolveWith promise resolution => rt.promiseResolveAssimilating promise resolution
  | .follow outer inner => rt.jsPromiseResolveWithPromise outer inner
  | .promiseThen promise onFulfilled onRejected => rt.jsPromiseThen promise (onFulfilled.map .user) (onRejected.map .user)
  | .attach promise onFulfilled onRejected => rt.jsPromiseAttachHandlers promise (onFulfilled.map .user) (onRejected.map .user)
  | .listen promise onFulfilled onRejected =>
    rt.jsPromiseAttachSettleListener promise (onFulfilled.map .user) (onRejected.map .user)
  | .enter context => some { rt with context := context }
  | .next => match rt.taskQueue with
    | [] => some rt
    | task :: tasks => { rt with taskQueue := tasks }.dispatch values task
  | .returned result => rt.running.elim none fun running => rt.finish values running result
  | .threw reason => rt.running.elim none fun running => rt.trap running reason

end Perry.Runtime.Reactions
