import Perry.Machine.Runs

/-! The request queue of an async generator: `next`, `return` and `throw` either resume
the generator at once or wait behind the request in progress. User code runs inside the
original closures and inside `js_promise_resolved_catching`, so both leave a frame on the
stack; the promise machinery and the microtask queue then take their steps in any order. -/

namespace Perry.Runtime.AsyncGeneratorQueue

inductive RequestKind where
  | nextOrThrow | «return»
  deriving DecidableEq, Repr

/-- The promise of a request, named by the request's place in the order of the calls. -/
abbrev Promise := Nat

inductive Outcome (Value : Type) where
  | fulfilled (value : Value)
  | rejected (reason : Value)
  deriving DecidableEq, Repr

/-- What an original closure returns: a value, or a promise in one of its states. -/
inductive Result (Value : Type) where
  | value (value : Value)
  | pending
  | settled (outcome : Outcome Value)
  deriving DecidableEq, Repr

structure Request (Closure Value : Type) where
  original : Option Closure
  arg : Value
  promise : Promise
  kind : RequestKind
  deriving DecidableEq, Repr

structure QueueState (Closure Value : Type) where
  active : Bool := false
  drainScheduled : Bool := false
  started : Bool := false
  completed : Bool := false
  originalThrow : Option Closure
  queue : List (Request Closure Value) := []
  deriving DecidableEq, Repr

/-- Who waits for an original closure. The caller of an `initial` request got the closure's
own promise, where the source passes a null `out`; a `queued` one has its `out` promise. -/
inductive Caller where
  | initial (request : Promise)
  | queued (out : Promise)
  deriving DecidableEq, Repr

@[simp] def Caller.request : Caller → Promise
  | .initial request => request
  | .queued out => out

@[simp] def Caller.out : Caller → Option Promise
  | .initial _ => none
  | .queued out => some out

/-- User code the queue is waiting for: a closure, or the resolution of a `return` argument. -/
inductive Frame (Closure Value : Type) where
  | running (caller : Caller)
  | resolving (original : Option Closure) (arg : Value) (out : Promise)
  deriving DecidableEq, Repr

inductive Reaction (Closure : Type) where
  | settle (caller : Caller)
  | returnStep (original : Option Closure) (out : Promise)
  deriving DecidableEq, Repr

/-- A settle listener that has not run. With an outcome its microtask is in the queue. -/
structure Listener (Closure Value : Type) where
  reaction : Reaction Closure
  outcome : Option (Outcome Value)
  deriving DecidableEq, Repr

/-- A call of an original closure and what was in progress when it was made. -/
structure Call (Closure Value : Type) where
  original : Closure
  arg : Value
  stack : List (Frame Closure Value)
  listeners : List (Listener Closure Value)
  deriving DecidableEq, Repr

/-- The generator with its surroundings: the frames and listeners it waits for, the drain
microtasks in the queue, the number of requests made, and in order of time the promises
settled and the closures called. -/
structure World (Closure Value : Type) where
  state : QueueState Closure Value
  stack : List (Frame Closure Value) := []
  listeners : List (Listener Closure Value) := []
  drains : Nat := 0
  issued : Nat := 0
  settled : List (Promise × Outcome Value) := []
  calls : List (Call Closure Value) := []
  deriving DecidableEq, Repr

/-- The undefined value, and the `done` field of a step's value with its truthiness. -/
structure Values (Value : Type) where
  undefined : Value
  done : Value → Option Bool

inductive Event (Closure Value : Type) where
  | request (original : Option Closure) (arg : Value) (kind : RequestKind)
  | returns (result : Result Value)
  | resolves (answer : Except Value (Option (Outcome Value)))
  | settles (listener : Nat) (outcome : Outcome Value)
  | reacts (listener : Nat)
  | drains

section operations

variable {Closure Value : Type} (values : Values Value) (w : World Closure Value)

def settle (promise : Promise) (outcome : Outcome Value) : World Closure Value :=
  { w with settled := w.settled ++ [(promise,outcome)] }

def settleOut (out : Option Promise) (outcome : Outcome Value) : World Closure Value :=
  match out with
  | none => w
  | some out => settle w out outcome

def noteStepSettlement (outcome : Outcome Value) : World Closure Value :=
  match outcome with
  | .rejected _ => { w with state.completed := true }
  | .fulfilled value =>
    match values.done value with
    | some true => { w with state.completed := true }
    | some false => { w with state.started := true }
    | none => w

def markInactive : World Closure Value :=
  { w with state.active := false,state.drainScheduled := false }

def scheduleDrain : World Closure Value :=
  if w.state.drainScheduled then w
  else { w with state.drainScheduled := true,drains := w.drains + 1 }

def attachPendingSettle (caller : Caller) : World Closure Value :=
  { w with listeners := w.listeners ++ [⟨.settle caller,none⟩] }

def finishAfterImmediateQueuedResult (out : Promise) (outcome : Outcome Value) : World Closure Value :=
  let w := noteStepSettlement values w outcome
  let w := if w.state.queue ≠ [] then scheduleDrain w else markInactive w
  settleOut w (some out) outcome

/-- The caller of an initial request holds what the closure returned, so a value or a
settled promise answers the request here. -/
def afterInitialResult (request : Promise) : Result Value → World Closure Value
  | .pending => attachPendingSettle w (.initial request)
  | .settled outcome => scheduleDrain (noteStepSettlement values (settle w request outcome) outcome)
  | .value value => scheduleDrain (settle w request (.fulfilled value))

def afterQueuedResult (out : Promise) : Result Value → World Closure Value
  | .pending => attachPendingSettle w (.queued out)
  | .settled outcome => finishAfterImmediateQueuedResult values w out outcome
  | .value value => finishAfterImmediateQueuedResult values w out (.fulfilled value)

/-- What the caller does with the result of an original closure. -/
def afterResult : Caller → Result Value → World Closure Value
  | .initial request => afterInitialResult values w request
  | .queued out => afterQueuedResult values w out

/-- A null closure counts as one that returned a promise rejected with undefined. -/
def callOriginal (original : Option Closure) (arg : Value) (caller : Caller) : World Closure Value :=
  match original with
  | none => afterResult values w caller (.settled (.rejected values.undefined))
  | some original =>
    { w with
      stack := .running caller :: w.stack
      calls := w.calls ++ [⟨original,arg,w.stack,w.listeners⟩] }

/-- `dispatch_return_with_await` up to the answer of `js_promise_resolved_catching`. -/
def dispatchReturnWithAwait (original : Option Closure) (arg : Value) (out : Promise) : World Closure Value :=
  { w with stack := .resolving original arg out :: w.stack }

/-- `dispatch_return_with_await` from that answer on. -/
def returnArgResolved (original : Option Closure) (out : Promise) :
    Except Value (Option (Outcome Value)) → World Closure Value
  | .ok outcome => { w with listeners := w.listeners ++ [⟨.returnStep original out,outcome⟩] }
  | .error reason =>
    if w.state.started ∧ ¬ w.state.completed then callOriginal values w w.state.originalThrow reason (.queued out)
    else finishAfterImmediateQueuedResult values w out (.rejected reason)

def processOneQueuedRequest : World Closure Value :=
  let w := { w with state.drainScheduled := false }
  match w.state.queue with
  | [] => { w with state.active := false }
  | request :: queue =>
    let w := { w with state.queue := queue }
    match request.kind with
    | .return => dispatchReturnWithAwait w request.original request.arg request.promise
    | .nextOrThrow => callOriginal values w request.original request.arg (.queued request.promise)

def finishAfterPendingResult (out : Option Promise) (outcome : Outcome Value) : World Closure Value :=
  let w := settleOut (noteStepSettlement values w outcome) out outcome
  if w.state.queue ≠ [] then processOneQueuedRequest values w else markInactive w

def returnStep (original : Option Closure) (out : Promise) : Outcome Value → World Closure Value
  | .fulfilled value => callOriginal values w original value (.queued out)
  | .rejected reason => finishAfterImmediateQueuedResult values w out (.rejected reason)

def asyncGeneratorRequest (original : Option Closure) (arg : Value) (kind : RequestKind) : World Closure Value :=
  let promise := w.issued
  let w := { w with issued := w.issued + 1 }
  if w.state.active ∨ w.state.queue ≠ [] then
    { w with state.queue := w.state.queue ++ [⟨original,arg,promise,kind⟩] }
  else
    let w := { w with state.active := true }
    match kind with
    | .return => dispatchReturnWithAwait w original arg promise
    | .nextOrThrow => callOriginal values w original arg (.initial promise)

def react : Reaction Closure → Outcome Value → World Closure Value
  | .settle caller => finishAfterPendingResult values w caller.out
  | .returnStep original out => returnStep values w original out

/-- The settling of a step's promise answers an initial request, whose promise it is. -/
def promiseSettles (reaction : Reaction Closure) (outcome : Outcome Value) : World Closure Value :=
  match reaction with
  | .settle (.initial request) => settle w request outcome
  | _ => w

def step : Event Closure Value → Option (World Closure Value)
  | .request original arg kind => some (asyncGeneratorRequest values w original arg kind)
  | .returns result =>
    match w.stack with
    | .running caller :: stack => some (afterResult values { w with stack := stack } caller result)
    | _ => none
  | .resolves answer =>
    match w.stack with
    | .resolving original _ out :: stack =>
      some (returnArgResolved values { w with stack := stack } original out answer)
    | _ => none
  | .settles i outcome =>
    match w.listeners[i]? with
    | some ⟨reaction,none⟩ =>
      some (promiseSettles { w with listeners := w.listeners.set i ⟨reaction,some outcome⟩ } reaction outcome)
    | _ => none
  | .reacts i =>
    match w.listeners[i]? with
    | some ⟨reaction,some outcome⟩ =>
      some (react values { w with listeners := w.listeners.eraseIdx i } reaction outcome)
    | _ => none
  | .drains =>
    if w.drains = 0 then none else some (processOneQueuedRequest values { w with drains := w.drains - 1 })

/-- `wrap_async_generator_instance` installs a fresh state. -/
def wrapped (originalThrow : Option Closure) : World Closure Value := { state := { originalThrow } }

end operations

end Perry.Runtime.AsyncGeneratorQueue
