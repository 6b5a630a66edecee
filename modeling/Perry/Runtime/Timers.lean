import Perry.Containers.StableOrder

/-! The timer queues, which all agents of the process share: promises that settle after a delay,
the callbacks of `setTimeout` and `setImmediate`, and those of `setInterval`. Times are milliseconds. -/
namespace Perry.Runtime.Timers

open Perry.Containers

/-- Only the owner, in whose heap the promise is, may fire the timer. -/
structure Timer (V : Type*) where
  owner : Nat
  deadline : Nat
  promise : Nat
  value : V
  hasRef : Bool

inductive CallbackTimerKind
  | timeout
  | immediate
deriving DecidableEq

structure CallbackTimer (V : Type*) where
  id : Nat
  kind : CallbackTimerKind
  deadline : Nat
  delayMs : Nat
  callback : Nat
  args : List V
  cleared : Bool
  owner : Nat

structure IntervalTimer (V : Type*) where
  id : Nat
  intervalMs : Nat
  nextDeadline : Nat
  callback : Nat
  args : List V
  cleared : Bool
  owner : Nat

/-- Whether a timer keeps the loop alive, for the ids set last. -/
structure TimerRefStates where
  states : Nat → Option Bool
  order : List Nat

def timerRefStatesCap : Nat := 65536

namespace TimerRefStates

def evict (cap : Nat) (states : Nat → Option Bool) : List Nat → TimerRefStates
  | [] => ⟨states,[]⟩
  | old :: order =>
    if cap < (old :: order).length then evict cap (Function.update states old none) order else ⟨states,old :: order⟩

def insertBounded (registry : TimerRefStates) (id : Nat) (hasRef : Bool) (cap : Nat) : TimerRefStates :=
  let states := Function.update registry.states id (some hasRef)
  match registry.states id with
  | some _ => { registry with states := states }
  | none => evict cap states (registry.order ++ [id])

end TimerRefStates

structure Queues (V : Type*) where
  timerQueue : List (Timer V)
  callbackTimers : List (CallbackTimer V)
  intervalTimers : List (IntervalTimer V)
  nextId : Nat
  refStates : TimerRefStates

/-- One pass over the queue: what stays in it, and what is taken out. Entries to drop are neither. -/
def drainExpiredTimers {T : Type*} (queue : List T) (dropEntry isExpired : T → Bool) : List T × List T :=
  queue.foldl (fun (queue,expired) item =>
    if dropEntry item then (queue,expired)
    else if isExpired item then (queue,expired ++ [item])
    else (queue ++ [item],expired)) ([],[])

variable {V : Type*}

/-- Timeouts by their deadlines, then immediates; what compares alike keeps its order. -/
def CallbackTimer.before (a b : CallbackTimer V) : Bool :=
  match a.kind,b.kind with
  | .timeout,.immediate => true
  | .immediate,.timeout => false
  | .timeout,.timeout => a.deadline ≤ b.deadline
  | .immediate,.immediate => true

def orderExpiredCallbackBatch (expired : List (CallbackTimer V)) : List (CallbackTimer V) :=
  expired.mergeSort CallbackTimer.before

namespace Queues

def new : Queues V where
  timerQueue := []
  callbackTimers := []
  intervalTimers := []
  nextId := 1
  refStates := ⟨fun _ => none,[]⟩

variable (queues : Queues V)

def timerHasRefState (id : Nat) : Bool := (queues.refStates.states id).getD true

def setTimerRefState (id : Nat) (hasRef : Bool) : Queues V :=
  { queues with refStates := queues.refStates.insertBounded id hasRef timerRefStatesCap }

section Liveness

variable (agent : Nat) (activeHandles : Bool)

def hasRefedPromiseTimer : Bool := queues.timerQueue.any fun timer => timer.hasRef && timer.owner == agent

def hasRefedCallbackTimer : Bool :=
  queues.callbackTimers.any fun timer => !timer.cleared && timer.owner == agent && queues.timerHasRefState timer.id

def hasRefedIntervalTimer : Bool :=
  queues.intervalTimers.any fun timer => !timer.cleared && timer.owner == agent && queues.timerHasRefState timer.id

/-- Whether other handles are active is the standard library's answer. -/
def otherEventSourcesKeepLoopAlive : Bool :=
  queues.hasRefedCallbackTimer agent || queues.hasRefedIntervalTimer agent || activeHandles

def shouldRunUnrefPromiseTimers : Bool :=
  queues.hasRefedPromiseTimer agent || queues.otherEventSourcesKeepLoopAlive agent activeHandles

def shouldRunUnrefCallbackIntervalTimers : Bool :=
  queues.hasRefedPromiseTimer agent || queues.otherEventSourcesKeepLoopAlive agent activeHandles

end Liveness

def schedulePromiseTimer (owner now delayMs promise : Nat) (value : V) (hasRef : Bool) : Queues V :=
  { queues with timerQueue := queues.timerQueue ++ [⟨owner,now + delayMs,promise,value,hasRef⟩] }

/-- An id is 63 bits wide; what would not fit is refused. -/
def nextTimerId : Option (Nat × Queues V) :=
  if queues.nextId + 1 < 2 ^ 63 then some (queues.nextId,{ queues with nextId := queues.nextId + 1 })
  else none

/-- Under an id that was taken before: the hooks that run in between may schedule as well. -/
def scheduleCallbackTimer (id : Nat) (kind : CallbackTimerKind) (owner now delayMs callback : Nat) (args : List V) : Queues V :=
  let timer := ⟨id,kind,now + delayMs,delayMs,callback,args,false,owner⟩
  setTimerRefState { queues with callbackTimers := queues.callbackTimers ++ [timer] } id true

def scheduleIntervalTimer (id owner now intervalMs callback : Nat) (args : List V) : Queues V :=
  let timer := ⟨id,intervalMs,now + intervalMs,callback,args,false,owner⟩
  setTimerRefState { queues with intervalTimers := queues.intervalTimers ++ [timer] } id true

/-- Intervals go by the same ids. -/
def clearTimeout (id : Nat) : Queues V :=
  { queues with
    callbackTimers := queues.callbackTimers.filter fun timer => timer.id != id || timer.kind != .timeout
    intervalTimers := queues.intervalTimers.filter fun timer => timer.id != id }

def clearImmediate (id : Nat) : Queues V :=
  { queues with callbackTimers := queues.callbackTimers.filter fun timer => timer.id != id || timer.kind != .immediate }

def clearInterval (id : Nat) : Queues V :=
  { queues with
    intervalTimers := queues.intervalTimers.filter fun timer => timer.id != id
    callbackTimers := queues.callbackTimers.filter fun timer => timer.id != id || timer.kind != .timeout }

def refresh (id now : Nat) : Queues V :=
  match modifyFirst (fun timer => timer.id == id)
    (fun timer : CallbackTimer V => { timer with deadline := now + timer.delayMs, cleared := false }) queues.callbackTimers with
  | some callbackTimers => setTimerRefState { queues with callbackTimers := callbackTimers } id true
  | none =>
    match modifyFirst (fun timer => timer.id == id)
      (fun timer : IntervalTimer V => { timer with nextDeadline := now + timer.intervalMs, cleared := false }) queues.intervalTimers with
    | some intervalTimers => setTimerRefState { queues with intervalTimers := intervalTimers } id true
    | none => queues

/-- When an agent ends. -/
def purgeAgentTimers (agent : Nat) : Queues V :=
  { queues with
    timerQueue := queues.timerQueue.filter fun timer => timer.owner != agent
    callbackTimers := queues.callbackTimers.filter fun timer => timer.owner != agent
    intervalTimers := queues.intervalTimers.filter fun timer => timer.owner != agent }

section Ticks

variable (agent now : Nat) (activeHandles : Bool)

def timerTick : Queues V × List (Timer V) :=
  let allowUnref := queues.shouldRunUnrefPromiseTimers agent activeHandles
  let drained := drainExpiredTimers queues.timerQueue (fun _ => false) fun timer =>
    timer.owner == agent && timer.deadline ≤ now && (timer.hasRef || allowUnref)
  ({ queues with timerQueue := drained.1 },drained.2.mergeSort fun a b => a.deadline ≤ b.deadline)

/-- Due at this tick of its owner. -/
def callbackExpired (timer : CallbackTimer V) : Bool :=
  timer.owner == agent && timer.deadline ≤ now &&
    (queues.timerHasRefState timer.id || queues.shouldRunUnrefCallbackIntervalTimers agent activeHandles)

/-- The callbacks to call, in this order. A plain tick inside a callback does nothing. -/
def callbackTimerTick (dispatching : Bool) : Queues V × List (CallbackTimer V) :=
  if dispatching then (queues,[])
  else
    let drained := drainExpiredTimers queues.callbackTimers CallbackTimer.cleared (queues.callbackExpired agent now activeHandles)
    ({ queues with callbackTimers := drained.1 },(orderExpiredCallbackBatch drained.2).filter fun timer => !timer.cleared)

def intervalTimerTick (dispatching : Bool) : Queues V × List (IntervalTimer V) :=
  if dispatching then (queues,[])
  else
    let allowUnref := queues.shouldRunUnrefCallbackIntervalTimers agent activeHandles
    let due : IntervalTimer V → Bool := fun timer =>
      !timer.cleared && timer.owner == agent && timer.nextDeadline ≤ now && (queues.timerHasRefState timer.id || allowUnref)
    let callbacksToCall := queues.intervalTimers.filter due
    let renewed := queues.intervalTimers.map fun timer =>
      if due timer then { timer with nextDeadline := now + timer.intervalMs } else timer
    ({ queues with intervalTimers := renewed.filter fun timer => !timer.cleared },callbacksToCall)

end Ticks

end Queues

section Batches

theorem drainExpiredTimers_eq {T : Type*} (queue : List T) (dropEntry isExpired : T → Bool) :
    drainExpiredTimers queue dropEntry isExpired =
      (queue.filter fun item => !dropEntry item && !isExpired item,queue.filter fun item => !dropEntry item && isExpired item) := by
  have general : ∀ kept expired : List T,
      queue.foldl (fun (queue,expired) item =>
        if dropEntry item then (queue,expired)
        else if isExpired item then (queue,expired ++ [item])
        else (queue ++ [item],expired)) (kept,expired) =
      (kept ++ queue.filter fun item => !dropEntry item && !isExpired item,
        expired ++ queue.filter fun item => !dropEntry item && isExpired item) := by
    induction queue with
    | nil => simp
    | cons item queue ih =>
      intro kept expired
      rw [List.foldl_cons]
      cases dropped : dropEntry item <;> cases due : isExpired item <;> simp [dropped,due,ih]
  exact general [] []

variable {V : Type*}

theorem before_trans (a b c : CallbackTimer V) (first : a.before b) (second : b.before c) : a.before c := by
  cases ka : a.kind <;> cases kb : b.kind <;> cases kc : c.kind <;> simp [CallbackTimer.before,ka,kb,kc] at first second ⊢
  omega

theorem before_total (a b : CallbackTimer V) : a.before b || b.before a := by
  cases ka : a.kind <;> cases kb : b.kind <;> simp [CallbackTimer.before,ka,kb]
  omega

theorem orderExpiredCallbackBatch_perm (expired : List (CallbackTimer V)) : (orderExpiredCallbackBatch expired).Perm expired :=
  List.mergeSort_perm expired _

theorem orderExpiredCallbackBatch_sorted (expired : List (CallbackTimer V)) :
    (orderExpiredCallbackBatch expired).Pairwise fun a b => a.before b :=
  List.pairwise_mergeSort before_trans before_total expired

/-- Timeouts that are due together, and immediates, are called in the order in which they stood. -/
theorem orderExpiredCallbackBatch_ties (expired : List (CallbackTimer V)) {tied : CallbackTimer V → Bool}
    (alike : ∀ a b,tied a → tied b → a.before b) : (orderExpiredCallbackBatch expired).filter tied = expired.filter tied :=
  filter_mergeSort before_trans before_total alike expired

end Batches

end Perry.Runtime.Timers
