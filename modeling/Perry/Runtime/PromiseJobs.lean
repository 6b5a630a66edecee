import Mathlib.Logic.Function.Basic

/-! Promise reactions as ECMAScript has them: a promise keeps one list of what waits for it, a settlement turns
the list into jobs, and the jobs run one after the other. -/
namespace Perry.Runtime.PromiseJobs

inductive PromiseState (V : Type*)
  | pending
  | fulfilled (value : V)
  | rejected (reason : V)

/-- What waits for a promise: a handler for each outcome, the promise that the handler settles, and the
async context of the registration. -/
structure Reaction (F C : Type*) where
  onFulfilled : Option F
  onRejected : Option F
  next : Option Nat
  context : C

structure Cell (H V C : Type*) where
  state : PromiseState V
  /-- The runtime's own listeners go ahead of the reactions. -/
  listeners : List (Reaction H C)
  reactions : List (Reaction H C)

inductive Job (H V C : Type*)
  | react (handler : Option H) (value : V) (isFulfilled : Bool) (next : Option Nat) (context : C)
  | adopt (outer inner : Nat)

/-- What a handler returns, or a promise is resolved with: a plain value, or a promise. -/
inductive Resolution (V : Type*)
  | plain (value : V)
  | promise (inner : Nat)

/-- Two values that the runtime makes itself. -/
structure Values (V : Type*) where
  cycleError : V
  zero : V

structure Agent (H V C : Type*) where
  promises : Nat → Cell H V C
  count : Nat
  jobs : List (Job H V C)
  /-- The promise that the running handler settles, and the context to go back to. -/
  running : Option (Option Nat × C)
  context : C
  /-- Which handlers ran, with which value and in which context. -/
  log : List (H × V × C)

inductive Op (H V C : Type*)
  | create
  | resolve (promise : Nat) (value : V)
  | reject (promise : Nat) (reason : V)
  | resolveWith (promise : Nat) (resolution : Resolution V)
  | follow (outer inner : Nat)
  | promiseThen (promise : Nat) (onFulfilled onRejected : Option H)
  | attach (promise : Nat) (onFulfilled onRejected : Option H)
  | listen (promise : Nat) (onFulfilled onRejected : Option H)
  | enter (context : C)
  | next
  | returned (result : Resolution V)
  | threw (reason : V)

variable {H V C : Type*}

namespace PromiseState

def settled (isFulfilled : Bool) (value : V) : PromiseState V := if isFulfilled then fulfilled value else rejected value

def outcome : PromiseState V → Option (Bool × V)
  | pending => none
  | fulfilled value => some (true,value)
  | rejected reason => some (false,reason)

@[simp] theorem outcome_settled (isFulfilled : Bool) (value : V) : (settled isFulfilled value).outcome = some (isFulfilled,value) := by
  cases isFulfilled <;> rfl

end PromiseState

def Reaction.choose {F : Type*} (reaction : Reaction F C) (isFulfilled : Bool) : Option F :=
  if isFulfilled then reaction.onFulfilled else reaction.onRejected

def Reaction.job (reaction : Reaction H C) (isFulfilled : Bool) (value : V) : Job H V C :=
  .react (reaction.choose isFulfilled) value isFulfilled reaction.next reaction.context

namespace Agent

def blank : Cell H V C := ⟨.pending,[],[]⟩

def start (context : C) : Agent H V C := ⟨fun _ => blank,0,[],none,context,[]⟩

variable (agent : Agent H V C)

def create : Agent H V C :=
  { agent with promises := Function.update agent.promises agent.count blank, count := agent.count + 1 }

/-- A promise settles at most once. -/
def settle (isFulfilled : Bool) (promise : Nat) (value : V) : Agent H V C :=
  match (agent.promises promise).state.outcome with
  | some _ => agent
  | none =>
    let cell := agent.promises promise
    { agent with
      promises := Function.update agent.promises promise ⟨.settled isFulfilled value,[],[]⟩
      jobs := agent.jobs ++ (cell.listeners ++ cell.reactions).map (·.job isFulfilled value) }

def performThen (promise : Nat) (reaction : Reaction H C) : Agent H V C :=
  match (agent.promises promise).state.outcome with
  | some (isFulfilled,value) => { agent with jobs := agent.jobs ++ [reaction.job isFulfilled value] }
  | none =>
    let cell := agent.promises promise
    { agent with promises := Function.update agent.promises promise { cell with reactions := cell.reactions ++ [reaction] } }

def listen (promise : Nat) (reaction : Reaction H C) : Agent H V C :=
  match (agent.promises promise).state.outcome with
  | some (isFulfilled,value) => { agent with jobs := agent.jobs ++ [reaction.job isFulfilled value] }
  | none =>
    let cell := agent.promises promise
    { agent with promises := Function.update agent.promises promise { cell with listeners := cell.listeners ++ [reaction] } }

/-- `outer` takes on what becomes of `inner`. -/
def follow (outer inner : Nat) : Agent H V C :=
  match (agent.promises outer).state.outcome with
  | some _ => agent
  | none => match (agent.promises inner).state.outcome with
    | some (isFulfilled,value) => agent.settle isFulfilled outer value
    | none => agent.performThen inner ⟨none,none,some outer,agent.context⟩

/-- The callers have checked that the promise is not resolved with itself: `promise_resolve_fn`, and `propagate` below. -/
def resolveWith (promise : Nat) (resolution : Resolution V) : Agent H V C :=
  match (agent.promises promise).state.outcome with
  | some _ => agent
  | none => match resolution with
    | .plain value => agent.settle true promise value
    | .promise inner => { agent with jobs := agent.jobs ++ [.adopt promise inner] }

/-- The end of a handler: its result settles the derived promise, which must not be its own result. -/
def propagate (values : Values V) (next : Option Nat) (result : Resolution V) : Agent H V C :=
  match next with
  | none => agent
  | some next => match result with
    | .plain value => agent.resolveWith next (.plain value)
    | .promise inner =>
      if inner = next then agent.settle false next values.cycleError else agent.resolveWith next (.promise inner)

def perform : Job H V C → Agent H V C
  | .react (some handler) value _ next context =>
    { agent with running := some (next,agent.context), context := context, log := agent.log ++ [(handler,value,context)] }
  | .react none value isFulfilled next _ => next.elim agent fun next => agent.settle isFulfilled next value
  | .adopt outer inner => match (agent.promises inner).state.outcome with
    | some (isFulfilled,value) =>
      { agent with jobs := agent.jobs ++ [.react none value isFulfilled (some outer) agent.context] }
    | none => agent.follow outer inner

end Agent

def spec (values : Values V) (agent : Agent H V C) : Op H V C → Agent H V C
  | .create => agent.create
  | .resolve promise value => agent.settle true promise value
  | .reject promise reason => agent.settle false promise reason
  | .resolveWith promise resolution => agent.resolveWith promise resolution
  | .follow outer inner => agent.follow outer inner
  | .promiseThen promise onFulfilled onRejected =>
    agent.create.performThen promise ⟨onFulfilled,onRejected,some agent.count,agent.context⟩
  | .attach promise onFulfilled onRejected => agent.performThen promise ⟨onFulfilled,onRejected,none,agent.context⟩
  | .listen promise onFulfilled onRejected => agent.listen promise ⟨onFulfilled,onRejected,none,agent.context⟩
  | .enter context => { agent with context := context }
  | .next => match agent.jobs with
    | [] => agent
    | job :: jobs => { agent with jobs := jobs }.perform job
  | .returned result => agent.running.elim agent fun running =>
    { { agent with running := none }.propagate values running.1 result with context := running.2 }
  | .threw reason => agent.running.elim agent fun running =>
    running.1.elim { agent with running := none, context := running.2 } fun next =>
      { agent with running := none, context := running.2 }.settle false next reason

end Perry.Runtime.PromiseJobs
