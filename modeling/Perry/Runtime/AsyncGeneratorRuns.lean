import Mathlib.Algebra.GroupWithZero.Nat
import Mathlib.Order.Nat
import Perry.Runtime.AsyncGeneratorQueue

/-! One thing at a time is in progress on the queue: user code, a promise it waits for, or a
scheduled drain. Each entry point of the queue takes this over and hands it on, so that
requests are served one by one and in order. -/

namespace Perry.Runtime.AsyncGeneratorQueue

open Machine

variable {Closure Value : Type}

@[simp] def Frame.requests : Frame Closure Value → List Promise
  | .running caller => [caller.request]
  | .resolving _ _ out => [out]

/-- The request a listener still has to answer: an initial one is answered when its promise settles. -/
@[simp] def Listener.requests : Listener Closure Value → List Promise
  | ⟨.settle (.initial _),some _⟩ => []
  | ⟨.settle caller,_⟩ => [caller.request]
  | ⟨.returnStep _ out,_⟩ => [out]

/-- The requests in progress that have no answer. -/
def World.current (w : World Closure Value) : List Promise :=
  w.stack.flatMap Frame.requests ++ w.listeners.flatMap Listener.requests

/-- Requests are answered in order: first those settled, then the current one, then the queue. -/
def InOrder (w : World Closure Value) (current : List Promise) : Prop :=
  w.settled.map Prod.fst ++ (current ++ w.state.queue.map Request.promise) = List.range w.issued

def CalledAlone (w : World Closure Value) : Prop :=
  ∀ call ∈ w.calls, call.stack = [] ∧ call.listeners = []

structure Inv (w : World Closure Value) : Prop where
  token : w.stack.length + w.listeners.length + w.drains = w.state.active.toNat
  scheduled : w.drains = w.state.drainScheduled.toNat
  idle : w.state.active = false → w.state.queue = []
  order : InOrder w w.current
  alone : CalledAlone w

/-- The queue's own code is running: nothing else is in progress, and the request at hand is
the one given, if it still has no answer. -/
structure Held (w : World Closure Value) (current : List Promise) : Prop where
  stack : w.stack = []
  listeners : w.listeners = []
  drains : w.drains = 0
  active : w.state.active = true
  scheduled : w.state.drainScheduled = false
  order : InOrder w current
  alone : CalledAlone w

/-- How many steps a frame, a listener or a drain can still take, a request in the queue
counting for more than any of them. -/
@[simp] def Frame.weight : Frame Closure Value → Nat
  | .running _ => 3
  | .resolving .. => 6

@[simp] def Listener.weight : Listener Closure Value → Nat
  | ⟨.settle _,some _⟩ => 1
  | ⟨.settle _,none⟩ => 2
  | ⟨.returnStep ..,some _⟩ => 4
  | ⟨.returnStep ..,none⟩ => 5

def World.weight (w : World Closure Value) : Nat :=
  7 * w.state.queue.length + ((w.stack.map Frame.weight).sum + (w.listeners.map Listener.weight).sum + w.drains)

/-- What the queue's own code makes of `w`: the invariant holds again, and at most `weight`
steps are left beside those of the requests in the queue of `w`. -/
structure Serves (w : World Closure Value) (weight : Nat) (t : World Closure Value) : Prop where
  inv : Inv t
  issued : t.issued = w.issued
  weight : t.weight ≤ 7 * w.state.queue.length + weight

namespace Serves

variable {w t : World Closure Value} {weight : Nat}

theorem mono {more : Nat} (served : Serves w weight t) (le : weight ≤ more) : Serves w more t where
  inv := served.inv
  issued := served.issued
  weight := served.weight.trans (by omega)

theorem congr {v : World Closure Value} (issued : v.issued = w.issued) (queue : v.state.queue = w.state.queue) :
    Serves w weight t ↔ Serves v weight t :=
  ⟨fun served => ⟨served.inv,served.issued.trans issued.symm,queue ▸ served.weight⟩,
    fun served => ⟨served.inv,served.issued.trans issued,queue ▸ served.weight⟩⟩

theorem of_noted (values : Values Value) (outcome : Outcome Value) (served : Serves (noteStepSettlement values w outcome) weight t) :
    Serves w weight t := by
  have same : (noteStepSettlement values w outcome).issued = w.issued ∧
      (noteStepSettlement values w outcome).state.queue = w.state.queue := by
    unfold noteStepSettlement
    split
    · exact ⟨rfl,rfl⟩
    · split <;> exact ⟨rfl,rfl⟩
  exact (congr same.1 same.2).mpr served

/-- A request taken off the queue pays for its own steps. -/
theorem of_next {request : Request Closure Value} {queue : List (Request Closure Value)}
    (next : w.state.queue = request :: queue) (few : weight ≤ 7)
    (served : Serves { w with state.queue := queue } weight t) : Serves w 0 t where
  inv := served.inv
  issued := served.issued
  weight := by
    have weighed := served.weight
    dsimp only at weighed
    rw [next,List.length_cons]
    omega

end Serves

namespace Held

variable (values : Values Value) {w : World Closure Value} {current : List Promise} {promise : Promise}

theorem settle (held : Held w [promise]) (outcome : Outcome Value) : Held (settle w promise outcome) [] := by
  refine { held with order := ?_ }
  have order := held.order
  simp only [InOrder,AsyncGeneratorQueue.settle,List.map_append,List.map_cons,List.map_nil,List.append_assoc] at order ⊢
  exact order

theorem noteStepSettlement (held : Held w current) (outcome : Outcome Value) :
    Held (noteStepSettlement values w outcome) current := by
  unfold AsyncGeneratorQueue.noteStepSettlement
  split
  · exact { held with }
  · split
    · exact { held with }
    · exact { held with }
    · exact held

theorem scheduleDrain (held : Held w []) : Serves w 1 (scheduleDrain w) := by
  rw [AsyncGeneratorQueue.scheduleDrain,if_neg (by simp [held.scheduled])]
  refine ⟨?_,rfl,by simp [World.weight,held.stack,held.listeners,held.drains]⟩
  exact {
    token := by simp [held.stack,held.listeners,held.drains,held.active]
    scheduled := by simp [held.drains]
    idle := fun inactive => absurd inactive (by simp [held.active])
    order := by simpa [InOrder,World.current,held.stack,held.listeners] using held.order
    alone := held.alone }

theorem markInactive (held : Held w []) (empty : w.state.queue = []) : Serves w 0 (markInactive w) := by
  refine ⟨?_,rfl,by simp [World.weight,AsyncGeneratorQueue.markInactive,held.stack,held.listeners,held.drains]⟩
  exact {
    token := by simp [AsyncGeneratorQueue.markInactive,held.stack,held.listeners,held.drains]
    scheduled := by simp [AsyncGeneratorQueue.markInactive,held.drains]
    idle := fun _ => empty
    order := by simpa [InOrder,World.current,AsyncGeneratorQueue.markInactive,held.stack,held.listeners] using held.order
    alone := held.alone }

theorem push (frame : Frame Closure Value) (held : Held w frame.requests)
    {calls : List (Call Closure Value)} (alone : ∀ call ∈ calls, call.stack = [] ∧ call.listeners = []) :
    Serves w frame.weight { w with stack := frame :: w.stack,calls := calls } := by
  refine ⟨?_,rfl,by simp [World.weight,held.stack,held.listeners,held.drains]⟩
  exact {
    token := by simp [held.stack,held.listeners,held.drains,held.active]
    scheduled := by simp [held.drains,held.scheduled]
    idle := fun inactive => absurd inactive (by simp [held.active])
    order := by simpa [InOrder,World.current,held.stack,held.listeners] using held.order
    alone := alone }

theorem attach (listener : Listener Closure Value) (held : Held w listener.requests) :
    Serves w listener.weight { w with listeners := w.listeners ++ [listener] } := by
  refine ⟨?_,rfl,by simp [World.weight,held.stack,held.listeners,held.drains]⟩
  exact {
    token := by simp [held.stack,held.listeners,held.drains,held.active]
    scheduled := by simp [held.drains,held.scheduled]
    idle := fun inactive => absurd inactive (by simp [held.active])
    order := by simpa [InOrder,World.current,held.stack,held.listeners] using held.order
    alone := held.alone }

theorem attachPendingSettle {caller : Caller} (held : Held w [caller.request]) :
    Serves w 2 (attachPendingSettle w caller) := by
  refine Held.attach ⟨.settle caller,none⟩ ?_
  cases caller <;> exact held

theorem settle_scheduleDrain (w : World Closure Value) (outcome : Outcome Value) :
    AsyncGeneratorQueue.settle (AsyncGeneratorQueue.scheduleDrain w) promise outcome =
      AsyncGeneratorQueue.scheduleDrain (AsyncGeneratorQueue.settle w promise outcome) := by
  unfold AsyncGeneratorQueue.scheduleDrain
  exact apply_ite (AsyncGeneratorQueue.settle · promise outcome) ..

theorem finishAfterImmediateQueuedResult (held : Held w [promise]) (outcome : Outcome Value) :
    Serves w 1 (finishAfterImmediateQueuedResult values w promise outcome) := by
  apply Serves.of_noted values outcome
  have noted := (held.noteStepSettlement values outcome).settle outcome
  unfold AsyncGeneratorQueue.finishAfterImmediateQueuedResult
  generalize AsyncGeneratorQueue.noteStepSettlement values w outcome = w at noted
  dsimp only [settleOut]
  split
  · rw [settle_scheduleDrain]
    exact { noted.scheduleDrain with }
  · next full =>
    have empty : w.state.queue = [] := not_not.mp full
    exact { (noted.markInactive empty).mono (Nat.zero_le 1) with }

theorem afterResult {caller : Caller} (held : Held w [caller.request]) (result : Result Value) :
    Serves w 2 (afterResult values w caller result) := by
  cases caller with
  | initial request =>
    cases result with
    | pending => exact held.attachPendingSettle
    | settled outcome =>
      have settled := held.settle outcome
      exact { (Serves.of_noted values outcome (settled.noteStepSettlement values outcome).scheduleDrain).mono (Nat.le_succ 1) with }
    | value value => exact { (held.settle (.fulfilled value)).scheduleDrain.mono (Nat.le_succ 1) with }
  | queued out =>
    cases result with
    | pending => exact held.attachPendingSettle
    | settled outcome => exact (held.finishAfterImmediateQueuedResult values outcome).mono (Nat.le_succ 1)
    | value value => exact (held.finishAfterImmediateQueuedResult values (.fulfilled value)).mono (Nat.le_succ 1)

theorem callOriginal (caller : Caller) (held : Held w [caller.request]) (original : Option Closure) (arg : Value) :
    Serves w 3 (callOriginal values w original arg caller) := by
  cases original with
  | none => exact (held.afterResult values _).mono (Nat.le_succ 2)
  | some original =>
    apply Held.push (.running caller) held
    intro call member
    rw [List.mem_append,List.mem_singleton] at member
    obtain earlier | rfl := member
    · exact held.alone call earlier
    · exact ⟨held.stack,held.listeners⟩

theorem dispatchReturnWithAwait (held : Held w [promise]) (original : Option Closure) (arg : Value) :
    Serves w 6 (dispatchReturnWithAwait w original arg promise) :=
  Held.push (.resolving original arg promise) held held.alone

theorem returnArgResolved (held : Held w [promise]) (original : Option Closure)
    (answer : Except Value (Option (Outcome Value))) : Serves w 5 (returnArgResolved values w original promise answer) := by
  cases answer with
  | ok outcome =>
    refine Serves.mono (Held.attach ⟨.returnStep original promise,outcome⟩ held) ?_
    cases outcome with
    | none => exact Nat.le_refl 5
    | some outcome => exact Nat.le_succ 4
  | error reason =>
    unfold AsyncGeneratorQueue.returnArgResolved
    dsimp only
    split
    · exact (Held.callOriginal values (.queued promise) held _ reason).mono (by omega)
    · exact (held.finishAfterImmediateQueuedResult values _).mono (by omega)

theorem returnStep (held : Held w [promise]) (original : Option Closure) (outcome : Outcome Value) :
    Serves w 3 (returnStep values w original promise outcome) := by
  cases outcome with
  | fulfilled value => exact Held.callOriginal values (.queued promise) held original value
  | rejected reason => exact (held.finishAfterImmediateQueuedResult values _).mono (by omega)

/-- The next request is taken off the queue, or the generator comes to rest. -/
theorem processOneQueuedRequest (held : Held { w with state.drainScheduled := false } []) :
    Serves w 0 (processOneQueuedRequest values w) := by
  suffices served : Serves { w with state.drainScheduled := false } 0 (AsyncGeneratorQueue.processOneQueuedRequest values w) from
    { served with }
  unfold AsyncGeneratorQueue.processOneQueuedRequest
  generalize { w with state.drainScheduled := false } = w at held
  dsimp only
  split
  · next empty =>
    refine ⟨?_,rfl,by simp [World.weight,held.stack,held.listeners,held.drains]⟩
    refine { token := ?_, scheduled := ?_, idle := fun _ => empty, order := ?_, alone := held.alone }
    · simp [held.stack,held.listeners,held.drains]
    · simp [held.drains,held.scheduled]
    · simpa [InOrder,World.current,held.stack,held.listeners] using held.order
  · next request queue next =>
    have taken : Held { w with state.queue := queue } [request.promise] :=
      { held with order := by simpa [InOrder,next] using held.order }
    split
    · exact Serves.of_next next (by omega) (taken.dispatchReturnWithAwait _ _)
    · exact Serves.of_next next (by omega) (Held.callOriginal values (.queued request.promise) taken _ _)

theorem finishAfterPendingResult {caller : Caller} {outcome : Outcome Value}
    (held : Held w (Listener.requests (⟨.settle caller,some outcome⟩ : Listener Closure Value))) :
    Serves w 0 (finishAfterPendingResult values w caller.out outcome) := by
  have noted := held.noteStepSettlement values outcome
  apply Serves.of_noted values outcome
  unfold AsyncGeneratorQueue.finishAfterPendingResult
  generalize AsyncGeneratorQueue.noteStepSettlement values w outcome = w at noted
  have settled : Held (settleOut w caller.out outcome) [] := by
    cases caller with
    | initial request => exact noted
    | queued out => exact noted.settle outcome
  have same : (settleOut w caller.out outcome).issued = w.issued ∧
      (settleOut w caller.out outcome).state.queue = w.state.queue := by
    cases caller <;> exact ⟨rfl,rfl⟩
  dsimp only
  generalize settleOut w caller.out outcome = w at settled same
  rw [Serves.congr same.1 same.2]
  split
  · exact Held.processOneQueuedRequest values { settled with scheduled := rfl }
  · next full => exact settled.markInactive (not_not.mp full)

theorem react {reaction : Reaction Closure} {outcome : Outcome Value} (held : Held w (Listener.requests ⟨reaction,some outcome⟩)) :
    Serves w 3 (react values w reaction outcome) := by
  cases reaction with
  | settle caller => exact (held.finishAfterPendingResult values).mono (Nat.zero_le 3)
  | returnStep original out => exact Held.returnStep values held original outcome

end Held

def Event.isRequest : Event Closure Value → Bool
  | .request .. => true
  | _ => false

namespace Inv

variable {values : Values Value} {w t : World Closure Value}

theorem of_frame (inv : Inv w) {frame : Frame Closure Value} {stack : List (Frame Closure Value)}
    (top : w.stack = frame :: stack) : Held { w with stack := stack } frame.requests := by
  have token := inv.token
  have drains := inv.scheduled
  have size := w.state.active.toNat_le
  rw [top,List.length_cons] at token
  have alone : stack = [] := List.length_eq_zero_iff.mp (by omega)
  have unheard : w.listeners = [] := List.length_eq_zero_iff.mp (by omega)
  have order := inv.order
  simp only [InOrder,World.current,top,alone,unheard,List.flatMap_cons,List.flatMap_nil,List.append_nil] at order
  exact {
    stack := alone
    listeners := unheard
    drains := by dsimp only; omega
    active := Bool.toNat_eq_one.mp (by dsimp only; omega)
    scheduled := Bool.toNat_eq_zero.mp (by dsimp only; omega)
    order := order
    alone := inv.alone }

/-- An unrun listener is the only one. -/
theorem listener_alone (inv : Inv w) {i : Nat} {listener : Listener Closure Value}
    (found : w.listeners[i]? = some listener) : i = 0 ∧ w.listeners = [listener] := by
  have token := inv.token
  have size := w.state.active.toNat_le
  obtain ⟨bound,same⟩ := List.getElem?_eq_some_iff.mp found
  have first : i = 0 := by omega
  subst first
  obtain ⟨only,shape⟩ := List.length_eq_one_iff.mp (show w.listeners.length = 1 by omega)
  simp only [shape,List.getElem_cons_zero] at same
  exact ⟨rfl,same ▸ shape⟩

theorem of_listener (inv : Inv w) {i : Nat} {listener : Listener Closure Value}
    (found : w.listeners[i]? = some listener) : Held { w with listeners := w.listeners.eraseIdx i } listener.requests := by
  obtain ⟨rfl,only⟩ := inv.listener_alone found
  have token := inv.token
  have drains := inv.scheduled
  have size := w.state.active.toNat_le
  rw [only,List.length_singleton] at token
  have still : w.stack = [] := List.length_eq_zero_iff.mp (by omega)
  have order := inv.order
  simp only [InOrder,World.current,only,still,List.flatMap_cons,List.flatMap_nil,List.append_nil,List.nil_append] at order
  exact {
    stack := still
    listeners := by rw [only]; rfl
    drains := by dsimp only; omega
    active := Bool.toNat_eq_one.mp (by dsimp only; omega)
    scheduled := Bool.toNat_eq_zero.mp (by dsimp only; omega)
    order := order
    alone := inv.alone }

theorem of_drain (inv : Inv w) (scheduled : w.drains ≠ 0) :
    Held { w with drains := w.drains - 1,state.drainScheduled := false } [] := by
  have token := inv.token
  have size := w.state.active.toNat_le
  have still : w.stack = [] := List.length_eq_zero_iff.mp (by omega)
  have unheard : w.listeners = [] := List.length_eq_zero_iff.mp (by omega)
  have order := inv.order
  simp only [InOrder,World.current,still,unheard,List.flatMap_nil,List.append_nil] at order
  exact {
    stack := still
    listeners := unheard
    drains := by dsimp only; omega
    active := Bool.toNat_eq_one.mp (by dsimp only; omega)
    scheduled := rfl
    order := order
    alone := inv.alone }

theorem at_rest (inv : Inv w) (inactive : w.state.active = false) :
    w.stack = [] ∧ w.listeners = [] ∧ w.drains = 0 ∧ w.state.queue = [] := by
  have token := inv.token
  rw [inactive,Bool.toNat_false] at token
  exact ⟨List.length_eq_zero_iff.mp (by omega),List.length_eq_zero_iff.mp (by omega),by omega,inv.idle inactive⟩

theorem asyncGeneratorRequest (inv : Inv w) (original : Option Closure) (arg : Value) (kind : RequestKind) :
    Inv (asyncGeneratorRequest values w original arg kind) := by
  have order := inv.order
  unfold InOrder at order
  unfold AsyncGeneratorQueue.asyncGeneratorRequest
  dsimp only
  split
  · next busy =>
    refine { inv with idle := fun inactive => ?_, order := ?_ }
    · obtain active | full := busy
      · exact absurd inactive (by simp [active])
      · exact absurd (inv.idle inactive) full
    · simp only [InOrder,World.current,List.map_append,List.map_cons,List.map_nil,List.range_succ,← List.append_assoc] at order ⊢
      rw [order]
  · next free =>
    obtain ⟨inactive,-⟩ := not_or.mp free
    rw [Bool.not_eq_true] at inactive
    obtain ⟨still,unheard,undrained,empty⟩ := inv.at_rest inactive
    have unscheduled := inv.scheduled
    rw [undrained] at unscheduled
    have held : Held { w with issued := w.issued + 1,state.active := true } [w.issued] := {
      stack := still
      listeners := unheard
      drains := undrained
      active := rfl
      scheduled := Bool.toNat_eq_zero.mp unscheduled.symm
      order := by
        simp only [World.current,still,unheard,empty,List.flatMap_nil,List.map_nil,List.append_nil] at order
        simp only [InOrder,empty,order,List.map_nil,List.append_nil,List.range_succ]
      alone := inv.alone }
    split
    · exact (held.dispatchReturnWithAwait original arg).inv
    · exact (Held.callOriginal values (.initial w.issued) held original arg).inv

theorem promiseSettles (inv : Inv w) {i : Nat} {reaction : Reaction Closure} (found : w.listeners[i]? = some ⟨reaction,none⟩)
    (outcome : Outcome Value) :
    Serves w (Listener.weight (⟨reaction,none⟩ : Listener Closure Value) - 1)
      (promiseSettles { w with listeners := w.listeners.set i ⟨reaction,some outcome⟩ } reaction outcome) := by
  obtain ⟨rfl,only⟩ := inv.listener_alone found
  have held := inv.of_listener found
  have moved : w.listeners.set 0 ⟨reaction,some outcome⟩ = w.listeners.eraseIdx 0 ++ [⟨reaction,some outcome⟩] := by
    rw [only]
    rfl
  rw [moved]
  cases reaction with
  | settle caller =>
    cases caller with
    | initial request =>
      exact { Held.attach ⟨.settle (.initial request),some outcome⟩ (held.settle outcome) with }
    | queued out => exact { Held.attach ⟨.settle (.queued out),some outcome⟩ held with }
  | returnStep original out => exact { Held.attach ⟨.returnStep original out,some outcome⟩ held with }

theorem frame_weight (inv : Inv w) {frame : Frame Closure Value} {stack : List (Frame Closure Value)}
    (top : w.stack = frame :: stack) : w.weight = 7 * w.state.queue.length + frame.weight := by
  have held := inv.of_frame top
  have alone := held.stack
  have unheard := held.listeners
  have undrained := held.drains
  dsimp only at alone unheard undrained
  simp [World.weight,top,alone,unheard,undrained]

theorem listener_weight (inv : Inv w) {i : Nat} {listener : Listener Closure Value}
    (found : w.listeners[i]? = some listener) : w.weight = 7 * w.state.queue.length + listener.weight := by
  obtain ⟨rfl,only⟩ := inv.listener_alone found
  have held := inv.of_listener found
  have still := held.stack
  have undrained := held.drains
  dsimp only at still undrained
  simp [World.weight,only,still,undrained]

/-- Every step but a new request brings the queue closer to rest. -/
theorem advance (inv : Inv w) {e : Event Closure Value} (served : e.isRequest = false) (taken : step values w e = some t) :
    Inv t ∧ t.issued = w.issued ∧ t.weight < w.weight := by
  suffices ∃ weight, Serves w weight t ∧ 7 * w.state.queue.length + weight < w.weight by
    obtain ⟨weight,serves,less⟩ := this
    exact ⟨serves.inv,serves.issued,serves.weight.trans_lt less⟩
  cases e with
  | request => cases served
  | returns result =>
    dsimp only [AsyncGeneratorQueue.step] at taken
    split at taken
    · next caller stack top =>
      obtain rfl := Option.some.inj taken
      have serves := (inv.of_frame top).afterResult values result
      exact ⟨2,{ serves with },by rw [inv.frame_weight top,Frame.weight]; omega⟩
    · cases taken
  | resolves answer =>
    dsimp only [AsyncGeneratorQueue.step] at taken
    split at taken
    · next original arg out stack top =>
      obtain rfl := Option.some.inj taken
      have serves := (inv.of_frame top).returnArgResolved values original answer
      exact ⟨5,{ serves with },by rw [inv.frame_weight top,Frame.weight]; omega⟩
    · cases taken
  | settles i outcome =>
    dsimp only [AsyncGeneratorQueue.step] at taken
    split at taken
    · next reaction found =>
      obtain rfl := Option.some.inj taken
      refine ⟨_,inv.promiseSettles found outcome,?_⟩
      rw [inv.listener_weight found]
      cases reaction <;> simp
    · cases taken
  | reacts i =>
    dsimp only [AsyncGeneratorQueue.step] at taken
    split at taken
    · next reaction outcome found =>
      obtain rfl := Option.some.inj taken
      refine ⟨Listener.weight ⟨reaction,some outcome⟩ - 1,?_,?_⟩
      · cases reaction with
        | settle caller => exact { (inv.of_listener found).finishAfterPendingResult values with }
        | returnStep original out => exact { (inv.of_listener found).returnStep values original outcome with }
      · rw [inv.listener_weight found]
        cases reaction <;> simp
    · cases taken
  | drains =>
    dsimp only [AsyncGeneratorQueue.step] at taken
    split at taken
    · cases taken
    · next scheduled =>
      obtain rfl := Option.some.inj taken
      have serves := Held.processOneQueuedRequest values (w := { w with drains := w.drains - 1 })
        (inv.of_drain scheduled)
      exact ⟨0,{ serves with },by unfold World.weight; omega⟩

theorem step (inv : Inv w) {e : Event Closure Value} (taken : step values w e = some t) : Inv t := by
  by_cases served : e.isRequest = false
  · exact (inv.advance served taken).1
  · cases e with
    | request original arg kind =>
      obtain rfl := Option.some.inj taken
      exact inv.asyncGeneratorRequest original arg kind
    | _ => exact absurd rfl served

/-- While something is in progress some step can be taken. -/
theorem exists_step (values : Values Value) (inv : Inv w) (active : w.state.active = true) :
    ∃ e, e.isRequest = false ∧ AsyncGeneratorQueue.step values w e ≠ none := by
  have token := inv.token
  rw [active,Bool.toNat_true] at token
  cases top : w.stack with
  | cons frame stack =>
    cases frame with
    | running caller => exact ⟨.returns .pending,rfl,by simp [AsyncGeneratorQueue.step,top]⟩
    | resolving original arg out => exact ⟨.resolves (.ok none),rfl,by simp [AsyncGeneratorQueue.step,top]⟩
  | nil =>
    cases found : w.listeners with
    | cons listener listeners =>
      obtain ⟨reaction,_ | outcome⟩ := listener
      · exact ⟨.settles 0 (.fulfilled values.undefined),rfl,by simp [AsyncGeneratorQueue.step,found]⟩
      · exact ⟨.reacts 0,rfl,by simp [AsyncGeneratorQueue.step,found]⟩
    | nil =>
      refine ⟨.drains,rfl,?_⟩
      rw [top,found,List.length_nil,List.length_nil] at token
      simp only [AsyncGeneratorQueue.step]
      rw [if_neg (by omega)]
      exact Option.some_ne_none _

theorem wrapped (originalThrow : Option Closure) : Inv (wrapped originalThrow : World Closure Value) where
  token := rfl
  scheduled := rfl
  idle _ := rfl
  order := rfl
  alone call member := by cases member

end Inv

/-- What holds of the queue in every state: at most one request is being executed, no
closure was called during another request, the promises settled are those of the first
requests, each once and in order, and a waiting request will be taken up. -/
structure Orderly (w : World Closure Value) : Prop where
  oneAtATime : w.stack.length + w.listeners.length ≤ 1
  calledAlone : CalledAlone w
  settledInOrder : ∃ n ≤ w.issued, w.settled.map Prod.fst = List.range n
  attended : w.state.queue ≠ [] → w.stack ≠ [] ∨ w.listeners ≠ [] ∨ 0 < w.drains

theorem Inv.orderly {w : World Closure Value} (inv : Inv w) : Orderly w where
  oneAtATime := by
    have token := inv.token
    have size := w.state.active.toNat_le
    omega
  calledAlone := inv.alone
  settledInOrder := by
    have order := inv.order
    have settled := congrArg (List.take (w.settled.map Prod.fst).length) order
    rw [List.take_left,List.take_range] at settled
    exact ⟨_,Nat.min_le_right ..,settled⟩
  attended full := by
    have token := inv.token
    have active : w.state.active = true := by
      by_contra inactive
      exact full (inv.idle (Bool.eq_false_iff.mpr inactive))
    rw [active,Bool.toNat_true] at token
    by_contra none_left
    simp only [not_or,not_not,Nat.not_lt,Nat.le_zero] at none_left
    rw [none_left.1,none_left.2.1,none_left.2.2] at token
    cases token

/-- A world without a step has settled every request. -/
theorem settled_of_stuck {values : Values Value} {w : World Closure Value} (inv : Inv w)
    (stuck : ∀ e, e.isRequest = false → step values w e = none) : w.settled.map Prod.fst = List.range w.issued := by
  have inactive : w.state.active = false := by
    by_contra active
    obtain ⟨e,served,taken⟩ := inv.exists_step values ((Bool.not_eq_false _).mp active)
    exact taken (stuck e served)
  obtain ⟨still,unheard,-,empty⟩ := inv.at_rest inactive
  have order := inv.order
  simpa [InOrder,World.current,still,unheard,empty] using order

/-- In every run from a fresh generator the queue is orderly in the state reached; from
there every run without new requests is bounded, and where it can go no further every
request is settled. -/
theorem request_queue (values : Values Value) (originalThrow : Option Closure) {es : List (Event Closure Value)}
    {w : World Closure Value} (run : Runs (step values) (wrapped originalThrow) es w) :
    Orderly w ∧ ∃ bound, ∀ fs t, (∀ f ∈ fs, f.isRequest = false) → Runs (step values) w fs t →
      fs.length ≤ bound ∧ t.issued = w.issued ∧
        ((∀ f, f.isRequest = false → step values t f = none) → t.settled.map Prod.fst = List.range w.issued) := by
  have inv := run.invariant (fun inv taken => Inv.step inv taken) (Inv.wrapped originalThrow)
  refine ⟨inv.orderly,w.weight,fun fs t served rest => ?_⟩
  have lower {v : World Closure Value} {f : Event Closure Value} {u : World Closure Value}
      (held : Inv v ∧ v.issued = w.issued) (calm : f.isRequest = false) (taken : step values v f = some u) :
      (Inv u ∧ u.issued = w.issued) ∧ u.weight < v.weight := by
    obtain ⟨inv,issued,less⟩ := held.1.advance calm taken
    exact ⟨⟨inv,issued.trans held.2⟩,less⟩
  obtain ⟨⟨reached,issued⟩,bound⟩ := rest.length_le World.weight lower served ⟨inv,rfl⟩
  refine ⟨by omega,issued,fun stuck => ?_⟩
  rw [settled_of_stuck reached stuck,issued]

/-- A request made while the first is still pending waits for it and is then settled second. -/
theorem request_queue_pending : ∃ w : World Nat Nat,
    Runs (step ⟨0,fun v => some (v == 0)⟩) (wrapped (some 9))
      [.request (some 1) 5 .nextOrThrow,.request (some 2) 6 .return,.returns .pending,.settles 0 (.fulfilled 7),.reacts 0] w ∧
      Orderly w ∧ w.settled = [(0,.fulfilled 7)] ∧ w.stack = [.resolving (some 2) 6 1] := by
  have run : Runs (step ⟨0,fun v => some (v == 0)⟩) (wrapped (some 9)) [.request (some 1) 5 .nextOrThrow,
      .request (some 2) 6 .return,.returns .pending,.settles 0 (.fulfilled 7),.reacts 0] _ :=
    .cons rfl (.cons rfl (.cons rfl (.cons rfl (.cons rfl (.nil _)))))
  exact ⟨_,run,(request_queue _ _ run).1,rfl,rfl⟩

end Perry.Runtime.AsyncGeneratorQueue
