import Perry.Runtime.AsyncGeneratorRuns

/-! A `return` whose argument fails to be awaited. Beside the queue stands the body of the generator,
which a step of it leaves at a yield or at its end, and the queue's record of it. -/

namespace Perry.Runtime.AsyncGeneratorQueue

open Machine

/-- The closures of a lowered generator. -/
inductive Method where
  | next | «return» | throw
  deriving DecidableEq, Repr

def Method.kind : Method → RequestKind
  | .return => .return
  | _ => .nextOrThrow

inductive Body where
  | fresh | suspended | finished
  deriving DecidableEq, Repr

structure Generator (Value : Type) where
  world : World Method Value
  body : Body
  deriving DecidableEq, Repr

section generator

variable {Value : Type} (values : Values Value) (g : Generator Value)

/-- Where a step of the body leaves it; a step that is fulfilled gives an iterator result. -/
def bodyAfter : Outcome Value → Option Body
  | .rejected _ => some .finished
  | .fulfilled value => (values.done value).map fun done => if done then .finished else .suspended

/-- The outcome of a step of the body that an event brings. -/
def Generator.bodyOutcome : Event Method Value → Option (Outcome Value)
  | .returns (.settled outcome) => some outcome
  | .settles i outcome =>
    match g.world.listeners[i]? with
    | some ⟨.settle _,_⟩ => some outcome
    | _ => none
  | _ => none

/-- A request goes to one of the closures, and they all return promises. -/
def lowered : Event Method Value → Bool
  | .request (some method) _ kind => kind = method.kind
  | .request none _ _ => false
  | .returns (.value _) => false
  | _ => true

def generatorStep (e : Event Method Value) : Option (Generator Value) :=
  if lowered e then
    match g.bodyOutcome e with
    | none => (step values g.world e).map fun world => ⟨world,g.body⟩
    | some outcome =>
      match bodyAfter values outcome with
      | none => none
      | some body => (step values g.world e).map fun world => ⟨world,body⟩
  else none

def generatorStart : Generator Value := ⟨wrapped (some .throw),.fresh⟩

/-- The request and the reason, where the event fails the argument of a `return`: at once, or by the
rejection of its promise. -/
def Generator.failing : Event Method Value → Option (Promise × Value)
  | .resolves (.error reason) =>
    match g.world.stack with
    | .resolving _ _ out :: _ => some (out,reason)
    | _ => none
  | .reacts i =>
    match g.world.listeners[i]? with
    | some ⟨.returnStep _ out,some (.rejected reason)⟩ => some (out,reason)
    | _ => none
  | _ => none

/-- A suspended body receives the failure as a throw before the request is settled; without one the
request is rejected and the body does not run. -/
def Treated (t : Generator Value) (out : Promise) (reason : Value) : Prop :=
  match g.body with
  | .suspended => t.world.calls = g.world.calls ++ [⟨.throw,reason,[],[]⟩] ∧ t.world.stack = [.running (.queued out)] ∧
      out ∉ t.world.settled.map Prod.fst
  | _ => t.world.calls = g.world.calls ∧ t.body = g.body ∧
      t.world.settled = g.world.settled ++ [(out,.rejected reason)]

/-- No step of the body is in progress. -/
def Generator.atRest : Prop :=
  (∀ caller,Frame.running caller ∉ g.world.stack) ∧ ∀ caller outcome,⟨.settle caller,outcome⟩ ∉ g.world.listeners

/-- A generator that has been started is recorded as completed when its body has finished. -/
def Recorded : Prop := g.atRest → g.body ≠ .fresh → (g.world.state.completed = true ↔ g.body = .finished)

/-- The body does not come to a yield when it is recorded as completed, and no argument of a `return`
is rejected late while the body is suspended. -/
structure Meets (e : Event Method Value) : Prop where
  yields : ∀ outcome,g.bodyOutcome e = some outcome → bodyAfter values outcome = some .suspended →
    g.world.state.completed = false
  late : ∀ i original out reason,e = .reacts i →
    g.world.listeners[i]? = some ⟨.returnStep original out,some (.rejected reason)⟩ → g.body ≠ .suspended

end generator

section flags

variable {Value : Type} {values : Values Value}

/-- What the queue has recorded of a body. -/
def Flags (state : QueueState Method Value) : Body → Prop
  | .fresh => state.started = false
  | .suspended => state.started = true ∧ state.completed = false
  | .finished => state.completed = true

/-- Every request, frame and listener has its closure. -/
structure Whole (w : World Method Value) : Prop where
  throws : w.state.originalThrow = some .throw
  queue : ∀ request ∈ w.state.queue,request.original ≠ none
  frames : ∀ original arg out,Frame.resolving original arg out ∈ w.stack → original ≠ none
  listeners : ∀ original out outcome,⟨.returnStep original out,outcome⟩ ∈ w.listeners → original ≠ none

/-- The record is of the body, or the outcome that is to be recorded is. -/
structure Agree (values : Values Value) (g : Generator Value) : Prop where
  whole : Whole g.world
  flags : (∀ caller outcome,⟨.settle caller,some outcome⟩ ∉ g.world.listeners) → Flags g.world.state g.body
  unnoted : ∀ caller outcome,⟨.settle caller,some outcome⟩ ∈ g.world.listeners →
    bodyAfter values outcome = some g.body ∧ (g.body = .suspended → g.world.state.completed = false)

/-- The record stays, and so do the listeners. -/
structure Stays (w t : World Method Value) : Prop where
  started : t.state.started = w.state.started
  completed : t.state.completed = w.state.completed
  listeners : t.listeners = w.listeners
  whole : Whole t

namespace Stays

variable {w t u : World Method Value}

theorem refl (whole : Whole w) : Stays w w := ⟨rfl,rfl,rfl,whole⟩

theorem trans (first : Stays w t) (second : Stays t u) : Stays w u :=
  ⟨second.started.trans first.started,second.completed.trans first.completed,second.listeners.trans first.listeners,second.whole⟩

theorem callOriginal (values : Values Value) (whole : Whole w) {original : Option Method} (closure : original ≠ none) (arg : Value)
    (caller : Caller) :
    Stays w (callOriginal values w original arg caller) := by
  cases original with
  | none => exact absurd rfl closure
  | some method =>
    refine ⟨rfl,rfl,rfl,{ whole with frames := fun original arg out member => ?_ }⟩
    obtain other | member := List.mem_cons.mp member
    · cases other
    · exact whole.frames original arg out member

theorem dispatchReturnWithAwait (whole : Whole w) {original : Option Method} (closure : original ≠ none) (arg : Value)
    (out : Promise) : Stays w (dispatchReturnWithAwait w original arg out) := by
  refine ⟨rfl,rfl,rfl,{ whole with frames := fun original' arg' out' member => ?_ }⟩
  obtain first | member := List.mem_cons.mp member
  · cases first
    exact closure
  · exact whole.frames original' arg' out' member

theorem scheduleDrain (whole : Whole w) : Stays w (scheduleDrain w) := by
  unfold AsyncGeneratorQueue.scheduleDrain
  split
  · exact refl whole
  · exact ⟨rfl,rfl,rfl,{ whole with }⟩

theorem markInactive (whole : Whole w) : Stays w (markInactive w) := ⟨rfl,rfl,rfl,{ whole with }⟩

theorem settle (whole : Whole w) (promise : Promise) (outcome : Outcome Value) : Stays w (settle w promise outcome) :=
  ⟨rfl,rfl,rfl,{ whole with }⟩

theorem settleOut (whole : Whole w) (out : Option Promise) (outcome : Outcome Value) : Stays w (settleOut w out outcome) := by
  cases out with
  | none => exact refl whole
  | some out => exact settle whole out outcome

theorem processOneQueuedRequest (whole : Whole w) : Stays w (processOneQueuedRequest values w) := by
  unfold AsyncGeneratorQueue.processOneQueuedRequest
  dsimp only
  split
  · exact ⟨rfl,rfl,rfl,{ whole with }⟩
  · next request queue shape =>
    have closures := whole.queue
    rw [shape] at closures
    obtain ⟨closure,others⟩ := List.forall_mem_cons.mp closures
    have taken : Stays w { w with state.drainScheduled := false,state.queue := queue } :=
      ⟨rfl,rfl,rfl,{ whole with queue := others }⟩
    split
    · exact taken.trans (dispatchReturnWithAwait taken.whole closure _ _)
    · exact taken.trans (callOriginal values taken.whole closure _ _)

theorem asyncGeneratorRequest (whole : Whole w) (method : Method) (arg : Value) (kind : RequestKind) :
    Stays w (asyncGeneratorRequest values w (some method) arg kind) := by
  unfold AsyncGeneratorQueue.asyncGeneratorRequest
  dsimp only
  split
  · refine ⟨rfl,rfl,rfl,{ whole with queue := fun request member => ?_ }⟩
    obtain waiting | new := List.mem_append.mp member
    · exact whole.queue request waiting
    · rw [List.mem_singleton.mp new]
      exact Option.some_ne_none _
  · have begun : Stays w { w with issued := w.issued + 1,state.active := true } := ⟨rfl,rfl,rfl,{ whole with }⟩
    split
    · exact begun.trans (dispatchReturnWithAwait begun.whole (Option.some_ne_none _) _ _)
    · exact begun.trans (callOriginal values begun.whole (Option.some_ne_none _) _ _)

end Stays

section record

variable {w : World Method Value} {outcome : Outcome Value} {body : Body}

theorem noteStepSettlement_whole (values : Values Value) (whole : Whole w) (outcome : Outcome Value) : Whole (noteStepSettlement values w outcome) := by
  unfold noteStepSettlement
  split
  · exact { whole with }
  · split
    · exact { whole with }
    · exact { whole with }
    · exact whole

theorem noteStepSettlement_listeners (w : World Method Value) (outcome : Outcome Value) :
    (noteStepSettlement values w outcome).listeners = w.listeners := by
  unfold noteStepSettlement
  split
  · rfl
  · split <;> rfl

/-- The outcome of a step is recorded as what it makes of the body. -/
theorem noteStepSettlement_flags (left : bodyAfter values outcome = some body)
    (yields : body = .suspended → w.state.completed = false) : Flags (noteStepSettlement values w outcome).state body := by
  cases outcome with
  | rejected reason =>
    cases left
    rfl
  | fulfilled value =>
    rw [bodyAfter,Option.map_eq_some_iff] at left
    obtain ⟨done,known,rfl⟩ := left
    rw [noteStepSettlement]
    cases done with
    | true =>
      rw [known]
      rfl
    | false =>
      rw [known]
      exact ⟨rfl,yields rfl⟩

/-- A rejection that is not the body's is recorded like one, which a suspended body would contradict. -/
theorem rejected_flags (flags : Flags w.state body) (running : body ≠ .suspended) (reason : Value) :
    Flags (noteStepSettlement values w (.rejected reason)).state body := by
  cases body with
  | fresh => exact flags
  | suspended => exact absurd rfl running
  | finished => rfl

theorem Stays.flags {t : World Method Value} (stays : Stays w t) (flags : Flags w.state body) : Flags t.state body := by
  cases body with
  | fresh => exact stays.started.trans flags
  | suspended => exact ⟨stays.started.trans flags.1,stays.completed.trans flags.2⟩
  | finished => exact stays.completed.trans flags

theorem finishAfterImmediateQueuedResult_stays (values : Values Value) (whole : Whole w) (out : Promise) (outcome : Outcome Value) :
    Stays (noteStepSettlement values w outcome) (finishAfterImmediateQueuedResult values w out outcome) := by
  have noted := noteStepSettlement_whole values whole outcome
  unfold finishAfterImmediateQueuedResult
  dsimp only
  split
  · exact (Stays.scheduleDrain noted).trans (.settleOut (Stays.scheduleDrain noted).whole _ _)
  · exact (Stays.markInactive noted).trans (.settleOut (Stays.markInactive noted).whole _ _)

theorem finishAfterPendingResult_stays (values : Values Value) (whole : Whole w) (out : Option Promise) (outcome : Outcome Value) :
    Stays (noteStepSettlement values w outcome) (finishAfterPendingResult values w out outcome) := by
  have noted := noteStepSettlement_whole values whole outcome
  have settled := Stays.settleOut noted out outcome
  unfold finishAfterPendingResult
  dsimp only
  split
  · exact settled.trans (.processOneQueuedRequest settled.whole)
  · exact settled.trans (.markInactive settled.whole)

theorem afterResult_settled_stays (values : Values Value) (whole : Whole w) (caller : Caller) (outcome : Outcome Value) :
    ∃ v,Stays w v ∧ Stays (noteStepSettlement values v outcome) (afterResult values w caller (.settled outcome)) := by
  cases caller with
  | initial request =>
    have settled := Stays.settle whole request outcome
    exact ⟨_,settled,.scheduleDrain (noteStepSettlement_whole values settled.whole outcome)⟩
  | queued out => exact ⟨w,.refl whole,finishAfterImmediateQueuedResult_stays values whole out outcome⟩

end record

end flags

section steps

variable {Value : Type} {values : Values Value} {g t : Generator Value} {e : Event Method Value}

theorem generatorStep_cases (taken : generatorStep values g e = some t) :
    lowered e = true ∧ step values g.world e = some t.world ∧
      (g.bodyOutcome e = none ∧ t.body = g.body ∨
        ∃ outcome,g.bodyOutcome e = some outcome ∧ bodyAfter values outcome = some t.body) := by
  rw [generatorStep] at taken
  split at taken
  · next lowers =>
    split at taken
    · next none_left =>
      obtain ⟨world,moved,rfl⟩ := Option.map_eq_some_iff.mp taken
      exact ⟨lowers,moved,.inl ⟨none_left,rfl⟩⟩
    · next outcome brought =>
      split at taken
      · cases taken
      · next body left =>
        obtain ⟨world,moved,rfl⟩ := Option.map_eq_some_iff.mp taken
        exact ⟨lowers,moved,.inr ⟨outcome,brought,left⟩⟩
  · cases taken

namespace Agree

theorem quiet (whole : Whole g.world) (flags : Flags g.world.state g.body)
    (noted : ∀ caller outcome,⟨.settle caller,some outcome⟩ ∉ g.world.listeners) : Agree values g :=
  ⟨whole,fun _ => flags,fun caller outcome member => absurd member (noted caller outcome)⟩

theorem stays {w : World Method Value} (agree : Agree values g) (stays : Stays g.world w) : Agree values ⟨w,g.body⟩ := by
  refine ⟨stays.whole,fun noted => ?_,fun caller outcome member => ?_⟩
  · rw [stays.listeners] at noted
    exact stays.flags (agree.flags noted)
  · rw [stays.listeners] at member
    obtain ⟨left,yields⟩ := agree.unnoted caller outcome member
    exact ⟨left,fun suspended => stays.completed.trans (yields suspended)⟩

end Agree

section cases

variable {w : World Method Value} {body : Body} {caller : Caller} {outcome : Outcome Value} {out : Promise}
  {original : Option Method}

theorem pending_agrees (whole : Whole w) (unheard : w.listeners = []) (flags : Flags w.state body) (caller : Caller) :
    Agree values ⟨afterResult values w caller .pending,body⟩ := by
  have attached : Agree values ⟨attachPendingSettle w caller,body⟩ := by
    refine Agree.quiet { whole with listeners := fun original out outcome member => ?_ } flags fun caller outcome member => ?_
    · obtain earlier | new := List.mem_append.mp member
      · exact whole.listeners original out outcome earlier
      · cases List.mem_singleton.mp new
    · rw [attachPendingSettle,unheard] at member
      cases List.mem_singleton.mp member
  cases caller <;> exact attached

theorem settled_agrees (whole : Whole w) (unheard : w.listeners = []) (left : bodyAfter values outcome = some body)
    (yields : body = .suspended → w.state.completed = false) (caller : Caller) :
    Agree values ⟨afterResult values w caller (.settled outcome),body⟩ := by
  obtain ⟨v,before,after⟩ := afterResult_settled_stays values whole caller outcome
  refine Agree.quiet after.whole (after.flags (noteStepSettlement_flags left ?_)) ?_
  · exact fun suspended => before.completed.trans (yields suspended)
  · intro caller outcome member
    rw [after.listeners,noteStepSettlement_listeners,before.listeners,unheard] at member
    cases member

theorem settling_agrees (whole : Whole w) (left : bodyAfter values outcome = some body)
    (yields : body = .suspended → w.state.completed = false) (caller : Caller) :
    Agree values ⟨promiseSettles { w with listeners := [⟨.settle caller,some outcome⟩] } (.settle caller) outcome,body⟩ := by
  have waiting : Agree values ⟨{ w with listeners := [⟨.settle caller,some outcome⟩] },body⟩ := by
    refine ⟨{ whole with listeners := fun original out outcome member => ?_ },fun noted => ?_,fun caller outcome member => ?_⟩
    · cases List.mem_singleton.mp member
    · exact absurd (List.mem_singleton_self _) (noted caller outcome)
    · cases List.mem_singleton.mp member
      exact ⟨left,yields⟩
  cases caller with
  | initial request => exact waiting.stays (.settle waiting.whole request outcome)
  | queued out => exact waiting

theorem rejected_agrees (whole : Whole w) (unheard : w.listeners = []) (flags : Flags w.state body)
    (running : body ≠ .suspended) (out : Promise) (reason : Value) :
    Agree values ⟨finishAfterImmediateQueuedResult values w out (.rejected reason),body⟩ := by
  have after := finishAfterImmediateQueuedResult_stays values whole out (.rejected reason)
  refine Agree.quiet after.whole (after.flags (rejected_flags flags running reason)) ?_
  intro caller outcome member
  rw [after.listeners,noteStepSettlement_listeners,unheard] at member
  cases member

theorem suspended_iff (flags : Flags w.state body) :
    (w.state.started = true ∧ ¬ w.state.completed = true) ↔ body = .suspended := by
  cases body with
  | fresh => simp [show w.state.started = false from flags]
  | suspended => simp [flags.1,flags.2]
  | finished => simp [show w.state.completed = true from flags]

theorem resolved_agrees (whole : Whole w) (unheard : w.listeners = []) (flags : Flags w.state body)
    (closure : original ≠ none) (answer : Except Value (Option (Outcome Value))) :
    Agree values ⟨returnArgResolved values w original out answer,body⟩ := by
  cases answer with
  | ok outcome =>
    refine Agree.quiet { whole with listeners := fun original' out outcome member => ?_ } flags fun caller outcome member => ?_
    · obtain earlier | new := List.mem_append.mp member
      · exact whole.listeners original' out outcome earlier
      · cases List.mem_singleton.mp new
        exact closure
    · rw [returnArgResolved,unheard] at member
      cases List.mem_singleton.mp member
  | error reason =>
    rw [returnArgResolved]
    split
    · have closure : w.state.originalThrow ≠ none := by
        rw [whole.throws]
        exact Option.some_ne_none _
      have called := Stays.callOriginal values whole closure reason (.queued out)
      refine Agree.quiet called.whole (called.flags flags) fun caller outcome member => ?_
      rw [called.listeners,unheard] at member
      cases member
    · next idle =>
      exact rejected_agrees whole unheard flags (fun suspended => idle ((suspended_iff flags).mpr suspended)) out reason

end cases

section steps

variable {outcome : Outcome Value}

theorem settles_agrees {i : Nat} {reaction : Reaction Method} {body : Body} (inv : Inv g.world) (agree : Agree values g)
    (meets : Meets values g (.settles i outcome)) (found : g.world.listeners[i]? = some ⟨reaction,none⟩)
    (left : g.bodyOutcome (.settles i outcome) = none ∧ body = g.body ∨
      ∃ result,g.bodyOutcome (.settles i outcome) = some result ∧ bodyAfter values result = some body) :
    Agree values ⟨promiseSettles { g.world with listeners := g.world.listeners.set i ⟨reaction,some outcome⟩ } reaction outcome,
      body⟩ := by
  have whole := agree.whole
  obtain ⟨rfl,only⟩ := inv.listener_alone found
  have changed : g.world.listeners.set 0 ⟨reaction,some outcome⟩ = [⟨reaction,some outcome⟩] := by rw [only]; rfl
  rw [changed]
  cases reaction with
  | settle caller =>
    have brought : g.bodyOutcome (.settles 0 outcome) = some outcome := by rw [Generator.bodyOutcome,found]
    obtain ⟨wrong,-⟩ | ⟨same,brought',left⟩ := left
    · rw [brought] at wrong
      cases wrong
    · obtain rfl := Option.some.inj (brought.symm.trans brought')
      exact settling_agrees whole left (fun suspended => meets.yields outcome brought (suspended ▸ left)) caller
  | returnStep original out =>
    have nothing : g.bodyOutcome (.settles 0 outcome) = none := by rw [Generator.bodyOutcome,found]
    obtain ⟨-,rfl⟩ | ⟨same,brought,-⟩ := left
    · have closure : original ≠ none := whole.listeners original out none (by rw [only]; exact List.mem_singleton_self _)
      refine Agree.quiet { whole with listeners := fun original' out' outcome' member => ?_ } (agree.flags ?_) ?_
      · cases List.mem_singleton.mp member
        exact closure
      · rw [only]
        intro caller outcome member
        cases List.mem_singleton.mp member
      · intro caller outcome member
        cases List.mem_singleton.mp member
    · rw [nothing] at brought
      cases brought

theorem reacts_agrees {i : Nat} {reaction : Reaction Method} (inv : Inv g.world) (agree : Agree values g)
    (meets : Meets values g (.reacts i)) (found : g.world.listeners[i]? = some ⟨reaction,some outcome⟩) :
    Agree values ⟨react values { g.world with listeners := g.world.listeners.eraseIdx i } reaction outcome,g.body⟩ := by
  have whole := agree.whole
  have unheard := (inv.of_listener found).listeners
  obtain ⟨rfl,only⟩ := inv.listener_alone found
  have member : ⟨reaction,some outcome⟩ ∈ g.world.listeners := by
    rw [only]
    exact List.mem_singleton_self _
  have removed : Whole { g.world with listeners := g.world.listeners.eraseIdx 0 } :=
    { whole with listeners := fun original out outcome member => whole.listeners original out outcome (List.mem_of_mem_eraseIdx member) }
  cases reaction with
  | settle caller =>
    obtain ⟨left,yields⟩ := agree.unnoted caller outcome member
    have after := finishAfterPendingResult_stays values removed caller.out outcome
    refine Agree.quiet after.whole (after.flags (noteStepSettlement_flags left yields)) fun caller outcome member => ?_
    rw [react,after.listeners,noteStepSettlement_listeners,unheard] at member
    cases member
  | returnStep original out =>
    have flags := agree.flags fun caller outcome member => by
      rw [only] at member
      cases List.mem_singleton.mp member
    cases outcome with
    | fulfilled value =>
      have called := Stays.callOriginal values removed (whole.listeners original out _ member) value (.queued out)
      refine Agree.quiet called.whole (called.flags flags) fun caller outcome member => ?_
      rw [react,returnStep,called.listeners,unheard] at member
      cases member
    | rejected reason => exact rejected_agrees removed unheard flags (meets.late 0 original out reason rfl found) out reason

end steps

/-- Every step that meets the condition leaves a record that agrees with the body. -/
theorem agree_step (inv : Inv g.world) (agree : Agree values g) (meets : Meets values g e)
    (taken : generatorStep values g e = some t) : Agree values t := by
  obtain ⟨lowers,moved,left⟩ := generatorStep_cases taken
  obtain ⟨world,body⟩ := t
  dsimp only at moved left
  have whole := agree.whole
  have popped {frame : Frame Method Value} {stack : List (Frame Method Value)} (top : g.world.stack = frame :: stack) :
      Whole { g.world with stack := stack } ∧ Flags g.world.state g.body := by
    have unheard := (inv.of_frame top).listeners
    dsimp only at unheard
    refine ⟨{ whole with frames := fun original arg out member => whole.frames original arg out ?_ },agree.flags ?_⟩
    · rw [top]
      exact List.mem_cons_of_mem _ member
    · rw [unheard]
      exact fun _ _ => List.not_mem_nil
  cases e with
  | request original arg kind =>
    obtain ⟨-,rfl⟩ | ⟨outcome,wrong,-⟩ := left
    · cases original with
      | none => cases lowers
      | some method =>
        obtain rfl := Option.some.inj moved
        exact agree.stays (.asyncGeneratorRequest whole method arg kind)
    · cases wrong
  | returns result =>
    dsimp only [step] at moved
    split at moved
    · next caller stack top =>
      obtain rfl := Option.some.inj moved
      obtain ⟨whole,flags⟩ := popped top
      have unheard := (inv.of_frame top).listeners
      cases result with
      | value value => cases lowers
      | pending =>
        obtain ⟨-,rfl⟩ | ⟨outcome,wrong,-⟩ := left
        · exact pending_agrees whole unheard flags caller
        · cases wrong
      | settled outcome =>
        obtain ⟨wrong,-⟩ | ⟨outcome,brought,left⟩ := left
        · cases wrong
        · cases brought
          refine settled_agrees whole unheard left (fun suspended => ?_) caller
          rw [suspended] at left
          exact meets.yields outcome rfl left
    · cases moved
  | resolves answer =>
    dsimp only [step] at moved
    split at moved
    · next original arg out stack top =>
      obtain rfl := Option.some.inj moved
      obtain ⟨whole',flags⟩ := popped top
      have unheard := (inv.of_frame top).listeners
      have closure : original ≠ none := whole.frames original arg out (by rw [top]; exact List.mem_cons_self)
      obtain ⟨-,rfl⟩ | ⟨outcome,wrong,-⟩ := left
      · exact resolved_agrees whole' unheard flags closure answer
      · cases wrong
    · cases moved
  | settles i outcome =>
    dsimp only [step] at moved
    split at moved
    · next reaction found =>
      obtain rfl := Option.some.inj moved
      exact settles_agrees inv agree meets found left
    · cases moved
  | reacts i =>
    dsimp only [step] at moved
    split at moved
    · next reaction outcome found =>
      obtain rfl := Option.some.inj moved
      obtain ⟨-,rfl⟩ | ⟨outcome,wrong,-⟩ := left
      · exact reacts_agrees inv agree meets found
      · cases wrong
    · cases moved
  | drains =>
    dsimp only [step] at moved
    split at moved
    · cases moved
    · obtain rfl := Option.some.inj moved
      have drained : Stays g.world { g.world with drains := g.world.drains - 1 } := ⟨rfl,rfl,rfl,{ whole with }⟩
      obtain ⟨-,rfl⟩ | ⟨outcome,wrong,-⟩ := left
      · exact agree.stays (drained.trans (.processOneQueuedRequest drained.whole))
      · cases wrong

theorem meets_of_plain (nothing : g.bodyOutcome e = none) (early : ∀ i,e ≠ .reacts i) : Meets values g e where
  yields outcome brought := (Option.some_ne_none outcome (brought.symm.trans nothing)).elim
  late i _ _ _ same := absurd same (early i)

section treatment

variable {w : World Method Value} {body : Body} {out : Promise} {reason : Value}

theorem finishAfterImmediateQueuedResult_settles (values : Values Value) (w : World Method Value) (out : Promise) (outcome : Outcome Value) :
    (finishAfterImmediateQueuedResult values w out outcome).calls = w.calls ∧
      (finishAfterImmediateQueuedResult values w out outcome).settled = w.settled ++ [(out,outcome)] := by
  have noted : (noteStepSettlement values w outcome).calls = w.calls ∧
      (noteStepSettlement values w outcome).settled = w.settled := by
    unfold noteStepSettlement
    split
    · exact ⟨rfl,rfl⟩
    · split <;> exact ⟨rfl,rfl⟩
  have drained (v : World Method Value) : (scheduleDrain v).calls = v.calls ∧ (scheduleDrain v).settled = v.settled := by
    unfold scheduleDrain
    split <;> exact ⟨rfl,rfl⟩
  obtain ⟨calls,settled⟩ := noted
  unfold finishAfterImmediateQueuedResult
  dsimp only
  split
  · obtain ⟨calls',settled'⟩ := drained (noteStepSettlement values w outcome)
    exact ⟨calls'.trans calls,congrArg (· ++ [(out,outcome)]) (settled'.trans settled)⟩
  · exact ⟨calls,congrArg (· ++ [(out,outcome)]) settled⟩

theorem unsettled_of_held (held : Held w [out]) : out ∉ w.settled.map Prod.fst := by
  have distinct := List.nodup_range (n := w.issued)
  rw [← held.order] at distinct
  intro member
  exact (List.nodup_append.mp distinct).2.2 out member out (List.mem_append_left _ (List.mem_singleton_self out)) rfl

/-- A failure at once is always treated. -/
theorem treated_at_once (held : Held w [out]) (whole : Whole w) (flags : Flags w.state body) (original : Option Method)
    (same : w.calls = g.world.calls) (same' : w.settled = g.world.settled) (here : g.body = body) (there : t.body = body)
    (taken : t.world = returnArgResolved values w original out (.error reason)) : Treated g t out reason := by
  rw [returnArgResolved] at taken
  unfold Treated
  by_cases suspended : body = .suspended
  · have unsettled := unsettled_of_held held
    rw [if_pos ((suspended_iff flags).mpr suspended),whole.throws,callOriginal,held.stack,held.listeners] at taken
    rw [here,suspended,taken]
    exact ⟨congrArg (· ++ [_]) same,rfl,unsettled⟩
  · rw [if_neg (fun wrong => suspended ((suspended_iff flags).mp wrong))] at taken
    obtain ⟨calls,settled⟩ := finishAfterImmediateQueuedResult_settles values w out (.rejected reason)
    rw [here,there,taken,calls,settled,same,same']
    cases body with
    | fresh => exact ⟨rfl,rfl,rfl⟩
    | suspended => exact absurd rfl suspended
    | finished => exact ⟨rfl,rfl,rfl⟩

/-- A late failure is treated unless the body is suspended. -/
theorem treated_late (same : w.calls = g.world.calls) (same' : w.settled = g.world.settled) (stays : t.body = g.body)
    (taken : t.world = finishAfterImmediateQueuedResult values w out (.rejected reason)) :
    Treated g t out reason ↔ g.body ≠ .suspended := by
  obtain ⟨calls,settled⟩ := finishAfterImmediateQueuedResult_settles values w out (.rejected reason)
  rw [← taken,same] at calls
  rw [← taken,same'] at settled
  unfold Treated
  rw [calls,settled,stays]
  cases g.body with
  | fresh => simp
  | suspended => simp
  | finished => simp

theorem treated_iff (inv : Inv g.world) (agree : Agree values g) (taken : generatorStep values g e = some t)
    (fails : g.failing e = some (out,reason)) : Treated g t out reason ↔ Meets values g e := by
  obtain ⟨-,moved,left⟩ := generatorStep_cases taken
  cases e with
  | request => cases fails
  | returns => cases fails
  | settles => cases fails
  | drains => cases fails
  | resolves answer =>
    have stays : t.body = g.body := by
      obtain ⟨-,stays⟩ | ⟨outcome,wrong,-⟩ := left
      · exact stays
      · cases wrong
    refine iff_of_true ?_ (meets_of_plain rfl (by rintro _ ⟨⟩))
    cases answer with
    | ok outcome => cases fails
    | error reason' =>
      cases top : g.world.stack with
      | nil =>
        rw [Generator.failing,top] at fails
        cases fails
      | cons frame stack =>
        cases frame with
        | running caller =>
          rw [Generator.failing,top] at fails
          cases fails
        | resolving original arg out' =>
          rw [Generator.failing,top] at fails
          cases fails
          rw [step,top] at moved
          have held := inv.of_frame top
          have whole : Whole { g.world with stack := stack } :=
            { agree.whole with
              frames := fun original arg out member => agree.whole.frames original arg out (top ▸ List.mem_cons_of_mem _ member) }
          have flags := agree.flags fun caller outcome member => by
            rw [show g.world.listeners = [] from held.listeners] at member
            cases member
          exact treated_at_once held whole flags original rfl rfl rfl stays (Option.some.inj moved).symm
  | reacts i =>
    have stays : t.body = g.body := by
      obtain ⟨-,stays⟩ | ⟨outcome,wrong,-⟩ := left
      · exact stays
      · cases wrong
    rw [Generator.failing] at fails
    split at fails
    · next original out' reason' found =>
      cases fails
      rw [step,found] at moved
      rw [treated_late (w := { g.world with listeners := g.world.listeners.eraseIdx i }) rfl rfl stays (Option.some.inj moved).symm]
      refine ⟨fun running => ⟨by rintro _ ⟨⟩,fun _ _ _ _ _ _ => running⟩,fun meets => ?_⟩
      exact meets.late i original out reason rfl found
    · cases fails

end treatment

theorem agree_start : Agree values (generatorStart : Generator Value) := by
  refine Agree.quiet ⟨rfl,?_,?_,?_⟩ rfl ?_
  · exact fun _ member => (List.not_mem_nil member).elim
  · exact fun _ _ _ member => (List.not_mem_nil member).elim
  · exact fun _ _ _ member => (List.not_mem_nil member).elim
  · exact fun _ _ member => List.not_mem_nil member

theorem recorded_of_agree (agree : Agree values g) : Recorded g := by
  intro rest started
  have flags := agree.flags fun caller outcome => rest.2 caller (some outcome)
  cases body : g.body with
  | fresh => exact absurd body started
  | suspended =>
    rw [body] at flags
    simp [flags.2]
  | finished =>
    rw [body] at flags
    exact iff_of_true flags rfl

theorem inv_step (inv : Inv g.world) (taken : generatorStep values g e = some t) : Inv t.world :=
  inv.step (generatorStep_cases taken).2.1

end steps

/-- In a run whose steps all meet the condition the record is of the body, and a failing argument of
a `return` is treated as it should be exactly where the next step meets the condition too. -/
theorem failing_return {Value : Type} (values : Values Value) {es : List (Event Method Value)} {g : Generator Value}
    (run : Runs (generatorStep values) generatorStart es g)
    (met : Throughout (generatorStep values) (Meets values) generatorStart es) :
    Recorded g ∧ ∀ e t,generatorStep values g e = some t → ∀ out reason,g.failing e = some (out,reason) →
      (Treated g t out reason ↔ Meets values g e) := by
  have preserved : ∀ {g e t},Inv g.world ∧ Agree values g → Meets values g e → generatorStep values g e = some t →
      Inv t.world ∧ Agree values t := by
    intro g e t both meets taken
    exact ⟨inv_step both.1 taken,agree_step both.1 both.2 meets taken⟩
  have kept : Inv g.world ∧ Agree values g := run.invariant_of preserved met ⟨Inv.wrapped _,agree_start⟩
  exact ⟨recorded_of_agree kept.2,fun e t taken out reason fails => treated_iff kept.1 kept.2 taken fails⟩

/-- Iterator results for tests: zero is the last one, one comes from a yield. -/
def demoValues : Values Nat := ⟨0,fun v => if v = 0 then some true else if v = 1 then some false else none⟩

/-- The body is started up to a yield, and then a `return` comes. -/
def demoEvents : List (Event Method Nat) :=
  [.request (some .next) 0 .nextOrThrow,.returns (.settled (.fulfilled 1)),.drains,.request (some .return) 7 .return]

/-- An argument that fails at once is thrown into the suspended body. -/
theorem failing_return_atOnce : ∃ g t,Runs (generatorStep demoValues) generatorStart demoEvents g ∧
    generatorStep demoValues g (.resolves (.error 9)) = some t ∧ g.body = .suspended ∧ Treated g t 1 9 ∧ Recorded g := by
  have run : Runs (generatorStep demoValues) generatorStart demoEvents _ :=
    .cons rfl (.cons rfl (.cons rfl (.cons rfl (.nil _))))
  have met : Throughout (generatorStep demoValues) (Meets demoValues) generatorStart demoEvents := by
    refine ⟨meets_of_plain rfl (by rintro _ ⟨⟩),fun t taken => ?_⟩
    obtain rfl := Option.some.inj taken
    refine ⟨⟨fun outcome brought _ => rfl,by rintro _ _ _ _ ⟨⟩⟩,fun t taken => ?_⟩
    obtain rfl := Option.some.inj taken
    refine ⟨meets_of_plain rfl (by rintro _ ⟨⟩),fun t taken => ?_⟩
    obtain rfl := Option.some.inj taken
    exact ⟨meets_of_plain rfl (by rintro _ ⟨⟩),fun t taken => trivial⟩
  obtain ⟨recorded,treated⟩ := failing_return demoValues run met
  refine ⟨_,_,run,rfl,rfl,?_,recorded⟩
  exact (treated (.resolves (.error 9)) _ rfl 1 9 rfl).mpr (meets_of_plain rfl (by rintro _ ⟨⟩))

/-- One that is rejected later is not, and the suspended body is recorded as completed. -/
theorem failing_return_late : ∃ g t,Runs (generatorStep demoValues) generatorStart
      (demoEvents ++ [.resolves (.ok (some (.rejected 9)))]) g ∧ generatorStep demoValues g (.reacts 0) = some t ∧
    g.failing (.reacts 0) = some (1,9) ∧ g.body = .suspended ∧ t.body = .suspended ∧ t.world.state.completed = true ∧
    ¬ Treated g t 1 9 ∧ ¬ Recorded t := by
  have run : Runs (generatorStep demoValues) generatorStart (demoEvents ++ [.resolves (.ok (some (.rejected 9)))]) _ :=
    .cons rfl (.cons rfl (.cons rfl (.cons rfl (.cons rfl (.nil _)))))
  refine ⟨_,_,run,rfl,rfl,rfl,rfl,rfl,fun treated => ?_,fun recorded => ?_⟩
  · cases treated.2.1
  · have rest : ∀ t : Generator Nat,t.world.stack = [] → t.world.listeners = [] → t.atRest := by
      intro t still unheard
      rw [Generator.atRest,still,unheard]
      exact ⟨fun _ => List.not_mem_nil,fun _ _ => List.not_mem_nil⟩
    cases (recorded (rest _ rfl rfl) (by decide)).mp rfl

end Perry.Runtime.AsyncGeneratorQueue
