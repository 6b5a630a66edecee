import Perry.Machine.Runs
import Perry.Runtime.Timers

/-! What the agents do to the timer queues, in any order, and what is called: no timeout or immediate
twice, none that was cleared, none before it is due or by another agent; and none is lost. -/
namespace Perry.Runtime.Timers

open Perry.Containers Perry.Machine

variable {V : Type*}

/-- What an agent takes out of the queue in one tick, in the order in which it is called. -/
structure Batch (V : Type*) where
  agent : Nat
  now : Nat
  called : List (CallbackTimer V)

structure Loop (V : Type*) where
  queues : Queues V
  /-- The ids that were taken and under which nothing was scheduled yet. -/
  reserved : List Nat
  batches : List (Batch V)

inductive Event (V : Type*)
  | schedulePromise (owner now delayMs promise : Nat) (value : V) (hasRef : Bool)
  | takeId
  | scheduleCallback (id : Nat) (kind : CallbackTimerKind) (owner now delayMs callback : Nat) (args : List V)
  | scheduleInterval (id owner now intervalMs callback : Nat) (args : List V)
  | clearTimeout (id : Nat)
  | clearImmediate (id : Nat)
  | clearInterval (id : Nat)
  | setRefState (id : Nat) (hasRef : Bool)
  | refresh (id now : Nat)
  | purge (agent : Nat)
  | timerTick (agent now : Nat) (activeHandles : Bool)
  | callbackTick (agent now : Nat) (activeHandles dispatching : Bool)
  | intervalTick (agent now : Nat) (activeHandles dispatching : Bool)

namespace Loop

def start : Loop V := ⟨.new,[],[]⟩

variable (loop : Loop V)

def step : Event V → Option (Loop V)
  | .schedulePromise owner now delayMs promise value hasRef =>
    some { loop with queues := loop.queues.schedulePromiseTimer owner now delayMs promise value hasRef }
  | .takeId => loop.queues.nextTimerId.map fun (id,queues) => { loop with queues := queues, reserved := id :: loop.reserved }
  | .scheduleCallback id kind owner now delayMs callback args =>
    if id ∈ loop.reserved then
      some { loop with
        queues := loop.queues.scheduleCallbackTimer id kind owner now delayMs callback args
        reserved := loop.reserved.erase id }
    else none
  | .scheduleInterval id owner now intervalMs callback args =>
    if id ∈ loop.reserved then
      some { loop with
        queues := loop.queues.scheduleIntervalTimer id owner now intervalMs callback args
        reserved := loop.reserved.erase id }
    else none
  | .clearTimeout id => some { loop with queues := loop.queues.clearTimeout id }
  | .clearImmediate id => some { loop with queues := loop.queues.clearImmediate id }
  | .clearInterval id => some { loop with queues := loop.queues.clearInterval id }
  | .setRefState id hasRef => some { loop with queues := loop.queues.setTimerRefState id hasRef }
  | .refresh id now => some { loop with queues := loop.queues.refresh id now }
  | .purge agent => some { loop with queues := loop.queues.purgeAgentTimers agent }
  | .timerTick agent now activeHandles => some { loop with queues := (loop.queues.timerTick agent now activeHandles).1 }
  | .callbackTick agent now activeHandles dispatching =>
    let ticked := loop.queues.callbackTimerTick agent now activeHandles dispatching
    some { loop with queues := ticked.1, batches := loop.batches ++ [⟨agent,now,ticked.2⟩] }
  | .intervalTick agent now activeHandles dispatching =>
    some { loop with queues := (loop.queues.intervalTimerTick agent now activeHandles dispatching).1 }

def waiting : List Nat := loop.queues.callbackTimers.map CallbackTimer.id

def calledIds : List Nat := loop.batches.flatMap fun batch => batch.called.map CallbackTimer.id

/-- Every id that was taken for a callback, and where it is now. -/
def ledger : List Nat := loop.reserved ++ loop.waiting ++ loop.calledIds

end Loop

/-- The event takes the timer out of the queue without calling it. -/
def Event.removes : Event V → CallbackTimer V → Bool
  | .clearTimeout id,timer => timer.id == id && timer.kind == .timeout
  | .clearInterval id,timer => timer.id == id && timer.kind == .timeout
  | .clearImmediate id,timer => timer.id == id && timer.kind == .immediate
  | .purge agent,timer => timer.owner == agent
  | _,_ => false

/-- By its owner, when it is due, and in order. -/
structure Batch.Sound (batch : Batch V) : Prop where
  owned : ∀ timer ∈ batch.called,timer.owner = batch.agent
  due : ∀ timer ∈ batch.called,timer.deadline ≤ batch.now
  ordered : batch.called.Pairwise fun a b => a.before b

def CallbackTimer.identity (timer : CallbackTimer V) : Nat × CallbackTimerKind × Nat := (timer.id,timer.kind,timer.owner)

/-- What a step can do to the timeouts and immediates. -/
inductive Change (s : Loop V) (e : Event V) (t : Loop V) : Prop
  | kept (callbackTimers : t.queues.callbackTimers = s.queues.callbackTimers.filter fun timer => !e.removes timer)
      (reserved : t.reserved.Sublist s.reserved) (batches : t.batches = s.batches)
      (next : t.queues.nextId = s.queues.nextId)
  | taken (callbackTimers : t.queues.callbackTimers = s.queues.callbackTimers)
      (reserved : t.reserved = s.queues.nextId :: s.reserved) (batches : t.batches = s.batches)
      (next : t.queues.nextId = s.queues.nextId + 1)
  | scheduled {timer : CallbackTimer V} (callbackTimers : t.queues.callbackTimers = s.queues.callbackTimers ++ [timer])
      (live : timer.cleared = false) (known : timer.id ∈ s.reserved) (reserved : t.reserved = s.reserved.erase timer.id)
      (batches : t.batches = s.batches) (next : t.queues.nextId = s.queues.nextId)
  | refreshed (callbackTimers : t.queues.callbackTimers.map CallbackTimer.identity = s.queues.callbackTimers.map CallbackTimer.identity)
      (live : ∀ timer ∈ t.queues.callbackTimers,timer ∈ s.queues.callbackTimers ∨ timer.cleared = false)
      (reserved : t.reserved = s.reserved) (batches : t.batches = s.batches)
      (next : t.queues.nextId = s.queues.nextId)
  | ticked {batch : Batch V} {expired : CallbackTimer V → Bool}
      (callbackTimers : t.queues.callbackTimers = s.queues.callbackTimers.filter fun timer => !expired timer)
      (called : batch.called.Perm (s.queues.callbackTimers.filter expired))
      (sound : batch.Sound) (reserved : t.reserved = s.reserved) (batches : t.batches = s.batches ++ [batch])
      (next : t.queues.nextId = s.queues.nextId)

section Steps

variable {s t : Loop V} {e : Event V}

theorem calledIds_eq (batches : t.batches = s.batches) : t.calledIds = s.calledIds := by
  rw [Loop.calledIds,batches,Loop.calledIds]

theorem refresh_change (queues : Queues V) (id now : Nat) :
    (queues.refresh id now).callbackTimers.map CallbackTimer.identity = queues.callbackTimers.map CallbackTimer.identity ∧
      (∀ timer ∈ (queues.refresh id now).callbackTimers,timer ∈ queues.callbackTimers ∨ timer.cleared = false) ∧
      (queues.refresh id now).nextId = queues.nextId := by
  rw [Queues.refresh]
  split
  · rename_i changed found
    have same : changed.map CallbackTimer.identity = queues.callbackTimers.map CallbackTimer.identity := by
      apply modifyFirst_map ?_ found
      intro timer
      rfl
    refine ⟨same,?_,rfl⟩
    intro timer member
    rcases mem_modifyFirst found member with old | ⟨before,-,rfl⟩
    · exact .inl old
    · exact .inr rfl
  · split
    · exact ⟨rfl,fun _ member => .inl member,rfl⟩
    · exact ⟨rfl,fun _ member => .inl member,rfl⟩

theorem callbackTimerTick_change (queues : Queues V) (agent now : Nat) (activeHandles : Bool)
    (live : ∀ timer ∈ queues.callbackTimers,timer.cleared = false) :
    queues.callbackTimerTick agent now activeHandles false =
      ({ queues with callbackTimers := queues.callbackTimers.filter fun timer => !queues.callbackExpired agent now activeHandles timer },
        orderExpiredCallbackBatch (queues.callbackTimers.filter (queues.callbackExpired agent now activeHandles))) := by
  have rest : (queues.callbackTimers.filter fun timer => !timer.cleared && !queues.callbackExpired agent now activeHandles timer) =
      queues.callbackTimers.filter fun timer => !queues.callbackExpired agent now activeHandles timer :=
    List.filter_congr fun timer member => by simp [live timer member]
  have taken : (queues.callbackTimers.filter fun timer => !timer.cleared && queues.callbackExpired agent now activeHandles timer) =
      queues.callbackTimers.filter (queues.callbackExpired agent now activeHandles) :=
    List.filter_congr fun timer member => by simp [live timer member]
  have called : (orderExpiredCallbackBatch (queues.callbackTimers.filter (queues.callbackExpired agent now activeHandles))).filter
      (fun timer => !timer.cleared) =
      orderExpiredCallbackBatch (queues.callbackTimers.filter (queues.callbackExpired agent now activeHandles)) := by
    rw [List.filter_eq_self]
    intro timer member
    have inside := List.mem_of_mem_filter ((orderExpiredCallbackBatch_perm _).mem_iff.mp member)
    simp [live timer inside]
  simp only [Queues.callbackTimerTick,drainExpiredTimers_eq,Bool.false_eq_true,if_false,rest,taken,called]

theorem callbackTimerTick_sound (queues : Queues V) (agent now : Nat) (activeHandles : Bool) :
    Batch.Sound ⟨agent,now,orderExpiredCallbackBatch (queues.callbackTimers.filter (queues.callbackExpired agent now activeHandles))⟩ := by
  have expired : ∀ timer ∈ orderExpiredCallbackBatch (queues.callbackTimers.filter (queues.callbackExpired agent now activeHandles)),
      timer.owner = agent ∧ timer.deadline ≤ now := by
    intro timer member
    have due := (List.mem_filter.mp ((orderExpiredCallbackBatch_perm _).mem_iff.mp member)).2
    simp only [Queues.callbackExpired,Bool.and_eq_true,beq_iff_eq,decide_eq_true_eq] at due
    exact due.1
  exact ⟨fun timer member => (expired timer member).1,fun timer member => (expired timer member).2,orderExpiredCallbackBatch_sorted _⟩

theorem step_change (live : ∀ timer ∈ s.queues.callbackTimers,timer.cleared = false) (done : s.step e = some t) : Change s e t := by
  cases e with
  | schedulePromise owner now delayMs promise value hasRef =>
    obtain rfl := Option.some.inj done
    exact .kept (by simp [Event.removes,Queues.schedulePromiseTimer]) (.refl _) rfl rfl
  | takeId =>
    obtain ⟨⟨id,queues⟩,fresh,rfl⟩ := Option.map_eq_some_iff.mp done
    rw [Queues.nextTimerId,Option.ite_none_right_eq_some] at fresh
    obtain ⟨rfl,rfl⟩ := Prod.mk.inj (Option.some.inj fresh.2)
    exact .taken rfl rfl rfl rfl
  | scheduleCallback id kind owner now delayMs callback args =>
    rw [Loop.step,Option.ite_none_right_eq_some] at done
    obtain rfl := Option.some.inj done.2
    exact .scheduled rfl rfl done.1 rfl rfl rfl
  | scheduleInterval id owner now intervalMs callback args =>
    rw [Loop.step,Option.ite_none_right_eq_some] at done
    obtain rfl := Option.some.inj done.2
    exact .kept (by simp [Event.removes,Queues.scheduleIntervalTimer,Queues.setTimerRefState]) List.erase_sublist rfl rfl
  | clearTimeout id =>
    obtain rfl := Option.some.inj done
    exact .kept (by simp [Event.removes,Queues.clearTimeout,bne]) (.refl _) rfl rfl
  | clearImmediate id =>
    obtain rfl := Option.some.inj done
    exact .kept (by simp [Event.removes,Queues.clearImmediate,bne]) (.refl _) rfl rfl
  | clearInterval id =>
    obtain rfl := Option.some.inj done
    exact .kept (by simp [Event.removes,Queues.clearInterval,bne]) (.refl _) rfl rfl
  | setRefState id hasRef =>
    obtain rfl := Option.some.inj done
    exact .kept (by simp [Event.removes,Queues.setTimerRefState]) (.refl _) rfl rfl
  | refresh id now =>
    obtain rfl := Option.some.inj done
    obtain ⟨same,kept,next⟩ := refresh_change s.queues id now
    exact .refreshed same kept rfl rfl next
  | purge agent =>
    obtain rfl := Option.some.inj done
    exact .kept rfl (.refl _) rfl rfl
  | timerTick agent now activeHandles =>
    obtain rfl := Option.some.inj done
    exact .kept (by simp [Event.removes,Queues.timerTick]) (.refl _) rfl rfl
  | callbackTick agent now activeHandles dispatching =>
    obtain rfl := Option.some.inj done
    cases dispatching with
    | true =>
      have nobody : (s.queues.callbackTimers.filter fun _ => false) = [] := by simp
      have sound : Batch.Sound (⟨agent,now,[]⟩ : Batch V) := ⟨by simp,by simp,.nil⟩
      exact .ticked (by simp [Queues.callbackTimerTick]) (.of_eq nobody.symm) sound rfl rfl rfl
    | false =>
      have ticked := callbackTimerTick_change s.queues agent now activeHandles live
      have sound := callbackTimerTick_sound s.queues agent now activeHandles
      exact .ticked (by simp only [ticked]) (orderExpiredCallbackBatch_perm _) sound rfl (by simp only [ticked]) (by simp only [ticked])
  | intervalTick agent now activeHandles dispatching =>
    obtain rfl := Option.some.inj done
    cases dispatching <;> exact .kept (by simp [Event.removes,Queues.intervalTimerTick]) (.refl _) rfl rfl

namespace Change

variable (change : Change s e t)
include change

theorem live (before : ∀ timer ∈ s.queues.callbackTimers,timer.cleared = false) :
    ∀ timer ∈ t.queues.callbackTimers,timer.cleared = false := by
  intro timer member
  cases change with
  | kept callbackTimers => exact before timer (List.mem_of_mem_filter (callbackTimers ▸ member))
  | taken callbackTimers => exact before timer (callbackTimers ▸ member)
  | scheduled callbackTimers live =>
    rw [callbackTimers,List.mem_append,List.mem_singleton] at member
    rcases member with old | rfl
    · exact before timer old
    · exact live
  | refreshed _ live =>
    rcases live timer member with old | renewed
    · exact before timer old
    · exact renewed
  | ticked callbackTimers => exact before timer (List.mem_of_mem_filter (callbackTimers ▸ member))

/-- An id enters the ledger when it is taken, and never twice. -/
theorem ledger : (t.ledger.Subperm s.ledger ∧ t.queues.nextId = s.queues.nextId) ∨
    (t.ledger = s.queues.nextId :: s.ledger ∧ t.queues.nextId = s.queues.nextId + 1) := by
  cases change with
  | kept callbackTimers reserved batches next =>
    have waiting : t.waiting.Sublist s.waiting := by
      rw [Loop.waiting,callbackTimers]
      exact List.filter_sublist.map _
    rw [Loop.ledger,calledIds_eq batches]
    exact .inl ⟨((reserved.append waiting).append_right _).subperm,next⟩
  | taken callbackTimers reserved batches next =>
    exact .inr ⟨by simp [Loop.ledger,Loop.waiting,Loop.calledIds,callbackTimers,reserved,batches],next⟩
  | @scheduled timer callbackTimers live known reserved batches next =>
    have moved : (t.reserved ++ t.waiting).Perm (s.reserved ++ s.waiting) := by
      rw [reserved,Loop.waiting,callbackTimers,List.map_append]
      calc List.Perm (s.reserved.erase timer.id ++ (s.waiting ++ [timer.id])) (s.reserved.erase timer.id ++ s.waiting ++ [timer.id]) :=
            .of_eq (List.append_assoc ..).symm
        List.Perm _ (timer.id :: (s.reserved.erase timer.id ++ s.waiting)) := List.perm_append_singleton ..
        List.Perm _ (s.reserved ++ s.waiting) := ((List.perm_cons_erase known).append_right _).symm
    rw [Loop.ledger,calledIds_eq batches]
    exact .inl ⟨(moved.append_right _).subperm,next⟩
  | refreshed callbackTimers live reserved batches next =>
    have waiting : t.waiting = s.waiting := by
      simpa [Loop.waiting,Function.comp_def,CallbackTimer.identity] using congrArg (List.map Prod.fst) callbackTimers
    rw [Loop.ledger,reserved,waiting,calledIds_eq batches]
    exact .inl ⟨.refl _,next⟩
  | @ticked batch expired callbackTimers called sound reserved batches next =>
    have parted : (t.waiting ++ batch.called.map CallbackTimer.id).Perm s.waiting := by
      rw [Loop.waiting,callbackTimers,← List.map_append]
      apply List.Perm.map
      exact (called.append_left _).trans (List.perm_append_comm.trans (List.filter_append_perm expired _))
    have calledIds : t.calledIds = s.calledIds ++ batch.called.map CallbackTimer.id := by
      simp [Loop.calledIds,batches]
    have moved : (t.waiting ++ t.calledIds).Perm (s.waiting ++ s.calledIds) := by
      rw [calledIds]
      have swapped : List.Perm (t.waiting ++ (s.calledIds ++ batch.called.map CallbackTimer.id))
          (t.waiting ++ (batch.called.map CallbackTimer.id ++ s.calledIds)) := List.perm_append_comm.append_left _
      have joined := parted.append_right s.calledIds
      rw [List.append_assoc] at joined
      exact swapped.trans joined
    rw [Loop.ledger,Loop.ledger,reserved,List.append_assoc,List.append_assoc]
    exact .inl ⟨(moved.append_left _).subperm,next⟩

theorem sound (before : ∀ batch ∈ s.batches,batch.Sound) : ∀ batch ∈ t.batches,batch.Sound := by
  intro batch member
  cases change with
  | kept _ _ batches => exact before batch (batches ▸ member)
  | taken _ _ batches => exact before batch (batches ▸ member)
  | scheduled _ _ _ _ batches => exact before batch (batches ▸ member)
  | refreshed _ _ _ batches => exact before batch (batches ▸ member)
  | ticked _ _ sound _ batches =>
    rw [batches,List.mem_append,List.mem_singleton] at member
    rcases member with old | rfl
    · exact before batch old
    · exact sound

theorem called_stays {id : Nat} (called : id ∈ s.calledIds) : id ∈ t.calledIds := by
  cases change with
  | kept _ _ batches => rwa [calledIds_eq batches]
  | taken _ _ batches => rwa [calledIds_eq batches]
  | scheduled _ _ _ _ batches => rwa [calledIds_eq batches]
  | refreshed _ _ _ batches => rwa [calledIds_eq batches]
  | ticked _ _ _ _ batches =>
    rw [Loop.calledIds,batches,List.flatMap_append]
    exact List.mem_append_left _ called

/-- A timer stays in the queue until it is called or removed. -/
theorem remains {timer : CallbackTimer V} (member : timer ∈ s.queues.callbackTimers) :
    (∃ kept ∈ t.queues.callbackTimers,kept.identity = timer.identity) ∨ timer.id ∈ t.calledIds ∨ e.removes timer := by
  cases change with
  | kept callbackTimers =>
    cases removed : e.removes timer with
    | true => exact .inr (.inr rfl)
    | false => exact .inl ⟨timer,by simp [callbackTimers,member,removed],rfl⟩
  | taken callbackTimers => exact .inl ⟨timer,callbackTimers ▸ member,rfl⟩
  | scheduled callbackTimers => exact .inl ⟨timer,callbackTimers ▸ List.mem_append_left _ member,rfl⟩
  | refreshed callbackTimers =>
    have known := List.mem_map_of_mem (f := CallbackTimer.identity) member
    rw [← callbackTimers] at known
    exact .inl (List.mem_map.mp known)
  | @ticked batch expired callbackTimers called sound reserved batches =>
    cases due : expired timer with
    | false => exact .inl ⟨timer,by simp [callbackTimers,member,due],rfl⟩
    | true =>
      have inside : timer ∈ batch.called := called.mem_iff.mpr (List.mem_filter.mpr ⟨member,due⟩)
      refine .inr (.inl (List.mem_flatMap.mpr ⟨batch,?_,List.mem_map_of_mem inside⟩))
      simp [batches]

end Change

end Steps

section Reached

/-- Ids are given out once, and a timer that was called is in the queue no longer. -/
structure Loop.Inv (loop : Loop V) : Prop where
  live : ∀ timer ∈ loop.queues.callbackTimers,timer.cleared = false
  distinct : loop.ledger.Nodup
  below : ∀ id ∈ loop.ledger,id < loop.queues.nextId
  sound : ∀ batch ∈ loop.batches,batch.Sound

variable {s t : Loop V} {e : Event V} {es : List (Event V)}

theorem inv_start : Loop.Inv (Loop.start : Loop V) where
  live := by simp [Loop.start,Queues.new]
  distinct := List.nodup_nil
  below := by simp [Loop.start,Loop.ledger,Loop.waiting,Loop.calledIds,Queues.new]
  sound := by simp [Loop.start]

theorem inv_step (inv : s.Inv) (done : s.step e = some t) : t.Inv := by
  have change := step_change inv.live done
  rcases change.ledger with ⟨inside,next⟩ | ⟨entered,next⟩
  · exact ⟨change.live inv.live,nodup_of_subperm inside inv.distinct,
      fun id member => next ▸ inv.below id (inside.subset member),change.sound inv.sound⟩
  · have fresh : s.queues.nextId ∉ s.ledger := fun member => Nat.lt_irrefl _ (inv.below _ member)
    refine ⟨change.live inv.live,entered ▸ List.nodup_cons.mpr ⟨fresh,inv.distinct⟩,?_,change.sound inv.sound⟩
    intro id member
    rw [entered,List.mem_cons] at member
    rcases member with rfl | old
    · omega
    · have := inv.below id old
      omega

theorem inv_run (run : Runs Loop.step s es t) (inv : s.Inv) : t.Inv := run.invariant inv_step inv

theorem removes_identity {kept timer : CallbackTimer V} (same : kept.identity = timer.identity) : e.removes kept = e.removes timer := by
  simp only [CallbackTimer.identity,Prod.mk.injEq] at same
  obtain ⟨id,kind,owner⟩ := same
  cases e <;> simp only [Event.removes,id,kind,owner]

theorem remains_run (run : Runs Loop.step s es t) (inv : s.Inv) {timer : CallbackTimer V} (member : timer ∈ s.queues.callbackTimers) :
    (∃ kept ∈ t.queues.callbackTimers,kept.identity = timer.identity) ∨ timer.id ∈ t.calledIds ∨ ∃ e ∈ es,e.removes timer := by
  have later : ∀ {s t : Loop V} {es : List (Event V)} {id : Nat},Runs Loop.step s es t → s.Inv → id ∈ s.calledIds → id ∈ t.calledIds := by
    intro s t es id run inv called
    induction run with
    | nil => exact called
    | cons taken _ ih => exact ih (inv_step inv taken) ((step_change inv.live taken).called_stays called)
  induction run generalizing timer with
  | nil => exact .inl ⟨timer,member,rfl⟩
  | cons taken rest ih =>
    have change := step_change inv.live taken
    rcases change.remains member with ⟨kept,inside,same⟩ | called | removed
    · have sameId : kept.id = timer.id := congrArg Prod.fst same
      rcases ih (inv_step inv taken) inside with ⟨last,found,lastSame⟩ | called | ⟨e,among,removed⟩
      · exact .inl ⟨last,found,lastSame.trans same⟩
      · exact .inr (.inl (sameId ▸ called))
      · exact .inr (.inr ⟨e,List.mem_cons_of_mem _ among,(removes_identity same) ▸ removed⟩)
    · exact .inr (.inl (later rest (inv_step inv taken) called))
    · exact .inr (.inr ⟨_,List.mem_cons_self,removed⟩)

theorem removal {timer : CallbackTimer V} (removed : e.removes timer) (done : s.step e = some t) :
    t.queues.callbackTimers = (s.queues.callbackTimers.filter fun timer => !e.removes timer) ∧
      t.reserved = s.reserved ∧ t.batches = s.batches ∧ t.queues.nextId = s.queues.nextId := by
  cases e with
  | clearTimeout id =>
    obtain rfl := Option.some.inj done
    exact ⟨by simp [Event.removes,Queues.clearTimeout,bne],rfl,rfl,rfl⟩
  | clearImmediate id =>
    obtain rfl := Option.some.inj done
    exact ⟨by simp [Event.removes,Queues.clearImmediate,bne],rfl,rfl,rfl⟩
  | clearInterval id =>
    obtain rfl := Option.some.inj done
    exact ⟨by simp [Event.removes,Queues.clearInterval,bne],rfl,rfl,rfl⟩
  | purge agent =>
    obtain rfl := Option.some.inj done
    exact ⟨rfl,rfl,rfl,rfl⟩
  | _ => cases removed

/-- A timer that is taken out of the queue leaves the ledger. -/
theorem removed_leaves (inv : s.Inv) {timer : CallbackTimer V} (member : timer ∈ s.queues.callbackTimers) (removed : e.removes timer)
    (done : s.step e = some t) : timer.id < t.queues.nextId ∧ timer.id ∉ t.ledger := by
  obtain ⟨callbackTimers,reserved,batches,next⟩ := removal removed done
  have waits : timer.id ∈ s.waiting := List.mem_map_of_mem member
  obtain ⟨open_distinct,-,apart⟩ := List.nodup_append'.mp inv.distinct
  obtain ⟨-,distinct,unreserved⟩ := List.nodup_append'.mp open_distinct
  refine ⟨next ▸ inv.below _ (List.mem_append_left _ (List.mem_append_right _ waits)),fun inside => ?_⟩
  rw [Loop.ledger,List.mem_append,List.mem_append] at inside
  rcases inside with (held | waiting) | called
  · exact unreserved (reserved ▸ held) waits
  · obtain ⟨other,found,same⟩ := List.mem_map.mp waiting
    rw [callbackTimers,List.mem_filter] at found
    obtain rfl := List.inj_on_of_nodup_map distinct found.1 member same
    simp [removed] at found
  · rw [calledIds_eq batches] at called
    exact apart (List.mem_append_right _ waits) called

/-- An id that left the ledger does not come back. -/
theorem gone_run (run : Runs Loop.step s es t) (inv : s.Inv) {id : Nat} (old : id < s.queues.nextId) (gone : id ∉ s.ledger) :
    id ∉ t.ledger := by
  induction run with
  | nil => exact gone
  | cons taken rest ih =>
    rcases (step_change inv.live taken).ledger with ⟨inside,next⟩ | ⟨entered,next⟩
    · exact ih (inv_step inv taken) (next ▸ old) fun member => gone (inside.subset member)
    · refine ih (inv_step inv taken) (by omega) fun member => ?_
      rcases List.mem_cons.mp (entered ▸ member) with rfl | member
      · exact Nat.lt_irrefl _ old
      · exact gone member

end Reached

section Results

variable {loop later : Loop V} {events more : List (Event V)}

/-- However the agents interleave, no timeout or immediate is called twice, each is called by its owner
when it is due, and one that waits is still waiting later unless it was called or removed. -/
theorem callbacks_called_once (run : Runs Loop.step Loop.start events loop) :
    loop.calledIds.Nodup ∧ (∀ batch ∈ loop.batches,batch.Sound) ∧ (∀ id ∈ loop.calledIds,id ∉ loop.waiting) ∧
      ∀ {more : List (Event V)} {later : Loop V},Runs Loop.step loop more later → ∀ timer ∈ loop.queues.callbackTimers,
        (∃ kept ∈ later.queues.callbackTimers,kept.identity = timer.identity) ∨ timer.id ∈ later.calledIds ∨
          ∃ e ∈ more,e.removes timer := by
  have inv := inv_run run inv_start
  obtain ⟨-,distinct,apart⟩ := List.nodup_append'.mp inv.distinct
  refine ⟨distinct,inv.sound,?_,fun rest timer member => remains_run rest inv member⟩
  intro id called waits
  exact apart (List.mem_append_right _ waits) called

def scheduling : List (Event Nat) := [.takeId,.takeId,.takeId,.scheduleCallback 1 .timeout 0 0 9 7 [],.scheduleCallback 2 .timeout 1 0 5 8 [],
  .scheduleCallback 3 .immediate 0 0 0 9 []]

def ticking : List (Event Nat) := [.callbackTick 0 5 false false,.callbackTick 1 5 false false,.callbackTick 0 9 false false,
  .callbackTick 0 12 false false]

/-- Each agent's timers are called in its own ticks, and no tick calls them again. -/
theorem callbacks_called_once_agents : ∃ loop later : Loop Nat,
    Runs Loop.step Loop.start scheduling loop ∧ Runs Loop.step loop ticking later ∧ later.calledIds.Nodup ∧
      (∀ batch ∈ later.batches,batch.Sound) ∧ ∀ id ∈ [1,2,3],id ∈ later.calledIds := by
  obtain ⟨loop,later,run,rest,waits,empty⟩ : ∃ loop later : Loop Nat,
      Runs Loop.step Loop.start scheduling loop ∧ Runs Loop.step loop ticking later ∧
        loop.queues.callbackTimers.map CallbackTimer.id = [1,2,3] ∧ later.queues.callbackTimers = [] :=
    ⟨_,_,.cons rfl (.cons rfl (.cons rfl (.cons rfl (.cons rfl (.cons rfl (.nil _)))))),
      .cons rfl (.cons rfl (.cons rfl (.cons rfl (.nil _)))),rfl,rfl⟩
  have once := callbacks_called_once (run.append rest)
  refine ⟨loop,later,run,rest,once.1,once.2.1,fun id scheduled => ?_⟩
  rw [← waits] at scheduled
  obtain ⟨timer,member,rfl⟩ := List.mem_map.mp scheduled
  rcases (callbacks_called_once run).2.2.2 rest timer member with ⟨kept,there,-⟩ | called | ⟨e,among,removed⟩
  · rw [empty] at there
    cases there
  · exact called
  · fin_cases among <;> cases removed

/-- What is cleared, or whose agent ends, while it waits is never called. -/
theorem cleared_never_called (run : Runs Loop.step Loop.start events loop) {timer : CallbackTimer V}
    (waits : timer ∈ loop.queues.callbackTimers) {e : Event V} (removed : e.removes timer)
    (rest : Runs Loop.step loop (e :: more) later) : timer.id ∉ later.calledIds ∧ timer.id ∉ later.waiting := by
  have inv := inv_run run inv_start
  cases rest with
  | cons taken rest =>
    obtain ⟨old,gone⟩ := removed_leaves inv waits removed taken
    have never := gone_run rest (inv_step inv taken) old gone
    exact ⟨fun called => never (List.mem_append_right _ called),
      fun waiting => never (List.mem_append_left _ (List.mem_append_right _ waiting))⟩

theorem cleared_never_called_timeout : ∃ loop later : Loop Nat,
    Runs Loop.step Loop.start [.takeId,.scheduleCallback 1 .timeout 0 0 5 7 []] loop ∧
      Runs Loop.step loop [.clearTimeout 1,.callbackTick 0 5 false false] later ∧ 1 ∉ later.calledIds := by
  obtain ⟨loop,run,waits⟩ : ∃ loop : Loop Nat, Runs Loop.step Loop.start [.takeId,.scheduleCallback 1 .timeout 0 0 5 7 []] loop ∧
      (⟨1,.timeout,5,5,7,[],false,0⟩ : CallbackTimer Nat) ∈ loop.queues.callbackTimers :=
    ⟨_,.cons rfl (.cons rfl (.nil _)),List.mem_singleton_self _⟩
  obtain ⟨later,rest⟩ : ∃ later : Loop Nat, Runs Loop.step loop [.clearTimeout 1,.callbackTick 0 5 false false] later :=
    ⟨_,.cons rfl (.cons rfl (.nil _))⟩
  exact ⟨loop,later,run,rest,(cleared_never_called run waits rfl rest).1⟩

/-- A tick calls exactly what is due: timeouts by their deadlines, those due together in the order of
the queue, then immediates in the order of the queue. What is not due stays where it was. -/
theorem tick_calls_due (run : Runs Loop.step Loop.start events loop) (agent now : Nat) (activeHandles : Bool) :
    let due := loop.queues.callbackTimers.filter (loop.queues.callbackExpired agent now activeHandles)
    let (queues,called) := loop.queues.callbackTimerTick agent now activeHandles false
    called.Perm due ∧ called.Pairwise (fun a b => a.before b) ∧
      (∀ deadline,called.filter (fun timer => timer.kind = .timeout ∧ timer.deadline = deadline) =
        due.filter fun timer => timer.kind = .timeout ∧ timer.deadline = deadline) ∧
      called.filter (fun timer => timer.kind = .immediate) = due.filter (fun timer => timer.kind = .immediate) ∧
      queues.callbackTimers = loop.queues.callbackTimers.filter fun timer => !loop.queues.callbackExpired agent now activeHandles timer := by
  intro due
  rw [callbackTimerTick_change loop.queues agent now activeHandles (inv_run run inv_start).live]
  refine ⟨orderExpiredCallbackBatch_perm due,orderExpiredCallbackBatch_sorted due,fun deadline => ?_,?_,rfl⟩
  · apply orderExpiredCallbackBatch_ties
    intro a b first second
    obtain ⟨ka,da⟩ := of_decide_eq_true first
    obtain ⟨kb,db⟩ := of_decide_eq_true second
    simp [CallbackTimer.before,ka,kb,da,db]
  · apply orderExpiredCallbackBatch_ties
    intro a b first second
    simp [CallbackTimer.before,of_decide_eq_true first,of_decide_eq_true second]

theorem tick_calls_due_immediates : ∃ loop : Loop Nat,
    Runs Loop.step Loop.start [.takeId,.takeId,.scheduleCallback 2 .immediate 0 0 0 7 [],.scheduleCallback 1 .immediate 0 0 0 8 []] loop ∧
      (loop.queues.callbackTimerTick 0 5 false false).2.Pairwise fun a b => a.before b := by
  obtain ⟨loop,run⟩ : ∃ loop : Loop Nat, Runs Loop.step Loop.start
      [.takeId,.takeId,.scheduleCallback 2 .immediate 0 0 0 7 [],.scheduleCallback 1 .immediate 0 0 0 8 []] loop :=
    ⟨_,.cons rfl (.cons rfl (.cons rfl (.cons rfl (.nil _))))⟩
  exact ⟨loop,run,(tick_calls_due run 0 5 false).2.1⟩

end Results

end Perry.Runtime.Timers
