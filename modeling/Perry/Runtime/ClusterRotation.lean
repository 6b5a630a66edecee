import Perry.Containers.Rotation
import Perry.Machine.Runs
import Perry.Runtime.ClusterFrames

/-! The primary's side of `cluster_sched.rs`: workers ask for a shared port, die, and are handed
the accepted connections of their key in turn. -/
namespace Perry.Runtime.Cluster

open Containers Machine

structure PrimaryKeyInner where
  workers : List Nat
  rrIndex : Nat
  deriving DecidableEq, Repr

structure PrimaryKey where
  actualPort : Nat
  keyId : UInt32
  rr : Bool
  inner : PrimaryKeyInner
  deriving DecidableEq, Repr

abbrev PrimaryKeys := Chars → Option PrimaryKey

def showInt (n : Int) : Chars := if n < 0 then 0x2D :: showNat n.natAbs else showNat n.natAbs

/-- FNV-1a over the address. -/
def computeKeyId (host : Chars) (port : Nat) (addressType : Int) : UInt32 :=
  (encode (showInt addressType ++ codes ":" ++ host ++ codes ":" ++ showNat port)).foldl
    (fun hash b => (hash ^^^ b.toUInt32) * 0x01000193) 0x811c9dc5

def reqKey (host : Chars) (reqPort addressType : Int) (rr : Bool) : Chars :=
  showInt addressType ++ codes ":" ++ codes (if rr then "rr" else "n") ++ codes ":" ++ host ++ codes ":" ++ showInt reqPort

def addWorker (inner : PrimaryKeyInner) (worker : Nat) : PrimaryKeyInner :=
  if worker ∈ inner.workers then inner else { inner with workers := inner.workers ++ [worker] }

/-- A query answers with the port. The primary binds the address of a new key, if it can, to
the port given. -/
def primaryHandleQuery (keys : PrimaryKeys) (worker : Nat) (host : Chars) (reqPort addressType : Int) (rr : Bool)
    (bound : Option Nat) : PrimaryKeys × Option Nat :=
  let key := reqKey host reqPort addressType rr
  match keys key with
  | some existing =>
    (Function.update keys key (some { existing with inner := addWorker existing.inner worker }),some existing.actualPort)
  | none =>
    match bound with
    | none => (keys,none)
    | some actualPort =>
      let entry := {
        actualPort
        keyId := computeKeyId host actualPort addressType
        rr
        inner := ⟨[worker],0⟩ }
      (Function.update keys key (some entry),some actualPort)

def removeWorker (inner : PrimaryKeyInner) (worker : Nat) : PrimaryKeyInner :=
  match inner.workers.findIdx? (· = worker) with
  | none => inner
  | some pos =>
    let workers := inner.workers.eraseIdx pos
    ⟨workers,if max workers.length 1 ≤ inner.rrIndex then 0 else inner.rrIndex⟩

def primaryRemoveWorker (keys : PrimaryKeys) (worker : Nat) : PrimaryKeys := fun key =>
  (keys key).map fun entry => { entry with inner := removeWorker entry.inner worker }

/-- The indices in the order in which a connection is offered. -/
def offers (inner : PrimaryKeyInner) : List Nat :=
  let n := inner.workers.length
  (List.range n).map fun off => (inner.rrIndex % n + off) % n

/-- A connection is offered in turn to the workers, until one of them accepts it. -/
def dispatchFdRoundRobin (accepts : Nat → Bool) (inner : PrimaryKeyInner) : PrimaryKeyInner × Option Nat :=
  match (offers inner).find? fun idx => (inner.workers[idx]?).any accepts with
  | none => (inner,none)
  | some idx => ({ inner with rrIndex := (idx + 1) % inner.workers.length },inner.workers[idx]?)

inductive Event where
  | query (worker : Nat) (host : Chars) (reqPort addressType : Int) (rr : Bool) (bound : Option Nat)
  | remove (worker : Nat)
  | connect (key : Chars) (accepts : Nat → Bool)

/-- Only a key under round robin has an accept loop. -/
def step (keys : PrimaryKeys) : Event → Option PrimaryKeys
  | .query worker host reqPort addressType rr bound => some (primaryHandleQuery keys worker host reqPort addressType rr bound).1
  | .remove worker => some (primaryRemoveWorker keys worker)
  | .connect key accepts =>
    match keys key with
    | some entry =>
      if entry.rr then some (Function.update keys key (some { entry with inner := (dispatchFdRoundRobin accepts entry.inner).1 }))
      else none
    | none => none

/-- The worker to which an event gives a connection of the key. -/
def handedOut (key : Chars) (keys : PrimaryKeys) : Event → Option Nat
  | .connect key' accepts => if key' = key then (keys key).bind fun entry => (dispatchFdRoundRobin accepts entry.inner).2 else none
  | _ => none

/-- The workers to which events give the connections of the key, one after the other. -/
def handOuts (key : Chars) : PrimaryKeys → List Event → List Nat
  | _,[] => []
  | keys,e :: es => (handedOut key keys e).toList ++ ((step keys e).elim [] fun keys => handOuts key keys es)

def workersOf (keys : PrimaryKeys) (key : Chars) : List Nat := (keys key).elim [] fun entry => entry.inner.workers

/-- The worker is registered for the key, and takes the connections it is offered. -/
def Serving (key : Chars) (worker : Nat) (keys : PrimaryKeys) (e : Event) : Prop :=
  worker ∈ workersOf keys key ∧ ∀ accepts,e = .connect key accepts → accepts worker = true

/-- A removal leaves the turn where it was: the worker is not in front of the index, or the last
one but one and the index behind it. -/
def KeepsTurn (inner : PrimaryKeyInner) (worker : Nat) : Prop :=
  worker ∉ inner.workers.take inner.rrIndex ∨ inner.rrIndex = 1 ∧ inner.workers.length = 2

/-- Whenever a worker is removed, the turn is left where it was. -/
def TurnKept (key : Chars) (keys : PrimaryKeys) (e : Event) : Prop :=
  ∀ worker,e = .remove worker → ∀ entry,keys key = some entry → KeepsTurn entry.inner worker

/-- No worker is registered twice, and the index is a position. -/
structure Sound (inner : PrimaryKeyInner) : Prop where
  distinct : inner.workers.Nodup
  position : inner.rrIndex < max inner.workers.length 1

def SoundKeys (keys : PrimaryKeys) : Prop := ∀ key entry,keys key = some entry → Sound entry.inner

/-- The first of two workers of a key is offered a connection before the second. -/
def Follows (key : Chars) (first second : Nat) (keys : PrimaryKeys) : Prop :=
  ∃ entry,keys key = some entry ∧
    Precedes first second (entry.inner.workers.take entry.inner.rrIndex) (entry.inner.workers.drop entry.inner.rrIndex)

section operations

variable {inner : PrimaryKeyInner} {worker first second : Nat}

theorem offers_eq (sound : Sound inner) : (offers inner).map (inner.workers[·]?) = (turns inner.workers inner.rrIndex).map some := by
  have position := sound.position
  rcases Nat.eq_zero_or_pos inner.workers.length with none | some
  · rw [List.length_eq_zero_iff] at none
    simp [offers,none,turns]
  · have inside : inner.rrIndex < inner.workers.length := by omega
    rw [turns_eq_rotate inside.le]
    refine List.ext_getElem? fun off => ?_
    rw [List.getElem?_map,List.getElem?_map,offers,List.getElem?_map]
    rcases Nat.lt_or_ge off inner.workers.length with early | late
    · have place : (inner.rrIndex + off) % inner.workers.length < inner.workers.length := Nat.mod_lt _ some
      rw [List.getElem?_range early,List.getElem?_rotate early,Nat.mod_eq_of_lt inside,Nat.add_comm off,
        List.getElem?_eq_getElem place]
      simp
    · rw [List.getElem?_eq_none (by simpa using late),List.getElem?_eq_none (by simpa using late)]
      rfl

/-- A connection goes to the first worker in turn that accepts it. -/
theorem dispatch_cases (sound : Sound inner) (accepts : Nat → Bool) :
    dispatchFdRoundRobin accepts inner = (inner,none) ∨
      ∃ skipped taken rest,turns inner.workers inner.rrIndex = skipped ++ taken :: rest ∧
        (∀ worker ∈ skipped,accepts worker = false) ∧ dispatchFdRoundRobin accepts inner =
          ({ inner with rrIndex := (inner.rrIndex + skipped.length + 1) % inner.workers.length },some taken) := by
  unfold dispatchFdRoundRobin
  cases found : (offers inner).find? fun idx => (inner.workers[idx]?).any accepts with
  | none => exact .inl rfl
  | some idx =>
    right
    obtain ⟨-,before,after,shape,refused⟩ := List.find?_eq_some_iff_append.mp found
    have offered := offers_eq sound
    rw [shape,List.map_append,List.map_cons] at offered
    obtain ⟨skipped,others,whole,front,back⟩ := List.map_eq_append_iff.mp offered.symm
    obtain ⟨taken,rest,rfl,here,-⟩ := List.map_eq_cons_iff.mp back
    have count : skipped.length = before.length := by simpa using congrArg List.length front
    have place : (offers inner)[before.length]? = some idx := by
      rw [shape,List.getElem?_append_right le_rfl,Nat.sub_self]
      rfl
    rw [offers,List.getElem?_map,Option.map_eq_some_iff] at place
    obtain ⟨off,inside,rfl⟩ := place
    obtain ⟨_,same⟩ := List.getElem?_eq_some_iff.mp inside
    rw [List.getElem_range] at same
    subst same
    refine ⟨skipped,taken,rest,whole,fun worker member => ?_,?_⟩
    · have seen : some worker ∈ before.map (inner.workers[·]?) := by
        rw [← front]
        exact List.mem_map_of_mem member
      obtain ⟨idx,early,read⟩ := List.mem_map.mp seen
      have missed := refused idx early
      rw [read] at missed
      simpa using missed
    · dsimp only
      rw [← here,count,Nat.mod_add_mod,Nat.add_assoc,Nat.mod_add_mod,Nat.add_assoc]

theorem Sound.addWorker (sound : Sound inner) : Sound (addWorker inner worker) := by
  have position := sound.position
  unfold Cluster.addWorker
  split
  · exact sound
  · rename_i new
    refine ⟨?_,?_⟩
    · rw [List.nodup_append]
      refine ⟨sound.distinct,List.nodup_singleton _,fun w member v last => ?_⟩
      rw [List.mem_singleton.mp last]
      exact fun same => new (same ▸ member)
    · dsimp only
      rw [List.length_append,List.length_singleton]
      omega

theorem removeWorker_cases (inner : PrimaryKeyInner) (worker : Nat) :
    worker ∉ inner.workers ∧ removeWorker inner worker = inner ∨ worker ∈ inner.workers ∧ removeWorker inner worker =
      ⟨inner.workers.erase worker,if max (inner.workers.erase worker).length 1 ≤ inner.rrIndex then 0 else inner.rrIndex⟩ := by
  have erased := List.erase_eq_eraseIdx inner.workers worker
  have found : inner.workers.findIdx? (· = worker) = inner.workers.idxOf? worker := rfl
  rw [removeWorker,found]
  cases place : inner.workers.idxOf? worker with
  | none => exact .inl ⟨List.idxOf?_eq_none_iff.mp place,rfl⟩
  | some pos =>
    rw [place] at erased
    refine .inr ⟨?_,by rw [erased]⟩
    by_contra absent
    rw [List.idxOf?_eq_none_iff.mpr absent] at place
    cases place

theorem Sound.removeWorker (sound : Sound inner) : Sound (removeWorker inner worker) := by
  obtain ⟨-,same⟩ | ⟨-,shape⟩ := removeWorker_cases inner worker
  · rw [same]
    exact sound
  · rw [shape]
    refine ⟨sound.distinct.erase worker,?_⟩
    dsimp only
    split <;> omega

theorem Sound.dispatch (sound : Sound inner) (accepts : Nat → Bool) : Sound (dispatchFdRoundRobin accepts inner).1 := by
  obtain none | ⟨skipped,taken,rest,split,-,shape⟩ := dispatch_cases sound accepts
  · rw [none]
    exact sound
  · rw [shape]
    refine ⟨sound.distinct,?_⟩
    have size := congrArg List.length split
    rw [turns,List.length_append,List.length_append,List.length_cons,List.length_take,List.length_drop] at size
    have inside := Nat.mod_lt (inner.rrIndex + skipped.length + 1) (y := inner.workers.length) (by omega)
    dsimp only
    omega

theorem SoundKeys.step {keys keys' : PrimaryKeys} {e : Event} (sound : SoundKeys keys) (taken : step keys e = some keys') :
    SoundKeys keys' := by
  have updated {key : Chars} {entry : PrimaryKey} (fits : Sound entry.inner) :
      SoundKeys (Function.update keys key (some entry)) := by
    intro other entry' found
    rw [Function.update_apply] at found
    split at found
    · cases found
      exact fits
    · exact sound other entry' found
  cases e with
  | query worker host reqPort addressType rr bound =>
    obtain rfl := Option.some.inj taken
    unfold primaryHandleQuery
    dsimp only
    split
    · rename_i existing found
      exact updated (sound _ existing found).addWorker
    · cases bound with
      | none => exact sound
      | some actualPort => exact updated ⟨List.nodup_singleton _,by simp⟩
  | remove worker =>
    obtain rfl := Option.some.inj taken
    intro key entry found
    obtain ⟨entry,before,rfl⟩ := Option.map_eq_some_iff.mp found
    exact (sound key entry before).removeWorker
  | connect key accepts =>
    dsimp only [Cluster.step] at taken
    split at taken
    · rename_i entry found
      split at taken
      · obtain rfl := Option.some.inj taken
        exact updated ((sound key entry found).dispatch accepts)
      · cases taken
    · cases taken

theorem Sound.index_le (sound : Sound inner) : inner.rrIndex ≤ inner.workers.length := by
  have position := sound.position
  omega

theorem addWorker_precedes (sound : Sound inner)
    (precedes : Precedes first second (inner.workers.take inner.rrIndex) (inner.workers.drop inner.rrIndex)) :
    Precedes first second ((addWorker inner worker).workers.take (addWorker inner worker).rrIndex)
      ((addWorker inner worker).workers.drop (addWorker inner worker).rrIndex) := by
  unfold addWorker
  split
  · exact precedes
  · rename_i new
    dsimp only
    rw [List.take_append_of_le_length sound.index_le,List.drop_append_of_le_length sound.index_le]
    exact precedes.append fun member => new (List.mem_of_mem_take member)

theorem removeWorker_precedes (sound : Sound inner) (kept : KeepsTurn inner worker) (other : worker ≠ first)
    (precedes : Precedes first second (inner.workers.take inner.rrIndex) (inner.workers.drop inner.rrIndex)) :
    Precedes first second ((removeWorker inner worker).workers.take (removeWorker inner worker).rrIndex)
      ((removeWorker inner worker).workers.drop (removeWorker inner worker).rrIndex) := by
  obtain ⟨-,same⟩ | ⟨member,shape⟩ := removeWorker_cases inner worker
  · rw [same]
    exact precedes
  · obtain ⟨workers,next⟩ := inner
    have inside := sound.index_le
    dsimp only [KeepsTurn] at member shape kept precedes inside
    rw [shape]
    by_cases behind : worker ∉ workers.take next
    · have left := List.take_append_drop next workers
      have size := List.length_take_of_le inside
      have waits : worker ∈ workers.drop next := by
        rw [← left,List.mem_append] at member
        exact member.resolve_left behind
      have erased : workers.erase worker = workers.take next ++ (workers.drop next).erase worker := by
        conv_lhs => rw [← left]
        exact List.erase_append_right _ behind
      have moved := precedes.erase other
      dsimp only
      split
      · rename_i wrapped
        rw [erased,List.length_append,size] at wrapped
        have gone : (workers.drop next).erase worker = [] := List.length_eq_zero_iff.mp (by omega)
        rw [gone] at moved
        rw [erased,gone,List.append_nil]
        exact moved.restart
      · rw [erased,List.take_left' size,List.drop_left' size]
        exact moved
    · obtain ⟨rfl,two⟩ := kept.resolve_left behind
      obtain ⟨x,y,rfl⟩ := List.length_eq_two.mp two
      have removed : worker = x := by simpa using behind
      have stays : first = y := by
        have member : first ∈ [x] ++ [y] := precedes.mem
        rw [List.singleton_append,List.mem_cons,List.mem_singleton] at member
        exact member.resolve_left fun same => other (removed.trans same.symm)
      subst removed stays
      rw [List.erase_cons_head]
      exact @Precedes.ahead _ _ _ _ [] _ List.not_mem_nil

/-- A connection that the first of two workers would take does not go to the second. -/
theorem dispatch_precedes (sound : Sound inner) {accepts : Nat → Bool} (takes : accepts first = true)
    (precedes : Precedes first second (inner.workers.take inner.rrIndex) (inner.workers.drop inner.rrIndex))
    (other : (dispatchFdRoundRobin accepts inner).2 ≠ some first) : (dispatchFdRoundRobin accepts inner).2 ≠ some second ∧
      Precedes first second ((dispatchFdRoundRobin accepts inner).1.workers.take (dispatchFdRoundRobin accepts inner).1.rrIndex)
        ((dispatchFdRoundRobin accepts inner).1.workers.drop (dispatchFdRoundRobin accepts inner).1.rrIndex) := by
  obtain none | ⟨skipped,taken,rest,split,refused,shape⟩ := dispatch_cases sound accepts
  · rw [none]
    exact ⟨Option.some_ne_none second |>.symm,precedes⟩
  · rw [shape] at other ⊢
    have passed : first ∉ skipped := fun member => by
      rw [refused first member] at takes
      cases takes
    have turn := precedes.turn split passed fun same => other (congrArg some same)
    rw [List.length_take_of_le sound.index_le,List.take_append_drop] at turn
    exact ⟨fun same => turn.1 (Option.some_inj.mp same),turn.2⟩

/-- Whoever was given a connection comes last. -/
theorem precedes_of_dispatch (sound : Sound inner) {accepts : Nat → Bool} (given : (dispatchFdRoundRobin accepts inner).2 = some second)
    (member : first ∈ inner.workers) (other : first ≠ second) :
    Precedes first second ((dispatchFdRoundRobin accepts inner).1.workers.take (dispatchFdRoundRobin accepts inner).1.rrIndex)
      ((dispatchFdRoundRobin accepts inner).1.workers.drop (dispatchFdRoundRobin accepts inner).1.rrIndex) := by
  obtain none | ⟨skipped,taken,rest,split,refused,shape⟩ := dispatch_cases sound accepts
  · rw [none] at given
    cases given
  · rw [shape] at given ⊢
    obtain rfl := Option.some_inj.mp given
    have last := turns_turn sound.index_le split
    have after : Sound { inner with rrIndex := (inner.rrIndex + skipped.length + 1) % inner.workers.length } := by
      have dispatched := sound.dispatch accepts
      rwa [shape] at dispatched
    have rotated := turns_eq_rotate after.index_le
    refine Precedes.of_last last ?_ ?_
    · change (turns _ _).Nodup
      rw [rotated]
      exact List.nodup_rotate.mpr sound.distinct
    · have inside : first ∈ turns inner.workers inner.rrIndex := by
        rw [turns_eq_rotate sound.index_le]
        exact List.mem_rotate.mpr member
      rw [split] at inside
      simp only [List.mem_append,List.mem_cons] at inside ⊢
      tauto

end operations

section spans

variable {key : Chars} {first second : Nat} {keys keys' : PrimaryKeys} {e : Event}

/-- Until the first of two workers is given a connection, it stays before the second. -/
theorem Follows.step (follows : Follows key first second keys) (sound : SoundKeys keys) (serving : Serving key first keys e)
    (kept : TurnKept key keys e) (other : handedOut key keys e ≠ some first) :
    handedOut key keys e ≠ some second ∧ ∀ keys',Cluster.step keys e = some keys' → first ∈ workersOf keys' key → Follows key first second keys' := by
  obtain ⟨entry,found,precedes⟩ := follows
  cases e with
  | query worker host reqPort addressType rr bound =>
    refine ⟨Option.some_ne_none second |>.symm,fun keys' taken _ => ?_⟩
    obtain rfl := Option.some.inj taken
    unfold primaryHandleQuery
    dsimp only
    by_cases same : reqKey host reqPort addressType rr = key
    · rw [same,found]
      exact ⟨_,Function.update_self ..,addWorker_precedes (sound key entry found) precedes⟩
    · have apart (other : PrimaryKey) :
          Function.update keys (reqKey host reqPort addressType rr) (some other) key = some entry := by
        rw [Function.update_of_ne (Ne.symm same),found]
      split
      · exact ⟨entry,apart _,precedes⟩
      · cases bound with
        | none => exact ⟨entry,found,precedes⟩
        | some actualPort => exact ⟨entry,apart _,precedes⟩
  | remove worker =>
    refine ⟨Option.some_ne_none second |>.symm,fun keys' taken stays => ?_⟩
    obtain rfl := Option.some.inj taken
    have after : primaryRemoveWorker keys worker key = some { entry with inner := removeWorker entry.inner worker } := by
      rw [primaryRemoveWorker,found]
      rfl
    refine ⟨_,after,removeWorker_precedes (sound key entry found) (kept worker rfl entry found) ?_ precedes⟩
    rintro rfl
    rw [workersOf,after] at stays
    dsimp only [Option.elim] at stays
    obtain ⟨absent,same⟩ | ⟨-,shape⟩ := removeWorker_cases entry.inner worker
    · rw [same] at stays
      exact absent stays
    · rw [shape] at stays
      exact ((sound key entry found).distinct.mem_erase_iff.mp stays).1 rfl
  | connect key' accepts =>
    by_cases same : key' = key
    · subst same
      have given : handedOut key' keys (.connect key' accepts) = (dispatchFdRoundRobin accepts entry.inner).2 := by
        rw [handedOut,if_pos rfl,found]
        rfl
      rw [given] at other ⊢
      obtain ⟨missed,after⟩ := dispatch_precedes (sound key' entry found) (serving.2 accepts rfl) precedes other
      refine ⟨missed,fun keys' taken _ => ?_⟩
      dsimp only [Cluster.step] at taken
      rw [found] at taken
      dsimp only at taken
      split at taken
      · obtain rfl := Option.some.inj taken
        exact ⟨_,Function.update_self ..,after⟩
      · cases taken
    · refine ⟨?_,fun keys' taken _ => ?_⟩
      · rw [handedOut,if_neg same]
        exact Option.some_ne_none second |>.symm
      · dsimp only [Cluster.step] at taken
        split at taken
        · split at taken
          · obtain rfl := Option.some.inj taken
            exact ⟨entry,by rw [Function.update_of_ne (Ne.symm same),found],precedes⟩
          · cases taken
        · cases taken

theorem handedOut_some (given : handedOut key keys e = some second) : ∃ accepts entry,e = .connect key accepts ∧
    keys key = some entry ∧ (dispatchFdRoundRobin accepts entry.inner).2 = some second := by
  cases e with
  | query => cases given
  | remove => cases given
  | connect key' accepts =>
    rw [handedOut] at given
    split at given
    · rename_i same
      obtain ⟨entry,found,given⟩ := Option.bind_eq_some_iff.mp given
      exact ⟨accepts,entry,by rw [same],found,given⟩
    · cases given

/-- Whoever was given a connection comes last. -/
theorem Follows.start (sound : SoundKeys keys) (taken : Cluster.step keys e = some keys') (given : handedOut key keys e = some second)
    (member : first ∈ workersOf keys' key) (other : first ≠ second) : Follows key first second keys' := by
  obtain ⟨accepts,entry,rfl,found,given⟩ := handedOut_some given
  dsimp only [Cluster.step] at taken
  rw [found] at taken
  dsimp only at taken
  split at taken
  · obtain rfl := Option.some.inj taken
    have after := Function.update_self key (some { entry with inner := (dispatchFdRoundRobin accepts entry.inner).1 }) keys
    refine ⟨_,after,precedes_of_dispatch (sound key entry found) given ?_ other⟩
    rw [workersOf,after] at member
    obtain none | ⟨skipped,taken,rest,-,-,shape⟩ := dispatch_cases (sound key entry found) accepts
    · rw [none] at member
      exact member
    · rw [shape] at member
      exact member
  · cases taken

/-- Over a span the first of two workers is given a connection, or it stays before the second. -/
theorem Follows.run {es : List Event} {u : PrimaryKeys} {f : Event} (run : Runs Cluster.step keys es u) (follows : Follows key first second keys)
    (sound : SoundKeys keys) (serving : Throughout Cluster.step (Serving key first) keys (es ++ [f]))
    (kept : Throughout Cluster.step (TurnKept key) keys es) :
    first ∈ handOuts key keys es ∨ Follows key first second u ∧ SoundKeys u ∧ Serving key first u f := by
  induction run with
  | nil => exact .inr ⟨follows,sound,serving.1⟩
  | @cons keys t u e es taken rest ih =>
    rw [handOuts,taken,List.mem_append]
    by_cases given : handedOut key keys e = some first
    · exact .inl (.inl (by rw [given]; exact List.mem_singleton_self _))
    · have stays := serving.2 t taken
      have registered : first ∈ workersOf t key := by
        cases es with
        | nil => exact stays.1.1
        | cons => exact stays.1.1
      have after := (follows.step sound serving.1 kept.1 given).2 t taken registered
      exact (ih after (sound.step taken) stays (kept.2 t taken)).imp_left Or.inr

end spans

/-- In every run no worker is registered twice for a key and the index is a valid position. Between
two connections of a key that go to one worker, every other worker that is registered and takes
what it is offered is given a connection, if the removals in between leave the turn where it was. -/
theorem rotation_fair {es : List Event} {s : PrimaryKeys} (run : Runs step (fun _ => none) es s) :
    SoundKeys s ∧ ∀ key e a t fs u f,step s e = some t → handedOut key s e = some a → Runs step t fs u →
      handedOut key u f = some a → Throughout step (TurnKept key) t fs → ∀ b ≠ a,
        Throughout step (Serving key b) t (fs ++ [f]) → b ∈ handOuts key t fs := by
  have sound : SoundKeys s := run.invariant (fun sound taken => SoundKeys.step sound taken) fun key entry found => by cases found
  refine ⟨sound,fun key e a t fs u f taken given span again kept b other serving => ?_⟩
  have registered : b ∈ workersOf t key := by
    cases fs with
    | nil => exact serving.1.1
    | cons => exact serving.1.1
  have follows := Follows.start sound taken given registered other
  obtain received | ⟨follows,sound,serving⟩ := Follows.run span follows (sound.step taken) serving kept
  · exact received
  · exfalso
    have turn := follows.step (e := f) sound serving ?_ ?_
    · exact turn.1 again
    · obtain ⟨accepts,-,rfl,-⟩ := handedOut_some again
      intro worker removal
      cases removal
    · rw [again]
      exact fun same => other (Option.some_inj.mp same).symm

section demo

def demoKey : Chars := reqKey (codes "0.0.0.0") 80 4 true

def demoQuery (worker : Nat) : Event := .query worker (codes "0.0.0.0") 80 4 true (some 80)

def demoConnect : Event := .connect demoKey fun _ => true

def demoKeys (inner : PrimaryKeyInner) : PrimaryKeys :=
  Function.update (fun _ => none) demoKey (some ⟨80,computeKeyId (codes "0.0.0.0") 80 4,true,inner⟩)

variable {inner : PrimaryKeyInner} {worker : Nat}

private theorem demo_first : step (fun _ => none) (demoQuery worker) = some (demoKeys ⟨[worker],0⟩) := rfl

private theorem demo_found (inner : PrimaryKeyInner) : demoKeys inner demoKey = some ⟨80,computeKeyId (codes "0.0.0.0") 80 4,true,inner⟩ :=
  Function.update_self ..

private theorem demo_query : step (demoKeys inner) (demoQuery worker) = some (demoKeys (addWorker inner worker)) := by
  have known := demo_found inner
  rw [demoKey] at known
  simp only [demoQuery,step,primaryHandleQuery,known]
  exact congrArg some (Function.update_idem ..)

private theorem demo_remove : step (demoKeys inner) (.remove worker) = some (demoKeys (removeWorker inner worker)) := by
  refine congrArg some (funext fun key => ?_)
  rw [primaryRemoveWorker,demoKeys,demoKeys,Function.update_apply,Function.update_apply]
  split <;> rfl

private theorem demo_connect :
    step (demoKeys inner) demoConnect = some (demoKeys (dispatchFdRoundRobin (fun _ => true) inner).1) := by
  rw [demoConnect,step,demo_found]
  exact congrArg some (Function.update_idem ..)

private theorem demo_handedOut :
    handedOut demoKey (demoKeys inner) demoConnect = (dispatchFdRoundRobin (fun _ => true) inner).2 := by
  rw [demoConnect,handedOut,if_pos rfl,demo_found]
  rfl

private theorem demo_serving (member : worker ∈ inner.workers) (e : Event) (connects : ∀ key accepts,e = .connect key accepts → e = demoConnect) :
    Serving demoKey worker (demoKeys inner) e := by
  refine ⟨?_,fun accepts same => ?_⟩
  · rw [workersOf,demo_found]
    exact member
  · have whole := connects _ _ same
    rw [same] at whole
    obtain ⟨-,rfl⟩ := Event.connect.inj whole
    rfl

end demo

/-- Two workers of a port take turns. -/
theorem rotation_fair_two : 2 ∈ handOuts demoKey (demoKeys ⟨[1,2],1⟩) [demoConnect] := by
  have run : Runs step (fun _ => none) [demoQuery 1,demoQuery 2] (demoKeys ⟨[1,2],0⟩) :=
    .cons demo_first (.cons demo_query (.nil _))
  have span : Runs step (demoKeys ⟨[1,2],1⟩) [demoConnect] (demoKeys ⟨[1,2],0⟩) := .cons demo_connect (.nil _)
  refine (rotation_fair run).2 demoKey demoConnect 1 _ [demoConnect] _ demoConnect demo_connect demo_handedOut span
    demo_handedOut ⟨fun worker same => (by cases same),fun t taken => trivial⟩ 2 (by decide) ?_
  refine ⟨demo_serving (by decide) _ fun _ _ _ => rfl,fun t taken => ⟨?_,fun u taken => trivial⟩⟩
  obtain rfl := Option.some.inj (demo_connect.symm.trans taken)
  exact demo_serving (by decide) _ fun _ _ _ => rfl

/-- With three workers a removal in front of the index hands the turn of the third to the second again. -/
theorem rotation_skips : ∃ es s e t fs u f,Runs step (fun _ => none) es s ∧ step s e = some t ∧ handedOut demoKey s e = some 2 ∧
    Runs step t fs u ∧ handedOut demoKey u f = some 2 ∧ Throughout step (Serving demoKey 3) t (fs ++ [f]) ∧
      3 ∉ handOuts demoKey t fs := by
  refine ⟨[demoQuery 1,demoQuery 2,demoQuery 3,demoConnect],demoKeys ⟨[1,2,3],1⟩,demoConnect,demoKeys ⟨[1,2,3],2⟩,[.remove 1],
    demoKeys ⟨[2,3],0⟩,demoConnect,?_,demo_connect,demo_handedOut,.cons demo_remove (.nil _),demo_handedOut,?_,?_⟩
  · exact .cons demo_first (.cons demo_query (.cons demo_query (.cons demo_connect (.nil _))))
  · refine ⟨demo_serving (by decide) _ fun _ _ same => (by cases same),fun t taken => ⟨?_,fun u taken => trivial⟩⟩
    obtain rfl := Option.some.inj (demo_remove.symm.trans taken)
    exact demo_serving (by decide) _ fun _ _ _ => rfl
  · exact List.not_mem_nil

end Perry.Runtime.Cluster
