import Perry.Runtime.MapCursor

/-! `forEach` walks over a map that their callbacks change.
A walk keeps a raw slot counter and callbacks may start further walks, so a run is a stack of walks
over one map. The specification runs the same callbacks over `[[MapData]]`. The two agree as long as
no read squeezes slots away from below a counter and every act stays within its bounds.
-/
namespace Perry.Runtime.Map

open Perry.Containers Perry.Machine

variable {K V : Type}

/-- One action of a callback. -/
inductive Action (K V : Type)
  | op (operation : Op K V)
  | forEach
  deriving DecidableEq,Repr

inductive Observation (K V : Type)
  | visited (entry : K × V)
  | answered (answer : Answer K V)
  deriving DecidableEq,Repr

/-- A walk: its counter, and what its current callback has still to do. -/
structure Walk (K V : Type) where
  counter : Nat
  pending : List (Action K V)
  deriving DecidableEq,Repr

/-- A state of the run, the innermost walk first. -/
structure Machine (Store K V : Type) where
  store : Store
  walks : List (Walk K V)
  calls : Nat
  seen : List (Observation K V)
  deriving DecidableEq

variable [DecidableEq K] (keys : Keys K) (script : Nat → List (Action K V))

/-- One step of `js_map_foreach_impl` and of the callbacks it calls; the callback that is called
`calls`-th over the whole run performs `script calls`. -/
def foreachStep (machine : Machine (MapHeader K V) K V) : Option (Machine (MapHeader K V) K V) :=
  let map := machine.store
  match machine.walks with
  | [] => some machine
  | walk :: outer => match walk.pending with
    | .op operation :: rest => (perform keys map operation).map fun (map,answer) =>
      { machine with
        store := map
        walks := { walk with pending := rest } :: outer
        seen := machine.seen ++ [.answered answer] }
    | .forEach :: rest => (jsMapForeachStart keys map).map fun map =>
      { machine with
        store := map
        walks := ⟨0,[]⟩ :: { walk with pending := rest } :: outer }
    | [] => match nextLive map.slots walk.counter with
      | none => (jsMapForeachFinish keys map).map fun map => { machine with store := map,walks := outer }
      | some index => some
        { machine with
          walks := ⟨index + 1,script machine.calls⟩ :: outer
          calls := machine.calls + 1
          seen := machine.seen ++ (map.mapEntryRaw index).toList.map .visited }

def foreachRun (map : MapHeader K V) : Nat → Option (Machine (MapHeader K V) K V)
  | 0 => (jsMapForeachStart keys map).map fun map => ⟨map,[⟨0,[]⟩],0,[]⟩
  | steps + 1 => (foreachRun map steps).bind (foreachStep keys script)

/-- The same step over `[[MapData]]`. -/
def MapData.foreachStep (machine : Machine (MapData K V) K V) : Machine (MapData K V) K V :=
  let data := machine.store
  match machine.walks with
  | [] => machine
  | walk :: outer => match walk.pending with
    | .op operation :: rest =>
      { machine with
        store := data.perform operation
        walks := { walk with pending := rest } :: outer
        seen := machine.seen ++ [.answered (data.respond operation)] }
    | .forEach :: rest =>
      { machine with walks := ⟨0,[]⟩ :: { walk with pending := rest } :: outer }
    | [] => match nextLive data walk.counter with
      | none => { machine with walks := outer }
      | some index =>
        { machine with
          walks := ⟨index + 1,script machine.calls⟩ :: outer
          calls := machine.calls + 1
          seen := machine.seen ++ data[index]?.join.toList.map .visited }

def MapData.foreachRun (data : MapData K V) (steps : Nat) : Machine (MapData K V) K V :=
  (MapData.foreachStep script)^[steps] ⟨data,[⟨0,[]⟩],0,[]⟩

/-- The operations that squeeze a holey buffer whether or not a walk is active. -/
def Op.squeezes : Op K V → Bool
  | .keys => true
  | .values => true
  | .entries => true
  | .copy => true
  | _ => false

def Act.squeezes : Act K V → Bool
  | .op operation => operation.squeezes
  | _ => false

/-- What the next step of the run does to the map. -/
def nextAct (machine : Machine (MapHeader K V) K V) : Option (Act K V) :=
  match machine.walks with
  | ⟨_,.op operation :: _⟩ :: _ => some (.op operation)
  | ⟨_,.forEach :: _⟩ :: _ => some .foreachStart
  | ⟨counter,[]⟩ :: _ => if nextLive machine.store.slots counter = none then some .foreachFinish else none
  | [] => none

/-- The next act is within its bounds, and a read that squeezes finds no hole below the counter of an
active walk. -/
def Undisturbed (machine : Machine (MapHeader K V) K V) : Prop :=
  ∀ act ∈ nextAct machine, act.Fits keys machine.store ∧ (act.squeezes = true →
    ∀ walk ∈ machine.walks, holesBelow machine.store.slots walk.counter = 0)

instance (machine : Machine (MapHeader K V) K V) : Decidable (Undisturbed keys machine) :=
  inferInstanceAs (Decidable (∀ act ∈ nextAct machine, act.Fits keys machine.store ∧ (act.squeezes = true →
    ∀ walk ∈ machine.walks, holesBelow machine.store.slots walk.counter = 0)))

/-- Two stacks of walks that do the same, with aligned counters. -/
abbrev AlignedWalks (slots : List (Option (K × V))) (data : MapData K V) :
    List (Walk K V) → List (Walk K V) → Prop :=
  List.Forall₂ fun walk walk' => walk.pending = walk'.pending ∧
    Aligned slots walk.counter data walk'.counter

/-- Two states in step: each walk's counters are aligned. -/
structure InStep (code : Machine (MapHeader K V) K V) (spec : Machine (MapData K V) K V) : Prop where
  well : WellIndexed keys code.store
  same : code.store.entries = spec.store.reduceOption
  active : code.walks.length ≤ code.store.walks
  calls : code.calls = spec.calls
  seen : code.seen = spec.seen
  walks : AlignedWalks code.store.slots spec.store code.walks spec.walks

variable {keys script}

section Buffers

variable {buffer : Buffer K V}

omit [DecidableEq K] in
theorem shiftAll_readChanges (buffer : Buffer K V) {cursor : Nat}
    (clean : holesBelow buffer.slots cursor = 0) : shiftAll buffer cursor buffer.readChanges = cursor := by
  unfold Buffer.readChanges
  split
  · simp [shiftAll,Change.shift,clean]
  · rfl

/-- Under a walk an act leaves a counter where it is. -/
theorem shiftAll_changes (active : buffer.mapForeachIsActive = true) {cursor : Nat}
    (op : Op K V) (clean : op.squeezes = true → holesBelow buffer.slots cursor = 0) :
    shiftAll buffer cursor (buffer.changes op) = cursor := by
  cases op with
  | set key value =>
    simp only [Buffer.changes,Buffer.roomChanges,active]
    split
    · rfl
    · split <;> simp [shiftAll,Change.shift]
  | delete key =>
    simp only [Buffer.changes,active]
    split <;> simp [shiftAll,Change.shift]
  | clear => simp [Buffer.changes,active,shiftAll,Change.shift]
  | get key => rfl
  | has key => rfl
  | size => rfl
  | keys => exact shiftAll_readChanges buffer (clean rfl)
  | values => exact shiftAll_readChanges buffer (clean rfl)
  | entries => exact shiftAll_readChanges buffer (clean rfl)
  | copy => exact shiftAll_readChanges buffer (clean rfl)
  | entryAt index => simp [Buffer.changes,active,shiftAll]

omit [DecidableEq K] in
@[simp] theorem walks_squeezeEntries (buffer : Buffer K V) : buffer.squeezeEntries.walks = buffer.walks := by
  unfold Buffer.squeezeEntries
  dsimp only
  split <;> rfl

omit [DecidableEq K] in
theorem walks_readChanges (buffer : Buffer K V) : (applyAll buffer buffer.readChanges).walks = buffer.walks := by
  unfold Buffer.readChanges
  split <;> simp [applyAll,Change.apply]

theorem walks_changes (buffer : Buffer K V) (op : Op K V) : (applyAll buffer (buffer.changes op)).walks = buffer.walks := by
  cases op with
  | set key value =>
    simp only [Buffer.changes,Buffer.roomChanges]
    split
    · rfl
    · split
      · rfl
      · split
        · split <;> simp [applyAll,Change.apply]
        · rfl
  | delete key =>
    simp only [Buffer.changes]
    split
    · split <;> simp [applyAll,Change.apply]
    · rfl
  | clear =>
    simp only [Buffer.changes]
    split
    · rfl
    · split <;> rfl
  | get key => rfl
  | has key => rfl
  | size => rfl
  | keys => exact walks_readChanges buffer
  | values => exact walks_readChanges buffer
  | entries => exact walks_readChanges buffer
  | copy => exact walks_readChanges buffer
  | entryAt index =>
    simp only [Buffer.changes]
    split
    · rfl
    · exact walks_readChanges buffer

theorem foreachStart_active (active : buffer.mapForeachIsActive = true) : (buffer.act .foreachStart).slots = buffer.slots := by
  rw [Buffer.act,Buffer.actChanges,if_pos active]
  rfl

theorem walks_foreachStart (buffer : Buffer K V) : (buffer.act .foreachStart).walks = buffer.walks + 1 := by
  rw [Buffer.act,Buffer.actChanges,applyAll,List.foldl_append]
  split
  · rfl
  · exact congrArg (· + 1) (walks_readChanges buffer)

theorem foreachFinish_active (inner : 1 < buffer.walks) : (buffer.act .foreachFinish).slots = buffer.slots := by
  rw [Buffer.act,Buffer.actChanges,if_pos inner]
  rfl

theorem walks_foreachFinish (buffer : Buffer K V) : (buffer.act .foreachFinish).walks = buffer.walks - 1 := by
  rw [Buffer.act,Buffer.actChanges]
  split
  · rfl
  · exact walks_readChanges { buffer with walks := buffer.walks - 1 }

theorem act_keeps {data : MapData K V} (active : buffer.mapForeachIsActive = true) (op : Op K V) {counter index : Nat}
    (clean : op.squeezes = true → holesBelow buffer.slots counter = 0)
    (aligned : Aligned buffer.slots counter data index) :
    Aligned (buffer.act (.op op)).slots counter (data.perform op) index := by
  have moved := act_aligned aligned (.op op)
  rwa [show shiftAll buffer counter (buffer.actChanges (.op op)) = counter from shiftAll_changes active op clean] at moved

end Buffers

section Simulation

omit [DecidableEq K] in
/-- What keeps each active counter aligned keeps the stacks aligned. -/
theorem AlignedWalks.imp {slots slots' : List (Option (K × V))} {data data' : MapData K V}
    {walks walks' : List (Walk K V)} (aligned : AlignedWalks slots data walks walks')
    (kept : ∀ walk ∈ walks, ∀ index, Aligned slots walk.counter data index →
      Aligned slots' walk.counter data' index) : AlignedWalks slots' data' walks walks' := by
  induction aligned with
  | nil => exact .nil
  | cons pair rest step =>
    refine .cons ⟨pair.1,kept _ (by simp) _ pair.2⟩ (step ?_)
    intro walk member
    exact kept walk (by simp [member])

/-- A step keeps the two runs in step. -/
theorem InStep.step {code : Machine (MapHeader K V) K V} {spec : Machine (MapData K V) K V}
    (inStep : InStep keys code spec) (undisturbed : Undisturbed keys code) (script : Nat → List (Action K V)) :
    ∃ code', foreachStep keys script code = some code' ∧ InStep keys code' (MapData.foreachStep script spec) := by
  obtain ⟨map,walks,calls,seen⟩ := code
  obtain ⟨data,walks',calls',seen'⟩ := spec
  obtain ⟨well,same,active,rfl,rfl,paired⟩ := inStep
  dsimp only at well same active paired
  cases paired with
  | nil => exact ⟨_,rfl,well,same,active,rfl,rfl,.nil⟩
  | @cons walk walk' outer outer' pair rest =>
    obtain ⟨counter,pending⟩ := walk
    obtain ⟨counter',pending'⟩ := walk'
    obtain ⟨rfl,aligned⟩ := pair
    rw [List.length_cons] at active
    have walking : map.mapForeachIsActive = true := by
      simp only [Buffer.mapForeachIsActive,decide_eq_true_eq]
      omega
    rcases pending with _ | ⟨operation | _,later⟩
    case cons.op =>
      obtain ⟨fits,clean⟩ := undisturbed _ rfl
      obtain ⟨after,done,leaves⟩ := perform_spec well data same fits
      have changed : after.toBuffer = map.act (.op operation) := leaves.changed
      have performed : foreachStep keys script ⟨map,⟨counter,.op operation :: later⟩ :: outer,calls,seen⟩ =
          some ⟨after,⟨counter,later⟩ :: outer,calls,seen ++ [.answered (data.respond operation)]⟩ := by
        simp only [foreachStep,done,Option.map_some]
      refine ⟨_,performed,leaves.well,?_,?_,rfl,rfl,.cons ⟨rfl,?_⟩ ?_⟩
      · rw [Buffer.entries,changed]
        exact reduceOption_act same (.op operation)
      · rw [changed,Buffer.act,Buffer.actChanges,walks_changes]
        exact active
      · rw [changed]
        exact act_keeps walking operation (fun squeezes => clean squeezes ⟨counter,.op operation :: later⟩ (by simp)) aligned
      · rw [changed]
        refine AlignedWalks.imp rest fun walk member index placed => ?_
        exact act_keeps walking operation (fun squeezes => clean squeezes walk (by simp [member])) placed
    case cons.forEach =>
      obtain ⟨fits,-⟩ := undisturbed _ rfl
      obtain ⟨after,done,well',changed⟩ := Act.perform_spec well fits
      rw [Act.perform] at done
      have entered : foreachStep keys script ⟨map,⟨counter,.forEach :: later⟩ :: outer,calls,seen⟩ =
          some ⟨after,⟨0,[]⟩ :: ⟨counter,later⟩ :: outer,calls,seen⟩ := by
        simp only [foreachStep,done,Option.map_some]
      have slots : after.slots = map.slots := by
        rw [changed]
        exact foreachStart_active walking
      have same' : after.entries = data.reduceOption := by
        rw [Buffer.entries,slots]
        exact same
      refine ⟨_,entered,well',same',?_,rfl,rfl,.cons ⟨rfl,Aligned.start same'⟩ ?_⟩
      · rw [changed,walks_foreachStart]
        exact Nat.succ_le_succ active
      · rw [slots]
        exact .cons ⟨rfl,aligned⟩ rest
    case nil =>
      rcases aligned.next with ⟨spent,spent'⟩ | ⟨found,found',entry,here,here',read,read',past⟩
      · obtain ⟨fits,-⟩ := undisturbed .foreachFinish (if_pos spent)
        obtain ⟨after,done,well',changed⟩ := Act.perform_spec well fits
        rw [Act.perform] at done
        have left : foreachStep keys script ⟨map,⟨counter,[]⟩ :: outer,calls,seen⟩ = some ⟨after,outer,calls,seen⟩ := by
          simp only [foreachStep,spent,done,Option.map_some]
        have left' : MapData.foreachStep script ⟨data,⟨counter',[]⟩ :: outer',calls,seen⟩ =
            ⟨data,outer',calls,seen⟩ := by simp [MapData.foreachStep,spent']
        rw [left']
        refine ⟨_,left,well',?_,?_,rfl,rfl,?_⟩
        · rw [Buffer.entries,changed]
          exact reduceOption_act same .foreachFinish
        · rw [changed,walks_foreachFinish]
          dsimp only
          omega
        · cases rest with
          | nil => exact .nil
          | cons pair rest =>
            rw [List.length_cons] at active
            rw [changed,foreachFinish_active (by omega)]
            exact .cons pair rest
      · have called : foreachStep keys script ⟨map,⟨counter,[]⟩ :: outer,calls,seen⟩ =
            some ⟨map,⟨found + 1,script calls⟩ :: outer,calls + 1,seen ++ [.visited entry]⟩ := by
          simp [foreachStep,here,Buffer.mapEntryRaw,read]
        have called' : MapData.foreachStep script ⟨data,⟨counter',[]⟩ :: outer',calls,seen⟩ =
            ⟨data,⟨found' + 1,script calls⟩ :: outer',calls + 1,seen ++ [.visited entry]⟩ := by
          simp [MapData.foreachStep,here',read']
        rw [called']
        exact ⟨_,called,well,same,active,rfl,rfl,.cons ⟨rfl,past⟩ rest⟩

/-- The whole run stays in step while no step is disturbed. -/
theorem InStep.run {map : MapHeader K V} {data : MapData K V} (well : WellIndexed keys map)
    (same : map.entries = data.reduceOption) (fits : Act.foreachStart.Fits keys map) (script : Nat → List (Action K V)) {steps : Nat}
    (undisturbed : ∀ earlier < steps, ∀ machine ∈ foreachRun keys script map earlier, Undisturbed keys machine) :
    ∃ code, foreachRun keys script map steps = some code ∧ InStep keys code (MapData.foreachRun script data steps) := by
  induction steps with
  | zero =>
    obtain ⟨after,done,well',changed⟩ := Act.perform_spec well fits
    rw [Act.perform] at done
    have same' : after.entries = data.reduceOption := by
      rw [Buffer.entries,changed]
      exact reduceOption_act same .foreachStart
    refine ⟨⟨after,[⟨0,[]⟩],0,[]⟩,by rw [foreachRun,done]; rfl,well',same',?_,rfl,rfl,.cons ⟨rfl,Aligned.start same'⟩ .nil⟩
    rw [changed,walks_foreachStart]
    exact Nat.succ_le_succ (Nat.zero_le _)
  | succ steps step =>
    obtain ⟨code,reached,inStep⟩ := step fun earlier before => undisturbed earlier (by omega)
    obtain ⟨code',stepped,inStep'⟩ := inStep.step (undisturbed steps (by omega) code reached) script
    refine ⟨code',by rw [foreachRun,reached,Option.bind_some,stepped],?_⟩
    rw [MapData.foreachRun,Function.iterate_succ_apply']
    exact inStep'

end Simulation

/-- On a map that acts within their bounds built, `forEach` visits what the specification visits, its
callbacks read the same answers, and it ends when the specification's walk ends. -/
theorem forEach_exact (keys : Keys K) (capacity : BitVec 32) (setup : List (Act K V)) (script : Nat → List (Action K V))
    (steps : Nat) (fits : Throughout (Act.perform keys) (Act.Fits keys) (jsMapAlloc capacity) setup) :
    ∃ map, Runs (Act.perform keys) (jsMapAlloc capacity) setup map ∧ (Act.foreachStart.Fits keys map →
      (∀ earlier < steps, ∀ machine ∈ foreachRun keys script map earlier, Undisturbed keys machine) →
      ∃ code, foreachRun keys script map steps = some code ∧
        let spec := MapData.foreachRun script (MapData.performAll [] setup) steps
        code.seen = spec.seen ∧ code.walks.length = spec.walks.length ∧
          code.store.entries = spec.store.reduceOption) := by
  obtain ⟨map,ran,well,changed⟩ := runs_acts fits (.alloc capacity)
  obtain ⟨-,same⟩ := acts_related setup [] (Dated.alloc capacity) rfl
  rw [← changed] at same
  refine ⟨map,ran,fun entered undisturbed => ?_⟩
  obtain ⟨code,reached,inStep⟩ := InStep.run well same entered script undisturbed
  exact ⟨code,reached,inStep.seen,inStep.walks.length_eq,inStep.same⟩

/-- A callback that deletes ahead of the counter, reads the keys, adds and walks again. -/
theorem forEach_exact_deletesAhead :
    let script : Nat → List (Action Nat Nat) := fun call =>
      if call = 0 then [.op (.delete 3),.op .keys,.op (.set 4 4),.forEach] else [.op (.get 1)]
    let setup : List (Act Nat Nat) := [.op (.set 1 1),.op (.set 2 2),.op (.set 3 3)]
    ∃ map code, Runs (Act.perform Keys.mixed) (jsMapAlloc 4) setup map ∧ foreachRun Keys.mixed script map 20 = some code ∧
      code.seen.filterMap (fun | .visited entry => some entry.1 | _ => none) = [1,1,2,4,2,4] := by
  intro script setup
  have fits : Throughout (Act.perform Keys.mixed) (Act.Fits Keys.mixed) (jsMapAlloc 4) setup := by decide +kernel
  obtain ⟨map,ran,walk⟩ := forEach_exact Keys.mixed 4 setup script 20 fits
  have bounded : ∀ map ∈ setup.foldlM (Act.perform Keys.mixed) (jsMapAlloc 4), Act.foreachStart.Fits Keys.mixed map ∧
      ∀ earlier < 20, ∀ machine ∈ foreachRun Keys.mixed script map earlier, Undisturbed Keys.mixed machine := by
    decide +kernel
  obtain ⟨entered,undisturbed⟩ := bounded map ran.foldlM_eq
  obtain ⟨code,reached,seen,-,-⟩ := walk entered undisturbed
  refine ⟨map,code,ran,reached,?_⟩
  rw [seen]
  decide +kernel

/-- A callback that deletes the entry it was called with and reads the keys: the squeeze moves the
next entry below the counter, and the walk skips it. -/
theorem forEach_keys_skips :
    let script : Nat → List (Action Nat Nat) := fun call =>
      if call = 0 then [.op (.delete 1),.op .keys] else []
    let setup : List (Act Nat Nat) := [.op (.set 1 1),.op (.set 2 2),.op (.set 3 3)]
    ∃ map code, Runs (Act.perform Keys.mixed) (jsMapAlloc 4) setup map ∧ foreachRun Keys.mixed script map 8 = some code ∧
      code.seen = [.visited (1,1),.answered (.flag true),.answered (.keys [2,3]),.visited (3,3)] ∧ code.walks = [] ∧
      (MapData.foreachRun script (MapData.performAll [] setup) 8).seen =
        [.visited (1,1),.answered (.flag true),.answered (.keys [2,3]),.visited (2,2),.visited (3,3)] := by
  intro script setup
  have fits : Throughout (Act.perform Keys.mixed) (Act.Fits Keys.mixed) (jsMapAlloc 4) setup := by decide +kernel
  obtain ⟨map,ran,-,-⟩ := runs_acts fits (.alloc 4)
  have walked : ∀ map ∈ setup.foldlM (Act.perform Keys.mixed) (jsMapAlloc 4), (foreachRun Keys.mixed script map 8).isSome ∧
      ∀ code ∈ foreachRun Keys.mixed script map 8,
        code.seen = [.visited (1,1),.answered (.flag true),.answered (.keys [2,3]),.visited (3,3)] ∧ code.walks = [] := by
    decide +kernel
  obtain ⟨ends,skips⟩ := walked map ran.foldlM_eq
  obtain ⟨code,reached⟩ := Option.isSome_iff_exists.mp ends
  obtain ⟨seen,left⟩ := skips code reached
  exact ⟨map,code,ran,reached,seen,left,by decide +kernel⟩

end Perry.Runtime.Map
