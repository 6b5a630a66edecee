import Perry.Containers.Tombstones
import Perry.Runtime.NumericIndex

/-! The entries buffer of a `Map`, its three side indexes and the operations on them.
A slot is a live pair or the hole a delete left. Keys that `jsvalue_eq` does not tell apart are one
key here, and every map has its indexes, so the scan of a map without them is left out. A capacity
that would wrap is refused.
-/
namespace Perry.Runtime.Map

open Perry.Containers

/-- One squeeze of the buffer, as a raw-index cursor needs to see it. -/
inductive RemovedSlots
  | extent (slots : Nat)
  | indices (holes : List Nat)
  deriving DecidableEq,Repr

def RemovedSlots.countBelow (cursor : Nat) : RemovedSlots → Nat
  | .extent slots => min cursor slots
  | .indices holes => (holes.takeWhile (· < cursor)).length

def RemovedSlots.retainedLen : RemovedSlots → Nat
  | .extent _ => 1
  | .indices holes => holes.length

structure CompactionRecord where
  /-- The header's epoch after this squeeze. -/
  epoch : UInt32
  removed : RemovedSlots
  deriving DecidableEq,Repr

def cost (records : List CompactionRecord) : Nat :=
  (records.map (·.removed.retainedLen)).sum

/-- The squeeze history, oldest record first. -/
structure MapCompactionLog where
  records : List CompactionRecord
  retained : Nat
  exact : retained = cost records
  deriving DecidableEq

def mapCompactionLogMinBudget : Nat := 4096

/-- The oldest records go while the history is over its budget, the newest one stays. -/
def trimRecords (budget : Nat) : List CompactionRecord → Nat → List CompactionRecord × Nat
  | [], retained => ([],retained)
  | [record], retained => ([record],retained)
  | oldest :: record :: rest, retained =>
    if budget < retained then trimRecords budget (record :: rest) (retained - oldest.removed.retainedLen)
    else (oldest :: record :: rest,retained)

theorem trimRecords_exact (budget : Nat) (records : List CompactionRecord) :
    (trimRecords budget records (cost records)).2 =
      cost (trimRecords budget records (cost records)).1 := by
  induction records with
  | nil => rfl
  | cons oldest rest step =>
    cases rest with
    | nil => rfl
    | cons record rest =>
      rw [trimRecords]
      split
      · have dropped : cost (oldest :: record :: rest) - oldest.removed.retainedLen =
            cost (record :: rest) := by simp [cost]
        rw [dropped]
        exact step
      · rfl

namespace MapCompactionLog

def empty : MapCompactionLog := ⟨[],0,rfl⟩

def push (log : MapCompactionLog) (record : CompactionRecord) : MapCompactionLog where
  records := log.records ++ [record]
  retained := log.retained + record.removed.retainedLen
  exact := by simp [log.exact,cost]

def trim (log : MapCompactionLog) (budget : Nat) : MapCompactionLog where
  records := (trimRecords budget log.records log.retained).1
  retained := (trimRecords budget log.records log.retained).2
  exact := by rw [log.exact]; exact trimRecords_exact budget log.records

end MapCompactionLog

/-- The entries buffer: the slots in use, their capacity, the squeeze history and the number of
`forEach` walks that are active. -/
structure Buffer (K V : Type) where
  slots : List (Option (K × V))
  capacity : Nat
  compactionEpoch : UInt32
  log : MapCompactionLog
  walks : Nat
  deriving DecidableEq

/-- Which index a key belongs to, and what it is found by there. -/
inductive Kind
  | number (bits : MapIndex.Key)
  | string (hash : UInt64)
  | pointer
  deriving DecidableEq

/-- What the code knows of the keys: their kinds, and which of them are plain nonzero numbers, found
by their bits. The bits of a number are its own, and those of the negative zero are normalised. -/
structure Keys (K : Type) where
  kind : K → Kind
  plain : K → Bool
  exact : ∀ {key other bits},kind key = .number bits → kind other = .number bits → key = other
  normal : ∀ key,kind key ≠ .number (Words.Binary64.zero true)

/-- A map: its buffer, the live count and the side indexes. A string is found by its content, among
the slots of its hash. -/
structure MapHeader (K V : Type) extends Buffer K V where
  size : Nat
  numericIndex : MapIndex.NumericIndex
  stringIndex : UInt64 → List Nat
  ptrIndex : K → Option Nat

variable {K V : Type}

namespace Buffer

variable (buffer : Buffer K V)

def used : Nat := buffer.slots.length

/-- The live entries, in insertion order. -/
def entries : List (K × V) := buffer.slots.reduceOption

def budget : Nat := max mapCompactionLogMinBudget buffer.capacity

def mapForeachIsActive : Bool := 0 < buffer.walks

def noteMapCompaction (removed : RemovedSlots) : Buffer K V :=
  let epoch := buffer.compactionEpoch + 1
  let log : MapCompactionLog := match removed with
    | .extent _ => .empty
    | .indices _ => buffer.log
  { buffer with
    compactionEpoch := epoch
    log := (log.push ⟨epoch,removed⟩).trim buffer.budget }

/-- What a squeeze does to the buffer. -/
def squeezeEntries : Buffer K V :=
  let removed := removedFrom 0 buffer.slots
  let squeezed := { buffer with slots := squeeze buffer.slots }
  if removed.isEmpty then squeezed else squeezed.noteMapCompaction (.indices removed)

/-- `used := 0`, recorded as a squeeze of the whole extent. -/
def discardExtent : Buffer K V :=
  { buffer with slots := [] }.noteMapCompaction (.extent buffer.used)

/-- The slot of a raw index, a hole or past the extent when there is no pair to read. -/
def mapEntryRaw (index : Nat) : Option (K × V) := buffer.slots[index]?.join

end Buffer

def jsMapAlloc (capacity : BitVec 32) : MapHeader K V where
  slots := []
  capacity := if capacity.toNat = 0 then 4 else capacity.toNat
  compactionEpoch := 0
  log := .empty
  walks := 0
  size := 0
  numericIndex := MapIndex.new
  stringIndex := fun _ => []
  ptrIndex := fun _ => none

def mapForeachEnter (map : MapHeader K V) : MapHeader K V := { map with walks := map.walks + 1 }

def mapForeachLeave (map : MapHeader K V) : MapHeader K V := { map with walks := map.walks - 1 }

section Operations

variable [DecidableEq K] (keys : Keys K) (map : MapHeader K V)

/-- The key in a slot, of the kind that is asked for, is put into the index. -/
def indexNumber (index : MapIndex.NumericIndex) (slot : Option (K × V) × Nat) : Option MapIndex.NumericIndex :=
  match slot.1.map fun entry => keys.kind entry.1 with
  | some (.number bits) => (MapIndex.insert index bits slot.2).toOption
  | _ => some index

def indexString (index : UInt64 → List Nat) (slot : Option (K × V) × Nat) : UInt64 → List Nat :=
  match slot.1.map fun entry => keys.kind entry.1 with
  | some (.string hash) => Function.update index hash (index hash ++ [slot.2])
  | _ => index

def indexPointer (index : K → Option Nat) (slot : Option (K × V) × Nat) : K → Option Nat :=
  match slot.1 with
  | some (key,_) => if keys.kind key = .pointer then Function.update index key (some slot.2) else index
  | none => index

/-- The index as it is, where the extent is too large. -/
def rebuildMapPtrIndex : K → Option Nat :=
  if map.capacity < map.used ∨ 16000000 < map.used then map.ptrIndex
  else map.slots.zipIdx.foldl (indexPointer keys) fun _ => none

def compactMapEntries : Option (MapHeader K V) := do
  let map := { map with toBuffer := map.squeezeEntries }
  let numericIndex ← map.slots.zipIdx.foldlM (indexNumber keys) (MapIndex.clear map.numericIndex)
  let stringIndex := map.slots.zipIdx.foldl (indexString keys) fun _ => []
  return { map with numericIndex,stringIndex,ptrIndex := rebuildMapPtrIndex keys map }

def compactIfHoley : Option (MapHeader K V) := if map.used ≠ map.size then compactMapEntries keys map else some map

def holdsKey (key : K) (slot : Option (K × V)) : Bool := slot.any (·.1 = key)

def sideTableThreshold : Nat := 8

/-- A plain number in a small map, or in the span of the range table; other lookups are left to the cold path. -/
def findKeyIndexHot (key : K) : Option (Option Nat) :=
  if !keys.plain key then none
  else if map.used ≤ sideTableThreshold then some (map.slots.findIdx? (holdsKey key))
  else match keys.kind key,map.numericIndex.dense with
    | .number bits,some dense => match MapIndex.denseIntegerKey bits with
      | none => none
      | some integer =>
        if integer < dense.base then none
        else if dense.slots.length ≤ integer - dense.base then none
        else
          let entry := dense.slots.getD (integer - dense.base) MapIndex.denseNumericEmpty
          if entry = MapIndex.denseNumericEmpty ∨ map.used ≤ entry then some none else some (some entry)
    | _,_ => none

def findKeyIndexCold (key : K) : Option Nat :=
  if map.used ≤ sideTableThreshold then map.slots.findIdx? (holdsKey key)
  else match keys.kind key with
    | .number bits => (MapIndex.get map.numericIndex bits).toOption.join.filter (· < map.used)
    | .string hash => (map.stringIndex hash).find? fun place => place < map.used ∧ holdsKey key map.slots[place]?.join
    | .pointer => (map.ptrIndex key).filter (· < map.used)

/-- An index that is negative as an `i32` is not found. -/
def findKeyIndex (key : K) : Option Nat :=
  ((findKeyIndexHot keys map key).getD (findKeyIndexCold keys map key)).filter (· < 2 ^ 31)

def grow : Option (MapHeader K V) :=
  if map.capacity * 2 < 2 ^ 32 then some { map with capacity := map.capacity * 2 } else none

def ensureCapacity : Option (MapHeader K V) :=
  if map.used < map.capacity then some map
  else if map.size < map.used ∧ !map.mapForeachIsActive then do
    let map ← compactMapEntries keys map
    if map.used < map.capacity then return map else grow map
  else grow map

/-- The pair is put behind the others, and its key into its index. -/
def appendEntry (entry : K × V) : Option (MapHeader K V) := do
  let slot := (some entry,map.used)
  let numericIndex ← indexNumber keys map.numericIndex slot
  return { map with
    slots := map.slots ++ [some entry]
    size := map.size + 1
    numericIndex
    stringIndex := indexString keys map.stringIndex slot
    ptrIndex := indexPointer keys map.ptrIndex slot }

def mapSet (key : K) (value : V) : Option (MapHeader K V) :=
  match findKeyIndex keys map key with
  | some index => some { map with slots := map.slots.modify index (·.map fun entry => (entry.1,value)) }
  | none => do
    let map ← ensureCapacity keys map
    appendEntry keys map (key,value)

def mapGet (key : K) : Option V :=
  (findKeyIndex keys map key).bind fun index => (map.mapEntryRaw index).map (·.2)

def mapHas (key : K) : Bool := (findKeyIndex keys map key).isSome

/-- The key that was in the slot leaves its index. -/
def forgetMapIndexEntry (deleted : Option (K × V)) (place : Nat) : Option (MapHeader K V) :=
  match deleted with
  | none => some map
  | some (key,_) => match keys.kind key with
    | .number bits => (MapIndex.remove map.numericIndex bits).toOption.map fun removed => { map with numericIndex := removed.2 }
    | .string hash => some { map with stringIndex := Function.update map.stringIndex hash ((map.stringIndex hash).filter (· ≠ place)) }
    | .pointer => some { map with ptrIndex := Function.update map.ptrIndex key none }

def deleteEntryAtIndex (index : Nat) : Option (MapHeader K V × Bool) :=
  if map.used ≤ index then some (map,false)
  else do
    let map ← forgetMapIndexEntry keys { map with slots := map.slots.set index none,size := map.size - 1 }
      map.slots[index]?.join index
    let map ← if 16 ≤ map.used ∧ map.size < map.used / 2 ∧ !map.mapForeachIsActive then compactMapEntries keys map else some map
    return (map,true)

def mapDelete (key : K) : Option (MapHeader K V × Bool) :=
  match findKeyIndex keys map key with
  | some index => deleteEntryAtIndex keys map index
  | none => some (map,false)

def sideTableClearScanMax : Nat := 16

/-- The string and the pointer index are left alone where they hold nothing of this map. -/
def clearIndexes (mayHold : Bool) : MapHeader K V :=
  let map := { map with numericIndex := MapIndex.clear map.numericIndex }
  if mayHold then { map with stringIndex := fun _ => [],ptrIndex := fun _ => none } else map

def isNumber : Kind → Bool
  | .number _ => true
  | _ => false

def mapClear : MapHeader K V :=
  if map.size = 0 then
    if !map.mapForeachIsActive ∧ 0 < map.used then { map with toBuffer := map.discardExtent } else map
  else
    let mayHold := sideTableClearScanMax < map.used ∨ map.slots.any (·.any fun entry => !isNumber (keys.kind entry.1))
    let emptied : Buffer K V :=
      if map.mapForeachIsActive then { map.toBuffer with slots := map.slots.map fun _ => none } else map.discardExtent
    clearIndexes { map with size := 0,toBuffer := emptied } mayHold

/-- The pairs in the slots up to the live count. -/
def readEntries : List (K × V) := (map.slots.take map.size).reduceOption

def jsMapEntries : Option (MapHeader K V × List (K × V)) :=
  (compactIfHoley keys map).map fun map => (map,readEntries map)

def jsMapKeys : Option (MapHeader K V × List K) :=
  (compactIfHoley keys map).map fun map => (map,(readEntries map).map (·.1))

def jsMapValues : Option (MapHeader K V × List V) :=
  (compactIfHoley keys map).map fun map => (map,(readEntries map).map (·.2))

/-- `new Map(source)`: the source as the copy leaves it, and the copy. -/
def copyMapIntoNew : Option (MapHeader K V × MapHeader K V) := do
  let source ← compactIfHoley keys map
  let copy ← (readEntries source).foldlM (fun map entry => mapSet keys map entry.1 entry.2)
    (jsMapAlloc (BitVec.ofNat 32 (max source.size 4)))
  return (source,copy)

/-- A live index onto the raw buffer: a squeeze makes them equal, and is deferred under a walk. -/
def liveIndexToRaw (index : Nat) : Option (MapHeader K V × Option Nat) :=
  if map.size ≤ index then some (map,none)
  else if !map.mapForeachIsActive then (compactIfHoley keys map).map (·,some index)
  else some (map,liveToRaw map.slots index)

def jsMapEntryAt (index : Nat) : Option (MapHeader K V × Option (K × V)) :=
  (liveIndexToRaw keys map index).map fun (map,raw) => (map,raw.bind map.mapEntryRaw)

/-- A `forEach` walk starts: the outermost one squeezes first. -/
def jsMapForeachStart : Option (MapHeader K V) :=
  (if map.mapForeachIsActive then some map else compactIfHoley keys map).map mapForeachEnter

/-- A `forEach` walk is complete: the outermost one squeezes what was deferred. -/
def jsMapForeachFinish : Option (MapHeader K V) :=
  let map := mapForeachLeave map
  if map.mapForeachIsActive then some map else compactIfHoley keys map

end Operations

end Perry.Runtime.Map
