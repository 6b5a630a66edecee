import Perry.Effect.Triple
import Perry.Runtime.BigIntCompare
import Perry.Sorting.Default

/-! The sort of an array receiver, by a comparator or by the default order. The values stand in
arrays of the heap, and the comparator is user code over a state that does not hold them. -/
namespace Perry.Sorting

open Effect Strings
open Runtime.BigInt (F64)

inductive Slot (V : Type)
  | defined (value : V)
  | undefined
  | hole
  deriving DecidableEq,Repr

/-- What a closure returns: a number, or a boxed value, whose bits are those of a NaN. -/
inductive Reply (B : Type)
  | number (n : F64)
  | boxed (b : B)

structure ComparatorCall (σ ε V B : Type) where
  call : Slot V → Slot V → Run σ ε (Reply B)
  jsNumberCoerce : Reply B → Run σ ε F64

/-- The receiver, and the two arrays that a sort works on. -/
inductive Rooted
  | receiver
  | temp
  | scratch
  deriving DecidableEq,Repr

structure Memory (σ V : Type) where
  elems : Rooted → List (Slot V)
  host : σ

def insertionThreshold : Nat := 32

/-- `<= 0.0` -/
def atMostZero : F64 → Bool
  | .nan => false
  | .infinite negative => negative
  | .finite d => d.value ≤ 0

def positiveZero : F64 := .finite (.whole false 0 (by decide))

section comparator

variable {σ ε V B : Type} (c : ComparatorCall σ ε V B)

/-- A reply that is a number goes by itself; what is not is converted, and NaN is zero. -/
def compareAt (a b : Slot V) : Run σ ε F64 := do
  let r ← c.call a b
  match r with
  | .number (.finite d) => pure (.finite d)
  | .number (.infinite negative) => pure (.infinite negative)
  | _ => do
    match ← c.jsNumberCoerce r with
    | .nan => pure positiveZero
    | n => pure n

def comparatorLe (a b : Slot V) : Run σ ε Bool := do
  return atMostZero (← compareAt c a b)

end comparator

section memory

variable {σ ε V : Type}

def get (a : Rooted) (index : Nat) : Run (Memory σ V) ε (Slot V) := fun m => (.ok ((m.elems a).getD index .hole),m)

def put (a : Rooted) (slots : List (Slot V)) : Run (Memory σ V) ε Unit :=
  Run.update fun m => {m with elems := Function.update m.elems a slots}

def set (a : Rooted) (index : Nat) (value : Slot V) : Run (Memory σ V) ε Unit :=
  Run.update fun m => {m with elems := Function.update m.elems a ((m.elems a).set index value)}

/-- A call of user code. -/
def consult (le : Slot V → Slot V → Run σ ε Bool) (a b : Slot V) : Run (Memory σ V) ε Bool := fun m =>
  ((le a b m.host).1,{m with host := (le a b m.host).2})

def jsArrayAllocWithLength (a : Rooted) (length : Nat) : Run (Memory σ V) ε Unit := put a (List.replicate length .hole)

/-- `for i in 0..n { dst[i] = src[i] }` -/
def copyElems (src dst : Rooted) (n : Nat) : Run (Memory σ V) ε Unit :=
  (List.range n).forM fun i => do set dst i (← get src i)

end memory

section engines

variable {σ ε V : Type} (le : Slot V → Slot V → Run σ ε Bool)

/-- The element at the index moves down by swaps, as far as the start. -/
def sink (vals : Rooted) (start : Nat) : Nat → Run (Memory σ V) ε Unit
  | 0 => pure ()
  | j + 1 =>
    if start < j + 1 then do
      if ← consult le (← get vals j) (← get vals (j + 1)) then pure ()
      else do
        let prev ← get vals j
        let cur ← get vals (j + 1)
        set vals j cur
        set vals (j + 1) prev
        sink vals start j
    else pure ()

/-- `vals[start..stop]` -/
def insertionSortRooted (vals : Rooted) (start stop : Nat) : Run (Memory σ V) ε Unit :=
  (List.range' (start + 1) (stop - (start + 1))).forM (sink le vals start)

section merging

variable (src dst : Rooted)

/-- While both runs have elements. -/
def mergeBoth (mid right l r k : Nat) : Run (Memory σ V) ε (Nat × Nat × Nat) :=
  if l < mid ∧ r < right then do
    if ← consult le (← get src l) (← get src r) then do
      set dst k (← get src l)
      mergeBoth mid right (l + 1) r (k + 1)
    else do
      set dst k (← get src r)
      mergeBoth mid right l (r + 1) (k + 1)
  else pure (l,r,k)
  termination_by mid - l + (right - r)

/-- While one run has elements. -/
def mergeRest (stop l k : Nat) : Run (Memory σ V) ε Nat :=
  if l < stop then do
    set dst k (← get src l)
    mergeRest stop (l + 1) (k + 1)
  else pure k
  termination_by stop - l

def mergeRests (mid right l r k : Nat) : Run (Memory σ V) ε Unit := do
  let k ← mergeRest src dst mid l k
  let _ ← mergeRest src dst right r k

/-- The runs `src[left..mid]` and `src[mid..right]` merged into `dst` from `left` on. -/
def mergeRuns (left mid right : Nat) : Run (Memory σ V) ε Unit := do
  let (l,r,k) ← mergeBoth le src dst mid right left mid left
  mergeRests src dst mid right l r k

/-- One pass over the blocks from `i` on. -/
def mergeBlocks (n width : Nat) (wide : 0 < width) (i : Nat) : Run (Memory σ V) ε Unit :=
  if i < n then do
    mergeRuns le src dst i (min (i + width) n) (min (i + 2 * width) n)
    mergeBlocks n width wide (i + 2 * width)
  else pure ()
  termination_by n - i

end merging

/-- The passes, each from one array to the other, and which of them holds the runs in the end. -/
def mergePasses (data spare : Rooted) (n width : Nat) (wide : 0 < width) (inData : Bool) : Run (Memory σ V) ε Bool :=
  if width < n then do
    mergeBlocks le (if inData then data else spare) (if inData then spare else data) n width wide 0
    mergePasses data spare n (width * 2) (by omega) !inData
  else pure inData
  termination_by n - width

def stableMergeSortRooted (data spare : Rooted) (n startWidth : Nat) : Run (Memory σ V) ε Unit :=
  if n ≤ 1 then pure ()
  else do
    let inData ← mergePasses le data spare n (max startWidth 1) (by omega) true
    if inData then pure () else copyElems spare data n

/-- Insertion sorts of the runs from `runStart` on. -/
def insertionRuns (data : Rooted) (n runStart : Nat) : Run (Memory σ V) ε Unit :=
  if runStart < n then do
    insertionSortRooted le data runStart (min (runStart + insertionThreshold) n)
    insertionRuns data n (min (runStart + insertionThreshold) n)
  else pure ()
  termination_by n - runStart
  decreasing_by
    rw [insertionThreshold]
    omega

end engines

section receiver

variable {σ ε V B : Type}

def sortComparatorRooted (c : ComparatorCall σ ε V B) (data spare : Rooted) (n : Nat) : Run (Memory σ V) ε Unit := do
  insertionRuns (comparatorLe c) data n 0
  stableMergeSortRooted (comparatorLe c) data spare n insertionThreshold

/-- The default sort of an array, whose elements have the given strings. -/
def sortDefaultElems (toString : Slot V → Option StringHeader) (vals : Rooted) : Run (Memory σ V) ε Unit :=
  Run.update fun m => {m with elems := Function.update m.elems vals (sortDefaultRooted toString (m.elems vals))}

def sortRootedValues (toString : Slot V → Option StringHeader) (count : Nat) (cmp : Option (ComparatorCall σ ε V B)) :
    Run (Memory σ V) ε Unit :=
  if count ≤ 1 then pure ()
  else match cmp with
    | some c => do
      jsArrayAllocWithLength .scratch count
      sortComparatorRooted c .temp .scratch count
    | none => sortDefaultElems toString .temp

def Slot.special : Slot V → Bool
  | .defined _ => false
  | .undefined => true
  | .hole => true

/-- The defined elements go into `temp` one after the other, the others are counted. -/
def gather : List (Slot V) → Nat → Nat → Nat → Run (Memory σ V) ε (Nat × Nat × Nat)
  | [],count,undefCount,holeCount => pure (count,undefCount,holeCount)
  | .hole :: slots,count,undefCount,holeCount => gather slots count undefCount (holeCount + 1)
  | .undefined :: slots,count,undefCount,holeCount => gather slots count (undefCount + 1) holeCount
  | .defined v :: slots,count,undefCount,holeCount => do
    set .temp count (.defined v)
    gather slots (count + 1) undefCount holeCount

/-- `length = count` -/
def truncate (a : Rooted) (count : Nat) : Run (Memory σ V) ε Unit :=
  Run.update fun m => {m with elems := Function.update m.elems a ((m.elems a).take count)}

/-- The same element in as many places. -/
def fill (a : Rooted) (start count : Nat) (slot : Slot V) : Run (Memory σ V) ε Unit :=
  (List.range' start count).forM fun i => set a i slot

/-- The defined elements are sorted apart, and written back in front of the others. -/
def sortSpecial (toString : Slot V → Option StringHeader) (cmp : Option (ComparatorCall σ ε V B)) (slots : List (Slot V)) :
    Run (Memory σ V) ε Unit := do
  jsArrayAllocWithLength .temp slots.length
  let (count,undefCount,holeCount) ← gather slots 0 0 0
  truncate .temp count
  sortRootedValues toString count cmp
  copyElems .temp .receiver count
  fill .receiver count undefCount .undefined
  fill .receiver (count + undefCount) holeCount .hole

/-- A copy is sorted, and published when the sort has ended. -/
def sortDense (c : ComparatorCall σ ε V B) (length : Nat) : Run (Memory σ V) ε Unit := do
  jsArrayAllocWithLength .temp length
  copyElems .receiver .temp length
  jsArrayAllocWithLength .scratch length
  sortComparatorRooted c .temp .scratch length
  copyElems .temp .receiver length

/-- The branch for receivers that are not exotic. -/
def sortArrayReceiver (toString : Slot V → Option StringHeader) (cmp : Option (ComparatorCall σ ε V B)) :
    Run (Memory σ V) ε Unit := fun m =>
  let slots := m.elems .receiver
  if slots.length ≤ 1 then (.ok (),m)
  else if slots.any Slot.special then sortSpecial toString cmp slots m
  else match cmp with
    | none => sortDefaultElems toString .receiver m
    | some c => sortDense c slots.length m

end receiver
end Perry.Sorting
