import Mathlib.Data.Nat.Log
import Perry.Containers.Records
import Perry.Words.Binary64

/-! The index of a map's numeric keys: a hash table of bit patterns, and a range table for the
integers among them once they are dense enough. Arithmetic that would wrap is refused. -/

namespace Perry.Runtime.MapIndex

open Perry.Containers Perry.Words

abbrev Key := BitVec 64

inductive Wrapped where
  | wrapped

abbrev Checked := Except Wrapped

def sub (a b : Nat) : Checked Nat := if b ≤ a then .ok (a - b) else .error .wrapped

/-- A result of 64 bits. -/
def fit (a : Nat) : Checked Nat := if a < 2 ^ 64 then .ok a else .error .wrapped

def denseNumericEmpty : Nat := 2 ^ 32 - 1
def denseNumericMinKeys : Nat := 8
def denseNumericSpanFactor : Nat := 4
def denseNumericMaxSlots : Nat := 2 ^ 20

structure DenseNumericIndex where
  base : Nat
  slots : List Nat

/-- The entries of the hash table in the order in which they are enumerated. -/
structure NumericIndex where
  hashed : List (Key × Nat)
  dense : Option DenseNumericIndex
  denseKeyCount : Nat

def new : NumericIndex := ⟨[],none,0⟩

/-- `as u32`, which saturates; the fraction is dropped. -/
def asU32 : Binary64 → Nat
  | .nan => 0
  | .infinite negative => if negative then 0 else 2 ^ 32 - 1
  | .finite d => min (2 ^ 32 - 1) ⌊d.value⌋.toNat

/-- `integer as f64 == value`. -/
def sameNumber (integer : Nat) : Binary64 → Bool
  | .finite d => (integer : ℚ) = d.value
  | _ => false

def denseIntegerKey (key : Key) : Option Nat :=
  let value := Binary64.fromBits key
  let integer := asU32 value
  if sameNumber integer value then some integer else none

section operations

variable (index : NumericIndex)

/-- The range table and the slot in it of a key inside its span. -/
def denseSlot (key : Key) : Checked (Option (DenseNumericIndex × Nat)) :=
  match denseIntegerKey key,index.dense with
  | some integer,some dense =>
    if dense.base ≤ integer then do
      let offset ← sub integer dense.base
      pure (if offset < dense.slots.length then some (dense,offset) else none)
    else pure none
  | _,_ => pure none

def entryAt (slots : List Nat) (offset : Nat) : Option Nat :=
  let entry := slots.getD offset denseNumericEmpty
  if entry ≠ denseNumericEmpty then some entry else none

def get (key : Key) : Checked (Option Nat) := do
  match ← denseSlot index key with
  | some (dense,offset) => pure (entryAt dense.slots offset)
  | none => pure (getEntry key index.hashed)

def allowedDenseSpan : Nat :=
  min (max (min (index.denseKeyCount * denseNumericSpanFactor) (2 ^ 64 - 1)) 32) denseNumericMaxSlots

/-- The entry of the hash table is copied to its slot. -/
def copyHashed (base : Nat) (slots : List Nat) (entry : Key × Nat) : Checked (List Nat) :=
  match denseIntegerKey entry.1 with
  | none => pure slots
  | some integer =>
    if base ≤ integer then do
      let offset ← sub integer base
      pure (if offset < slots.length then slots.set offset entry.2 else slots)
    else pure slots

/-- The entry of an old slot is copied to its new one, or put into the hash table. -/
def copySlot (base oldBase : Nat) (state : List Nat × List (Key × Nat)) (slot : Nat × Nat) :
    Checked (List Nat × List (Key × Nat)) :=
  if slot.1 = denseNumericEmpty then pure state
  else do
    let integer ← fit (oldBase + slot.2)
    let hashed := assign (Binary64.toBits (Binary64.ofNat integer)) slot.1 state.2
    if base ≤ integer then do
      let offset ← sub integer base
      pure (if offset < state.1.length then (state.1.set offset slot.1,state.2) else (state.1,hashed))
    else pure (state.1,hashed)

def rebuildDense (base len : Nat) : Checked NumericIndex := do
  let slots ← index.hashed.foldlM (copyHashed base) (List.replicate len denseNumericEmpty)
  match index.dense with
  | none => pure { index with dense := some ⟨base,slots⟩ }
  | some old => do
    let (slots,hashed) ← old.slots.zipIdx.foldlM (copySlot base old.base) (slots,index.hashed)
    pure { index with hashed,dense := some ⟨base,slots⟩ }

/-- `usize::next_power_of_two`. -/
def nextPowerOfTwo (n : Nat) : Nat := 2 ^ Nat.clog 2 n

def maybeInitializeDense : Checked NumericIndex :=
  if index.denseKeyCount < denseNumericMinKeys then pure index
  else do
    let integers := index.hashed.filterMap fun entry => denseIntegerKey entry.1
    let minKey := integers.foldl min (2 ^ 32 - 1)
    let maxKey := integers.foldl max 0
    let width ← sub maxKey minKey
    let span ← fit (width + 1)
    let allowed := allowedDenseSpan index
    if allowed < span then pure index
    else do
      let rounded ← fit (nextPowerOfTwo span)
      rebuildDense index minKey (max (min rounded allowed) span)

def maybeExpandDense (dense : DenseNumericIndex) (integer : Nat) : Checked NumericIndex := do
  let currentEnd ← fit (dense.base + dense.slots.length)
  let newBase := min dense.base integer
  let newEnd := max currentEnd (integer + 1)
  let needed ← sub newEnd newBase
  let allowed := allowedDenseSpan index
  if allowed < needed then pure index
  else do
    let addressable ← sub (2 ^ 32) newBase
    let targetLen := min (min (max needed (min (dense.slots.length * 2) (2 ^ 64 - 1))) allowed) addressable
    if needed ≤ targetLen then rebuildDense index (newBase % 2 ^ 32) targetLen else pure index

def insertHashed (key : Key) (entry : Nat) : Checked NumericIndex := do
  let integer := denseIntegerKey key
  let isNew := (getEntry key index.hashed).isNone
  let denseKeyCount ← fit (index.denseKeyCount + if isNew && integer.isSome then 1 else 0)
  let index := { index with hashed := assign key entry index.hashed,denseKeyCount }
  match integer with
  | none => pure index
  | some integer =>
    match index.dense with
    | some dense => maybeExpandDense index dense integer
    | none => maybeInitializeDense index

def insert (key : Key) (entry : Nat) : Checked NumericIndex := do
  match ← denseSlot index key with
  | some (dense,offset) => do
    let denseKeyCount ← fit (index.denseKeyCount + if (entryAt dense.slots offset).isNone then 1 else 0)
    pure { index with dense := some { dense with slots := dense.slots.set offset entry },denseKeyCount }
  | none => insertHashed index key entry

/-- The slot of a key is emptied; what it held is answered where the hash table had nothing. -/
def emptySlot (removed : Option Nat) : Option (DenseNumericIndex × Nat) → Option Nat × Option DenseNumericIndex
  | some (dense,offset) =>
    match entryAt dense.slots offset with
    | some entry => (removed.or (some entry),some { dense with slots := dense.slots.set offset denseNumericEmpty })
    | none => (removed,index.dense)
  | none => (removed,index.dense)

/-- The counter saturates. -/
def remove (key : Key) : Checked (Option Nat × NumericIndex) := do
  let found ← denseSlot index key
  let emptied := emptySlot index (getEntry key index.hashed) found
  let counted := emptied.1.isSome && (denseIntegerKey key).isSome
  pure (emptied.1,⟨index.hashed.filter (·.1 ≠ key),emptied.2,
    if counted then index.denseKeyCount - 1 else index.denseKeyCount⟩)

def clear : NumericIndex :=
  { hashed := []
    dense := index.dense.map fun dense => { dense with slots := List.replicate dense.slots.length denseNumericEmpty }
    denseKeyCount := 0 }

end operations

inductive Operation where
  | insert (key : Key) (entry : Nat)
  | get (key : Key)
  | remove (key : Key)
  | clear

def Operation.keys : Operation → List Key
  | .insert key _ => [key]
  | .get key => [key]
  | .remove key => [key]
  | .clear => []

/-- The answers of the gets are gathered. -/
def perform (state : NumericIndex × List (Option Nat)) : Operation → Checked (NumericIndex × List (Option Nat))
  | .insert key entry => do
    let index ← insert state.1 key entry
    pure (index,state.2)
  | .get key => do
    let answer ← get state.1 key
    pure (state.1,state.2 ++ [answer])
  | .remove key => do
    let (_,index) ← remove state.1 key
    pure (index,state.2)
  | .clear => pure (clear state.1,state.2)

/-- The same on a plain finite map. -/
def performPlain (state : List (Key × Nat) × List (Option Nat)) : Operation → List (Key × Nat) × List (Option Nat)
  | .insert key entry => (assign key entry state.1,state.2)
  | .get key => (state.1,state.2 ++ [getEntry key state.1])
  | .remove key => (state.1.filter (·.1 ≠ key),state.2)
  | .clear => ([],state.2)

end Perry.Runtime.MapIndex
