import Perry.Runtime.BoxedValues
import Perry.Runtime.SetElements

/-! A `Set` of boxed values: the elements buffer as it is in memory, the side index and every entry
point. A header that cannot be read and a capacity that would wrap are refused. -/
namespace Perry.Runtime.BoxedSet

open Containers

structure SetHeader where
  elements : List Bits
  size : Nat
  capacity : Nat
  index : Key → Option Nat
  walks : Nat

namespace SetHeader

variable (set : SetHeader)

def used : Nat := set.elements.length

/-- The elements that are no tombstones. -/
def live : List Bits := set.elements.filter (· ≠ tagHole)

end SetHeader

def smallSetScanMax : Nat := 8

/-- `as i32` -/
def asI32 (index : Nat) : Int := (BitVec.ofNat 32 index).toInt

def setForeachIsActive (set : SetHeader) : Bool := 0 < set.walks

def jsSetAlloc (capacity : BitVec 32) : SetHeader where
  elements := []
  size := 0
  capacity := if capacity.toNat = 0 then 4 else capacity.toNat
  index := fun _ => none
  walks := 0

section operations

variable (memory : Memory) (set : SetHeader)

/-- The index as it is, where the extent is too large. -/
def rebuildSetIndex : Key → Option Nat :=
  if set.capacity < set.used ∨ 16000000 < set.used then set.index
  else set.elements.zipIdx.foldl (fun index slot =>
    if slot.1 = tagHole then index else Function.update index (keyOf memory slot.1) (some slot.2)) fun _ => none

def compactSetElements : SetHeader :=
  let set := { set with elements := set.elements.filter (· ≠ tagHole) }
  { set with index := rebuildSetIndex memory set }

def compactIfHoleySet : SetHeader := if set.used ≠ set.size then compactSetElements memory set else set

def findValueIndexHot (value : Bits) : Option Int :=
  if !isPlainNonzeroNumberBits value then none
  else if smallSetScanMax < set.used then none
  else match set.elements.findIdx? (· = value) with
    | some i => some (asI32 i)
    | none => some (-1)

/-- The hash of the value is computed, then the index is asked. -/
def findValueIndexCold (value : Bits) : Option Int :=
  if readable memory value then
    match set.index (keyOf memory value) with
    | some i => if i < set.used then some (asI32 i) else some (-1)
    | none => some (-1)
  else none

def findValueIndex (value : Bits) : Option Int :=
  match findValueIndexHot set value with
  | some i => some i
  | none => findValueIndexCold memory set value

def grow : Option SetHeader :=
  if set.capacity * 2 < 2 ^ 32 then some { set with capacity := set.capacity * 2 } else none

def ensureCapacity : Option SetHeader :=
  if set.used < set.capacity then some set
  else if set.size < set.used ∧ !setForeachIsActive set then
    let set := compactSetElements memory set
    if set.used < set.capacity then some set else grow set
  else grow set

/-- A value that is not there is put behind the others. -/
def addValue (value : Bits) : Option SetHeader := do
  if 0 ≤ (← findValueIndex memory set value) then return set
  let set ← ensureCapacity memory set
  if readable memory value then
    return { set with
      elements := set.elements ++ [value]
      index := Function.update set.index (keyOf memory value) (some set.used)
      size := set.size + 1 }
  else none

def hasValue (value : Bits) : Option Bool := do return 0 ≤ (← findValueIndex memory set value)

def jsSetAdd (value : Bits) : Option SetHeader := addValue memory set (normalizeZero value)

def jsSetHas (value : Bits) : Option Bool := hasValue memory set (normalizeZero value)

/-- The slot becomes a tombstone. What is removed from the index has been hashed when it was put there. -/
def dropSlot (place : Nat) : SetHeader :=
  let deleted := set.elements.getD place tagHole
  { set with
    elements := set.elements.set place tagHole
    size := set.size - 1
    index := Function.update set.index (keyOf memory deleted) none }

def jsSetDelete (value : Bits) : Option (SetHeader × Bool) := do
  let index ← findValueIndex memory set (normalizeZero value)
  if index < 0 then return (set,false)
  let set := dropSlot memory set index.toNat
  if 16 ≤ set.used ∧ set.size < set.used / 2 ∧ !setForeachIsActive set then return (compactSetElements memory set,true)
  return (set,true)

def numberValue (value : Bits) : Bits := (normalizeNumberValueFromBoxed value).getD value

def boxedHeapStringValue (address : Nat) : Bits := boxed stringTag (address % 2 ^ 48)

def boxedI32Value (value : BitVec 32) : Bits := boxed int32Tag value.toNat

def boxedBoolValue (value : BitVec 32) : Bits := if value ≠ 0 then tagTrue else tagFalse

def jsSetAddNumber (value : Bits) : Option SetHeader := jsSetAdd memory set (numberValue value)
def jsSetAddString (address : Nat) : Option SetHeader := addValue memory set (boxedHeapStringValue address)
def jsSetAddI32 (value : BitVec 32) : Option SetHeader := jsSetAdd memory set (boxedI32Value value)
def jsSetAddU32 (value : BitVec 32) : Option SetHeader := jsSetAdd memory set (ofU32 value)
def jsSetAddBool (value : BitVec 32) : Option SetHeader := jsSetAdd memory set (boxedBoolValue value)

def jsSetHasNumber (value : Bits) : Option Bool := jsSetHas memory set (numberValue value)
def jsSetHasString (address : Nat) : Option Bool := hasValue memory set (boxedHeapStringValue address)
def jsSetHasI32 (value : BitVec 32) : Option Bool := jsSetHas memory set (boxedI32Value value)
def jsSetHasU32 (value : BitVec 32) : Option Bool := jsSetHas memory set (ofU32 value)
def jsSetHasBool (value : BitVec 32) : Option Bool := jsSetHas memory set (boxedBoolValue value)

def jsSetDeleteNumber (value : Bits) : Option (SetHeader × Bool) := jsSetDelete memory set (numberValue value)
def jsSetDeleteString (address : Nat) : Option (SetHeader × Bool) := jsSetDelete memory set (boxedHeapStringValue address)
def jsSetDeleteI32 (value : BitVec 32) : Option (SetHeader × Bool) := jsSetDelete memory set (boxedI32Value value)
def jsSetDeleteU32 (value : BitVec 32) : Option (SetHeader × Bool) := jsSetDelete memory set (ofU32 value)
def jsSetDeleteBool (value : BitVec 32) : Option (SetHeader × Bool) := jsSetDelete memory set (boxedBoolValue value)

def jsSetClear : SetHeader :=
  if set.size = 0 then
    if !setForeachIsActive set ∧ 0 < set.used then { set with elements := [] } else set
  else if setForeachIsActive set then
    { set with size := 0, elements := set.elements.map fun _ => tagHole, index := fun _ => none }
  else { set with size := 0, elements := [], index := fun _ => none }

/-- The set is squeezed for the read, unless a walk is in it. -/
def liveIndexToRawSet (index : Nat) : SetHeader × Option Nat :=
  if set.size ≤ index then (set,none)
  else if !setForeachIsActive set then (compactIfHoleySet memory set,some index)
  else (set,liveToRaw (set.elements.map fun v => if v = tagHole then none else some v) index)

def jsSetValueAt (index : Nat) : SetHeader × Bits :=
  match liveIndexToRawSet memory set index with
  | (set,none) => (set,tagUndefined)
  | (set,some raw) => (set,set.elements.getD raw tagUndefined)

def jsSetToArray : SetHeader × List Bits :=
  let set := compactIfHoleySet memory set
  (set,set.elements.take set.size)

end operations

/-- The slot as the side index knows it. -/
def slot (memory : Memory) (v : Bits) : Option Key := if v = tagHole then none else some (keyOf memory v)

/-- The set up to what the comparison tells apart. -/
def SetHeader.abstract (memory : Memory) (set : SetHeader) : JsSet.SetHeader Key :=
  ⟨set.elements.map (slot memory),set.size,set.capacity,set.index,set.walks⟩

def known : JsSet.Elements Key where
  undefined := .identity tagUndefined
  plain
    | .identity v => isPlainNonzeroNumberBits v
    | .content _ => false

section simulation

variable {memory : Memory} {set : SetHeader} {v : Bits}

theorem slot_eq_some {k : Key} : slot memory v = some k ↔ v ≠ tagHole ∧ keyOf memory v = k := by
  rw [slot]
  split
  · next hole => simp [hole]
  · next solid => simp [solid]

theorem abstract_used (memory : Memory) (set : SetHeader) : (set.abstract memory).used = set.used := List.length_map _

theorem map_filter (elements : List Bits) :
    (elements.filter (· ≠ tagHole)).map (slot memory) = squeeze (elements.map (slot memory)) := by
  induction elements with
  | nil => rfl
  | cons v rest ih =>
    by_cases hole : v = tagHole
    · rw [List.filter_cons_of_neg (by simp [hole]),List.map_cons,squeeze,List.filter_cons_of_neg (by simp [slot,hole])]
      exact ih
    · rw [List.filter_cons_of_pos (by simp [hole]),List.map_cons,List.map_cons,squeeze,
        List.filter_cons_of_pos (by simp [slot,hole]),ih]
      rfl

/-- The index is rebuilt from what the comparison tells apart. -/
theorem rebuildSetIndex_eq : rebuildSetIndex memory set = JsSet.rebuildSetIndex (set.abstract memory) := by
  rw [rebuildSetIndex,JsSet.rebuildSetIndex,abstract_used]
  change _ = (if set.capacity < set.used ∨ 16000000 < set.used then set.index else JsSet.indexOf (set.elements.map (slot memory)))
  congr 1
  rw [JsSet.indexOf,List.zipIdx_map,List.foldl_map]
  congr 1
  funext index place
  rw [Prod.map_fst,Prod.map_snd,slot]
  split <;> rfl

theorem abstract_compact : (compactSetElements memory set).abstract memory = JsSet.compactSetElements (set.abstract memory) := by
  rw [compactSetElements,SetHeader.abstract,JsSet.compactSetElements]
  dsimp only
  rw [rebuildSetIndex_eq,SetHeader.abstract,map_filter]
  rfl

theorem asI32_eq {place : Nat} (near : place < 2 ^ 31) : asI32 place = place := by
  rw [asI32,BitVec.toInt_ofNat',Int.bmod_def]
  omega

/-- What the comparison has of a plain number is its bits. -/
theorem slot_plain (solid : v ≠ tagHole) (exact : keyOf memory v = .identity v) (b : Bits) :
    slot memory b = some (keyOf memory v) ↔ b = v := by
  rw [slot_eq_some,exact]
  constructor
  · exact fun both => keyOf_identity both.2
  · rintro rfl
    exact ⟨solid,exact⟩

theorem scan_eq (solid : v ≠ tagHole) (exact : keyOf memory v = .identity v) :
    set.elements.findIdx? (· = v) = (set.abstract memory).slots.findIdx? (· = some (keyOf memory v)) := by
  rw [SetHeader.abstract,List.findIdx?_map]
  congr 1
  funext b
  exact decide_eq_decide.mpr (slot_plain solid exact b).symm

theorem findValueIndexCold_eq (well : (set.abstract memory).WellFormed) (read : readable memory v = true)
    (near : ∀ place,set.index (keyOf memory v) = some place → place < 2 ^ 31) :
    findValueIndexCold memory set v = some (((set.index (keyOf memory v)).map Int.ofNat).getD (-1)) := by
  rw [findValueIndexCold,if_pos read]
  cases entry : set.index (keyOf memory v) with
  | none => rfl
  | some place =>
    obtain ⟨inside,-⟩ := List.getElem?_eq_some_iff.mp ((well.indexed _ place).mp entry)
    dsimp only
    rw [if_pos (abstract_used memory set ▸ inside),asI32_eq (near place entry)]
    rfl

theorem findValueIndexHot_eq (well : (set.abstract memory).WellFormed) (plain : isPlainNonzeroNumberBits v = true)
    (exact : keyOf memory v = .identity v) (small : set.used ≤ smallSetScanMax)
    (near : ∀ place,set.index (keyOf memory v) = some place → place < 2 ^ 31) :
    findValueIndexHot set v = some (((set.index (keyOf memory v)).map Int.ofNat).getD (-1)) := by
  have solid : v ≠ tagHole := by
    rintro rfl
    cases plain
  have scanned : set.elements.findIdx? (· = v) = set.index (keyOf memory v) := by
    rw [scan_eq solid exact]
    exact well.scan_eq
  rw [findValueIndexHot,plain,Bool.not_true,if_neg Bool.false_ne_true,if_neg small.not_gt,scanned]
  cases entry : set.index (keyOf memory v) with
  | none => rfl
  | some place => exact congrArg some (asI32_eq (near place entry))

/-- Whether the number is scanned for or looked up, it is found where the index has it. -/
theorem findValueIndex_eq (well : (set.abstract memory).WellFormed) (read : readable memory v = true)
    (exact : isPlainNonzeroNumberBits v = true → keyOf memory v = .identity v)
    (near : ∀ place,set.index (keyOf memory v) = some place → place < 2 ^ 31) :
    findValueIndex memory set v = some (((set.index (keyOf memory v)).map Int.ofNat).getD (-1)) := by
  have cold := findValueIndexCold_eq well read near
  by_cases plain : isPlainNonzeroNumberBits v = true
  · by_cases large : smallSetScanMax < set.used
    · have missed : findValueIndexHot set v = none := by
        rw [findValueIndexHot,plain,if_pos large]
        rfl
      rw [findValueIndex,missed]
      exact cold
    · rw [findValueIndex,findValueIndexHot_eq well plain (exact plain) (not_lt.mp large) near]
  · have missed : findValueIndexHot set v = none := by
      rw [findValueIndexHot,Bool.eq_false_iff.mpr plain]
      rfl
    rw [findValueIndex,missed]
    exact cold

theorem mem_compactSetElements {b : Bits} (member : b ∈ (compactSetElements memory set).elements) : b ∈ set.elements :=
  List.mem_of_mem_filter member

theorem abstract_foreachIsActive : JsSet.setForeachIsActive (set.abstract memory) = setForeachIsActive set := rfl

theorem abstract_grow : (grow set).map (·.abstract memory) = JsSet.grow (set.abstract memory) := by
  rw [grow,apply_ite (Option.map _)]
  rfl

/-- Room is made as for what the comparison tells apart. -/
theorem ensureCapacity_eq : (ensureCapacity memory set).map (·.abstract memory) = JsSet.ensureCapacity (set.abstract memory) := by
  have squeezed : (compactSetElements memory set).used = (JsSet.compactSetElements (set.abstract memory)).used := by
    rw [← abstract_compact,abstract_used]
  rw [ensureCapacity,JsSet.ensureCapacity,abstract_used,abstract_foreachIsActive,← abstract_grow]
  dsimp only
  rw [← squeezed,← abstract_compact,← abstract_grow,apply_ite (Option.map _),apply_ite (Option.map _),apply_ite (Option.map _)]
  rfl

theorem mem_grow {made : SetHeader} (done : grow set = some made) : made.elements = set.elements := by
  obtain ⟨-,grown⟩ := Option.ite_none_right_eq_some.mp done
  obtain rfl := Option.some.inj grown
  rfl

theorem mem_ensureCapacity {made : SetHeader} (done : ensureCapacity memory set = some made) {b : Bits}
    (member : b ∈ made.elements) : b ∈ set.elements := by
  rw [ensureCapacity] at done
  split at done
  · obtain rfl := Option.some.inj done
    exact member
  · split at done
    · dsimp only at done
      split at done
      · obtain rfl := Option.some.inj done
        exact mem_compactSetElements member
      · rw [mem_grow done] at member
        exact mem_compactSetElements member
    · rwa [mem_grow done] at member

/-- The lookup of the value goes as it should. -/
structure Sought (memory : Memory) (set : SetHeader) (v : Bits) : Prop where
  read : readable memory v = true
  solid : v ≠ tagHole
  exact : isPlainNonzeroNumberBits v = true → keyOf memory v = .identity v
  near : ∀ place,set.index (keyOf memory v) = some place → place < 2 ^ 31

theorem Sought.find (sought : Sought memory set v) (well : (set.abstract memory).WellFormed) :
    findValueIndex memory set v = some (((set.index (keyOf memory v)).map Int.ofNat).getD (-1)) :=
  findValueIndex_eq well sought.read sought.exact sought.near

theorem hasValue_eq (well : (set.abstract memory).WellFormed) (sought : Sought memory set v) :
    hasValue memory set v = some (JsSet.jsSetHas known (set.abstract memory) (some (keyOf memory v))) := by
  rw [hasValue,sought.find well,JsSet.jsSetHas,JsSet.normalizeZero,Option.getD_some,well.findValueIndex_eq sought.near]
  change some (decide _) = some (set.index (keyOf memory v)).isSome
  cases set.index (keyOf memory v) with
  | none => rfl
  | some place => exact congrArg some (decide_eq_true (Int.natCast_nonneg place))

theorem addValue_found {i : Int} (found : findValueIndex memory set v = some i) (there : 0 ≤ i) : addValue memory set v = some set := by
  rw [addValue,found]
  change (if 0 ≤ i then some set else _) = _
  rw [if_pos there]

theorem addValue_missing (missing : findValueIndex memory set v = some (-1)) (read : readable memory v = true) :
    addValue memory set v = (ensureCapacity memory set).map fun made => { made with
      elements := made.elements ++ [v]
      index := Function.update made.index (keyOf memory v) (some made.used)
      size := made.size + 1 } := by
  rw [addValue,missing]
  change (ensureCapacity memory set).bind _ = _
  rw [read]
  exact (Option.map_eq_bind ..).symm

/-- A value is added as what the comparison has of it. -/
theorem addValue_eq (well : (set.abstract memory).WellFormed) (sought : Sought memory set v) :
    (addValue memory set v).map (·.abstract memory) = JsSet.jsSetAdd known (set.abstract memory) (some (keyOf memory v)) := by
  have found := sought.find well
  have entry_eq : (set.abstract memory).index (keyOf memory v) = set.index (keyOf memory v) := rfl
  rw [JsSet.jsSetAdd,JsSet.normalizeZero,Option.getD_some,well.findValueIndex_eq sought.near,entry_eq]
  cases entry : set.index (keyOf memory v) with
  | some place =>
    rw [entry] at found
    rw [addValue_found found (Int.natCast_nonneg place)]
    rfl
  | none =>
    rw [entry] at found
    dsimp only
    rw [addValue_missing found sought.read,← ensureCapacity_eq,Option.map_map,Option.map_map]
    congr 1
    funext made
    simp only [Function.comp_apply,SetHeader.abstract,JsSet.appendElement,JsSet.SetHeader.used,List.map_append,List.map_singleton,
      List.length_map,slot_eq_some.mpr ⟨sought.solid,rfl⟩]
    rfl

theorem mem_addValue {made : SetHeader} (well : (set.abstract memory).WellFormed) (sought : Sought memory set v)
    (done : addValue memory set v = some made) {b : Bits} (member : b ∈ made.elements) : b ∈ set.elements ∨ b = v := by
  have found := sought.find well
  cases entry : set.index (keyOf memory v) with
  | some place =>
    rw [entry] at found
    rw [addValue_found found (Int.natCast_nonneg place)] at done
    obtain rfl := Option.some.inj done
    exact .inl member
  | none =>
    rw [entry] at found
    rw [addValue_missing found sought.read] at done
    obtain ⟨room,made_room,rfl⟩ := Option.map_eq_some_iff.mp done
    obtain before | added := List.mem_append.mp member
    · exact .inl (mem_ensureCapacity made_room before)
    · exact .inr (List.mem_singleton.mp added)

theorem abstract_dropSlot {place : Nat} {k : Key} (held : (set.abstract memory).slots[place]? = some (some k)) :
    (dropSlot memory set place).abstract memory = JsSet.dropSlot (set.abstract memory) place := by
  have here := held
  rw [SetHeader.abstract,List.getElem?_map,Option.map_eq_some_iff] at here
  obtain ⟨b,at_place,known⟩ := here
  have deleted : set.elements.getD place tagHole = b := by
    rw [List.getD_eq_getElem?_getD,at_place,Option.getD_some]
  have hole : slot memory tagHole = none := if_pos rfl
  rw [JsSet.dropSlot,held,dropSlot,SetHeader.abstract,List.map_set,hole,deleted,(slot_eq_some.mp known).2]
  rfl

theorem jsSetDelete_missing {value : Bits} (missing : findValueIndex memory set (normalizeZero value) = some (-1)) :
    jsSetDelete memory set value = some (set,false) := by
  rw [jsSetDelete,missing]
  rfl

theorem jsSetDelete_found {value : Bits} {place : Nat}
    (found : findValueIndex memory set (normalizeZero value) = some (Int.ofNat place)) :
    jsSetDelete memory set value = some (
      if 16 ≤ (dropSlot memory set place).used ∧ (dropSlot memory set place).size < (dropSlot memory set place).used / 2 ∧
        !setForeachIsActive (dropSlot memory set place) then (compactSetElements memory (dropSlot memory set place),true)
      else (dropSlot memory set place,true)) := by
  have present : ¬ Int.ofNat place < 0 := (Int.natCast_nonneg place).not_gt
  rw [jsSetDelete,found,Option.bind_eq_bind,Option.bind_some,if_neg present]
  exact (apply_ite some _ _ _).symm

/-- A value is deleted as what the comparison has of it. -/
theorem jsSetDelete_eq {value : Bits} (well : (set.abstract memory).WellFormed) (sought : Sought memory set (normalizeZero value)) :
    ∃ set' found,jsSetDelete memory set value = some (set',found) ∧
      (set'.abstract memory,found) = JsSet.jsSetDelete known (set.abstract memory) (some (keyOf memory (normalizeZero value))) ∧
      ∀ b ∈ set'.elements,b ∈ set.elements ∨ b = tagHole := by
  have found := sought.find well
  have entry_eq : (set.abstract memory).index (keyOf memory (normalizeZero value)) = set.index (keyOf memory (normalizeZero value)) :=
    rfl
  rw [JsSet.jsSetDelete,JsSet.normalizeZero,Option.getD_some,well.findValueIndex_eq sought.near,entry_eq]
  cases entry : set.index (keyOf memory (normalizeZero value)) with
  | none =>
    rw [entry] at found
    exact ⟨set,false,jsSetDelete_missing found,rfl,fun b member => .inl member⟩
  | some place =>
    rw [entry] at found
    have same := abstract_dropSlot ((well.indexed _ place).mp entry)
    have kept : ∀ b ∈ (dropSlot memory set place).elements,b ∈ set.elements ∨ b = tagHole := fun b => List.mem_or_eq_of_mem_set
    rw [jsSetDelete_found found]
    dsimp only
    rw [← same,abstract_used,abstract_foreachIsActive,← abstract_compact]
    change ∃ set' found,_ ∧ (SetHeader.abstract memory set',found) =
      (if _ ∧ (dropSlot memory set place).size < _ ∧ _ then _ else _) ∧ _
    split
    · exact ⟨_,_,rfl,rfl,fun b member => kept b (mem_compactSetElements member)⟩
    · exact ⟨_,_,rfl,rfl,kept⟩

theorem abstract_clear : (jsSetClear set).abstract memory = JsSet.jsSetClear (set.abstract memory) := by
  rw [jsSetClear,JsSet.jsSetClear,abstract_used,abstract_foreachIsActive]
  change _ = (if set.size = 0 then _ else _)
  split
  · split <;> rfl
  · split
    · rw [SetHeader.abstract,SetHeader.abstract,List.map_map,List.map_map]
      rfl
    · rfl

theorem abstract_compactIfHoley :
    (compactIfHoleySet memory set).abstract memory = JsSet.compactIfHoleySet (set.abstract memory) := by
  rw [compactIfHoleySet,JsSet.compactIfHoleySet,abstract_used,← abstract_compact,apply_ite (SetHeader.abstract memory)]
  rfl

theorem mem_compactIfHoley {b : Bits} (member : b ∈ (compactIfHoleySet memory set).elements) : b ∈ set.elements := by
  rw [compactIfHoleySet] at member
  split at member
  · exact mem_compactSetElements member
  · exact member

theorem mem_clear {b : Bits} (member : b ∈ (jsSetClear set).elements) : b ∈ set.elements ∨ b = tagHole := by
  rw [jsSetClear] at member
  split at member
  · split at member
    · cases member
    · exact .inl member
  · split at member
    · obtain ⟨c,-,same⟩ := List.mem_map.mp member
      exact .inr same.symm
    · cases member

theorem abstract_live : (set.abstract memory).live = set.live.map (keyOf memory) := by
  rw [SetHeader.live,JsSet.SetHeader.live,SetHeader.abstract]
  induction set.elements with
  | nil => rfl
  | cons b rest ih =>
    by_cases hole : b = tagHole
    · rw [List.map_cons,slot,if_pos hole,List.reduceOption_cons_of_none,List.filter_cons_of_neg (by simp [hole])]
      exact ih
    · rw [List.map_cons,slot,if_neg hole,List.reduceOption_cons_of_some,List.filter_cons_of_pos (by simp [hole]),
        List.map_cons,ih]

theorem length_live (well : (set.abstract memory).WellFormed) : set.live.length = set.size := by
  rw [← List.length_map (keyOf memory),← abstract_live]
  exact well.sized.symm

theorem compactIfHoleySet_elements (well : (set.abstract memory).WellFormed) :
    (compactIfHoleySet memory set).elements = set.live := by
  rw [compactIfHoleySet]
  split
  · rfl
  · next full =>
    rw [SetHeader.live,List.filter_eq_self.mpr]
    exact List.length_filter_eq_length_iff.mp ((length_live well).trans (not_not.mp full).symm)

theorem reduceOption_solid (elements : List Bits) :
    (elements.map fun v => if v = tagHole then none else some v).reduceOption = elements.filter (· ≠ tagHole) := by
  induction elements with
  | nil => rfl
  | cons v rest ih =>
    by_cases hole : v = tagHole
    · rw [List.map_cons,if_pos hole,List.reduceOption_cons_of_none,List.filter_cons_of_neg (by simp [hole]),ih]
    · rw [List.map_cons,if_neg hole,List.reduceOption_cons_of_some,List.filter_cons_of_pos (by simp [hole]),ih]

theorem jsSetToArray_eq (well : (set.abstract memory).WellFormed) :
    jsSetToArray memory set = (compactIfHoleySet memory set,set.live) := by
  have size : (compactIfHoleySet memory set).size = set.size := by
    rw [compactIfHoleySet]
    split <;> rfl
  rw [jsSetToArray,size,compactIfHoleySet_elements well,List.take_of_length_le (length_live well).le]

theorem liveToRaw_solid {elements : List Bits} {index raw : Nat}
    (found : liveToRaw (elements.map fun v => if v = tagHole then none else some v) index = some raw) :
    elements[raw]? = (elements.filter (· ≠ tagHole))[index]? := by
  have slot := slot_liveToRaw (elements.map fun v => if v = tagHole then none else some v) index
  rw [reduceOption_solid,found,Option.bind_some,List.getElem?_map] at slot
  cases here : elements[raw]? with
  | none =>
    rw [here,Option.map_none] at slot
    exact (Option.map_eq_none_iff.mp slot.symm).symm
  | some v =>
    rw [here,Option.map_some] at slot
    obtain ⟨w,there,same⟩ := Option.map_eq_some_iff.mp slot.symm
    split at same
    · cases same
    · rw [there,Option.some.inj same]

/-- The element is read, and the set is squeezed for it or is left as it is. -/
theorem jsSetValueAt_eq (well : (set.abstract memory).WellFormed) (index : Nat) :
    (jsSetValueAt memory set index).2 = set.live[index]?.getD tagUndefined ∧
      ((jsSetValueAt memory set index).1 = set ∨
        index < set.size ∧ (jsSetValueAt memory set index).1 = compactIfHoleySet memory set) := by
  rw [jsSetValueAt,liveIndexToRawSet]
  by_cases outside : set.size ≤ index
  · rw [if_pos outside,List.getElem?_eq_none ((length_live well).trans_le outside)]
    exact ⟨rfl,.inl rfl⟩
  rw [if_neg outside]
  by_cases active : setForeachIsActive set = true
  · rw [active,Bool.not_true,if_neg Bool.false_ne_true]
    cases found : liveToRaw (set.elements.map fun v => if v = tagHole then none else some v) index with
    | none =>
      have slot := slot_liveToRaw (set.elements.map fun v => if v = tagHole then none else some v) index
      rw [reduceOption_solid,found,Option.bind_none] at slot
      rw [SetHeader.live,Option.map_eq_none_iff.mp slot.symm]
      exact ⟨rfl,.inl rfl⟩
    | some raw =>
      dsimp only
      rw [SetHeader.live,← liveToRaw_solid found,List.getD_eq_getElem?_getD]
      exact ⟨rfl,.inl rfl⟩
  · rw [Bool.not_eq_true] at active
    rw [active,Bool.not_false,if_pos rfl]
    dsimp only
    rw [compactIfHoleySet_elements well,List.getD_eq_getElem?_getD]
    exact ⟨rfl,.inr ⟨not_le.mp outside,rfl⟩⟩

end simulation

end Perry.Runtime.BoxedSet
