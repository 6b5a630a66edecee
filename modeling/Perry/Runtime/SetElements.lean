import Perry.Containers.Tombstones

/-! The elements buffer of a `Set`, its side index and the operations on them.
Elements that `jsvalue_eq` does not tell apart are one element here, and a raw slot that is read
as a value is an element or the hole marker. A capacity that would wrap is refused.
-/
namespace Perry.Runtime.JsSet

open Perry.Containers

/-- What the code knows of the elements: `undefined`, which the hole marker is normalised to, and
which of them are plain nonzero numbers, found by their bits. -/
structure Elements (V : Type) where
  undefined : V
  plain : V → Bool

structure SetHeader (V : Type) where
  slots : List (Option V)
  size : Nat
  capacity : Nat
  index : V → Option Nat
  walks : Nat

variable {V : Type}

/-- The index names the slot of every element, and nothing else. -/
def Indexes (index : V → Option Nat) (slots : List (Option V)) : Prop :=
  ∀ v place,index v = some place ↔ slots[place]? = some (some v)

namespace SetHeader

variable (set : SetHeader V)

def used : Nat := set.slots.length

/-- The elements, in insertion order. -/
def live : List V := set.slots.reduceOption

/-- The live count, the elements and their places in the index agree. -/
structure WellFormed : Prop where
  sized : set.size = set.live.length
  distinct : set.live.Nodup
  indexed : Indexes set.index set.slots
  room : set.used ≤ set.capacity ∧ 0 < set.capacity

end SetHeader

section Operations

variable [DecidableEq V] (elements : Elements V) (set : SetHeader V)

/-- `normalize_zero` on a raw slot. -/
def normalizeZero (raw : Option V) : V := raw.getD elements.undefined

def jsSetAlloc (capacity : BitVec 32) : SetHeader V where
  slots := []
  size := 0
  capacity := if capacity.toNat = 0 then 4 else capacity.toNat
  index := fun _ => none
  walks := 0

def setForeachIsActive : Bool := 0 < set.walks

/-- The index that the slots have. -/
def indexOf (slots : List (Option V)) : V → Option Nat :=
  slots.zipIdx.foldl (fun index slot => match slot.1 with
    | none => index
    | some v => Function.update index v (some slot.2)) fun _ => none

/-- The index as it is, where the extent is too large. -/
def rebuildSetIndex : V → Option Nat :=
  if set.capacity < set.used ∨ 16000000 < set.used then set.index else indexOf set.slots

def compactSetElements : SetHeader V :=
  let set := { set with slots := squeeze set.slots }
  { set with index := rebuildSetIndex set }

def compactIfHoleySet : SetHeader V :=
  if set.used ≠ set.size then compactSetElements set else set

def smallSetScanMax : Nat := 8

/-- An index that is negative as an `i32` is not found. -/
def findValueIndex (v : V) : Option Nat :=
  let index :=
    if elements.plain v ∧ set.used ≤ smallSetScanMax then set.slots.findIdx? (· = some v)
    else (set.index v).filter (· < set.used)
  index.filter (· < 2 ^ 31)

def grow : Option (SetHeader V) :=
  if set.capacity * 2 < 2 ^ 32 then some { set with capacity := set.capacity * 2 } else none

def ensureCapacity : Option (SetHeader V) :=
  if set.used < set.capacity then some set
  else if set.size < set.used ∧ !setForeachIsActive set then
    let set := compactSetElements set
    if set.used < set.capacity then some set else grow set
  else grow set

/-- The element is put behind the others. -/
def appendElement (v : V) : SetHeader V :=
  { set with
    slots := set.slots ++ [some v]
    index := Function.update set.index v (some set.used)
    size := set.size + 1 }

def jsSetAdd (raw : Option V) : Option (SetHeader V) :=
  let v := normalizeZero elements raw
  match findValueIndex elements set v with
  | some _ => some set
  | none => (ensureCapacity set).map (appendElement · v)

def jsSetHas (raw : Option V) : Bool :=
  (findValueIndex elements set (normalizeZero elements raw)).isSome

/-- The slot becomes a hole, and what it held leaves the index. -/
def dropSlot (place : Nat) : SetHeader V :=
  { set with
    slots := set.slots.set place none
    size := set.size - 1
    index := match set.slots[place]?.join with
      | some v => Function.update set.index v none
      | none => set.index }

def jsSetDelete (raw : Option V) : SetHeader V × Bool :=
  match findValueIndex elements set (normalizeZero elements raw) with
  | none => (set,false)
  | some place =>
    let set := dropSlot set place
    if 16 ≤ set.used ∧ set.size < set.used / 2 ∧ !setForeachIsActive set then
      (compactSetElements set,true)
    else (set,true)

def jsSetClear : SetHeader V :=
  if set.size = 0 then
    if !setForeachIsActive set ∧ 0 < set.used then { set with slots := [] } else set
  else if setForeachIsActive set then
    { set with size := 0, slots := set.slots.map fun _ => none, index := fun _ => none }
  else { set with size := 0, slots := [], index := fun _ => none }

/-- A `forEach` walk starts: the outermost one squeezes first. -/
def jsSetForeachStart : SetHeader V :=
  let set := if setForeachIsActive set then set else compactIfHoleySet set
  { set with walks := set.walks + 1 }

/-- A `forEach` walk is complete: the outermost one squeezes what was deferred. -/
def jsSetForeachFinish : SetHeader V :=
  let set := { set with walks := set.walks - 1 }
  if setForeachIsActive set then set else compactIfHoleySet set

end Operations

/-- The operations of a program on one set; a read may squeeze its holes out. -/
inductive Op (V : Type)
  | add (raw : Option V)
  | delete (raw : Option V)
  | clear
  | read
  | foreachStart
  | foreachFinish

section Bounds

variable [DecidableEq V] (elements : Elements V) (set : SetHeader V)

def perform : Op V → Option (SetHeader V)
  | .add raw => jsSetAdd elements set raw
  | .delete raw => some (jsSetDelete elements set raw).1
  | .clear => some (jsSetClear set)
  | .read => some (compactIfHoleySet set)
  | .foreachStart => some (jsSetForeachStart set)
  | .foreachFinish => some (jsSetForeachFinish set)

/-- A full buffer is squeezed before it is grown. -/
def Reclaims : Prop := set.used = set.capacity ∧ set.size < set.used ∧ setForeachIsActive set = false

/-- If the buffer is squeezed, the index is rebuilt. -/
def CanSqueeze : Prop := set.used ≠ set.size → set.size ≤ 16000000

/-- If the buffer is full, what is squeezed is indexed anew, and what is doubled is a `u32`. -/
structure CanGrow : Prop where
  reclaimed : Reclaims set → set.size ≤ 16000000
  doubled : set.used = set.capacity → ¬ Reclaims set → set.capacity < 2 ^ 31

/-- The bounds that the operation relies on. -/
def Fits : Op V → Prop
  | .add raw => set.used ≤ 2 ^ 31 ∧ (normalizeZero elements raw ∉ set.live → CanGrow set)
  | .delete raw => set.used ≤ 2 ^ 31 ∧ (normalizeZero elements raw ∈ set.live → 16 ≤ set.used →
      set.size - 1 < set.used / 2 → setForeachIsActive set = false → set.size - 1 ≤ 16000000)
  | .clear => True
  | .read => CanSqueeze set
  | .foreachStart => setForeachIsActive set = false → CanSqueeze set
  | .foreachFinish => set.walks ≤ 1 → CanSqueeze set

instance : Decidable (Reclaims set) := inferInstanceAs (Decidable (_ ∧ _))

instance : Decidable (CanSqueeze set) := inferInstanceAs (Decidable (_ → _))

instance : Decidable (CanGrow set) :=
  decidable_of_iff ((Reclaims set → set.size ≤ 16000000) ∧ (set.used = set.capacity → ¬ Reclaims set → set.capacity < 2 ^ 31))
    ⟨fun both => ⟨both.1,both.2⟩,fun can => ⟨can.reclaimed,can.doubled⟩⟩

instance : (op : Op V) → Decidable (Fits elements set op)
  | .add _ => inferInstanceAs (Decidable (_ ∧ _))
  | .delete _ => inferInstanceAs (Decidable (_ ∧ _))
  | .clear => .isTrue trivial
  | .read => inferInstanceAs (Decidable (CanSqueeze set))
  | .foreachStart => inferInstanceAs (Decidable (_ → _))
  | .foreachFinish => inferInstanceAs (Decidable (_ → _))

end Bounds

section Index

variable {slots : List (Option V)} {index : V → Option Nat} {v : V}

theorem mem_slots : some v ∈ slots ↔ v ∈ slots.reduceOption := List.reduceOption_mem_iff.symm

namespace Indexes

theorem empty : Indexes (fun _ : V => none) [] := by simp [Indexes]

theorem append_none (indexed : Indexes index slots) : Indexes index (slots ++ [none]) := by
  intro w place
  rw [indexed w place,List.getElem?_append]
  split
  · rfl
  · rename_i outside
    rw [List.getElem?_eq_none (not_lt.mp outside)]
    cases gap : place - slots.length <;> simp

theorem getElem?_absent (absent : some v ∉ slots) (place : Nat) : slots[place]? ≠ some (some v) :=
  fun held => absent (List.mem_of_getElem? held)

variable [DecidableEq V]

theorem append_some (indexed : Indexes index slots) (absent : some v ∉ slots) :
    Indexes (Function.update index v (some slots.length)) (slots ++ [some v]) := by
  intro w place
  rw [Function.update_apply,List.getElem?_append]
  by_cases same : w = v
  · subst same
    rw [if_pos rfl,Option.some_inj]
    have missing := getElem?_absent absent place
    split
    · rename_i inside
      exact ⟨fun wrong => absurd wrong (by omega),fun held => absurd held missing⟩
    · rename_i outside
      cases gap : place - slots.length with
      | zero =>
        have same : slots.length = place := by omega
        simp [same]
      | succ gap =>
        have differ : slots.length ≠ place := by omega
        simp [differ]
  · rw [if_neg same,indexed w place]
    split
    · rfl
    · rename_i outside
      rw [List.getElem?_eq_none (not_lt.mp outside)]
      cases gap : place - slots.length <;> simp [Ne.symm same]

/-- A hole in the slot of an element. -/
theorem set_none (indexed : Indexes index slots) {place : Nat} (held : slots[place]? = some (some v)) :
    Indexes (Function.update index v none) (slots.set place none) := by
  intro w other
  rw [Function.update_apply,List.getElem?_set]
  by_cases same : w = v
  · subst same
    rw [if_pos rfl]
    have here := (indexed w place).mpr held
    refine ⟨fun wrong => (by cases wrong),fun wrong => ?_⟩
    split at wrong
    · split at wrong <;> simp at wrong
    · rename_i differ
      rw [← indexed,here] at wrong
      exact absurd (Option.some_inj.mp wrong) differ
  · rw [if_neg same,indexed w other]
    split
    · rename_i here
      rw [← here,held]
      split <;> simp [Ne.symm same]
    · rfl

end Indexes

variable [DecidableEq V]

theorem indexOf_append (slot : Option V) : indexOf (slots ++ [slot]) =
    match slot with
    | none => indexOf slots
    | some v => Function.update (indexOf slots) v (some slots.length) := by
  rw [indexOf,List.zipIdx_append,List.foldl_append]
  simp only [List.zipIdx_singleton,List.foldl_cons,List.foldl_nil,Nat.zero_add]
  cases slot <;> rfl

theorem indexOf_indexes (distinct : slots.reduceOption.Nodup) : Indexes (indexOf slots) slots := by
  induction slots using List.reverseRecOn with
  | nil => exact Indexes.empty
  | append_singleton front slot step =>
    rw [List.reduceOption_append,List.nodup_append] at distinct
    obtain ⟨before,-,apart⟩ := distinct
    rw [indexOf_append]
    cases slot with
    | none => exact (step before).append_none
    | some v =>
      apply (step before).append_some
      intro twice
      exact apart v (mem_slots.mp twice) v (by simp) rfl

end Index

namespace SetHeader.WellFormed

variable {elements : Elements V} {set : SetHeader V} {v : V} {place : Nat}

theorem alloc (capacity : BitVec 32) : (jsSetAlloc capacity : SetHeader V).WellFormed where
  sized := rfl
  distinct := List.nodup_nil
  indexed := Indexes.empty
  room := by
    refine ⟨Nat.zero_le _,?_⟩
    unfold jsSetAlloc
    dsimp only
    split
    · decide
    · omega

theorem size_le (well : set.WellFormed) : set.size ≤ set.used := by
  rw [well.sized]
  exact List.reduceOption_length_le set.slots

variable [DecidableEq V]

/-- A scan of the slots finds what the index has. -/
theorem scan_eq (well : set.WellFormed) : set.slots.findIdx? (· = some v) = set.index v := by
  cases found : set.slots.findIdx? (· = some v) with
  | none =>
    rw [List.findIdx?_eq_none_iff] at found
    cases entry : set.index v with
    | none => rfl
    | some place =>
      have held := (well.indexed v place).mp entry
      have missed := found _ (List.mem_of_getElem? held)
      simp at missed
  | some place =>
    obtain ⟨inside,held,_⟩ := List.findIdx?_eq_some_iff_getElem.mp found
    have here : set.slots[place]? = some (some v) := by
      rw [List.getElem?_eq_getElem inside,of_decide_eq_true held]
    exact ((well.indexed v place).mpr here).symm

/-- Both ways of looking find the slot that holds the element. -/
theorem findValueIndex_eq (well : set.WellFormed) (near : ∀ place,set.index v = some place → place < 2 ^ 31) :
    findValueIndex elements set v = set.index v := by
  rw [findValueIndex,well.scan_eq]
  cases entry : set.index v with
  | none => exact (congrArg (Option.filter _) (ite_self none)).trans rfl
  | some place =>
    obtain ⟨inside,_⟩ := List.getElem?_eq_some_iff.mp ((well.indexed v place).mp entry)
    have used : (some place).filter (· < set.used) = some place := Option.filter_some_pos (decide_eq_true inside)
    rw [used,ite_self]
    exact Option.filter_some_pos (decide_eq_true (near place entry))

omit [DecidableEq V] in
theorem near (well : set.WellFormed) (narrow : set.used ≤ 2 ^ 31) (entry : set.index v = some place) : place < 2 ^ 31 := by
  obtain ⟨inside,_⟩ := List.getElem?_eq_some_iff.mp ((well.indexed v place).mp entry)
  exact inside.trans_le narrow

omit [DecidableEq V] in
theorem index_none (well : set.WellFormed) : set.index v = none ↔ v ∉ set.live := by
  rw [SetHeader.live,← mem_slots,List.mem_iff_getElem?,Option.eq_none_iff_forall_ne_some,not_exists]
  exact forall_congr' fun place => not_congr (well.indexed v place)

theorem findValueIndex_some (well : set.WellFormed) (narrow : set.used ≤ 2 ^ 31) :
    findValueIndex elements set v = some place ↔ set.slots[place]? = some (some v) := by
  rw [findValueIndex_eq well fun _ => well.near narrow]
  exact well.indexed v place

theorem findValueIndex_none (well : set.WellFormed) (narrow : set.used ≤ 2 ^ 31) :
    findValueIndex elements set v = none ↔ v ∉ set.live := by
  rw [findValueIndex_eq well fun _ => well.near narrow]
  exact index_none well

theorem jsSetHas_iff (well : set.WellFormed) (narrow : set.used ≤ 2 ^ 31) (raw : Option V) :
    jsSetHas elements set raw = true ↔ normalizeZero elements raw ∈ set.live := by
  rw [jsSetHas,← not_iff_not,Bool.not_eq_true,Option.isSome_eq_false_iff,Option.isNone_iff_eq_none]
  exact findValueIndex_none well narrow

end SetHeader.WellFormed

section Steps

variable [DecidableEq V] {elements : Elements V} {set after : SetHeader V} {v : V} {raw : Option V}

theorem compactSetElements_slots : (compactSetElements set).slots = set.live.map some := squeeze_eq_map set.slots

@[simp] theorem compactSetElements_live : (compactSetElements set).live = set.live := reduceOption_squeeze set.slots

theorem compactSetElements_used (well : set.WellFormed) : (compactSetElements set).used = set.size := by
  rw [SetHeader.used,compactSetElements_slots,List.length_map,well.sized]

theorem compactSetElements_index (well : set.WellFormed) (small : set.size ≤ 16000000) :
    (compactSetElements set).index = indexOf (squeeze set.slots) := by
  have used := compactSetElements_used well
  have room : set.size ≤ (compactSetElements set).capacity := well.size_le.trans well.room.1
  change (if (compactSetElements set).capacity < (compactSetElements set).used ∨ 16000000 < (compactSetElements set).used then
    set.index else _) = _
  rw [if_neg (by omega)]

theorem compactSetElements_wellFormed (well : set.WellFormed) (small : set.size ≤ 16000000) :
    (compactSetElements set).WellFormed where
  sized := by
    rw [compactSetElements_live]
    exact well.sized
  distinct := by
    rw [compactSetElements_live]
    exact well.distinct
  indexed := by
    rw [compactSetElements_index well small]
    apply indexOf_indexes
    rw [reduceOption_squeeze]
    exact well.distinct
  room := by
    rw [compactSetElements_used well]
    exact ⟨well.size_le.trans well.room.1,well.room.2⟩

@[simp] theorem compactIfHoleySet_live : (compactIfHoleySet set).live = set.live := by
  unfold compactIfHoleySet
  split
  · exact compactSetElements_live
  · rfl

theorem compactIfHoleySet_wellFormed (well : set.WellFormed) (can : CanSqueeze set) : (compactIfHoleySet set).WellFormed := by
  unfold compactIfHoleySet
  split
  · rename_i holey
    exact compactSetElements_wellFormed well (can holey)
  · exact well

omit [DecidableEq V] in
/-- As many slots in use as elements: no slot is a hole. -/
theorem slots_eq_of_full {slots : List (Option V)} (full : slots.length = slots.reduceOption.length) :
    slots = slots.reduceOption.map some := by
  rw [← squeeze_eq_map]
  exact ((List.filter_sublist (p := Option.isSome) (l := slots)).eq_of_length (by
    rw [full]
    exact length_squeeze slots)).symm

theorem compactIfHoleySet_slots (well : set.WellFormed) : (compactIfHoleySet set).slots = set.live.map some := by
  unfold compactIfHoleySet
  split
  · exact compactSetElements_slots
  · rename_i full
    apply slots_eq_of_full
    rw [← SetHeader.live,← well.sized]
    exact not_not.mp full

theorem compactIfHoleySet_size : (compactIfHoleySet set).size = set.size := by
  unfold compactIfHoleySet
  split <;> rfl

/-- Room is made without a change of the elements, and of the slots unless they are squeezed. -/
structure RoomMade (set after : SetHeader V) : Prop where
  well : after.WellFormed
  live : after.live = set.live
  size : after.size = set.size
  space : after.used < after.capacity
  walks : after.walks = set.walks
  kept : ¬ Reclaims set → after.slots = set.slots
  capacity : after.capacity = set.capacity ∨ after.capacity = set.capacity * 2 ∧ after.capacity < 2 ^ 32

omit [DecidableEq V] in
theorem grow_spec (well : set.WellFormed) (done : grow set = some after) : RoomMade set after := by
  obtain ⟨room,positive⟩ := well.room
  obtain ⟨narrow,grown⟩ := Option.ite_none_right_eq_some.mp done
  obtain rfl := Option.some.inj grown
  have more : set.used < set.capacity * 2 := by omega
  exact ⟨⟨well.sized,well.distinct,well.indexed,more.le,Nat.mul_pos positive Nat.two_pos⟩,rfl,rfl,more,rfl,fun _ => rfl,.inr ⟨rfl,narrow⟩⟩

theorem reclaims_space (well : set.WellFormed) (holey : set.size < set.used) :
    (compactSetElements set).used < (compactSetElements set).capacity := by
  rw [compactSetElements_used well]
  exact holey.trans_le well.room.1

theorem ensureCapacity_spec (well : set.WellFormed) (reclaimed : Reclaims set → set.size ≤ 16000000)
    (done : ensureCapacity set = some after) : RoomMade set after := by
  unfold ensureCapacity at done
  split at done
  · rename_i room
    obtain rfl := Option.some.inj done
    exact ⟨well,rfl,rfl,room,rfl,fun _ => rfl,.inl rfl⟩
  · rename_i full
    split at done
    · rename_i holey
      have idle : setForeachIsActive set = false := by simpa using holey.2
      have space := reclaims_space well holey.1
      dsimp only at done
      rw [if_pos space] at done
      obtain rfl := Option.some.inj done
      have reclaims : Reclaims set := ⟨Nat.le_antisymm well.room.1 (not_lt.mp full),holey.1,idle⟩
      exact ⟨compactSetElements_wellFormed well (reclaimed reclaims),compactSetElements_live,rfl,space,rfl,
        fun kept => absurd reclaims kept,.inl rfl⟩
    · exact grow_spec well done

/-- Room can be made. -/
theorem ensureCapacity_done (well : set.WellFormed) (can : CanGrow set) : ∃ made,ensureCapacity set = some made := by
  unfold ensureCapacity
  split
  · exact ⟨set,rfl⟩
  · rename_i full
    have whole : set.used = set.capacity := Nat.le_antisymm well.room.1 (not_lt.mp full)
    split
    · rename_i holey
      exact ⟨_,if_pos (reclaims_space well holey.1)⟩
    · rename_i kept
      have narrow := can.doubled whole fun reclaims => kept ⟨reclaims.2.1,by rw [reclaims.2.2]; rfl⟩
      exact ⟨_,if_pos (by omega)⟩

theorem appendElement_live : (appendElement set v).live = set.live ++ [v] := by
  rw [SetHeader.live,appendElement,List.reduceOption_append]
  rfl

theorem appendElement_wellFormed (well : set.WellFormed) (space : set.used < set.capacity) (absent : v ∉ set.live) :
    (appendElement set v).WellFormed where
  sized := by
    rw [appendElement_live,List.length_append,← well.sized]
    rfl
  distinct := by
    rw [appendElement_live]
    exact List.Nodup.append well.distinct (List.nodup_singleton _) (by simpa using absent)
  indexed := well.indexed.append_some (mt mem_slots.mp absent)
  room := by
    refine ⟨?_,well.room.2⟩
    change List.length (_ ++ _) ≤ _
    rw [List.length_append]
    exact space

/-- What is done where an element is added. -/
theorem jsSetAdd_cases (well : set.WellFormed) (narrow : set.used ≤ 2 ^ 31)
    (reclaimed : normalizeZero elements raw ∉ set.live → Reclaims set → set.size ≤ 16000000)
    (done : jsSetAdd elements set raw = some after) :
    normalizeZero elements raw ∈ set.live ∧ after = set ∨
      normalizeZero elements raw ∉ set.live ∧ ∃ made,RoomMade set made ∧ after = appendElement made (normalizeZero elements raw) := by
  unfold jsSetAdd at done
  dsimp only at done
  split at done
  · rename_i found
    refine .inl ⟨?_,(Option.some.inj done).symm⟩
    by_contra absent
    rw [(well.findValueIndex_none narrow).mpr absent] at found
    cases found
  · rename_i missing
    have absent := (well.findValueIndex_none narrow).mp missing
    obtain ⟨made,room,rfl⟩ := Option.map_eq_some_iff.mp done
    exact .inr ⟨absent,made,ensureCapacity_spec well (reclaimed absent) room,rfl⟩

theorem jsSetAdd_done (well : set.WellFormed) (narrow : set.used ≤ 2 ^ 31)
    (can : normalizeZero elements raw ∉ set.live → CanGrow set) : ∃ after,jsSetAdd elements set raw = some after := by
  unfold jsSetAdd
  dsimp only
  split
  · exact ⟨set,rfl⟩
  · rename_i missing
    obtain ⟨made,room⟩ := ensureCapacity_done well (can ((well.findValueIndex_none narrow).mp missing))
    exact ⟨_,Option.map_eq_some_iff.mpr ⟨made,room,rfl⟩⟩

theorem jsSetAdd_spec (well : set.WellFormed) (narrow : set.used ≤ 2 ^ 31)
    (reclaimed : normalizeZero elements raw ∉ set.live → Reclaims set → set.size ≤ 16000000)
    (done : jsSetAdd elements set raw = some after) : after.WellFormed ∧ after.live =
      if normalizeZero elements raw ∈ set.live then set.live else set.live ++ [normalizeZero elements raw] := by
  obtain ⟨known,rfl⟩ | ⟨absent,made,room,rfl⟩ := jsSetAdd_cases well narrow reclaimed done
  · exact ⟨well,(if_pos known).symm⟩
  · rw [if_neg absent,appendElement_live,room.live]
    exact ⟨appendElement_wellFormed room.well room.space (room.live ▸ absent),rfl⟩

omit [DecidableEq V] in
theorem reduceOption_set_none {slots : List (Option V)} {v : V} {place : Nat} (held : slots[place]? = some (some v)) :
    ∃ before after,slots.reduceOption = before ++ v :: after ∧ (slots.set place none).reduceOption = before ++ after := by
  obtain ⟨inside,here⟩ := List.getElem?_eq_some_iff.mp held
  refine ⟨(slots.take place).reduceOption,(slots.drop (place + 1)).reduceOption,?_,?_⟩
  · conv_lhs => rw [← List.take_append_drop place slots,List.drop_eq_getElem_cons inside,here]
    rw [List.reduceOption_append]
    rfl
  · rw [List.set_eq_take_append_cons_drop,if_pos inside,List.reduceOption_append]
    rfl

theorem dropSlot_spec {v : V} {place : Nat} (well : set.WellFormed) (held : set.slots[place]? = some (some v)) :
    (dropSlot set place).WellFormed ∧ (dropSlot set place).live = set.live.erase v := by
  obtain ⟨before,after,whole,rest⟩ := reduceOption_set_none held
  have distinct := well.distinct
  rw [SetHeader.live,whole] at distinct
  have apart := List.nodup_middle.mp distinct
  have live : (dropSlot set place).live = before ++ after := rest
  have outside : v ∉ before := fun member => (List.nodup_cons.mp apart).1 (List.mem_append_left _ member)
  refine ⟨⟨?_,?_,?_,?_⟩,?_⟩
  · rw [live]
    change set.size - 1 = _
    rw [well.sized,SetHeader.live,whole]
    simp
  · rw [live]
    exact (List.nodup_cons.mp apart).2
  · unfold dropSlot
    rw [held]
    exact well.indexed.set_none held
  · refine ⟨?_,well.room.2⟩
    change List.length (List.set _ _ _) ≤ _
    rw [List.length_set]
    exact well.room.1
  · rw [live,SetHeader.live,whole,List.erase_append_right _ outside,List.erase_cons_head]

theorem jsSetDelete_spec (well : set.WellFormed) (fits : Fits elements set (.delete raw)) :
    (jsSetDelete elements set raw).1.WellFormed ∧
      (jsSetDelete elements set raw).1.live = set.live.erase (normalizeZero elements raw) ∧
      ((jsSetDelete elements set raw).2 = true ↔ normalizeZero elements raw ∈ set.live) := by
  obtain ⟨narrow,small⟩ := fits
  unfold jsSetDelete
  split
  · rename_i missing
    have absent := (well.findValueIndex_none narrow).mp missing
    exact ⟨well,(List.erase_of_not_mem absent).symm,by simp [absent]⟩
  · rename_i place found
    have held := (well.findValueIndex_some narrow).mp found
    obtain ⟨dropped,live⟩ := dropSlot_spec well held
    have known : normalizeZero elements raw ∈ set.live := mem_slots.mp (List.mem_of_getElem? held)
    have used : (dropSlot set place).used = set.used := List.length_set
    dsimp only
    split
    · rename_i squeezes
      rw [used] at squeezes
      have idle : setForeachIsActive set = false := Bool.not_eq_true' _ |>.mp squeezes.2.2
      have left := small known squeezes.1 squeezes.2.1 idle
      refine ⟨compactSetElements_wellFormed dropped left,?_,by simp [known]⟩
      rw [compactSetElements_live]
      exact live
    · exact ⟨dropped,live,by simp [known]⟩

omit [DecidableEq V] in
theorem jsSetClear_spec (well : set.WellFormed) : (jsSetClear set).WellFormed ∧ (jsSetClear set).live = [] := by
  have sized := well.sized
  have distinct := well.distinct
  have indexed := well.indexed
  obtain ⟨room,positive⟩ := well.room
  unfold jsSetClear
  split
  · rename_i none_left
    rw [none_left] at sized
    have empty : set.live = [] := List.length_eq_zero_iff.mp sized.symm
    split
    · refine ⟨⟨none_left,List.nodup_nil,fun v place => ?_,Nat.zero_le _,positive⟩,rfl⟩
      rw [indexed v place]
      constructor
      · intro held
        have member := mem_slots.mp (List.mem_of_getElem? held)
        rw [SetHeader.live] at empty
        simp [empty] at member
      · intro held
        simp at held
    · exact ⟨well,empty⟩
  · split
    · have none_left : (set.slots.map fun _ => (none : Option V)).reduceOption = [] := by
        rw [List.reduceOption_eq_nil_iff]
        exact ⟨_,List.map_const' ..⟩
      refine ⟨⟨?_,?_,fun v place => ?_,?_,positive⟩,none_left⟩
      · exact (congrArg List.length none_left).symm
      · rw [SetHeader.live]
        dsimp only
        rw [none_left]
        exact List.nodup_nil
      · constructor
        · intro wrong
          cases wrong
        · intro held
          have member := mem_slots.mp (List.mem_of_getElem? held)
          change v ∈ (set.slots.map fun _ => (none : Option V)).reduceOption at member
          rw [none_left] at member
          cases member
      · rw [SetHeader.used,List.length_map]
        exact room
    · exact ⟨⟨rfl,List.nodup_nil,Indexes.empty,Nat.zero_le _,positive⟩,rfl⟩

omit [DecidableEq V] in
theorem walks_wellFormed (well : set.WellFormed) (walks : Nat) : { set with walks := walks }.WellFormed :=
  ⟨well.sized,well.distinct,well.indexed,well.room⟩

theorem jsSetForeachStart_wellFormed (well : set.WellFormed) (fits : setForeachIsActive set = false → CanSqueeze set) :
    (jsSetForeachStart set).WellFormed := by
  apply walks_wellFormed
  split
  · exact well
  · rename_i idle
    exact compactIfHoleySet_wellFormed well (fits (Bool.eq_false_iff.mpr idle))

theorem jsSetForeachFinish_wellFormed (well : set.WellFormed) (fits : set.walks ≤ 1 → CanSqueeze set) :
    (jsSetForeachFinish set).WellFormed := by
  have left := walks_wellFormed well (set.walks - 1)
  unfold jsSetForeachFinish
  dsimp only
  split
  · exact left
  · rename_i idle
    exact compactIfHoleySet_wellFormed left (fits (by simp only [setForeachIsActive,decide_eq_true_eq] at idle; omega))

/-- An operation within its bounds is not refused, and keeps a set well formed. -/
theorem perform_wellFormed (well : set.WellFormed) {op : Op V} (fits : Fits elements set op) :
    ∃ after,perform elements set op = some after ∧ after.WellFormed := by
  cases op with
  | add raw =>
    obtain ⟨narrow,can⟩ := fits
    obtain ⟨after,done⟩ := jsSetAdd_done well narrow can
    exact ⟨after,done,(jsSetAdd_spec well narrow (fun absent => (can absent).reclaimed) done).1⟩
  | delete raw => exact ⟨_,rfl,(jsSetDelete_spec well fits).1⟩
  | clear => exact ⟨_,rfl,(jsSetClear_spec well).1⟩
  | read => exact ⟨_,rfl,compactIfHoleySet_wellFormed well fits⟩
  | foreachStart => exact ⟨_,rfl,jsSetForeachStart_wellFormed well fits⟩
  | foreachFinish => exact ⟨_,rfl,jsSetForeachFinish_wellFormed well fits⟩

end Steps

end Perry.Runtime.JsSet
