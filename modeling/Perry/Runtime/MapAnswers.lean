import Perry.Runtime.MapIndexes

/-! What a program can observe of a map.
Within its bounds every operation makes the changes that are planned from the buffer before it, leaves
the map well indexed, and answers as the specification's list does, whatever holes the buffer has.
-/
namespace Perry.Runtime.Map

open Perry.Containers

variable {K V : Type}

inductive Answer (K V : Type)
  | done
  | value (value : Option V)
  | flag (flag : Bool)
  | count (count : Nat)
  | keys (keys : List K)
  | values (values : List V)
  | entries (entries : List (K × V))
  | entry (entry : Option (K × V))
  deriving DecidableEq,Repr

section Operations

variable [DecidableEq K] (keys : Keys K) (map : MapHeader K V)

/-- An operation and its answer; a copy is observed by its entries. -/
def perform : Op K V → Option (MapHeader K V × Answer K V)
  | .set key value => (mapSet keys map key value).map (·,.done)
  | .delete key => (mapDelete keys map key).map fun (map,flag) => (map,.flag flag)
  | .clear => some (mapClear keys map,.done)
  | .get key => some (map,.value (mapGet keys map key))
  | .has key => some (map,.flag (mapHas keys map key))
  | .size => some (map,.count map.size)
  | .keys => (jsMapKeys keys map).map fun (map,read) => (map,.keys read)
  | .values => (jsMapValues keys map).map fun (map,read) => (map,.values read)
  | .entries => (jsMapEntries keys map).map fun (map,read) => (map,.entries read)
  | .copy => (copyMapIntoNew keys map).map fun (map,copy) => (map,.entries copy.entries)
  | .entryAt index => (jsMapEntryAt keys map index).map fun (map,entry) => (map,.entry entry)

def Act.perform : Act K V → Option (MapHeader K V)
  | .op operation => (Map.perform keys map operation).map Prod.fst
  | .foreachStart => jsMapForeachStart keys map
  | .foreachFinish => jsMapForeachFinish keys map

/-- What a squeeze leaves is indexed anew. -/
def Rebuilds (slots : List (Option (K × V))) : Prop :=
  slots.reduceOption.length ≤ 16000000 ∨ ∀ entry ∈ slots.reduceOption,keys.kind entry.1 ≠ .pointer

def CanSqueeze : Prop := map.used ≠ map.size → Rebuilds keys map.slots

/-- A full buffer is squeezed before it is grown. -/
def Reclaims : Prop := map.used = map.capacity ∧ map.size < map.used ∧ map.mapForeachIsActive = false

/-- If the buffer is full, what is squeezed is indexed anew, and what is doubled is a `u32`. -/
structure CanGrow : Prop where
  reclaimed : Reclaims map → Rebuilds keys map.slots
  doubled : map.used = map.capacity → ¬ Reclaims map → map.capacity < 2 ^ 31

/-- The bounds that the operation relies on. -/
def Fits : Op K V → Prop
  | .set key _ => map.used ≤ 2 ^ 31 ∧ (¬ map.slots.any (holdsKey key) = true → CanGrow keys map)
  | .delete key => map.used ≤ 2 ^ 31 ∧ (map.slots.any (holdsKey key) = true → 16 ≤ map.used → map.size - 1 < map.used / 2 →
      map.mapForeachIsActive = false → Rebuilds keys (rewrite (dropRule key) map.slots))
  | .clear => True
  | .get _ => map.used ≤ 2 ^ 31
  | .has _ => map.used ≤ 2 ^ 31
  | .size => True
  | .keys => CanSqueeze keys map
  | .values => CanSqueeze keys map
  | .entries => CanSqueeze keys map
  | .copy => CanSqueeze keys map ∧ map.size ≤ 2 ^ 31 + 1
  | .entryAt index => index < map.size → map.mapForeachIsActive = false → CanSqueeze keys map

def Act.Fits : Act K V → Prop
  | .op operation => Map.Fits keys map operation
  | .foreachStart => map.mapForeachIsActive = false → CanSqueeze keys map
  | .foreachFinish => map.walks ≤ 1 → CanSqueeze keys map

instance (slots : List (Option (K × V))) : Decidable (Rebuilds keys slots) := inferInstanceAs (Decidable (_ ∨ _))

instance : Decidable (CanSqueeze keys map) := inferInstanceAs (Decidable (_ → _))

instance : Decidable (Reclaims map) := inferInstanceAs (Decidable (_ ∧ _))

instance : Decidable (CanGrow keys map) :=
  decidable_of_iff ((Reclaims map → Rebuilds keys map.slots) ∧ (map.used = map.capacity → ¬ Reclaims map → map.capacity < 2 ^ 31))
    ⟨fun both => ⟨both.1,both.2⟩,fun can => ⟨can.reclaimed,can.doubled⟩⟩

instance : (op : Op K V) → Decidable (Fits keys map op)
  | .set _ _ => inferInstanceAs (Decidable (_ ∧ _))
  | .delete _ => inferInstanceAs (Decidable (_ ∧ _))
  | .clear => .isTrue trivial
  | .get _ => inferInstanceAs (Decidable (_ ≤ _))
  | .has _ => inferInstanceAs (Decidable (_ ≤ _))
  | .size => .isTrue trivial
  | .keys => inferInstanceAs (Decidable (CanSqueeze keys map))
  | .values => inferInstanceAs (Decidable (CanSqueeze keys map))
  | .entries => inferInstanceAs (Decidable (CanSqueeze keys map))
  | .copy => inferInstanceAs (Decidable (_ ∧ _))
  | .entryAt _ => inferInstanceAs (Decidable (_ → _))

instance : (act : Act K V) → Decidable (Act.Fits keys map act)
  | .op operation => inferInstanceAs (Decidable (Fits keys map operation))
  | .foreachStart => inferInstanceAs (Decidable (_ → _))
  | .foreachFinish => inferInstanceAs (Decidable (_ → _))

def MapData.respond (data : MapData K V) : Op K V → Answer K V
  | .set _ _ => .done
  | .delete key => .flag (data.any (holdsKey key))
  | .clear => .done
  | .get key => .value ((data.reduceOption.find? (·.1 = key)).map (·.2))
  | .has key => .flag (data.any (holdsKey key))
  | .size => .count data.reduceOption.length
  | .keys => .keys (data.reduceOption.map (·.1))
  | .values => .values (data.reduceOption.map (·.2))
  | .entries => .entries data.reduceOption
  | .copy => .entries data.reduceOption
  | .entryAt index => .entry data.reduceOption[index]?

end Operations

/-- What a step leaves: the planned changes of the buffer, and a map whose indexes agree with it. -/
structure Leaves (keys : Keys K) (map : MapHeader K V) (plan : List (Change K V)) (after : MapHeader K V) : Prop where
  well : WellIndexed keys after
  changed : after.toBuffer = applyAll map.toBuffer plan

variable {keys : Keys K} {map after : MapHeader K V} {key : K} {value : V}

namespace WellIndexed

theorem alloc (capacity : BitVec 32) : WellIndexed keys (jsMapAlloc capacity : MapHeader K V) where
  sized := rfl
  distinct := List.nodup_nil
  room := by
    have bound := capacity.isLt
    refine ⟨Nat.zero_le _,?_⟩
    unfold jsMapAlloc
    dsimp only
    split
    · decide
    · omega
  numbers := .new
  strings := .nil fun _ _ => nofun
  pointers := .nil fun _ _ => nofun

theorem size_le (well : WellIndexed keys map) : map.size ≤ map.used := by
  rw [well.sized]
  exact List.reduceOption_length_le map.slots

/-- The same keys in the same slots. -/
theorem congr (well : WellIndexed keys map) (buffer : Buffer K V) (same : ∀ place,keyAt buffer.slots place = keyAt map.slots place)
    (count : buffer.count = map.count) (distinct : Distinct buffer.slots)
    (room : buffer.used ≤ buffer.capacity ∧ 0 < buffer.capacity ∧ buffer.capacity < 2 ^ 32) :
    WellIndexed keys { map with toBuffer := buffer } :=
  ⟨well.sized.trans count.symm,distinct,room,well.numbers.congr same,well.strings.congr same,well.pointers.congr same⟩

end WellIndexed

section Squeezing

theorem strings_indexAll {slots : List (Option (K × V))} (distinct : Distinct slots) :
    StringsIndexed keys (slots.zipIdx.foldl (indexString keys) fun _ => []) slots := by
  have empty : StringsIndexed keys (fun _ => []) ([] : List (Option (K × V))) := .nil fun _ _ => nofun
  obtain ⟨index,done,indexed⟩ := indexAll (f := fun index slot => pure (indexString keys index slot)) empty
    (fun indexed _ _ => ⟨_,rfl,StringsIndexed.append indexed⟩) distinct le_rfl
  rw [List.foldlM_pure] at done
  rw [Option.some.inj done]
  exact indexed

variable [DecidableEq K]

theorem pointers_indexAll {slots : List (Option (K × V))} (distinct : Distinct slots) :
    PointersIndexed keys (slots.zipIdx.foldl (indexPointer keys) fun _ => none) slots := by
  have empty : PointersIndexed keys (fun _ => none) ([] : List (Option (K × V))) := .nil fun _ _ => nofun
  obtain ⟨index,done,indexed⟩ := indexAll (f := fun index slot => pure (indexPointer keys index slot)) empty
    (fun indexed _ fresh => ⟨_,rfl,PointersIndexed.append indexed fresh⟩) distinct le_rfl
  rw [List.foldlM_pure] at done
  rw [Option.some.inj done]
  exact indexed

theorem compactMapEntries_spec (well : WellIndexed keys map) (rebuilds : Rebuilds keys map.slots) :
    ∃ after,compactMapEntries keys map = some after ∧ Leaves keys map [.squeeze] after := by
  have slots := slots_squeezeEntries map.toBuffer
  have entries : (squeeze map.slots).reduceOption = map.slots.reduceOption := reduceOption_squeeze map.slots
  have distinct : Distinct map.squeezeEntries.slots := by
    rw [slots,Distinct,entries]
    exact well.distinct
  have capacity := capacity_squeezeEntries map.toBuffer
  have used : map.squeezeEntries.used = map.size := by
    rw [Buffer.used,slots,length_squeeze,well.sized]
    rfl
  have room : map.squeezeEntries.used ≤ map.squeezeEntries.capacity := by
    rw [used,capacity]
    exact well.size_le.trans well.room.1
  obtain ⟨numericIndex,rebuilt,numbers⟩ := indexAll (f := indexNumber keys) well.numbers.clear
    (fun indexed bound fresh => indexed.append bound fresh) distinct (by
      have bound := well.room.2.2
      have narrow : MapIndex.denseNumericEmpty = 2 ^ 32 - 1 := rfl
      change map.squeezeEntries.used ≤ _
      omega)
  have pointers : PointersIndexed keys (rebuildMapPtrIndex keys { map with toBuffer := map.squeezeEntries }) map.squeezeEntries.slots := by
    unfold rebuildMapPtrIndex
    dsimp only
    split
    · rename_i large
      have many : ¬ map.slots.reduceOption.length ≤ 16000000 := by
        intro few
        change map.count ≤ 16000000 at few
        rw [← well.sized] at few
        omega
      have others := rebuilds.resolve_left many
      intro g place
      constructor
      · intro named
        obtain ⟨key,coded,held⟩ := (well.pointers g place).mp named
        obtain ⟨value,member⟩ := keyAt_mem held
        exact absurd (Option.ite_none_right_eq_some.mp coded).1 (others _ member)
      · rintro ⟨key,coded,held⟩
        obtain ⟨value,member⟩ := keyAt_mem held
        rw [slots,entries] at member
        exact absurd (Option.ite_none_right_eq_some.mp coded).1 (others _ member)
    · exact pointers_indexAll distinct
  refine ⟨⟨map.squeezeEntries,map.size,numericIndex,_,_⟩,?_,⟨?_,distinct,?_,numbers,strings_indexAll distinct,pointers⟩,rfl⟩
  · unfold compactMapEntries
    dsimp only
    rw [rebuilt]
    rfl
  · change map.size = _
    rw [well.sized,Buffer.count,Buffer.count,Buffer.entries,Buffer.entries,slots,entries]
  · refine ⟨room,?_⟩
    dsimp only
    rw [capacity]
    exact well.room.2

theorem compactIfHoley_spec (well : WellIndexed keys map) (can : CanSqueeze keys map) :
    ∃ after,compactIfHoley keys map = some after ∧ Leaves keys map map.readChanges after := by
  unfold compactIfHoley Buffer.readChanges
  rw [← well.sized]
  split
  · rename_i holey
    exact compactMapEntries_spec well (can holey)
  · exact ⟨map,rfl,well,rfl⟩

omit [DecidableEq K] in
/-- After it no slot is a hole. -/
theorem slots_of_leaves (well : WellIndexed keys map) (leaves : Leaves keys map map.readChanges after) :
    after.slots = map.entries.map some ∧ after.size = map.size := by
  have slots : after.slots = map.entries.map some := by
    rw [leaves.changed,Buffer.entries,← squeeze_eq_map]
    unfold Buffer.readChanges
    split
    · exact slots_squeezeEntries map.toBuffer
    · rename_i full
      have all_live : (squeeze map.slots).length = map.slots.length := by
        rw [length_squeeze]
        exact (not_not.mp full).symm
      exact (List.filter_sublist.eq_of_length all_live).symm
  refine ⟨slots,?_⟩
  rw [leaves.well.sized,well.sized,Buffer.count,Buffer.entries,slots,Buffer.count]
  simp [List.reduceOption,List.filterMap_map]

omit [DecidableEq K] in
theorem readEntries_of_leaves (well : WellIndexed keys map) (leaves : Leaves keys map map.readChanges after) :
    readEntries after = map.entries := by
  obtain ⟨slots,size⟩ := slots_of_leaves well leaves
  rw [readEntries,slots,size,well.sized,List.take_of_length_le (by rw [List.length_map]; rfl)]
  simp [List.reduceOption,List.filterMap_map]

end Squeezing

section Adding

theorem grow_spec (well : WellIndexed keys map) (narrow : map.capacity < 2 ^ 31) :
    ∃ after,grow map = some after ∧ Leaves keys map [.grow] after := by
  obtain ⟨used,positive,-⟩ := well.room
  have doubled : map.capacity * 2 < 2 ^ 32 := by omega
  have room : map.used ≤ map.capacity * 2 ∧ 0 < map.capacity * 2 ∧ map.capacity * 2 < 2 ^ 32 := by omega
  exact ⟨_,if_pos doubled,⟨well.sized,well.distinct,room,well.numbers,well.strings,well.pointers⟩,rfl⟩

variable [DecidableEq K]

theorem ensureCapacity_spec (well : WellIndexed keys map) (can : CanGrow keys map) :
    ∃ after,ensureCapacity keys map = some after ∧ Leaves keys map map.roomChanges after ∧ after.used < after.capacity := by
  obtain ⟨room,positive,-⟩ := well.room
  unfold ensureCapacity Buffer.roomChanges
  rw [← well.sized]
  split
  · rename_i space
    exact ⟨map,rfl,⟨well,rfl⟩,space⟩
  · rename_i full
    have whole : map.used = map.capacity := Nat.le_antisymm room (Nat.not_lt.mp full)
    split
    · rename_i holey
      have idle : map.mapForeachIsActive = false := by simpa using holey.2
      obtain ⟨after,done,leaves⟩ := compactMapEntries_spec well (can.reclaimed ⟨whole,holey.1,idle⟩)
      have used : after.used = map.size := by
        rw [Buffer.used,leaves.changed,well.sized]
        exact (congrArg List.length (slots_squeezeEntries map.toBuffer)).trans (length_squeeze _)
      have capacity : after.capacity = map.capacity := by
        rw [leaves.changed]
        exact capacity_squeezeEntries map.toBuffer
      have space : after.used < after.capacity := by omega
      rw [if_pos (by omega),done]
      exact ⟨after,if_pos space,leaves,space⟩
    · rename_i kept
      have narrow := can.doubled whole fun reclaims => kept ⟨reclaims.2.1,by rw [reclaims.2.2]; rfl⟩
      obtain ⟨after,done,leaves⟩ := grow_spec well narrow
      refine ⟨after,done,leaves,?_⟩
      rw [leaves.changed]
      change map.used < map.capacity * 2
      omega

theorem appendEntry_spec (well : WellIndexed keys map) (space : map.used < map.capacity)
    (absent : ¬ map.slots.any (holdsKey key) = true) :
    ∃ after,appendEntry keys map (key,value) = some after ∧ Leaves keys map [.append (key,value)] after := by
  obtain ⟨-,positive,narrow⟩ := well.room
  have fresh : Fresh map.slots (some (key,value)) := by
    rintro _ ⟨⟩
    exact (findIdx?_none well.distinct).mp ((findIdx?_eq_none_iff_any map.slots key).mpr absent)
  obtain ⟨index,added,numbers⟩ := well.numbers.append (by
    have empty : MapIndex.denseNumericEmpty = 2 ^ 32 - 1 := rfl
    change map.used < _
    omega) fresh
  refine ⟨⟨{ map.toBuffer with slots := map.slots ++ [some (key,value)] },map.size + 1,index,_,_⟩,?_,
    ⟨?_,well.distinct.append absent,⟨?_,positive,narrow⟩,numbers,StringsIndexed.append well.strings,
      PointersIndexed.append well.pointers fresh⟩,rfl⟩
  · unfold appendEntry
    dsimp only
    rw [Buffer.used,added]
    rfl
  · change map.size + 1 = List.length (List.reduceOption _)
    rw [well.sized,List.reduceOption_append,List.length_append]
    rfl
  · change List.length _ ≤ map.capacity
    rw [List.length_append]
    exact space

theorem mapSet_spec (well : WellIndexed keys map) (value : V) (narrow : map.used ≤ 2 ^ 31)
    (can : ¬ map.slots.any (holdsKey key) = true → CanGrow keys map) :
    ∃ after,mapSet keys map key value = some after ∧ Leaves keys map (map.changes (.set key value)) after := by
  unfold mapSet Buffer.changes
  rw [findKeyIndex_eq well narrow]
  dsimp only
  cases found : map.slots.findIdx? (holdsKey key) with
  | some index =>
    have put := modify_put value key well.distinct found
    rw [if_pos (present_of_found found)]
    refine ⟨_,rfl,?_,?_⟩
    · refine well.congr _ (fun place => keyAt_modify map.slots index place value) ?_ ?_ ?_
      · change List.length (List.reduceOption _) = _
        have mapped : putRule key value = some ∘ fun entry : K × V => if entry.1 = key then (entry.1,value) else entry := rfl
        rw [put,reduceOption_rewrite,mapped,List.filterMap_eq_map,List.length_map]
        rfl
      · dsimp only
        rw [put]
        exact well.distinct.rewrite putRule_keeps
      · refine ⟨?_,well.room.2⟩
        change List.length (List.modify _ _ _) ≤ _
        rw [List.length_modify]
        exact well.room.1
    · dsimp only
      rw [put]
      rfl
  | none =>
    have absent := (findIdx?_eq_none_iff_any map.slots key).mp found
    rw [if_neg absent]
    obtain ⟨room,made,leaves,space⟩ := ensureCapacity_spec well (can absent)
    have entries : room.slots.reduceOption = map.slots.reduceOption := by
      rw [leaves.changed]
      exact reduceOption_roomChanges map.toBuffer
    have absent' : ¬ room.slots.any (holdsKey key) = true := by
      rw [any_holdsKey] at absent ⊢
      rw [entries]
      exact absent
    obtain ⟨after,added,leaves'⟩ := appendEntry_spec leaves.well space absent'
    refine ⟨after,?_,leaves'.well,?_⟩
    · dsimp only
      rw [made]
      exact added
    · rw [leaves'.changed,leaves.changed,applyAll,applyAll,applyAll,List.foldl_append]

end Adding

section Deleting

variable [DecidableEq K]

/-- The key that was in the slot leaves its index, and no other does. -/
theorem forgetMapIndexEntry_spec (well : WellIndexed keys map) {index : Nat} (held : keyAt map.slots index = some key) :
    ∃ after,forgetMapIndexEntry keys { map with slots := map.slots.set index none,size := map.size - 1 } map.slots[index]?.join index =
        some after ∧ Leaves keys map [.rewrite (dropRule key)] after := by
  have found := (findIdx?_iff well.distinct).mpr held
  have dropped := set_drop key well.distinct found
  have distinct : Distinct (map.slots.set index none) := by
    rw [dropped]
    exact well.distinct.rewrite dropRule_keeps
  have sized : map.size - 1 = (map.slots.set index none).reduceOption.length := by
    have fewer := length_filterMap_dropRule well.distinct (present_of_found found)
    rw [dropped,reduceOption_rewrite,well.sized,Buffer.count,Buffer.entries]
    omega
  have room : (map.slots.set index none).length ≤ map.capacity := by
    rw [List.length_set]
    exact well.room.1
  have changed : { map.toBuffer with slots := map.slots.set index none } = applyAll map.toBuffer [.rewrite (dropRule key)] := by
    rw [dropped]
    rfl
  obtain ⟨⟨_,value⟩,entry,rfl⟩ := Option.map_eq_some_iff.mp held
  rw [entry,forgetMapIndexEntry]
  dsimp only at held ⊢
  cases shape : keys.kind _ with
  | number bits =>
    obtain ⟨removed,done,numbers⟩ := well.numbers.remove shape held
    dsimp only
    rw [done]
    refine ⟨_,rfl,⟨sized,distinct,⟨room,well.room.2⟩,numbers,?_,?_⟩,changed⟩
    · exact Indexed.set_uncoded well.strings held (by simp [Keys.string,shape])
    · exact Indexed.set_uncoded well.pointers held (by simp [Keys.pointer,shape])
  | string hash =>
    refine ⟨_,rfl,⟨sized,distinct,⟨room,well.room.2⟩,?_,StringsIndexed.remove well.strings shape held,?_⟩,changed⟩
    · exact well.numbers.set_uncoded held (by simp [Keys.number,shape])
    · exact Indexed.set_uncoded well.pointers held (by simp [Keys.pointer,shape])
  | pointer =>
    refine ⟨_,rfl,⟨sized,distinct,⟨room,well.room.2⟩,?_,?_,PointersIndexed.remove well.pointers shape held⟩,changed⟩
    · exact well.numbers.set_uncoded held (by simp [Keys.number,shape])
    · exact Indexed.set_uncoded well.strings held (by simp [Keys.string,shape])

theorem mapDelete_spec (well : WellIndexed keys map) (fits : Fits keys map (.delete key)) :
    ∃ after,mapDelete keys map key = some (after,map.slots.any (holdsKey key)) ∧
      Leaves keys map (map.changes (.delete key)) after := by
  obtain ⟨narrow,rebuilds⟩ := fits
  unfold mapDelete Buffer.changes
  rw [findKeyIndex_eq well narrow]
  dsimp only
  cases found : map.slots.findIdx? (holdsKey key) with
  | none =>
    have absent := (findIdx?_eq_none_iff_any map.slots key).mp found
    rw [if_neg absent]
    exact ⟨map,by rw [Bool.not_eq_true _ |>.mp absent],well,rfl⟩
  | some index =>
    have present := present_of_found found
    have held := (findIdx?_iff well.distinct).mp found
    obtain ⟨dropped,done,leaves⟩ := forgetMapIndexEntry_spec well held
    have used : dropped.used = map.used := by
      rw [Buffer.used,leaves.changed]
      exact List.length_map _
    have size : dropped.size = map.size - 1 := by
      have fewer := length_filterMap_dropRule well.distinct present
      rw [leaves.well.sized,Buffer.count,Buffer.entries,leaves.changed,well.sized,Buffer.count,Buffer.entries]
      change (rewrite (dropRule key) map.slots).reduceOption.length = _
      rw [reduceOption_rewrite]
      omega
    have active : dropped.mapForeachIsActive = map.mapForeachIsActive := by
      rw [Buffer.mapForeachIsActive,leaves.changed]
      rfl
    rw [if_pos present,present]
    dsimp only
    have inside : ¬ map.used ≤ index := Nat.not_le.mpr (keyAt_lt held)
    rw [deleteEntryAtIndex,if_neg inside,done]
    change ∃ after,(if 16 ≤ dropped.used ∧ dropped.size < dropped.used / 2 ∧ !dropped.mapForeachIsActive then
      (compactMapEntries keys dropped).bind fun map => some (map,true) else some (dropped,true)) = _ ∧ _
    rw [used,size,active,← well.sized]
    by_cases due : 16 ≤ map.used ∧ map.size - 1 < map.used / 2 ∧ !map.mapForeachIsActive
    · obtain ⟨many,few,idle⟩ := due
      have slots : dropped.slots = rewrite (dropRule key) map.slots := by
        rw [leaves.changed]
        rfl
      obtain ⟨after,squeezed,leaves'⟩ := compactMapEntries_spec leaves.well (by
        rw [slots]
        exact rebuilds present many few (Bool.not_eq_true' _ |>.mp idle))
      rw [if_pos ⟨many,few,idle⟩,if_pos ⟨many,few,idle⟩,squeezed]
      exact ⟨after,rfl,leaves'.well,by rw [leaves'.changed,leaves.changed]; rfl⟩
    · rw [if_neg due,if_neg due]
      exact ⟨dropped,rfl,leaves⟩

omit [DecidableEq K] in
/-- Nothing is in the string and the pointer index of a map with no keys for them. -/
theorem clearIndexes_spec (well : WellIndexed keys map) {mayHold : Bool}
    (none_held : mayHold = false → ∀ entry ∈ map.entries,isNumber (keys.kind entry.1) = true) (buffer : Buffer K V)
    (emptied : buffer.entries = []) (room : buffer.used ≤ buffer.capacity ∧ 0 < buffer.capacity ∧ buffer.capacity < 2 ^ 32) :
    WellIndexed keys (clearIndexes { map with size := 0,toBuffer := buffer } mayHold) ∧
      (clearIndexes { map with size := 0,toBuffer := buffer } mayHold).toBuffer = buffer := by
  have bare := keyAt_of_none emptied
  have numbers : NumbersIndexed keys (MapIndex.clear map.numericIndex) buffer.slots := well.numbers.clear.congr bare
  have sized : 0 = buffer.count := by
    rw [Buffer.count,emptied]
    rfl
  have distinct : Distinct buffer.slots := by
    rw [Distinct,← Buffer.entries,emptied]
    exact List.nodup_nil
  have unnamed {γ : Type} {code : K → Option γ} {names : γ → Nat → Prop} (none_named : ∀ g place,¬ names g place) :
      Indexed code names buffer.slots := (Indexed.nil none_named).congr bare
  unfold clearIndexes
  cases mayHold with
  | true => exact ⟨⟨sized,distinct,room,numbers,unnamed fun _ _ => List.not_mem_nil,unnamed fun _ _ none => by cases none⟩,rfl⟩
  | false =>
    have none_coded {γ : Type} {code : K → Option γ} {names : γ → Nat → Prop} (indexed : Indexed code names map.slots)
        (uncoded : ∀ key,isNumber (keys.kind key) = true → code key = none) : Indexed code names buffer.slots := by
      apply unnamed
      intro g place named
      obtain ⟨key,coded,held⟩ := (indexed g place).mp named
      obtain ⟨value,member⟩ := keyAt_mem held
      rw [uncoded key (none_held rfl _ member)] at coded
      cases coded
    refine ⟨⟨sized,distinct,room,numbers,none_coded well.strings fun key number => ?_,none_coded well.pointers fun key number => ?_⟩,rfl⟩
    · unfold Keys.string
      cases shape : keys.kind key <;> simp_all [isNumber]
    · unfold Keys.pointer
      cases shape : keys.kind key <;> simp_all [isNumber]

theorem mapClear_spec (well : WellIndexed keys map) : Leaves keys map (map.changes .clear) (mapClear keys map) := by
  have bound := well.size_le
  have plan : map.changes .clear = if map.mapForeachIsActive then [.rewrite emptyRule] else if 0 < map.used then [.discard] else [] := rfl
  rw [plan]
  unfold mapClear
  by_cases empty : map.size = 0
  · rw [if_pos empty]
    have none_live : map.slots.reduceOption = [] := List.eq_nil_of_length_eq_zero (well.sized.symm.trans empty)
    by_cases active : map.mapForeachIsActive = true
    · have kept : ¬ ((!map.mapForeachIsActive) = true ∧ 0 < map.used) := by simp [active]
      rw [if_neg kept,if_pos active]
      have unchanged : rewrite emptyRule map.slots = map.slots := rewrite_eq_self (by simp [none_live])
      exact ⟨well,by simp [applyAll,Change.apply,unchanged]⟩
    · rw [if_neg active]
      by_cases filled : 0 < map.used
      · have emptied : (!map.mapForeachIsActive) = true ∧ 0 < map.used := ⟨by simpa using active,filled⟩
        rw [if_pos emptied,if_pos filled]
        refine ⟨well.congr _ (fun place => (keyAt_nil place).trans (keyAt_of_none none_live place).symm) ?_ List.nodup_nil
          ⟨Nat.zero_le _,well.room.2⟩,rfl⟩
        exact (well.sized.symm.trans empty).symm
      · have kept : ¬ ((!map.mapForeachIsActive) = true ∧ 0 < map.used) := fun both => filled both.2
        rw [if_neg kept,if_neg filled]
        exact ⟨well,rfl⟩
  · rw [if_neg empty]
    have none_held : decide (sideTableClearScanMax < map.used ∨ map.slots.any (·.any fun entry => !isNumber (keys.kind entry.1))) = false →
        ∀ entry ∈ map.entries,isNumber (keys.kind entry.1) = true := by
      intro held entry member
      rw [decide_eq_false_iff_not,not_or] at held
      by_contra other
      apply held.2
      rw [List.any_eq_true]
      exact ⟨some entry,List.reduceOption_mem_iff.mp member,by simpa using other⟩
    by_cases active : map.mapForeachIsActive = true
    · have emptied : map.slots.map (fun _ => none) = rewrite emptyRule map.slots := by
        apply List.map_congr_left
        intro slot _
        cases slot <;> rfl
      have gone : (rewrite emptyRule map.slots).reduceOption = [] := by
        rw [reduceOption_rewrite]
        simp [emptyRule]
      rw [if_pos active,if_pos active,emptied]
      obtain ⟨well',same⟩ := clearIndexes_spec well none_held { map.toBuffer with slots := rewrite emptyRule map.slots } gone
        ⟨by rw [Buffer.used,rewrite,List.length_map]; exact well.room.1,well.room.2⟩
      exact ⟨well',same⟩
    · have filled : 0 < map.used := by omega
      rw [if_neg active,if_neg active,if_pos filled]
      obtain ⟨well',same⟩ := clearIndexes_spec well none_held map.discardExtent rfl ⟨Nat.zero_le _,well.room.2⟩
      exact ⟨well',same⟩

end Deleting

section Reading

variable [DecidableEq K]

theorem jsMapEntries_spec (well : WellIndexed keys map) (can : CanSqueeze keys map) :
    ∃ after,jsMapEntries keys map = some (after,map.entries) ∧ Leaves keys map map.readChanges after := by
  obtain ⟨after,done,leaves⟩ := compactIfHoley_spec well can
  refine ⟨after,?_,leaves⟩
  rw [jsMapEntries,done,Option.map_some,readEntries_of_leaves well leaves]

/-- Setting pairs with fresh distinct keys adds them in order. -/
theorem foldlM_mapSet (entries : List (K × V)) (well : WellIndexed keys map)
    (room : map.used + entries.length ≤ map.capacity) (narrow : map.used + entries.length ≤ 2 ^ 31 + 1)
    (distinct : ((map.entries ++ entries).map (·.1)).Nodup) :
    ∃ after,entries.foldlM (fun map entry => mapSet keys map entry.1 entry.2) map = some after ∧ after.entries = map.entries ++ entries := by
  induction entries generalizing map with
  | nil => exact ⟨map,rfl,(List.append_nil _).symm⟩
  | cons entry rest step =>
    rw [List.length_cons] at room narrow
    have absent : ¬ map.slots.any (holdsKey entry.1) = true := by
      rw [any_holdsKey]
      rintro ⟨other,member,same⟩
      rw [List.map_append,List.nodup_append] at distinct
      exact distinct.2.2 other.1 (List.mem_map_of_mem member) entry.1 (by simp) same
    have space : map.used < map.capacity := by omega
    obtain ⟨added,set,leaves⟩ := mapSet_spec well entry.2 (by omega) fun absent => ⟨fun full => absurd full.1 space.ne,
      fun full => absurd full space.ne⟩
    have plan : map.changes (.set entry.1 entry.2) = [.append (entry.1,entry.2)] := by
      rw [Buffer.changes,if_neg absent,Buffer.roomChanges,if_pos space]
      rfl
    have slots : added.slots = map.slots ++ [some entry] := by
      rw [leaves.changed,plan]
      rfl
    have used : added.used = map.used + 1 := by
      rw [Buffer.used,slots,List.length_append]
      rfl
    have capacity : added.capacity = map.capacity := by
      rw [leaves.changed,plan]
      rfl
    have grown : added.entries = map.entries ++ [entry] := by
      rw [Buffer.entries,slots,List.reduceOption_append]
      rfl
    obtain ⟨after,done,entries⟩ := step leaves.well (by omega) (by omega) (by rw [grown]; simpa using distinct)
    refine ⟨after,?_,by rw [entries,grown,List.append_assoc]; rfl⟩
    rw [List.foldlM_cons,set]
    exact done

theorem copyMapIntoNew_spec (well : WellIndexed keys map) (can : CanSqueeze keys map) (narrow : map.size ≤ 2 ^ 31 + 1) :
    ∃ after copy,copyMapIntoNew keys map = some (after,copy) ∧ copy.entries = map.entries ∧
      Leaves keys map map.readChanges after := by
  obtain ⟨after,done,leaves⟩ := compactIfHoley_spec well can
  obtain ⟨-,size⟩ := slots_of_leaves well leaves
  have bound := well.size_le.trans well.room.1
  have whole := well.room.2.2
  have exact_capacity : (BitVec.ofNat 32 (max after.size 4)).toNat = max map.size 4 := by
    rw [size,BitVec.toNat_ofNat,Nat.mod_eq_of_lt (by omega)]
  have fresh : WellIndexed keys (jsMapAlloc (BitVec.ofNat 32 (max after.size 4)) : MapHeader K V) := .alloc _
  have count : map.entries.length = map.size := well.sized.symm
  have capacity : (jsMapAlloc (BitVec.ofNat 32 (max after.size 4)) : MapHeader K V).capacity = max map.size 4 := by
    unfold jsMapAlloc
    dsimp only
    rw [exact_capacity,if_neg (by omega)]
  have empty : (jsMapAlloc (BitVec.ofNat 32 (max after.size 4)) : MapHeader K V).used = 0 := rfl
  obtain ⟨copy,copied,entries⟩ := foldlM_mapSet map.entries fresh (by omega) (by omega) well.distinct
  refine ⟨after,copy,?_,entries,leaves⟩
  rw [copyMapIntoNew,done]
  dsimp only [Option.bind_eq_bind,Option.bind_some]
  rw [readEntries_of_leaves well leaves,copied]
  rfl

omit [DecidableEq K] in
theorem liveToRaw_entry (slots : List (Option (K × V))) (index : Nat) :
    (liveToRaw slots index).bind (fun raw => slots[raw]?.join) = slots.reduceOption[index]? := by
  have read := congrArg Option.join (slot_liveToRaw slots index)
  cases found : liveToRaw slots index <;> cases entry : slots.reduceOption[index]? <;> simp_all

theorem jsMapEntryAt_spec (well : WellIndexed keys map) {index : Nat} (fits : Fits keys map (.entryAt index)) :
    ∃ after,jsMapEntryAt keys map index = some (after,map.entries[index]?) ∧ Leaves keys map (map.changes (.entryAt index)) after := by
  have plan : map.changes (.entryAt index) = if map.size ≤ index ∨ map.mapForeachIsActive then [] else map.readChanges := by
    rw [well.sized]
    rfl
  rw [plan]
  unfold jsMapEntryAt liveIndexToRaw
  by_cases past : map.size ≤ index
  · have outside : map.entries[index]? = none := List.getElem?_eq_none (well.sized.symm.trans_le past)
    rw [if_pos (Or.inl past),if_pos past,outside]
    exact ⟨map,rfl,well,rfl⟩
  · rw [if_neg past]
    by_cases active : map.mapForeachIsActive = true
    · have walked : ¬ (!map.mapForeachIsActive) = true := by simp [active]
      rw [if_pos (Or.inr active),if_neg walked]
      exact ⟨map,congrArg (fun entry => some (map,entry)) (liveToRaw_entry map.slots index),well,rfl⟩
    · obtain ⟨after,done,leaves⟩ := compactIfHoley_spec well (fits (Nat.not_le.mp past) (Bool.not_eq_true _ |>.mp active))
      have neither : ¬ (map.size ≤ index ∨ map.mapForeachIsActive = true) := fun either => either.elim past active
      have idle : (!map.mapForeachIsActive) = true := by simpa using active
      rw [if_neg neither,if_pos idle,done]
      have read : after.mapEntryRaw index = map.entries[index]? := by
        rw [Buffer.mapEntryRaw,(slots_of_leaves well leaves).1,List.getElem?_map]
        cases map.entries[index]? <;> rfl
      exact ⟨after,congrArg (fun entry => some (after,entry)) read,leaves⟩

theorem entry_at_findIdx? (slots : List (Option (K × V))) (key : K) :
    (slots.findIdx? (holdsKey key)).bind (fun index => slots[index]?.join) =
      slots.reduceOption.find? (·.1 = key) := by
  induction slots with
  | nil => rfl
  | cons slot rest step =>
    cases slot with
    | none =>
      rw [List.reduceOption_cons_of_none,← step,List.findIdx?_cons]
      cases rest.findIdx? (holdsKey key) <;> simp [holdsKey]
    | some entry =>
      rw [List.reduceOption_cons_of_some,List.find?_cons,← step,List.findIdx?_cons]
      by_cases same : entry.1 = key
      · simp [holdsKey,same]
      · cases rest.findIdx? (holdsKey key) <;> simp [holdsKey,same]

theorem isSome_findIdx? (slots : List (Option (K × V))) (key : K) :
    (slots.findIdx? (holdsKey key)).isSome = slots.any (holdsKey key) := by
  simp [List.findIdx?_isSome]

end Reading

variable [DecidableEq K]

/-- Within its bounds an operation makes its changes, and answers as the specification does. -/
theorem perform_spec (well : WellIndexed keys map) (data : MapData K V) (same : map.entries = data.reduceOption)
    {op : Op K V} (fits : Fits keys map op) :
    ∃ after,perform keys map op = some (after,data.respond op) ∧ Leaves keys map (map.changes op) after := by
  have member : ∀ key, map.slots.any (holdsKey key) = data.any (holdsKey key) := by
    intro key
    rw [Bool.eq_iff_iff,any_holdsKey,any_holdsKey,← same]
    rfl
  cases op with
  | set key value =>
    obtain ⟨after,done,leaves⟩ := mapSet_spec well value fits.1 fits.2
    exact ⟨after,by rw [perform,done]; rfl,leaves⟩
  | delete key =>
    obtain ⟨after,done,leaves⟩ := mapDelete_spec well fits
    exact ⟨after,by rw [perform,done,member]; rfl,leaves⟩
  | clear => exact ⟨_,rfl,mapClear_spec well⟩
  | get key =>
    have read : mapGet keys map key = (data.reduceOption.find? (·.1 = key)).map (·.2) := by
      rw [mapGet,findKeyIndex_eq well fits,← same,Buffer.entries,← entry_at_findIdx?,Option.map_bind]
      rfl
    exact ⟨map,by rw [perform,read]; rfl,well,rfl⟩
  | has key => exact ⟨map,by rw [perform,mapHas,findKeyIndex_eq well fits,isSome_findIdx?,member]; rfl,well,rfl⟩
  | size => exact ⟨map,by rw [perform,well.sized,Buffer.count,same]; rfl,well,rfl⟩
  | keys =>
    obtain ⟨after,done,leaves⟩ := compactIfHoley_spec well fits
    exact ⟨after,by rw [perform,jsMapKeys,done,Option.map_some,readEntries_of_leaves well leaves,same]; rfl,leaves⟩
  | values =>
    obtain ⟨after,done,leaves⟩ := compactIfHoley_spec well fits
    exact ⟨after,by rw [perform,jsMapValues,done,Option.map_some,readEntries_of_leaves well leaves,same]; rfl,leaves⟩
  | entries =>
    obtain ⟨after,done,leaves⟩ := jsMapEntries_spec well fits
    exact ⟨after,by rw [perform,done,same]; rfl,leaves⟩
  | copy =>
    obtain ⟨after,copy,done,entries,leaves⟩ := copyMapIntoNew_spec well fits.1 fits.2
    refine ⟨after,?_,leaves⟩
    rw [perform,done,Option.map_some]
    dsimp only
    rw [entries,same]
    rfl
  | entryAt index =>
    obtain ⟨after,done,leaves⟩ := jsMapEntryAt_spec well fits
    exact ⟨after,by rw [perform,done,same]; rfl,leaves⟩

/-- The same of an act, a walk that starts or ends among them. -/
theorem Act.perform_spec (well : WellIndexed keys map) {act : Act K V} (fits : act.Fits keys map) :
    ∃ after,act.perform keys map = some after ∧ WellIndexed keys after ∧ after.toBuffer = map.act act := by
  cases act with
  | op operation =>
    obtain ⟨after,done,leaves⟩ := Map.perform_spec well map.slots rfl fits
    exact ⟨after,by rw [Act.perform,done]; rfl,leaves.well,leaves.changed⟩
  | foreachStart =>
    have entered {made : MapHeader K V} (well : WellIndexed keys made) : WellIndexed keys (mapForeachEnter made) :=
      well.congr { made.toBuffer with walks := made.walks + 1 } (fun _ => rfl) rfl well.distinct well.room
    rw [Act.perform,jsMapForeachStart,Buffer.act,Buffer.actChanges]
    by_cases active : map.mapForeachIsActive = true
    · rw [if_pos active,if_pos active]
      exact ⟨_,rfl,entered well,rfl⟩
    · obtain ⟨made,done,leaves⟩ := compactIfHoley_spec well (fits (Bool.not_eq_true _ |>.mp active))
      rw [if_neg active,if_neg active,done]
      refine ⟨_,rfl,entered leaves.well,?_⟩
      rw [applyAll,List.foldl_append]
      exact congrArg (Change.apply · .enter) leaves.changed
  | foreachFinish =>
    have left : WellIndexed keys (mapForeachLeave map) :=
      well.congr { map.toBuffer with walks := map.walks - 1 } (fun _ => rfl) rfl well.distinct well.room
    rw [Act.perform,jsMapForeachFinish,Buffer.act,Buffer.actChanges]
    have active : (mapForeachLeave map).mapForeachIsActive = true ↔ 1 < map.walks := by
      rw [Buffer.mapForeachIsActive,decide_eq_true_eq]
      change 0 < map.walks - 1 ↔ _
      omega
    by_cases inner : 1 < map.walks
    · rw [if_pos (active.mpr inner),if_pos inner]
      exact ⟨_,rfl,left,rfl⟩
    · obtain ⟨after,done,leaves⟩ := compactIfHoley_spec left (fits (Nat.not_lt.mp inner))
      rw [if_neg (mt active.mp inner),if_neg inner]
      exact ⟨after,done,leaves.well,leaves.changed⟩

end Perry.Runtime.Map
