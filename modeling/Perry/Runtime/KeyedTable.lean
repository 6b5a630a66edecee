import Perry.Containers.SwapRemove
import Perry.Machine.Runs

/-! `PromiseKeyedTable`: the reactions parked against pending promises. The entries stand in one
row, which the collector walks and whose keys it rewrites; an index of places is derived from it. -/
namespace Perry.Runtime.KeyedTable

open Perry.Containers Perry.Machine

structure Entry (T : Type*) where
  key : Nat
  seq : Nat
  /-- Where the places of its key name this entry. -/
  slot : Nat
  value : T

inductive Slots
  | one (first : Nat)
  | many (positions : List Nat)

namespace Slots

def asSlice : Slots → List Nat
  | one first => [first]
  | many positions => positions

def push : Slots → Nat → Slots × Nat
  | one first,position => (many [first,position],1)
  | many positions,position => (many (positions ++ [position]),positions.length)

def relocate : Slots → Nat → Nat → Slots
  | one _,_,position => one position
  | many positions,offset,position => many (positions.set offset position)

theorem push_eq (slots : Slots) (position : Nat) :
    (slots.push position).1.asSlice = slots.asSlice ++ [position] ∧ (slots.push position).2 = slots.asSlice.length := by
  cases slots <;> exact ⟨rfl,rfl⟩

theorem asSlice_relocate {slots : Slots} {offset : Nat} (inside : offset < slots.asSlice.length) (position : Nat) :
    (slots.relocate offset position).asSlice = slots.asSlice.set offset position := by
  cases slots with
  | one first =>
    obtain rfl : offset = 0 := by simpa [asSlice] using inside
    rfl
  | many positions => rfl

end Slots

structure PromiseKeyedTable (T : Type*) where
  entries : List (Entry T)
  index : Nat → Option Slots
  indexDirty : Bool
  nextSeq : Nat

variable {T : Type*}

def indexSlotFor (index : Nat → Option Slots) (key position : Nat) : (Nat → Option Slots) × Nat :=
  match index key with
  | some slots => (Function.update index key (some (slots.push position).1),(slots.push position).2)
  | none => (Function.update index key (some (.one position)),0)

/-- One round of the rebuild: the entry at a place goes into the index and learns its slot. -/
def indexEntry (state : (Nat → Option Slots) × List (Entry T)) (position : Nat) :
    (Nat → Option Slots) × List (Entry T) :=
  match state.2[position]? with
  | none => state
  | some entry =>
    let recorded := indexSlotFor state.1 entry.key position
    (recorded.1,state.2.set position { entry with slot := recorded.2 })

namespace PromiseKeyedTable

def new : PromiseKeyedTable T where
  entries := []
  index := fun _ => none
  indexDirty := false
  nextSeq := 0

variable (table : PromiseKeyedTable T)

/-- A position is 32 bits wide and a `seq` 64; what would not fit is refused. -/
def push (key : Nat) (value : T) : Option (PromiseKeyedTable T) :=
  if table.entries.length < 2 ^ 32 ∧ table.nextSeq + 1 < 2 ^ 64 then
    let position := table.entries.length
    let recorded := if table.indexDirty then (table.index,0) else indexSlotFor table.index key position
    some { table with
      entries := table.entries ++ [⟨key,table.nextSeq,recorded.2,value⟩]
      index := recorded.1
      nextSeq := table.nextSeq + 1 }
  else none

/-- The places, by the order in which their entries were registered. -/
def order : List Nat :=
  (List.range table.entries.length).insertionSort fun p q =>
    (table.entries[p]?.elim 0 Entry.seq) ≤ (table.entries[q]?.elim 0 Entry.seq)

def ensureIndex : PromiseKeyedTable T :=
  if table.indexDirty then
    let rebuilt := table.order.foldl indexEntry (fun _ => none,table.entries)
    { table with entries := rebuilt.2, index := rebuilt.1, indexDirty := false }
  else table

/-- One round of the drain: the last entry moves into the gap, and the places of its key learn of it.
A position outside the row panics. -/
def drain (state : PromiseKeyedTable T × List (Entry T)) (position : Nat) :
    Option (PromiseKeyedTable T × List (Entry T)) := do
  let (table,drained) := state
  let entry ← table.entries[position]?
  let entries := swapRemove table.entries position
  let index := match entries[position]? with
    | none => table.index
    | some moved => match table.index moved.key with
      | none => table.index
      | some slots => Function.update table.index moved.key (some (slots.relocate moved.slot position))
  some ({ table with entries := entries, index := index },drained ++ [entry])

def takeAll (key : Nat) : Option (PromiseKeyedTable T × List T) :=
  if table.entries.isEmpty then some (table,[])
  else
    let table := table.ensureIndex
    match table.index key with
    | none => some (table,[])
    | some slots => do
      let positions := slots.asSlice.insertionSort (· ≥ ·)
      let (table,drained) ← positions.foldlM drain ({ table with index := Function.update table.index key none },[])
      some (table,(drained.insertionSort fun a b => a.seq ≤ b.seq).map Entry.value)

def removeKey (key : Nat) : Option (PromiseKeyedTable T) :=
  if table.entries.isEmpty then some table else (table.takeAll key).map Prod.fst

/-- The root scanner at one position: the collector may have moved the promise. -/
def visit (position : Nat) (forward : Nat → Nat) : PromiseKeyedTable T :=
  match table.entries[position]? with
  | none => table
  | some entry =>
    { table with
      entries := table.entries.set position { entry with key := forward entry.key }
      indexDirty := table.indexDirty || forward entry.key != entry.key }

/-- The root scanner over the whole row. -/
def scan (forward : Nat → Nat) : PromiseKeyedTable T :=
  { table with
    entries := table.entries.map fun entry => { entry with key := forward entry.key }
    indexDirty := table.indexDirty || table.entries.any fun entry => forward entry.key != entry.key }

/-- What a copying collection leaves: an entry is dropped, or kept under the key it gets. -/
def retainMut (fate : Nat → Option Nat) : PromiseKeyedTable T :=
  if table.entries.isEmpty then table
  else
    { table with
      entries := table.entries.filterMap fun entry => (fate entry.key).map fun key => { entry with key := key }
      indexDirty := true }

end PromiseKeyedTable

/-- The places recorded for a key. -/
def slotsOf (index : Nat → Option Slots) (key : Nat) : List Nat := (index key).elim [] Slots.asSlice

theorem slotsOf_some {index : Nat → Option Slots} {key : Nat} {slots : Slots} (found : index key = some slots) :
    slotsOf index key = slots.asSlice := by
  rw [slotsOf,found,Option.elim_some]

theorem slotsOf_update (index : Nat → Option Slots) (key other : Nat) (slots : Option Slots) :
    slotsOf (Function.update index key slots) other =
      if other = key then slots.elim [] Slots.asSlice else slotsOf index other := by
  rw [slotsOf,Function.update_apply]
  split <;> rfl

theorem slotsOf_indexSlotFor (index : Nat → Option Slots) (key position other : Nat) :
    slotsOf (indexSlotFor index key position).1 other =
      if other = key then slotsOf index key ++ [position] else slotsOf index other := by
  rw [indexSlotFor]
  split
  · next slots found =>
    rw [slotsOf_update,Option.elim_some,(slots.push_eq position).1,slotsOf_some found]
  · next missing =>
    rw [slotsOf_update,Option.elim_some,slotsOf.eq_def index key,missing]
    rfl

theorem slot_indexSlotFor (index : Nat → Option Slots) (key position : Nat) :
    (indexSlotFor index key position).2 = (slotsOf index key).length := by
  rw [indexSlotFor]
  split
  · next slots found =>
    rw [slotsOf_some found]
    exact (slots.push_eq position).2
  · next missing =>
    rw [slotsOf,missing]
    rfl

/-- The index finds the entries at some of the places, and names nothing else. -/
structure IndexedOn (places : Nat → Prop) (index : Nat → Option Slots) (entries : List (Entry T)) : Prop where
  finds : ∀ p e,places p → entries[p]? = some e → (slotsOf index e.key)[e.slot]? = some p
  names : ∀ key offset p,(slotsOf index key)[offset]? = some p →
    places p ∧ ∃ e,entries[p]? = some e ∧ e.key = key ∧ e.slot = offset

theorem IndexedOn.mono {places others : Nat → Prop} {index : Nat → Option Slots} {entries : List (Entry T)}
    (indexed : IndexedOn places index entries) (same : ∀ p,p < entries.length → (places p ↔ others p)) :
    IndexedOn others index entries where
  finds p e inside found := indexed.finds p e ((same p (List.getElem?_eq_some_iff.mp found).1).mpr inside) found
  names key offset p named := by
    obtain ⟨inside,e,found,rest⟩ := indexed.names key offset p named
    exact ⟨(same p (List.getElem?_eq_some_iff.mp found).1).mp inside,e,found,rest⟩

/-- A place that is not indexed yet goes in behind those of its key. -/
theorem IndexedOn.indexEntry {places : Nat → Prop} {index : Nat → Option Slots} {entries : List (Entry T)}
    (indexed : IndexedOn places index entries) {position : Nat} {entry : Entry T} (found : entries[position]? = some entry)
    (new : ¬places position) :
    IndexedOn (fun p => places p ∨ p = position) (indexEntry (index,entries) position).1 (indexEntry (index,entries) position).2 := by
  have inside : position < entries.length := (List.getElem?_eq_some_iff.mp found).1
  rw [KeyedTable.indexEntry,found]
  dsimp only
  refine ⟨?_,?_⟩
  · intro p e place at_p
    rw [slotsOf_indexSlotFor]
    by_cases here : p = position
    · subst here
      rw [List.getElem?_set_self inside,Option.some.injEq] at at_p
      subst at_p
      rw [if_pos rfl,slot_indexSlotFor,List.getElem?_concat_length]
    · rw [List.getElem?_set_ne (Ne.symm here)] at at_p
      have known := indexed.finds p e (place.resolve_right here) at_p
      split
      · next same =>
        rw [List.getElem?_append_left (same ▸ (List.getElem?_eq_some_iff.mp known).1),← same,known]
      · exact known
  · intro key offset p named
    rw [slotsOf_indexSlotFor] at named
    have old : (slotsOf index key)[offset]? = some p → (places p ∨ p = position) ∧
        ∃ e,(entries.set position { entry with slot := (indexSlotFor index entry.key position).2 })[p]? = some e ∧
          e.key = key ∧ e.slot = offset := by
      intro known
      obtain ⟨place,e,at_p,rest⟩ := indexed.names key offset p known
      have here : p ≠ position := fun same => new (same ▸ place)
      exact ⟨.inl place,e,by rw [List.getElem?_set_ne here.symm,at_p],rest⟩
    split at named
    · next same =>
      subst same
      obtain before | behind := lt_or_ge offset (slotsOf index entry.key).length
      · rw [List.getElem?_append_left before] at named
        exact old named
      · rw [List.getElem?_append_right behind] at named
        obtain ⟨at_end,rfl⟩ : offset - (slotsOf index entry.key).length = 0 ∧ position = p := by
          rw [List.getElem?_singleton] at named
          split at named
          · next last => exact ⟨last,Option.some.inj named⟩
          · cases named
        refine ⟨.inr rfl,_,List.getElem?_set_self inside,rfl,?_⟩
        dsimp only
        rw [slot_indexSlotFor]
        omega
    · exact old named

theorem length_indexEntry (state : (Nat → Option Slots) × List (Entry T)) (position : Nat) :
    (indexEntry state position).2.length = state.2.length := by
  rw [indexEntry]
  split <;> simp

/-- An entry without the slot, which only the index uses. -/
def Entry.row (entry : Entry T) : Nat × Nat × T := (entry.seq,entry.key,entry.value)

theorem rows_indexEntry (state : (Nat → Option Slots) × List (Entry T)) (position : Nat) :
    (indexEntry state position).2.map Entry.row = state.2.map Entry.row := by
  rw [indexEntry]
  split
  · rfl
  · next entry found =>
    obtain ⟨inside,rfl⟩ := List.getElem?_eq_some_iff.mp found
    dsimp only
    rw [List.map_set]
    exact List.ext_getElem? fun p => by
      rw [List.getElem?_set]
      split
      · next here => subst here; simp [inside,Entry.row]
      · rfl

theorem rebuilt {places : Nat → Prop} {index : Nat → Option Slots} {entries : List (Entry T)}
    (indexed : IndexedOn places index entries) {order : List Nat} (inside : ∀ p ∈ order,p < entries.length)
    (distinct : order.Nodup) (new : ∀ p ∈ order,¬places p) :
    IndexedOn (fun p => places p ∨ p ∈ order) (order.foldl indexEntry (index,entries)).1
      (order.foldl indexEntry (index,entries)).2 ∧
    (order.foldl indexEntry (index,entries)).2.map Entry.row = entries.map Entry.row := by
  induction order generalizing places index entries with
  | nil => exact ⟨indexed.mono fun p _ => by simp,rfl⟩
  | cons p order ih =>
    obtain ⟨here,later⟩ := List.nodup_cons.mp distinct
    obtain ⟨entry,placed⟩ : ∃ entry,entries[p]? = some entry := ⟨_,List.getElem?_eq_getElem (inside p (List.mem_cons_self ..))⟩
    have one := indexed.indexEntry placed (new p (List.mem_cons_self ..))
    obtain ⟨whole,rows⟩ := ih one
      (fun q member => (length_indexEntry ..).symm ▸ inside q (List.mem_cons_of_mem p member)) later
      (fun q member placed => placed.elim (new q (List.mem_cons_of_mem p member)) fun same => here (same ▸ member))
    rw [List.foldl_cons]
    refine ⟨whole.mono fun q _ => ?_,rows.trans (rows_indexEntry (index,entries) p)⟩
    rw [List.mem_cons,or_assoc]

namespace PromiseKeyedTable

/-- Entries are told apart by their `seq`, and the index names all of them unless it is out of date. -/
structure WellFormed (table : PromiseKeyedTable T) : Prop where
  fresh : ∀ e ∈ table.entries,e.seq < table.nextSeq
  distinct : (table.entries.map Entry.seq).Nodup
  indexed : table.indexDirty = false → IndexedOn (fun _ => True) table.index table.entries

variable {table : PromiseKeyedTable T}

def rows (table : PromiseKeyedTable T) : List (Nat × Nat × T) := table.entries.map Entry.row

theorem seq_rows (table : PromiseKeyedTable T) : table.rows.map Prod.fst = table.entries.map Entry.seq := by
  rw [rows,List.map_map]
  rfl

theorem wellFormed_new : (new : PromiseKeyedTable T).WellFormed where
  fresh := by simp [new]
  distinct := List.nodup_nil
  indexed _ := ⟨by simp [new],by simp [new,slotsOf]⟩

theorem ensureIndex_spec (wf : table.WellFormed) :
    table.ensureIndex.WellFormed ∧ table.ensureIndex.indexDirty = false ∧ table.ensureIndex.rows = table.rows ∧
      table.ensureIndex.nextSeq = table.nextSeq := by
  rw [ensureIndex]
  split
  · have perm : table.order.Perm (List.range table.entries.length) := List.perm_insertionSort ..
    have empty : IndexedOn (fun _ => False) (fun _ => none) table.entries :=
      ⟨fun _ _ none => none.elim,fun _ _ _ named => by simp [slotsOf] at named⟩
    obtain ⟨whole,same⟩ := rebuilt empty (fun p member => List.mem_range.mp (perm.mem_iff.mp member))
      (perm.nodup_iff.mpr List.nodup_range) fun _ _ => id
    have length := congrArg List.length same
    rw [List.length_map,List.length_map] at length
    have seqs := congrArg (List.map Prod.fst) same
    rw [List.map_map,List.map_map] at seqs
    dsimp only
    refine ⟨⟨?_,?_,fun _ => ?_⟩,rfl,same,rfl⟩
    · intro e member
      have known : e.seq ∈ table.entries.map Entry.seq := seqs ▸ List.mem_map_of_mem (f := Prod.fst ∘ Entry.row) member
      obtain ⟨old,present,equal⟩ := List.mem_map.mp known
      exact equal ▸ wf.fresh old present
    · exact seqs ▸ wf.distinct
    · exact whole.mono fun p inside => by
        rw [length] at inside
        simp [perm.mem_iff,inside]
  · next clean => exact ⟨wf,by simpa using clean,rfl,rfl⟩

/-- A push is refused only where a position or a `seq` would wrap. -/
theorem push_spec (wf : table.WellFormed) (room : table.entries.length < 2 ^ 32 ∧ table.nextSeq + 1 < 2 ^ 64)
    (key : Nat) (value : T) :
    ∃ after,table.push key value = some after ∧ after.WellFormed ∧
      after.rows = table.rows ++ [(table.nextSeq,key,value)] ∧ after.nextSeq = table.nextSeq + 1 := by
  rw [push,if_pos room]
  refine ⟨_,rfl,⟨?_,?_,?_⟩,?_,rfl⟩
  · intro e member
    obtain old | rfl := by simpa using member
    · exact (wf.fresh e old).trans_le (Nat.le_succ _)
    · exact Nat.lt_succ_self _
  · rw [List.map_append,List.nodup_append]
    refine ⟨wf.distinct,by simp,?_⟩
    intro seq member other single
    obtain ⟨e,present,rfl⟩ := List.mem_map.mp member
    obtain rfl : other = table.nextSeq := by simpa using single
    exact (wf.fresh e present).ne
  · intro clean
    have clean : table.indexDirty = false := clean
    have before : IndexedOn (fun p => p < table.entries.length) table.index
        (table.entries ++ [⟨key,table.nextSeq,0,value⟩]) := by
      refine ⟨?_,?_⟩
      · intro p e inside found
        rw [List.getElem?_append_left inside] at found
        exact (wf.indexed clean).finds p e trivial found
      · intro other offset p named
        obtain ⟨_,e,found,rest⟩ := (wf.indexed clean).names other offset p named
        have inside := (List.getElem?_eq_some_iff.mp found).1
        exact ⟨inside,e,by rw [List.getElem?_append_left inside,found],rest⟩
    have after := before.indexEntry (List.getElem?_concat_length ..) (Nat.lt_irrefl _)
    rw [indexEntry,List.getElem?_concat_length] at after
    simp only [List.set_append_right _ _ (Nat.le_refl _),Nat.sub_self,List.set_cons_zero] at after
    dsimp only
    rw [if_neg (by simp [clean])]
    exact after.mono fun p inside => by
      rw [List.length_append,List.length_singleton] at inside
      simp only [iff_true]
      omega
  · rw [rows,List.map_append]
    rfl

/-- In the middle of a drain: the entries of the key stand at the places that are left, and the index
knows the others. -/
structure Draining (key : Nat) (left : List Nat) (table : PromiseKeyedTable T) : Prop where
  mine : ∀ p,p ∈ left ↔ ∃ e : Entry T,table.entries[p]? = some e ∧ e.key = key
  gone : slotsOf table.index key = []
  finds : ∀ p (e : Entry T),table.entries[p]? = some e → e.key ≠ key → (slotsOf table.index e.key)[e.slot]? = some p
  names : ∀ other offset p,(slotsOf table.index other)[offset]? = some p →
    ∃ e : Entry T,table.entries[p]? = some e ∧ e.key = other ∧ e.slot = offset

/-- The largest place goes first, so that what moves into the gap belongs to another key. -/
theorem Draining.drain {key position : Nat} {left : List Nat} (draining : Draining key (position :: left) table)
    (below : ∀ q ∈ left,q < position) (drained : List (Entry T)) :
    ∃ after entry,PromiseKeyedTable.drain (table,drained) position = some (after,drained ++ [entry]) ∧
      Draining key left after ∧ entry.key = key ∧ (entry :: after.entries).Perm table.entries ∧
      after.indexDirty = table.indexDirty ∧ after.nextSeq = table.nextSeq := by
  obtain ⟨entry,found,own⟩ := (draining.mine position).mp (List.mem_cons_self ..)
  have perm := swapRemove_perm found
  rw [PromiseKeyedTable.drain,found]
  refine ⟨_,entry,rfl,?_,own,perm,rfl,rfl⟩
  obtain ⟨front,cut,rfl⟩ | ⟨front,last,cut,inside⟩ := split_at found
  · -- The last entry is popped, and nothing moves.
    rw [cut,swapRemove_end,List.getElem?_eq_none (Nat.le_refl _)]
    have kept : ∀ {p : Nat} {e : Entry T},front[p]? = some e → table.entries[p]? = some e := by
      intro p e at_p
      rw [cut,List.getElem?_append_left (List.getElem?_eq_some_iff.mp at_p).1,at_p]
    refine ⟨?_,draining.gone,fun p e at_p => draining.finds p e (kept at_p),?_⟩
    · intro p
      constructor
      · intro member
        obtain ⟨e,at_p,mine⟩ := (draining.mine p).mp (List.mem_cons_of_mem _ member)
        rw [cut,List.getElem?_append_left (below p member)] at at_p
        exact ⟨e,at_p,mine⟩
      · rintro ⟨e,at_p,mine⟩
        have member := (draining.mine p).mpr ⟨e,kept at_p,mine⟩
        exact (List.mem_cons.mp member).resolve_left (List.getElem?_eq_some_iff.mp at_p).1.ne
    · intro other offset p named
      obtain ⟨e,at_p,same,rest⟩ := draining.names other offset p named
      refine ⟨e,?_,same,rest⟩
      obtain inner | outer := lt_or_ge p front.length
      · rw [cut,List.getElem?_append_left inner] at at_p
        exact at_p
      · have at_end : p = front.length := by
          have bound := (List.getElem?_eq_some_iff.mp at_p).1
          rw [cut,List.length_append,List.length_singleton] at bound
          omega
        rw [at_end,found,Option.some.injEq] at at_p
        rw [← same,← at_p,own,draining.gone] at named
        cases named
  · -- The last entry moves into the gap; it is foreign, since its place is larger than all that are left.
    have inner := (List.getElem?_eq_some_iff.mp inside).1
    have at_end : table.entries[front.length]? = some last := by rw [cut,List.getElem?_concat_length]
    have foreign : last.key ≠ key := by
      intro mine
      obtain same | member := List.mem_cons.mp ((draining.mine front.length).mpr ⟨last,at_end,mine⟩)
      · omega
      · exact absurd (below _ member) (by omega)
    have known := draining.finds _ last at_end foreign
    obtain ⟨slots,listed⟩ : ∃ slots,table.index last.key = some slots := by
      cases listed : table.index last.key with
      | none => simp [slotsOf,listed] at known
      | some slots => exact ⟨slots,rfl⟩
    rw [slotsOf_some listed] at known
    have offset_inside := (List.getElem?_eq_some_iff.mp known).1
    rw [cut,swapRemove_inner inner,List.getElem?_set_self inner]
    dsimp only
    rw [listed]
    have slots_after : ∀ other,slotsOf (Function.update table.index last.key (some (slots.relocate last.slot position))) other =
        if other = last.key then slots.asSlice.set last.slot position else slotsOf table.index other := by
      intro other
      rw [slotsOf_update,Option.elim_some,Slots.asSlice_relocate offset_inside]
    have kept : ∀ {p e},p ≠ position → (front.set position last)[p]? = some e → table.entries[p]? = some e := by
      intro p e away at_p
      rw [List.getElem?_set_ne away.symm] at at_p
      rw [cut,List.getElem?_append_left (List.getElem?_eq_some_iff.mp at_p).1,at_p]
    have keeps : ∀ {p e},p ≠ position → p ≠ front.length → table.entries[p]? = some e → (front.set position last)[p]? = some e := by
      intro p e away before at_p
      have bound := (List.getElem?_eq_some_iff.mp at_p).1
      rw [cut,List.length_append,List.length_singleton] at bound
      rw [List.getElem?_set_ne away.symm]
      rwa [cut,List.getElem?_append_left (by omega)] at at_p
    refine ⟨?_,?_,?_,?_⟩
    · intro p
      constructor
      · intro member
        obtain ⟨e,at_p,mine⟩ := (draining.mine p).mp (List.mem_cons_of_mem _ member)
        have less := below p member
        exact ⟨e,keeps less.ne (by omega) at_p,mine⟩
      · rintro ⟨e,at_p,mine⟩
        by_cases here : p = position
        · rw [here,List.getElem?_set_self inner,Option.some.injEq] at at_p
          exact absurd (at_p ▸ mine) foreign
        · exact (List.mem_cons.mp ((draining.mine p).mpr ⟨e,kept here at_p,mine⟩)).resolve_left here
    · rw [slots_after,if_neg foreign.symm]
      exact draining.gone
    · intro p e at_p other_key
      rw [slots_after]
      by_cases here : p = position
      · rw [here,List.getElem?_set_self inner,Option.some.injEq] at at_p
        rw [← at_p,if_pos rfl,List.getElem?_set_self offset_inside,here]
      · have old := draining.finds p e (kept here at_p) other_key
        split
        · next same =>
          rw [same,slotsOf_some listed] at old
          rw [List.getElem?_set_ne,old]
          intro shared
          rw [← shared,known,Option.some.injEq] at old
          rw [← old,List.getElem?_eq_none (by simp)] at at_p
          cases at_p
        · exact old
    · intro other offset p named
      rw [slots_after] at named
      have moved : p ≠ position → (slotsOf table.index other)[offset]? = some p → p ≠ front.length →
          ∃ e,(front.set position last)[p]? = some e ∧ e.key = other ∧ e.slot = offset := by
        intro away listed before
        obtain ⟨e,at_p,rest⟩ := draining.names other offset p listed
        exact ⟨e,keeps away before at_p,rest⟩
      have not_mine : ∀ {q o : Nat},(slotsOf table.index other)[o]? = some q → q ≠ position := by
        rintro q o listed rfl
        obtain ⟨e,at_q,same,_⟩ := draining.names other o q listed
        rw [found,Option.some.injEq] at at_q
        rw [← same,← at_q,own,draining.gone] at listed
        cases listed
      split at named
      · next same =>
        subst same
        by_cases here : last.slot = offset
        · subst here
          rw [List.getElem?_set_self offset_inside,Option.some.injEq] at named
          subst named
          exact ⟨last,List.getElem?_set_self inner,rfl,rfl⟩
        · rw [List.getElem?_set_ne here,← slotsOf_some listed] at named
          refine moved (not_mine named) named fun at_last => here ?_
          obtain ⟨e,at_p,_,slot⟩ := draining.names _ offset p named
          rw [at_last,at_end,Option.some.injEq] at at_p
          rw [at_p,slot]
      · next different =>
        refine moved (not_mine named) named fun at_last => different ?_
        obtain ⟨e,at_p,same,_⟩ := draining.names other offset p named
        rw [at_last,at_end,Option.some.injEq] at at_p
        rw [← same,at_p]

theorem Draining.run {key : Nat} {left : List Nat} (draining : Draining key left table)
    (descending : left.Pairwise (· > ·)) (drained : List (Entry T)) :
    ∃ after taken,left.foldlM PromiseKeyedTable.drain (table,drained) = some (after,drained ++ taken) ∧ Draining key [] after ∧
      (∀ e ∈ taken,e.key = key) ∧ (taken ++ after.entries).Perm table.entries ∧
      after.indexDirty = table.indexDirty ∧ after.nextSeq = table.nextSeq := by
  induction left generalizing table drained with
  | nil => exact ⟨table,[],by simp,draining,by simp,.refl _,rfl,rfl⟩
  | cons position left ih =>
    obtain ⟨below,descending⟩ := List.pairwise_cons.mp descending
    obtain ⟨next,entry,step,going,own,perm,dirty,seq⟩ := draining.drain below drained
    obtain ⟨after,taken,run,done,mine,rest,dirty',seq'⟩ := ih going descending (drained ++ [entry])
    refine ⟨after,entry :: taken,?_,done,?_,?_,dirty'.trans dirty,seq'.trans seq⟩
    · rw [List.foldlM_cons,step]
      exact run.trans (by rw [List.append_assoc]; rfl)
    · exact List.forall_mem_cons.mpr ⟨own,mine⟩
    · exact (rest.cons entry).trans perm

theorem Draining.start {key : Nat} {slots : Slots} (wf : table.WellFormed) (clean : table.indexDirty = false)
    (listed : table.index key = some slots) :
    Draining key (slots.asSlice.insertionSort (· ≥ ·)) { table with index := Function.update table.index key none } where
  mine p := by
    rw [(List.perm_insertionSort (· ≥ ·) slots.asSlice).mem_iff,← slotsOf_some listed]
    constructor
    · intro member
      obtain ⟨offset,inside,rfl⟩ := List.mem_iff_getElem.mp member
      obtain ⟨_,e,found,own,_⟩ := (wf.indexed clean).names key offset _ (List.getElem?_eq_getElem inside)
      exact ⟨e,found,own⟩
    · rintro ⟨e,found,rfl⟩
      exact List.mem_of_getElem? ((wf.indexed clean).finds p e trivial found)
  gone := by rw [slotsOf_update,if_pos rfl]; rfl
  finds p e found other_key := by
    rw [slotsOf_update,if_neg other_key]
    exact (wf.indexed clean).finds p e trivial found
  names other offset p named := by
    rw [slotsOf_update] at named
    split at named
    · cases named
    · exact ((wf.indexed clean).names other offset p named).2

/-- The places of a key are all different. -/
theorem nodup_slots {key : Nat} {slots : Slots} (wf : table.WellFormed) (clean : table.indexDirty = false)
    (listed : table.index key = some slots) : slots.asSlice.Nodup := by
  rw [← slotsOf_some listed,List.nodup_iff_getElem?_ne_getElem?]
  intro i j less inside same
  have found := List.getElem?_eq_getElem inside
  obtain ⟨_,e,at_p,_,first⟩ := (wf.indexed clean).names key j _ found
  obtain ⟨_,e',at_p',_,second⟩ := (wf.indexed clean).names key i _ (same.trans found)
  rw [at_p,Option.some.injEq] at at_p'
  rw [← at_p',first] at second
  omega

/-- What an entry of the rows is, by its `seq`. -/
theorem sorted_rows {entries : List (Entry T)} {rows : List (Nat × Nat × T)} (perm : (entries.map Entry.row).Perm rows)
    (sorted : rows.Pairwise (·.1 < ·.1)) : (entries.insertionSort fun a b => a.seq ≤ b.seq).map Entry.row = rows := by
  have total : Std.Total fun a b : Entry T => a.seq ≤ b.seq := ⟨fun a b => le_total a.seq b.seq⟩
  have trans : IsTrans (Entry T) fun a b => a.seq ≤ b.seq := ⟨fun _ _ _ => le_trans⟩
  have ascending : rows.Pairwise fun a b => a.1 ≤ b.1 := sorted.imp le_of_lt
  refine List.Perm.eq_of_pairwise ?_ ?_ ascending (((List.perm_insertionSort _ entries).map Entry.row).trans perm)
  · intro a b member other below above
    have distinct : (rows.map Prod.fst).Nodup := List.pairwise_map.mpr (sorted.imp Nat.ne_of_lt)
    have member : a ∈ rows := (((List.perm_insertionSort _ entries).map Entry.row).trans perm).mem_iff.mp member
    exact List.inj_on_of_nodup_map distinct member other (le_antisymm below above)
  · rw [List.pairwise_map]
    exact List.pairwise_insertionSort _ entries

/-- A table without entries of a key. -/
theorem no_rows {key : Nat} {rows : List (Nat × Nat × T)} (perm : table.rows.Perm rows) (none : ∀ e ∈ table.entries,e.key ≠ key) :
    rows.filter (·.2.1 = key) = [] ∧ rows.filter (·.2.1 ≠ key) = rows := by
  have foreign : ∀ row ∈ rows,row.2.1 ≠ key := by
    intro row member
    obtain ⟨e,present,rfl⟩ := List.mem_map.mp (perm.mem_iff.mpr member)
    exact none e present
  exact ⟨List.filter_eq_nil_iff.mpr fun row member => by simpa using foreign row member,
    List.filter_eq_self.mpr fun row member => by simpa using foreign row member⟩

/-- `take_all` gives the values of the key as they were registered, and leaves the others. -/
theorem takeAll_spec (wf : table.WellFormed) (key : Nat) {rows : List (Nat × Nat × T)} (perm : table.rows.Perm rows)
    (sorted : rows.Pairwise (·.1 < ·.1)) :
    ∃ after,table.takeAll key = some (after,(rows.filter (·.2.1 = key)).map (·.2.2)) ∧ after.WellFormed ∧
      after.rows.Perm (rows.filter (·.2.1 ≠ key)) ∧ after.nextSeq = table.nextSeq := by
  rw [takeAll]
  split
  · next empty =>
    have none_of_key : ∀ e ∈ table.entries,e.key ≠ key := by simp [List.isEmpty_iff.mp empty]
    obtain ⟨nothing,all⟩ := no_rows perm none_of_key
    exact ⟨table,by rw [nothing,List.map_nil],wf,by rw [all]; exact perm,rfl⟩
  obtain ⟨wf,clean,same,seq⟩ := ensureIndex_spec wf
  rw [← same] at perm
  rw [← seq]
  generalize table.ensureIndex = table at wf clean perm
  dsimp only
  cases listed : table.index key with
  | none =>
    have none_of_key : ∀ e ∈ table.entries,e.key ≠ key := by
      intro e member own
      obtain ⟨p,inside,rfl⟩ := List.mem_iff_getElem.mp member
      have found := (wf.indexed clean).finds p _ trivial (List.getElem?_eq_getElem inside)
      rw [own,slotsOf,listed] at found
      cases found
    obtain ⟨nothing,all⟩ := no_rows perm none_of_key
    exact ⟨table,by rw [nothing,List.map_nil],wf,by rw [all]; exact perm,rfl⟩
  | some slots =>
    have descending : (slots.asSlice.insertionSort (· ≥ ·)).Pairwise (· > ·) := by
      have weak := List.pairwise_insertionSort (· ≥ ·) slots.asSlice
      have distinct := (List.perm_insertionSort (· ≥ ·) slots.asSlice).nodup_iff.mpr (nodup_slots wf clean listed)
      exact (weak.and distinct).imp fun ⟨above,different⟩ => lt_of_le_of_ne above (Ne.symm different)
    obtain ⟨after,taken,run,done,mine,rest,dirty,seq'⟩ := (Draining.start wf clean listed).run descending []
    have foreign : ∀ e ∈ after.entries,e.key ≠ key := by
      intro e member own
      obtain ⟨p,inside,rfl⟩ := List.mem_iff_getElem.mp member
      exact List.not_mem_nil ((done.mine p).mpr ⟨_,List.getElem?_eq_getElem inside,own⟩)
    have whole : (taken.map Entry.row ++ after.rows).Perm rows := by
      rw [PromiseKeyedTable.rows,← List.map_append]
      exact (rest.map Entry.row).trans perm
    have taken_rows : (taken.map Entry.row).Perm (rows.filter (·.2.1 = key)) := by
      have filtered := whole.filter fun row => decide (row.2.1 = key)
      rw [List.filter_append,List.filter_eq_self.mpr (by simpa [Entry.row] using mine),
        List.filter_eq_nil_iff.mpr (by simpa [PromiseKeyedTable.rows,Entry.row] using foreign),List.append_nil] at filtered
      exact filtered
    have left_rows : after.rows.Perm (rows.filter (·.2.1 ≠ key)) := by
      have filtered := whole.filter fun row => decide (row.2.1 ≠ key)
      rw [List.filter_append,List.filter_eq_nil_iff.mpr (by simpa [Entry.row] using mine),
        List.filter_eq_self.mpr (by simpa [PromiseKeyedTable.rows,Entry.row] using foreign),List.nil_append] at filtered
      exact filtered
    refine ⟨after,?_,⟨?_,?_,?_⟩,left_rows,seq'⟩
    · dsimp only
      rw [run]
      change some (after,_) = _
      rw [← sorted_rows taken_rows (sorted.sublist (List.filter_sublist ..)),List.map_map,List.nil_append]
      rfl
    · intro e member
      rw [seq']
      exact wf.fresh e (rest.subset (List.mem_append_right _ member))
    · have distinct := (rest.map Entry.seq).nodup_iff.mpr wf.distinct
      rw [List.map_append] at distinct
      exact distinct.of_append_right
    · intro _
      refine ⟨fun p e _ found => done.finds p e found (foreign e (List.mem_of_getElem? found)),?_⟩
      intro other offset p named
      exact ⟨trivial,done.names other offset p named⟩

end PromiseKeyedTable

end Perry.Runtime.KeyedTable
