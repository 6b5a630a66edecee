import Perry.Runtime.MapEntries

/-! What an operation can do to the entries buffer.
Every operation is a short sequence of changes, and the specification's list of entries, which is
never squeezed, follows the same changes. The keys of the live slots stay distinct.
-/
namespace Perry.Runtime.Map

open Perry.Containers

variable {K V : Type}

/-- The operations of a program on one map; reads that answer from the buffer alone leave it as
it is. -/
inductive Op (K V : Type)
  | set (key : K) (value : V)
  | delete (key : K)
  | clear
  | get (key : K)
  | has (key : K)
  | size
  | keys
  | values
  | entries
  | copy
  | entryAt (index : Nat)
  deriving DecidableEq,Repr

/-- What can happen to a map between two steps of a walk over it. -/
inductive Act (K V : Type)
  | op (operation : Op K V)
  | foreachStart
  | foreachFinish
  deriving DecidableEq,Repr

/-- The specification's `[[MapData]]`: a deleted entry stays as an empty record for ever. -/
abbrev MapData (K V : Type) := List (Option (K × V))

def emptyRule (_ : K × V) : Option (K × V) := none

def rewrite (rule : K × V → Option (K × V)) (data : MapData K V) : MapData K V :=
  data.map (·.bind rule)

section Rules

variable [DecidableEq K]

def putRule (key : K) (value : V) (entry : K × V) : Option (K × V) :=
  some (if entry.1 = key then (entry.1,value) else entry)

def dropRule (key : K) (entry : K × V) : Option (K × V) :=
  if entry.1 = key then none else some entry

/-- What the specification does to `[[MapData]]`. -/
def MapData.perform (data : MapData K V) : Op K V → MapData K V
  | .set key value =>
    if data.any (holdsKey key) then rewrite (putRule key value) data else data ++ [some (key,value)]
  | .delete key => rewrite (dropRule key) data
  | .clear => rewrite emptyRule data
  | _ => data

def MapData.act (data : MapData K V) : Act K V → MapData K V
  | .op operation => data.perform operation
  | _ => data

def MapData.performAll (data : MapData K V) (acts : List (Act K V)) : MapData K V :=
  acts.foldl MapData.act data

end Rules

inductive Change (K V : Type)
  | rewrite (rule : K × V → Option (K × V))
  | append (entry : K × V)
  | squeeze
  | discard
  | grow
  | enter
  | leave

namespace Change

def apply (buffer : Buffer K V) : Change K V → Buffer K V
  | .rewrite rule => { buffer with slots := Map.rewrite rule buffer.slots }
  | .append entry => { buffer with slots := buffer.slots ++ [some entry] }
  | .squeeze => buffer.squeezeEntries
  | .discard => buffer.discardExtent
  | .grow => { buffer with capacity := buffer.capacity * 2 }
  | .enter => { buffer with walks := buffer.walks + 1 }
  | .leave => { buffer with walks := buffer.walks - 1 }

def applySpec (data : MapData K V) : Change K V → MapData K V
  | .rewrite rule => Map.rewrite rule data
  | .append entry => data ++ [some entry]
  | .discard => Map.rewrite emptyRule data
  | _ => data

/-- Where a raw index goes. -/
def shift (buffer : Buffer K V) (cursor : Nat) : Change K V → Nat
  | .squeeze => cursor - holesBelow buffer.slots cursor
  | .discard => 0
  | _ => cursor

end Change

def applyAll (buffer : Buffer K V) (changes : List (Change K V)) : Buffer K V :=
  changes.foldl Change.apply buffer

namespace Buffer

variable (buffer : Buffer K V)

def count : Nat := buffer.entries.length

def roomChanges : List (Change K V) :=
  if buffer.used < buffer.capacity then []
  else if buffer.count < buffer.used ∧ !buffer.mapForeachIsActive then
    if buffer.count < buffer.capacity then [.squeeze] else [.squeeze,.grow]
  else [.grow]

def readChanges : List (Change K V) :=
  if buffer.used ≠ buffer.count then [.squeeze] else []

end Buffer

namespace Buffer

variable [DecidableEq K] (buffer : Buffer K V)

/-- The changes an operation makes, read off the buffer before it. -/
def changes : Op K V → List (Change K V)
  | .set key value =>
    if buffer.slots.any (holdsKey key) then [.rewrite (putRule key value)]
    else buffer.roomChanges ++ [.append (key,value)]
  | .delete key =>
    if buffer.slots.any (holdsKey key) then
      if 16 ≤ buffer.used ∧ buffer.count - 1 < buffer.used / 2 ∧ !buffer.mapForeachIsActive then
        [.rewrite (dropRule key),.squeeze]
      else [.rewrite (dropRule key)]
    else []
  | .clear =>
    if buffer.mapForeachIsActive then [.rewrite emptyRule]
    else if 0 < buffer.used then [.discard] else []
  | .get _ => []
  | .has _ => []
  | .size => []
  | .keys => buffer.readChanges
  | .values => buffer.readChanges
  | .entries => buffer.readChanges
  | .copy => buffer.readChanges
  | .entryAt index =>
    if buffer.count ≤ index ∨ buffer.mapForeachIsActive then [] else buffer.readChanges

def actChanges : Act K V → List (Change K V)
  | .op operation => buffer.changes operation
  | .foreachStart => (if buffer.mapForeachIsActive then [] else buffer.readChanges) ++ [.enter]
  | .foreachFinish =>
    .leave :: if 1 < buffer.walks then [] else buffer.readChanges

def act (act : Act K V) : Buffer K V := applyAll buffer (buffer.actChanges act)

end Buffer

/-- The keys of the live slots are distinct. -/
def Distinct (slots : List (Option (K × V))) : Prop := (slots.reduceOption.map (·.1)).Nodup

@[simp] theorem Distinct.none_cons (rest : List (Option (K × V))) :
    Distinct (none :: rest) ↔ Distinct rest := by
  simp [Distinct]

@[simp] theorem Distinct.some_cons (entry : K × V) (rest : List (Option (K × V))) :
    Distinct (some entry :: rest) ↔
      (∀ other ∈ rest.reduceOption, other.1 ≠ entry.1) ∧ Distinct rest := by
  simp only [Distinct,List.reduceOption_cons_of_some,List.map_cons,List.nodup_cons,List.mem_map,
    not_exists,not_and,ne_eq]

theorem rewrite_eq_self {rule : K × V → Option (K × V)} {slots : List (Option (K × V))}
    (fixed : ∀ entry ∈ slots.reduceOption, rule entry = some entry) : rewrite rule slots = slots := by
  induction slots with
  | nil => rfl
  | cons slot rest step =>
    cases slot with
    | none => simpa [rewrite] using step (by simpa using fixed)
    | some entry =>
      simp only [List.reduceOption_cons_of_some,List.mem_cons,forall_eq_or_imp] at fixed
      simpa [rewrite,fixed.1] using step fixed.2

theorem reduceOption_rewrite (rule : K × V → Option (K × V)) (slots : List (Option (K × V))) :
    (rewrite rule slots).reduceOption = slots.reduceOption.filterMap rule := by
  induction slots with
  | nil => rfl
  | cons slot rest step =>
    cases slot with
    | none => simpa [rewrite] using step
    | some entry => cases shape : rule entry <;> simp_all [rewrite]

theorem Distinct.rewrite {rule : K × V → Option (K × V)} {slots : List (Option (K × V))}
    (keeps : ∀ entry entry', rule entry = some entry' → entry'.1 = entry.1)
    (distinct : Distinct slots) : Distinct (rewrite rule slots) := by
  unfold Distinct
  rw [reduceOption_rewrite]
  refine List.Nodup.sublist ?_ distinct
  induction slots.reduceOption with
  | nil => simp
  | cons entry rest step =>
    cases shape : rule entry with
    | none => simpa [shape] using step.cons _
    | some entry' => simpa [shape,keeps entry entry' shape] using step

theorem slots_squeezeEntries (buffer : Buffer K V) : buffer.squeezeEntries.slots = squeeze buffer.slots := by
  unfold Buffer.squeezeEntries
  dsimp only
  split <;> rfl

theorem capacity_squeezeEntries (buffer : Buffer K V) : buffer.squeezeEntries.capacity = buffer.capacity := by
  unfold Buffer.squeezeEntries
  dsimp only
  split <;> rfl

theorem reduceOption_roomChanges (buffer : Buffer K V) :
    (applyAll buffer buffer.roomChanges).slots.reduceOption = buffer.slots.reduceOption := by
  have squeezed := congrArg List.reduceOption (slots_squeezeEntries buffer)
  rw [reduceOption_squeeze] at squeezed
  unfold Buffer.roomChanges
  split
  · rfl
  · split
    · split
      · exact squeezed
      · exact squeezed
    · rfl

section Lookup

variable [DecidableEq K]

theorem putRule_keeps {key : K} {value : V} (entry entry' : K × V) (rewritten : putRule key value entry = some entry') :
    entry'.1 = entry.1 := by
  simp only [putRule,Option.some.injEq] at rewritten
  split at rewritten <;> rw [← rewritten]

theorem dropRule_keeps {key : K} (entry entry' : K × V) (rewritten : dropRule key entry = some entry') : entry'.1 = entry.1 := by
  simp only [dropRule] at rewritten
  split at rewritten <;> cases rewritten
  rfl

theorem any_holdsKey (slots : List (Option (K × V))) (key : K) :
    slots.any (holdsKey key) = true ↔ ∃ entry ∈ slots.reduceOption, entry.1 = key := by
  simp only [List.any_eq_true,List.reduceOption_mem_iff]
  constructor
  · rintro ⟨slot,member,holds⟩
    cases slot with
    | none => simp [holdsKey] at holds
    | some entry => exact ⟨entry,member,by simpa [holdsKey] using holds⟩
  · rintro ⟨entry,member,rfl⟩
    exact ⟨some entry,member,by simp [holdsKey]⟩

theorem Distinct.append {slots : List (Option (K × V))} {entry : K × V} (distinct : Distinct slots)
    (absent : ¬ slots.any (holdsKey entry.1) = true) : Distinct (slots ++ [some entry]) := by
  rw [any_holdsKey] at absent
  have fresh : ∀ other ∈ slots.reduceOption, other.1 ≠ entry.1 :=
    fun other inside equal => absent ⟨other,inside,equal⟩
  unfold Distinct at distinct ⊢
  rw [List.reduceOption_append,List.map_append,List.nodup_append]
  refine ⟨distinct,by simp [List.reduceOption],?_⟩
  simpa [List.reduceOption] using fun k v inside => fresh (k,v) inside

theorem findIdx?_eq_none_iff_any (slots : List (Option (K × V))) (key : K) :
    slots.findIdx? (holdsKey key) = none ↔ ¬ slots.any (holdsKey key) = true := by
  simp

/-- The slot the lookup finds is the only one a rule about its key can change. -/
theorem modify_eq_rewrite (change : Option (K × V) → Option (K × V))
    (rule : K × V → Option (K × V)) (key : K)
    (others : ∀ entry : K × V, entry.1 ≠ key → rule entry = some entry)
    (here : ∀ entry : K × V, entry.1 = key → change (some entry) = rule entry)
    {slots : List (Option (K × V))} (distinct : Distinct slots) {index : Nat}
    (found : slots.findIdx? (holdsKey key) = some index) :
    slots.modify index change = rewrite rule slots := by
  induction slots generalizing index with
  | nil => simp at found
  | cons slot rest step =>
    rw [List.findIdx?_cons] at found
    split at found
    · rename_i holds
      cases found
      cases slot with
      | none => simp [holdsKey] at holds
      | some entry =>
        have same : entry.1 = key := by simpa [holdsKey] using holds
        rw [Distinct.some_cons] at distinct
        have tail : rewrite rule rest = rest := by
          apply rewrite_eq_self
          intro other member
          exact others other (same ▸ distinct.1 other member)
        have head : change (some entry) = rule entry := here entry same
        simp [rewrite,List.modify_zero_cons,head] at tail ⊢
        exact tail.symm
    · rename_i misses
      simp only [Option.map_eq_some_iff] at found
      obtain ⟨offset,found,rfl⟩ := found
      rw [List.modify_succ_cons]
      cases slot with
      | none => simp [rewrite,step (by simpa using distinct) found]
      | some entry =>
        rw [Distinct.some_cons] at distinct
        have kept : rule entry = some entry := others entry (by simpa [holdsKey] using misses)
        simp [rewrite,kept,step distinct.2 found]

theorem modify_put (value : V) (key : K) {slots : List (Option (K × V))} (distinct : Distinct slots)
    {index : Nat} (found : slots.findIdx? (holdsKey key) = some index) :
    slots.modify index (·.map fun entry => (entry.1,value)) = rewrite (putRule key value) slots := by
  apply modify_eq_rewrite _ _ key _ _ distinct found
  · intro entry other
    simp [putRule,other]
  · intro entry same
    simp [putRule,same]

theorem set_drop (key : K) {slots : List (Option (K × V))} (distinct : Distinct slots)
    {index : Nat} (found : slots.findIdx? (holdsKey key) = some index) :
    slots.set index none = rewrite (dropRule key) slots := by
  rw [List.set_eq_modify]
  apply modify_eq_rewrite _ _ key _ _ distinct found
  · intro entry other
    simp [dropRule,other]
  · intro entry same
    simp [dropRule,same]

theorem present_of_found {slots : List (Option (K × V))} {key : K} {index : Nat}
    (found : slots.findIdx? (holdsKey key) = some index) : slots.any (holdsKey key) = true := by
  by_contra absent
  rw [← findIdx?_eq_none_iff_any] at absent
  simp [absent] at found

theorem length_filterMap_dropRule {key : K} {slots : List (Option (K × V))}
    (distinct : Distinct slots) (present : slots.any (holdsKey key) = true) :
    (slots.reduceOption.filterMap (dropRule key)).length + 1 = slots.reduceOption.length := by
  rw [any_holdsKey] at present
  have nodup : (slots.reduceOption.map (·.1)).Nodup := distinct
  generalize slots.reduceOption = entries at present nodup ⊢
  induction entries with
  | nil => simp at present
  | cons entry rest step =>
    rw [List.map_cons,List.nodup_cons] at nodup
    by_cases same : entry.1 = key
    · have kept : rest.filterMap (dropRule key) = rest := by
        rw [List.filterMap_congr (g := some),List.filterMap_some]
        intro other member
        have different : other.1 ≠ key := by
          rintro rfl
          exact nodup.1 (same ▸ List.mem_map_of_mem member)
        simp [dropRule,different]
      rw [List.filterMap_cons_none (by simp [dropRule,same]),kept,List.length_cons]
    · have inside : ∃ other ∈ rest, other.1 = key := by simpa [same] using present
      simpa [dropRule,same] using step inside nodup.2

end Lookup

/-- Where a raw index goes along a sequence of changes. -/
def shiftAll : Buffer K V → Nat → List (Change K V) → Nat
  | _, cursor, [] => cursor
  | buffer, cursor, change :: rest => shiftAll (change.apply buffer) (change.shift buffer cursor) rest

theorem Change.aligned {buffer : Buffer K V} {data : MapData K V} {cursor index : Nat}
    (aligned : Aligned buffer.slots cursor data index) (change : Change K V) :
    Aligned (change.apply buffer).slots (change.shift buffer cursor) (change.applySpec data) index := by
  cases change with
  | rewrite rule => exact aligned.map rule
  | append entry => exact aligned.append entry
  | squeeze => simpa [apply,shift,applySpec,slots_squeezeEntries] using aligned.squeeze
  | discard =>
    have vanished : ∀ part : MapData K V, (Map.rewrite emptyRule part).reduceOption = [] := by
      intro part
      rw [reduceOption_rewrite]
      simp [emptyRule]
    constructor
    · exact Nat.zero_le _
    · simpa [applySpec,Map.rewrite] using aligned.inside'
    · have front := vanished (data.take index)
      rw [Map.rewrite,List.map_take] at front
      simpa [apply,shift,applySpec,Buffer.discardExtent,Buffer.noteMapCompaction,Map.rewrite] using front.symm
    · have back := vanished (data.drop index)
      rw [Map.rewrite,List.map_drop] at back
      simpa [apply,shift,applySpec,Buffer.discardExtent,Buffer.noteMapCompaction,Map.rewrite] using back.symm
  | grow => exact aligned
  | enter => exact aligned
  | leave => exact aligned

theorem applyAll_aligned {data : MapData K V} {index : Nat} (plan : List (Change K V))
    {buffer : Buffer K V} {cursor : Nat} (aligned : Aligned buffer.slots cursor data index) :
    Aligned (applyAll buffer plan).slots (shiftAll buffer cursor plan)
      (plan.foldl Change.applySpec data) index := by
  induction plan generalizing buffer cursor data with
  | nil => exact aligned
  | cons change rest step => exact step (change.aligned aligned)

theorem applySpec_roomChanges (buffer : Buffer K V) (data : MapData K V) :
    buffer.roomChanges.foldl Change.applySpec data = data := by
  unfold Buffer.roomChanges
  split
  · rfl
  · split
    · split <;> rfl
    · rfl

theorem applySpec_readChanges (buffer : Buffer K V) (data : MapData K V) :
    buffer.readChanges.foldl Change.applySpec data = data := by
  unfold Buffer.readChanges
  split <;> rfl

section Specification

variable [DecidableEq K]

/-- On the specification's list the planned changes are the specification's operation. -/
theorem applySpec_changes (buffer : Buffer K V) (data : MapData K V)
    (same : buffer.slots.reduceOption = data.reduceOption) (op : Op K V) :
    (buffer.changes op).foldl Change.applySpec data = data.perform op := by
  have member : ∀ key, buffer.slots.any (holdsKey key) = data.any (holdsKey key) := by
    intro key
    rw [Bool.eq_iff_iff,any_holdsKey,any_holdsKey,same]
  cases op with
  | set key value =>
    simp only [Buffer.changes,MapData.perform,member key]
    split
    · rfl
    · rw [List.foldl_append,applySpec_roomChanges]
      rfl
  | delete key =>
    simp only [Buffer.changes,MapData.perform,member key]
    split
    · split <;> rfl
    · rename_i absent
      rw [any_holdsKey] at absent
      symm
      apply rewrite_eq_self
      intro entry inside
      have different : entry.1 ≠ key := fun equal => absent ⟨entry,inside,equal⟩
      simp [dropRule,different]
  | clear =>
    simp only [Buffer.changes,MapData.perform]
    split
    · rfl
    · split
      · rfl
      · rename_i unused
        have none_used : buffer.slots = [] := List.eq_nil_of_length_eq_zero (by
          simp only [Buffer.used] at unused
          omega)
        symm
        apply rewrite_eq_self
        simp [← same,none_used]
  | get key => rfl
  | has key => rfl
  | size => rfl
  | keys => exact applySpec_readChanges buffer data
  | values => exact applySpec_readChanges buffer data
  | entries => exact applySpec_readChanges buffer data
  | copy => exact applySpec_readChanges buffer data
  | entryAt index =>
    simp only [Buffer.changes]
    split
    · rfl
    · exact applySpec_readChanges buffer data

theorem applySpec_act (buffer : Buffer K V) (data : MapData K V)
    (same : buffer.slots.reduceOption = data.reduceOption) (act : Act K V) :
    (buffer.actChanges act).foldl Change.applySpec data = data.act act := by
  cases act with
  | op operation => exact applySpec_changes buffer data same operation
  | foreachStart =>
    simp only [Buffer.actChanges,MapData.act,List.foldl_append]
    split
    · rfl
    · rw [applySpec_readChanges]
      rfl
  | foreachFinish =>
    simp only [Buffer.actChanges,MapData.act,List.foldl_cons]
    split
    · rfl
    · exact applySpec_readChanges buffer data

/-- An act keeps a cursor aligned with the specification's index. -/
theorem act_aligned {buffer : Buffer K V} {data : MapData K V} {cursor index : Nat}
    (aligned : Aligned buffer.slots cursor data index) (act : Act K V) :
    Aligned (buffer.act act).slots (shiftAll buffer cursor (buffer.actChanges act)) (data.act act) index := by
  rw [← applySpec_act buffer data aligned.whole]
  exact applyAll_aligned (buffer.actChanges act) aligned

theorem reduceOption_act {buffer : Buffer K V} {data : MapData K V}
    (same : buffer.slots.reduceOption = data.reduceOption) (act : Act K V) :
    (buffer.act act).slots.reduceOption = (data.act act).reduceOption :=
  (act_aligned (Aligned.start same) act).whole

end Specification

end Perry.Runtime.Map
