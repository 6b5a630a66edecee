import Perry.Runtime.MapChanges
import Perry.Runtime.NumericIndexSound

/-! The side indexes of a map name the slots of its keys, and a lookup finds the slot that a scan
would find. A squeeze builds them anew, the pointer index only where few enough slots are left.
-/
namespace Perry.Runtime.Map

open Perry.Containers Perry.Words

variable {K V γ : Type}

/-- The key in a slot. -/
def keyAt (slots : List (Option (K × V))) (place : Nat) : Option K := slots[place]?.join.map (·.1)

/-- The index names the slots of the keys that have a code for it, and no others. -/
def Indexed (code : K → Option γ) (names : γ → Nat → Prop) (slots : List (Option (K × V))) : Prop :=
  ∀ g place,names g place ↔ ∃ key,code key = some g ∧ keyAt slots place = some key

namespace Keys

variable (keys : Keys K)

def number (key : K) : Option MapIndex.Key := match keys.kind key with
  | .number bits => some bits
  | _ => none

def string (key : K) : Option UInt64 := match keys.kind key with
  | .string hash => some hash
  | _ => none

def pointer (key : K) : Option K := if keys.kind key = .pointer then some key else none

variable {keys} {key : K}

theorem number_iff {bits : MapIndex.Key} : keys.number key = some bits ↔ keys.kind key = .number bits := by
  unfold number
  split <;> simp_all

theorem string_iff {hash : UInt64} : keys.string key = some hash ↔ keys.kind key = .string hash := by
  unfold string
  split <;> simp_all

theorem number_inj {other : K} {bits : MapIndex.Key} (here : keys.number key = some bits)
    (there : keys.number other = some bits) : key = other :=
  keys.exact (number_iff.mp here) (number_iff.mp there)

theorem pointer_inj {other g : K} (here : keys.pointer key = some g) (there : keys.pointer other = some g) : key = other := by
  unfold pointer at here there
  rw [Option.ite_none_right_eq_some] at here there
  exact Option.some.inj (here.2.trans there.2.symm)

theorem denseIntegerKey_small : ∀ n < 32,MapIndex.denseIntegerKey (Binary64.toBits (Binary64.ofNat n)) = some n := by
  decide +kernel

/-- Below 32 the odd keys are numbers and the others strings of two hashes, the rest are objects. -/
def mixedKind (key : Nat) : Kind :=
  if 32 ≤ key then .pointer
  else if key % 2 = 1 then .number (Binary64.toBits (Binary64.ofNat key)) else .string (UInt64.ofNat (key % 4))

theorem mixedKind_number {key : Nat} {bits : MapIndex.Key} (shape : mixedKind key = .number bits) :
    key % 2 = 1 ∧ MapIndex.denseIntegerKey bits = some key := by
  unfold mixedKind at shape
  split at shape
  · cases shape
  · rename_i small
    split at shape
    · rename_i odd
      cases shape
      exact ⟨odd,denseIntegerKey_small key (Nat.not_le.mp small)⟩
    · cases shape

def mixed : Keys Nat where
  kind := mixedKind
  plain key := key < 32 ∧ key % 2 = 1
  exact here there := Option.some.inj ((mixedKind_number here).2.symm.trans (mixedKind_number there).2)
  normal key zero := by
    obtain ⟨odd,even⟩ := mixedKind_number zero
    rw [show MapIndex.denseIntegerKey (Binary64.zero true) = some 0 by decide +kernel] at even
    cases even
    cases odd

end Keys

section keyAt

variable {slots : List (Option (K × V))} {slot : Option (K × V)} {key : K} {place index : Nat}

theorem keyAt_nil (place : Nat) : keyAt ([] : List (Option (K × V))) place = none := rfl

theorem keyAt_lt (held : keyAt slots place = some key) : place < slots.length := by
  by_contra outside
  rw [keyAt,List.getElem?_eq_none (Nat.not_lt.mp outside)] at held
  cases held

theorem keyAt_append (slots : List (Option (K × V))) (slot : Option (K × V)) (place : Nat) :
    keyAt (slots ++ [slot]) place = if place = slots.length then slot.map (·.1) else keyAt slots place := by
  unfold keyAt
  obtain less | same | more := Nat.lt_trichotomy place slots.length
  · rw [if_neg less.ne,List.getElem?_append_left less]
  · rw [if_pos same,same,List.getElem?_concat_length]
    rfl
  · rw [if_neg more.ne',List.getElem?_eq_none (by rw [List.length_append]; exact more),List.getElem?_eq_none more.le]

theorem keyAt_set_none (slots : List (Option (K × V))) (index place : Nat) :
    keyAt (slots.set index none) place = if place = index then none else keyAt slots place := by
  unfold keyAt
  rw [List.getElem?_set]
  by_cases same : index = place
  · rw [if_pos same,if_pos same.symm]
    split <;> rfl
  · rw [if_neg same,if_neg (Ne.symm same)]

theorem keyAt_modify (slots : List (Option (K × V))) (index place : Nat) (value : V) :
    keyAt (slots.modify index (·.map fun entry => (entry.1,value))) place = keyAt slots place := by
  unfold keyAt
  rw [List.getElem?_modify]
  cases slots[place]? with
  | none => rfl
  | some slot => cases slot <;> simp [apply_ite]

theorem keyAt_mem (held : keyAt slots place = some key) : ∃ value,(key,value) ∈ slots.reduceOption := by
  obtain ⟨⟨key',value⟩,here,rfl⟩ := Option.map_eq_some_iff.mp held
  exact ⟨value,List.reduceOption_mem_iff.mpr (List.mem_of_getElem? (Option.join_eq_some_iff.mp here))⟩

theorem keyAt_of_none (none_live : slots.reduceOption = []) (place : Nat) : keyAt slots place = none := by
  rw [Option.eq_none_iff_forall_ne_some]
  intro key held
  obtain ⟨value,member⟩ := keyAt_mem held
  rw [none_live] at member
  cases member

variable [DecidableEq K]

theorem holdsKey_iff : holdsKey key slot = true ↔ slot.map (·.1) = some key := by
  cases slot <;> simp [holdsKey]

/-- A scan finds the slot of the key. -/
theorem findIdx?_iff (distinct : Distinct slots) : slots.findIdx? (holdsKey key) = some place ↔ keyAt slots place = some key := by
  induction slots generalizing place with
  | nil => simp [keyAt]
  | cons slot rest step =>
    have tail : Distinct rest := by cases slot <;> simp_all
    rw [List.findIdx?_cons]
    by_cases holds : holdsKey key slot = true
    · rw [if_pos holds,Option.some_inj]
      rw [holdsKey_iff] at holds
      cases place with
      | zero => exact iff_of_true rfl holds
      | succ place =>
        refine iff_of_false (Nat.zero_ne_add_one place) fun held => ?_
        obtain ⟨entry,rfl,same⟩ := Option.map_eq_some_iff.mp holds
        obtain ⟨value,member⟩ := keyAt_mem (show keyAt rest place = some key from held)
        exact (Distinct.some_cons ..|>.mp distinct).1 (key,value) member same.symm
    · rw [if_neg holds,Option.map_eq_some_iff]
      rw [holdsKey_iff] at holds
      cases place with
      | zero =>
        refine iff_of_false ?_ holds
        rintro ⟨found,-,wrong⟩
        exact Nat.succ_ne_zero found wrong
      | succ place =>
        constructor
        · rintro ⟨found,here,same⟩
          rw [← Nat.succ.inj same]
          exact (step tail).mp here
        · intro held
          exact ⟨place,(step tail).mpr held,rfl⟩

theorem findIdx?_none (distinct : Distinct slots) :
    slots.findIdx? (holdsKey key) = none ↔ ∀ place,keyAt slots place ≠ some key := by
  rw [Option.eq_none_iff_forall_ne_some]
  exact forall_congr' fun place => not_congr (findIdx?_iff distinct)

theorem keyAt_inj (distinct : Distinct slots) (here : keyAt slots place = some key) (there : keyAt slots index = some key) :
    place = index := by
  rw [← findIdx?_iff distinct] at here there
  exact Option.some.inj (here.symm.trans there)

end keyAt

section Indexed

variable {code : K → Option γ} {names names' : γ → Nat → Prop} {slots slots' : List (Option (K × V))} {slot : Option (K × V)}

namespace Indexed

theorem nil (bare : ∀ g place,¬ names g place) : Indexed code names ([] : List (Option (K × V))) :=
  fun g place => iff_of_false (bare g place) fun ⟨_,_,held⟩ => nomatch held

theorem congr (indexed : Indexed code names slots) (same : ∀ place,keyAt slots' place = keyAt slots place) :
    Indexed code names slots' := by
  intro g place
  rw [same]
  exact indexed g place

theorem append (indexed : Indexed code names slots)
    (added : ∀ g place,names' g place ↔ names g place ∨ place = slots.length ∧ (slot.map (·.1)).bind code = some g) :
    Indexed code names' (slots ++ [slot]) := by
  intro g place
  rw [added,keyAt_append,indexed]
  by_cases last : place = slots.length
  · have free : keyAt slots place = none := by
      rw [keyAt,List.getElem?_eq_none last.ge]
      rfl
    rw [if_pos last,free,Option.bind_eq_some_iff]
    constructor
    · rintro (⟨_,_,wrong⟩ | ⟨-,key,held,coded⟩)
      · cases wrong
      · exact ⟨key,coded,held⟩
    · rintro ⟨key,coded,held⟩
      exact .inr ⟨last,key,held,coded⟩
  · rw [if_neg last]
    exact ⟨fun named => named.resolve_right fun wrong => last wrong.1,.inl⟩

theorem set_none {index : Nat} (indexed : Indexed code names slots)
    (dropped : ∀ g place,names' g place ↔ names g place ∧ place ≠ index) : Indexed code names' (slots.set index none) := by
  intro g place
  rw [dropped,keyAt_set_none,indexed]
  by_cases same : place = index
  · rw [if_pos same]
    exact iff_of_false (fun both => both.2 same) (fun ⟨_,_,wrong⟩ => nomatch wrong)
  · rw [if_neg same]
    exact and_iff_left same

/-- The code of the key in a slot is the only one that the slot is named by. -/
theorem code_at {g : γ} {place : Nat} {key : K} (indexed : Indexed code names slots) (held : keyAt slots place = some key)
    (named : names g place) : code key = some g := by
  obtain ⟨key',coded,held'⟩ := (indexed g place).mp named
  rw [Option.some.inj (held.symm.trans held')]
  exact coded

theorem append_uncoded (indexed : Indexed code names slots) (uncoded : (slot.map (·.1)).bind code = none) :
    Indexed code names (slots ++ [slot]) := by
  apply indexed.append
  intro g place
  rw [uncoded]
  simp

theorem set_uncoded {index : Nat} {key : K} (indexed : Indexed code names slots) (held : keyAt slots index = some key)
    (uncoded : code key = none) : Indexed code names (slots.set index none) := by
  apply indexed.set_none
  refine fun g place => ⟨fun named => ⟨named,?_⟩,And.left⟩
  rintro rfl
  have coded := indexed.code_at held named
  rw [uncoded] at coded
  cases coded

section finding

variable {find find' : γ → Option Nat} {key : K} {g : γ}

theorem append_fresh [DecidableEq γ] (indexed : Indexed code (fun g place => find g = some place) slots)
    (only : ∀ other,code other = some g → other = key) (coded : code key = some g)
    (fresh : ∀ place,keyAt slots place ≠ some key) (value : V)
    (found : ∀ other,find' other = if g = other then some slots.length else find other) :
    Indexed code (fun g place => find' g = some place) (slots ++ [some (key,value)]) := by
  apply indexed.append
  intro other place
  rw [found,Option.map_some,Option.bind_some,coded]
  by_cases same : g = other
  · subst same
    have missing : find g ≠ some place := by
      intro named
      obtain ⟨key',coded',held⟩ := (indexed g place).mp named
      exact fresh place (only key' coded' ▸ held)
    rw [if_pos rfl]
    simp [missing,eq_comm]
  · rw [if_neg same]
    simp [same]

theorem set_found [DecidableEq γ] {index : Nat} (indexed : Indexed code (fun g place => find g = some place) slots)
    (coded : code key = some g) (held : keyAt slots index = some key)
    (found : ∀ other,find' other = if g = other then none else find other) :
    Indexed code (fun g place => find' g = some place) (slots.set index none) := by
  apply indexed.set_none
  intro other place
  rw [found]
  by_cases same : g = other
  · subst same
    have here : find g = some index := (indexed g index).mpr ⟨key,coded,held⟩
    rw [if_pos rfl,here]
    simp [eq_comm]
  · rw [if_neg same]
    refine ⟨fun named => ⟨named,?_⟩,And.left⟩
    rintro rfl
    exact same (Option.some.inj (coded.symm.trans (indexed.code_at held named)))

end finding

end Indexed

end Indexed

/-- The slot's key is in no slot before it. -/
def Fresh (slots : List (Option (K × V))) (slot : Option (K × V)) : Prop :=
  ∀ key,slot.map (·.1) = some key → ∀ place,keyAt slots place ≠ some key

theorem fresh_of_distinct {front : List (Option (K × V))} {slot : Option (K × V)} (distinct : Distinct (front ++ [slot])) :
    Distinct front ∧ Fresh front slot := by
  unfold Distinct at distinct
  rw [List.reduceOption_append,List.map_append,List.nodup_append] at distinct
  refine ⟨distinct.1,fun key held place twice => ?_⟩
  obtain ⟨⟨_,value⟩,rfl,rfl⟩ := Option.map_eq_some_iff.mp held
  obtain ⟨other,member⟩ := keyAt_mem twice
  exact distinct.2.2 _ (List.mem_map_of_mem member) _ (by simp [List.reduceOption]) rfl

/-- What each slot adds to an index, all slots add. -/
theorem indexAll {ι : Type} {P : ι → List (Option (K × V)) → Prop} {f : ι → Option (K × V) × Nat → Option ι} {start : ι} {bound : Nat}
    (empty : P start []) (added : ∀ {index front slot},P index front → front.length < bound → Fresh front slot →
      ∃ index',f index (slot,front.length) = some index' ∧ P index' (front ++ [slot]))
    {slots : List (Option (K × V))} (distinct : Distinct slots) (small : slots.length ≤ bound) :
    ∃ index,slots.zipIdx.foldlM f start = some index ∧ P index slots := by
  induction slots using List.reverseRecOn with
  | nil => exact ⟨start,rfl,empty⟩
  | append_singleton front slot step =>
    obtain ⟨before,fresh⟩ := fresh_of_distinct distinct
    rw [List.length_append,List.length_singleton] at small
    obtain ⟨index,done,indexed⟩ := step before (by omega)
    obtain ⟨index',here,indexed'⟩ := added indexed (by omega) fresh
    refine ⟨index',?_,indexed'⟩
    rw [List.zipIdx_append,List.foldlM_append,done]
    simpa using here

section Kinds

variable {keys : Keys K} {slots : List (Option (K × V))} {slot : Option (K × V)} {index : MapIndex.NumericIndex}

/-- The bits that numbers have. -/
def Normal (bits : MapIndex.Key) : Prop := bits ≠ Binary64.zero true

theorem apart_normal : MapIndex.Apart Normal := by
  intro bits bits' integer normal normal' exact exact'
  obtain same | ⟨zero,zero'⟩ := MapIndex.denseIntegerKey_inj exact exact'
  · exact same
  · exact (zero.resolve_right normal).trans (zero'.resolve_right normal').symm

/-- The index stands for a plain map of the numbers' bits. -/
def NumbersIndexed (keys : Keys K) (index : MapIndex.NumericIndex) (slots : List (Option (K × V))) : Prop :=
  ∃ plain,MapIndex.Stands Normal index plain ∧ Indexed keys.number (fun bits place => getEntry bits plain = some place) slots

namespace NumbersIndexed

theorem new : NumbersIndexed keys MapIndex.new ([] : List (Option (K × V))) := ⟨[],.new,.nil fun _ _ => nofun⟩

theorem clear (indexed : NumbersIndexed keys index slots) :
    NumbersIndexed keys (MapIndex.clear index) ([] : List (Option (K × V))) := by
  obtain ⟨plain,stands,-⟩ := indexed
  exact ⟨[],stands.clear,.nil fun _ _ => nofun⟩

theorem congr {slots' : List (Option (K × V))} (indexed : NumbersIndexed keys index slots)
    (same : ∀ place,keyAt slots' place = keyAt slots place) : NumbersIndexed keys index slots' := by
  obtain ⟨plain,stands,named⟩ := indexed
  exact ⟨plain,stands,named.congr same⟩

theorem append (indexed : NumbersIndexed keys index slots) (narrow : slots.length < MapIndex.denseNumericEmpty)
    (fresh : Fresh slots slot) :
    ∃ after,indexNumber keys index (slot,slots.length) = some after ∧ NumbersIndexed keys after (slots ++ [slot]) := by
  obtain ⟨plain,stands,named⟩ := indexed
  have other (uncoded : (slot.map (·.1)).bind keys.number = none) : NumbersIndexed keys index (slots ++ [slot]) :=
    ⟨plain,stands,named.append_uncoded uncoded⟩
  unfold indexNumber
  cases slot with
  | none => exact ⟨index,rfl,other rfl⟩
  | some entry =>
    rw [Option.map_some]
    cases shape : keys.kind entry.1 with
    | number bits =>
      obtain ⟨index',inserted,stands'⟩ := stands.insert apart_normal (fun zero => keys.normal entry.1 (zero ▸ shape)) narrow.ne
      have coded := Keys.number_iff.mpr shape
      refine ⟨index',?_,_,stands',named.append_fresh (fun key coded' => Keys.number_inj coded' coded) coded (fresh entry.1 rfl) entry.2
        fun other => getEntry_assign bits other _ plain⟩
      dsimp only
      rw [inserted]
      rfl
    | string hash => exact ⟨index,rfl,other (by simp [Keys.number,shape])⟩
    | pointer => exact ⟨index,rfl,other (by simp [Keys.number,shape])⟩

theorem remove {key : K} {bits : MapIndex.Key} {place : Nat} (indexed : NumbersIndexed keys index slots)
    (shape : keys.kind key = .number bits) (held : keyAt slots place = some key) :
    ∃ removed,(MapIndex.remove index bits).toOption = some removed ∧ NumbersIndexed keys removed.2 (slots.set place none) := by
  obtain ⟨plain,stands,named⟩ := indexed
  obtain ⟨removed,index',done,stands'⟩ := stands.remove apart_normal fun zero => keys.normal key (zero ▸ shape)
  refine ⟨(removed,index'),by rw [done]; rfl,_,stands',?_⟩
  exact named.set_found (Keys.number_iff.mpr shape) held fun other => getEntry_filter bits other plain

theorem set_uncoded {key : K} {place : Nat} (indexed : NumbersIndexed keys index slots) (held : keyAt slots place = some key)
    (uncoded : keys.number key = none) : NumbersIndexed keys index (slots.set place none) := by
  obtain ⟨plain,stands,named⟩ := indexed
  exact ⟨plain,stands,named.set_uncoded held uncoded⟩

end NumbersIndexed

abbrev StringsIndexed (keys : Keys K) (index : UInt64 → List Nat) (slots : List (Option (K × V))) : Prop :=
  Indexed keys.string (fun hash place => place ∈ index hash) slots

theorem StringsIndexed.append {index : UInt64 → List Nat} (indexed : StringsIndexed keys index slots) :
    StringsIndexed keys (indexString keys index (slot,slots.length)) (slots ++ [slot]) := by
  unfold indexString
  cases slot with
  | none => exact indexed.append_uncoded rfl
  | some entry =>
    rw [Option.map_some]
    cases shape : keys.kind entry.1 with
    | number bits => exact indexed.append_uncoded (by simp [Keys.string,shape])
    | string hash =>
      apply Indexed.append indexed
      intro other place
      dsimp only
      rw [Option.map_some,Option.bind_some,Keys.string_iff.mpr shape,Option.some_inj,Function.update_apply]
      split
      · rename_i same
        rw [same,List.mem_append,List.mem_singleton]
        simp
      · rename_i differ
        simp [Ne.symm differ]
    | pointer => exact indexed.append_uncoded (by simp [Keys.string,shape])

theorem StringsIndexed.remove {index : UInt64 → List Nat} {key : K} {hash : UInt64} {place : Nat}
    (indexed : StringsIndexed keys index slots) (shape : keys.kind key = .string hash) (held : keyAt slots place = some key) :
    StringsIndexed keys (Function.update index hash ((index hash).filter (· ≠ place))) (slots.set place none) := by
  apply Indexed.set_none indexed
  intro other at_place
  rw [Function.update_apply]
  split
  · rename_i same
    rw [same,List.mem_filter,decide_eq_true_eq]
  · rename_i differ
    refine ⟨fun named => ⟨named,?_⟩,And.left⟩
    rintro rfl
    have coded := indexed.code_at held named
    rw [Keys.string_iff.mpr shape,Option.some_inj] at coded
    exact differ coded.symm

abbrev PointersIndexed (keys : Keys K) (index : K → Option Nat) (slots : List (Option (K × V))) : Prop :=
  Indexed keys.pointer (fun key place => index key = some place) slots

variable [DecidableEq K] {ptrIndex : K → Option Nat}

theorem PointersIndexed.append (indexed : PointersIndexed keys ptrIndex slots) (fresh : Fresh slots slot) :
    PointersIndexed keys (indexPointer keys ptrIndex (slot,slots.length)) (slots ++ [slot]) := by
  unfold indexPointer
  cases slot with
  | none => exact indexed.append_uncoded rfl
  | some entry =>
    dsimp only
    by_cases shape : keys.kind entry.1 = .pointer
    · have coded : keys.pointer entry.1 = some entry.1 := if_pos shape
      refine indexed.append_fresh (fun other coded' => Keys.pointer_inj coded' coded) coded (fresh entry.1 rfl) entry.2 fun other => ?_
      rw [if_pos shape,Function.update_apply]
      simp [eq_comm]
    · rw [if_neg shape]
      exact indexed.append_uncoded (by simp [Keys.pointer,shape])

theorem PointersIndexed.remove {key : K} {place : Nat} (indexed : PointersIndexed keys ptrIndex slots)
    (shape : keys.kind key = .pointer) (held : keyAt slots place = some key) :
    PointersIndexed keys (Function.update ptrIndex key none) (slots.set place none) := by
  refine indexed.set_found (if_pos shape : keys.pointer key = some key) held fun other => ?_
  rw [Function.update_apply]
  simp [eq_comm]

end Kinds

/-- The live count, the keys and the indexes of a map agree with its slots. -/
structure WellIndexed (keys : Keys K) (map : MapHeader K V) : Prop where
  sized : map.size = map.count
  distinct : Distinct map.slots
  room : map.used ≤ map.capacity ∧ 0 < map.capacity ∧ map.capacity < 2 ^ 32
  numbers : NumbersIndexed keys map.numericIndex map.slots
  strings : StringsIndexed keys map.stringIndex map.slots
  pointers : PointersIndexed keys map.ptrIndex map.slots

section Finding

variable {keys : Keys K} {map : MapHeader K V} {key : K} {place : Nat}

theorem NumbersIndexed.look_iff {index : MapIndex.NumericIndex} {slots : List (Option (K × V))} {bits : MapIndex.Key}
    (indexed : NumbersIndexed keys index slots) (shape : keys.kind key = .number bits) :
    MapIndex.look index bits = some place ↔ keyAt slots place = some key := by
  obtain ⟨plain,stands,named⟩ := indexed
  have coded := Keys.number_iff.mpr shape
  rw [stands.answers bits fun zero => keys.normal key (zero ▸ shape)]
  refine (named bits place).trans ⟨?_,fun held => ⟨key,coded,held⟩⟩
  rintro ⟨other,coded',held⟩
  rw [Keys.number_inj coded coded']
  exact held

variable [DecidableEq K]

theorem findKeyIndexCold_eq (well : WellIndexed keys map) :
    findKeyIndexCold keys map key = map.slots.findIdx? (holdsKey key) := by
  ext place
  rw [findIdx?_iff well.distinct]
  unfold findKeyIndexCold
  split
  · exact findIdx?_iff well.distinct
  · cases shape : keys.kind key with
    | number bits =>
      dsimp only
      rw [MapIndex.get_eq,Option.filter_eq_some_iff]
      refine (and_congr_left' (well.numbers.look_iff shape)).trans (and_iff_left_of_imp fun held => ?_)
      exact decide_eq_true (keyAt_lt held)
    | string hash =>
      have coded := Keys.string_iff.mpr shape
      dsimp only
      constructor
      · intro found
        have held := List.find?_some found
        rw [decide_eq_true_eq,holdsKey_iff] at held
        exact held.2
      · intro held
        have named : place ∈ map.stringIndex hash := (well.strings hash place).mpr ⟨key,coded,held⟩
        have holds : holdsKey key map.slots[place]?.join = true := holdsKey_iff.mpr held
        cases found : (map.stringIndex hash).find? fun place => place < map.used ∧ holdsKey key map.slots[place]?.join with
        | none =>
          rw [List.find?_eq_none] at found
          exact absurd (decide_eq_true ⟨keyAt_lt held,holds⟩) (found place named)
        | some other =>
          have held' := List.find?_some found
          rw [decide_eq_true_eq,holdsKey_iff] at held'
          rw [keyAt_inj well.distinct held'.2 held]
    | pointer =>
      have coded : keys.pointer key = some key := if_pos shape
      dsimp only
      rw [Option.filter_eq_some_iff]
      refine (and_congr_left' ((well.pointers key place).trans ⟨?_,fun held => ⟨key,coded,held⟩⟩)).trans
        (and_iff_left_of_imp fun held => decide_eq_true (keyAt_lt held))
      rintro ⟨other,coded',held⟩
      rw [Keys.pointer_inj coded coded']
      exact held

/-- What the hot path finds. -/
theorem findKeyIndexHot_eq (well : WellIndexed keys map) {found : Option Nat} (hot : findKeyIndexHot keys map key = some found) :
    found = map.slots.findIdx? (holdsKey key) := by
  unfold findKeyIndexHot at hot
  split at hot
  · cases hot
  split at hot
  · exact (Option.some.inj hot).symm
  split at hot
  · rename_i bits dense shape table
    split at hot
    · cases hot
    · rename_i integer coded
      split at hot
      · cases hot
      split at hot
      · cases hot
      · rename_i above beyond
        have inside : MapIndex.Inside map.numericIndex bits dense (integer - dense.base) :=
          ⟨table,by rw [coded,Nat.add_sub_cancel' (Nat.not_lt.mp above)],Nat.not_le.mp beyond⟩
        have looked (place : Nat) : MapIndex.look map.numericIndex bits = some place ↔ map.slots.findIdx? (holdsKey key) = some place :=
          (well.numbers.look_iff shape).trans (findIdx?_iff well.distinct).symm
        rw [MapIndex.look_inside inside] at looked
        dsimp only at hot
        split at hot
        · rename_i bare
          obtain rfl := Option.some.inj hot
          symm
          rw [Option.eq_none_iff_forall_ne_some]
          intro place here
          obtain ⟨read,filled⟩ := MapIndex.entryAt_eq_some.mp ((looked place).mpr here)
          have used := keyAt_lt ((findIdx?_iff well.distinct).mp here)
          rw [read] at bare
          exact bare.elim filled (Nat.not_le.mpr used)
        · rename_i filled
          obtain rfl := Option.some.inj hot
          exact ((looked _).mp (MapIndex.entryAt_eq_some.mpr ⟨rfl,fun empty => filled (.inl empty)⟩)).symm
  · cases hot

/-- A lookup finds what a scan of the slots would find. -/
theorem findKeyIndex_eq (well : WellIndexed keys map) (narrow : map.used ≤ 2 ^ 31) :
    findKeyIndex keys map key = map.slots.findIdx? (holdsKey key) := by
  have whole : (findKeyIndexHot keys map key).getD (findKeyIndexCold keys map key) = map.slots.findIdx? (holdsKey key) := by
    cases hot : findKeyIndexHot keys map key with
    | none => exact findKeyIndexCold_eq well
    | some found => exact findKeyIndexHot_eq well hot
  rw [findKeyIndex,whole]
  ext place
  rw [Option.filter_eq_some_iff]
  refine and_iff_left_of_imp fun found => decide_eq_true ?_
  exact (keyAt_lt ((findIdx?_iff well.distinct).mp found)).trans_le narrow

end Finding

end Perry.Runtime.Map
